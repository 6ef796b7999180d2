import CsfAssignments.Lib.Nest
import CsfAssignments.Parsort.Quiescence
import CsfAssignments.Parsort.Accesses
/-!
# The regions of the processes (`csf_assign04/parsort.c:180-256`)

`Quicksort` lets the work of one child take effect before the other's. Here nothing is ordered: any process
of the tree may go on at any time, any `fork` or `waitpid` may fail, and a signal from anywhere may end any
process, also in the middle of `partition` or `qsort`; an access outside the array ends the process that makes it.

| here | there |
| --- | --- |
| `System.Step`    | a step of `Processes`, or the end of a process by a signal |
| `System.Reached` | the runs of the tree, with the steps taken |
| `Split`          | a process has left the two sides of its pivot to its children |
| `Node`, `Inv`    | what holds of a process at its next call, and of all of them |

Regions nest (`Inv.nested`). So a process that works on its own region is noticed by those above it only
(`Touches`, `Kept`), and these want no more than that each side of their pivot keeps its elements.
-/

namespace CsfAssignments.Parsort

open Rearrange

/-! ## `partition` and `qsort` only move elements -/

/-- The loop moves elements of its region only, also when it ends in an abort. -/
theorem partitionLoop_error {pivotVal : Int64} {s p : Nat} {arr arr' : Mapping} {left right : UInt64}
    {why : Abort} (h : Scan pivotVal s p arr left right)
    (hrun : partitionLoop pivotVal arr left right = .error why arr') :
    Rearranged arr.elems arr'.elems s p := by
  fun_induction partitionLoop pivotVal arr left right with
  | case1 arr left right hle hx =>
    cases hrun
    exact .refl _ _ _
  | case2 arr left right hle x hx hxp ih => exact ih (h.extendLeft hle hx hxp) hrun
  | case3 arr left right hle x hx hxp hy =>
    cases hrun
    exact .refl _ _ _
  | case4 arr left right hle x hx hxp y hy hyp ih => exact ih (h.extendRight hle hy hyp) hrun
  | case5 arr left right hle x hx hxp y hy hyp hs =>
    cases hrun
    exact .refl _ _ _
  | case6 arr left right hle x hx hxp y hy hyp arr'' hs ih =>
    obtain ⟨hscan, hre⟩ := h.swap hle hs
    exact hre.trans (ih hscan hrun)
  | case7 arr left right hle => cases hrun

/-- In front of the loop, with the pivot stashed. -/
theorem Scan.initial {pivotVal : Int64} {arr : Mapping} {start end_ : UInt64} (hlt : start < end_)
    (hlen : end_ - start ≥ 2) (hend : end_.toNat ≤ arr.length) :
    Scan pivotVal start.toNat (end_.toNat - 1) arr start (start + (end_ - start - 2)) := by
  have hright := toNat_rightIndex hlt hlen
  have hlt' := UInt64.lt_iff_toNat_lt.1 hlt
  have hlen' := UInt64.le_iff_toNat_le.1 hlen
  rw [toNat_len (UInt64.le_of_lt hlt), show (2 : UInt64).toNat = 2 from rfl] at hlen'
  refine ⟨Nat.le_refl _, by omega, ?_, .inl ⟨by omega, by omega, ?_⟩⟩
  · intro z hz
    obtain ⟨i, h1, h2, -⟩ := mem_region.1 hz
    omega
  · rw [hright]
    intro z hz
    obtain ⟨i, h1, h2, -⟩ := mem_region.1 hz
    omega

theorem partition_error {arr arr' : Mapping} {start end_ : UInt64} {why : Abort}
    (hend : end_.toNat ≤ arr.length) (h : partition arr start end_ = .error why arr') :
    Rearranged arr.elems arr'.elems start.toNat end_.toNat := by
  unfold partition at h
  split at h
  case isFalse => cases h; exact .refl _ _ _
  rename_i hgt
  dsimp only at h
  split at h
  case isFalse => cases h; exact .refl _ _ _
  rename_i hlen
  have hlen' := UInt64.le_iff_toNat_le.1 hlen
  have hgt' := UInt64.lt_iff_toNat_lt.1 hgt
  rw [toNat_len (UInt64.le_of_lt hgt), show (2 : UInt64).toNat = 2 from rfl] at hlen'
  obtain ⟨pivotVal, arr₁, hget, hswap, hre, -⟩ := stash_spec hend (show start.toNat + 2 ≤ end_.toNat by omega)
  rw [hget, hswap] at h
  dsimp only at h
  have hscan : Scan pivotVal start.toNat (end_.toNat - 1) arr₁ start (start + (end_ - start - 2)) :=
    .initial hgt hlen (by unfold Mapping.length at *; rw [hre.length_eq]; exact hend)
  split at h
  · rename_i hloop
    cases h
    exact hre.trans ((partitionLoop_error hscan hloop).mono (Nat.le_refl _) (Nat.sub_le _ _))
  · rename_i left arr₂ hloop
    split at h
    · cases h
      exact hre.trans ((partitionLoop_ok hscan hloop).2.2.1.mono (Nat.le_refl _) (Nat.sub_le _ _))
    · cases h

/-- `arr'` is `arr` outside `[s, e)`. -/
structure Spares (arr arr' : Mapping) (s e : Nat) : Prop where
  length_eq : arr'.length = arr.length
  frame : ∀ i, i < s ∨ e ≤ i → arr'.elems[i]? = arr.elems[i]?

theorem Spares.of_rearranged {arr arr' : Mapping} {s e : Nat}
    (h : Rearranged arr.elems arr'.elems s e) : Spares arr arr' s e :=
  ⟨h.length_eq, h.frame⟩

/-- The element at `m` separates the two sides of `[s, e)`. -/
def Cut (arr : Mapping) (s e m : Nat) : Prop :=
  ∃ pivotVal, arr.elems[m]? = some pivotVal ∧ (∀ x ∈ region arr.elems s m, x < pivotVal) ∧
    ∀ x ∈ region arr.elems (m + 1) e, pivotVal ≤ x

/-- A cut survives what moves elements on one side of it. -/
theorem Cut.rearranged {arr arr' : Mapping} {s e m s' e' : Nat} (h : Cut arr s e m)
    (hre : Rearranged arr.elems arr'.elems s' e')
    (hside : s ≤ s' ∧ e' ≤ m ∨ m + 1 ≤ s' ∧ e' ≤ e) : Cut arr' s e m := by
  obtain ⟨pivotVal, hpivot, hlows, hhighs⟩ := h
  refine ⟨pivotVal, ?_, ?_, ?_⟩
  · rw [hre.frame m (by omega), hpivot]
  · rcases hside with hside | hside
    · exact (hre.mono hside.1 hside.2).forall_region hlows
    · rw [hre.region_eq (.inl (by omega))]
      exact hlows
  · rcases hside with hside | hside
    · rw [hre.region_eq (.inr (by omega))]
      exact hhighs
    · exact (hre.mono hside.1 hside.2).forall_region hhighs

/-- A cut does not see what is outside its region. -/
theorem Cut.congr {arr arr' : Mapping} {s e m : Nat} (h : Cut arr s e m) (hs : s ≤ m) (he : m < e)
    (heq : ∀ i, s ≤ i → i < e → arr'.elems[i]? = arr.elems[i]?) : Cut arr' s e m := by
  obtain ⟨pivotVal, hpivot, hlows, hhighs⟩ := h
  refine ⟨pivotVal, by rw [heq m hs he, hpivot], ?_, ?_⟩
  · rw [region_congr fun i h1 h2 => heq i h1 (by omega)]
    exact hlows
  · rw [region_congr fun i h1 h2 => heq i (by omega) h2]
    exact hhighs

namespace System

/-! ## The runs -/

/-- One step. A process that a signal ends at `entry` may have been in `partition` or `qsort`, and leaves
anything in its region. -/
inductive Step (q : Qsort) (parThreshold : UInt64) (s : System) : Action → System → Prop
  | next {a : Action} {s' : System} (hstep : s.step q parThreshold a = some s') : Step q parThreshold s a s'
  | killed {pid : Pid} {start end_ : UInt64} {pc : Pc} {sigterm : Bool} {arr' : Mapping}
      (hproc : s.procs pid = some ⟨start, end_, .running pc sigterm⟩)
      (harr : arr' = s.arr ∨ pc = .entry ∧ Spares s.arr arr' start.toNat end_.toNat) :
      Step q parThreshold s ⟨pid, .dies⟩
        (System.put { s with arr := arr' } pid ⟨start, end_, .ended (.abnormal .killed)⟩)

/-- What the steps taken lead to, from the root call. -/
inductive Reached (q : Qsort) (parThreshold : UInt64) (arr : Mapping) (start end_ : UInt64) :
    List Action → System → Prop
  | init : Reached q parThreshold arr start end_ [] (init arr start end_)
  | step {acts : List Action} {s : System} {a : Action} {s' : System}
      (hreached : Reached q parThreshold arr start end_ acts s) (hstep : Step q parThreshold s a s') :
      Reached q parThreshold arr start end_ (acts ++ [a]) s'

/-! ## What holds of a process -/

variable {s s' : System} {pid up : Pid} {side : Side} {start end_ m : UInt64} {proc : Proc}

theorem wait_eq_some {outcome : Outcome} :
    s.wait pid = some outcome ↔ ∃ start end_, s.procs pid = some ⟨start, end_, .ended outcome⟩ := by
  unfold wait
  constructor
  · intro h
    split at h
    · rename_i start end_ outcome' hproc
      cases h
      exact ⟨start, end_, hproc⟩
    · cases h
  · rintro ⟨start, end_, hproc⟩
    rw [hproc]

def Childless (s : System) (pid : Pid) : Prop := ∀ side, s.procs (side :: pid) = none

/-- A signal has ended a process at or below `pid`. -/
def Killed (s : System) (pid : Pid) : Prop :=
  ∃ low, pid <:+ low ∧ s.wait low = some (.abnormal .killed)

/-- The children of `pid` have the two sides of `m`, and the array is cut there. -/
structure Split (s : System) (pid : Pid) (start end_ m : UInt64) : Prop where
  start_le : start.toNat ≤ m.toNat
  lt_end : m.toNat < end_.toNat
  left : ∀ c, s.procs (.left :: pid) = some c → c.start = start ∧ c.end_ = m
  right : ∀ c, s.procs (.right :: pid) = some c → c.start = m + 1 ∧ c.end_ = end_
  cut : s.Killed pid ∨ Cut s.arr start.toNat end_.toNat m.toNat

def Free (s : System) (pid : Pid) (start end_ : UInt64) : Prop :=
  s.Childless pid ∨ ∃ m, s.Split pid start end_ m

/-- The region is in order, and the children have answered 1. -/
structure Done (s : System) (pid : Pid) (start end_ : UInt64) : Prop where
  children : ∀ side, s.procs (side :: pid) ≠ none → s.wait (side :: pid) = some (.returned 1)
  sorted : SortedOn (· ≤ ·) s.arr.elems start.toNat end_.toNat

/-- A process that answers `value`. -/
def Answer (s : System) (pid : Pid) (start end_ : UInt64) (value : Int32) : Prop :=
  s.Free pid start end_ ∧ (value = 0 ∨ value = 1 ∧ s.Done pid start end_)

/-- What a running process finds at its next call. -/
def At (s : System) (pid : Pid) (start end_ : UInt64) : Pc → Prop
  | .entry => s.Childless pid
  | .forkLeft m => s.Childless pid ∧ s.Split pid start end_ m
  | .forkRight m =>
    s.procs (.left :: pid) ≠ none ∧ s.procs (.right :: pid) = none ∧ s.Split pid start end_ m
  | .killLeft | .reapLeft =>
    s.procs (.left :: pid) ≠ none ∧ s.procs (.right :: pid) = none ∧ ∃ m, s.Split pid start end_ m
  | .waitLeft | .killRight | .reapRight =>
    s.procs (.left :: pid) ≠ none ∧ s.procs (.right :: pid) ≠ none ∧ ∃ m, s.Split pid start end_ m
  | .waitRight leftSuccess =>
    s.procs (.left :: pid) ≠ none ∧ s.procs (.right :: pid) ≠ none ∧ (∃ m, s.Split pid start end_ m) ∧
      (leftSuccess = 0 ∨ leftSuccess = 1 ∧ s.wait (.left :: pid) = some (.returned 1))
  | .leave value => s.Answer pid start end_ value

def Shape (s : System) (pid : Pid) (start end_ : UInt64) : Status → Prop
  | .running pc _ => s.At pid start end_ pc
  | .ended (.returned value) => s.Answer pid start end_ value
  | .ended (.abnormal _) => s.Free pid start end_

structure Node (s : System) (pid : Pid) (proc : Proc) : Prop where
  le : proc.start.toNat ≤ proc.end_.toNat
  fits : proc.end_.toNat ≤ s.arr.length
  parent : ∀ side up, pid = side :: up → s.procs up ≠ none
  shape : s.Shape pid proc.start proc.end_ proc.status

def Inv (s : System) : Prop := ∀ pid proc, s.procs pid = some proc → s.Node pid proc

theorem Shape.free {status : Status} (h : s.Shape pid start end_ status) : s.Free pid start end_ := by
  cases status with
  | ended outcome =>
    cases outcome with
    | returned value => exact h.1
    | abnormal why => exact h
  | running pc sigterm =>
    cases pc with
    | entry => exact .inl h
    | forkLeft m => exact .inl h.1
    | forkRight m => exact .inr ⟨m, h.2.2⟩
    | killLeft | reapLeft | waitLeft | killRight | reapRight => exact .inr h.2.2
    | waitRight leftSuccess => exact .inr h.2.2.1
    | leave value => exact h.1

/-- A child's parent, and the split between its children. -/
theorem Inv.split (h : Inv s) (hproc : s.procs (side :: up) = some proc) :
    ∃ parent m, s.procs up = some parent ∧ s.Split up parent.start parent.end_ m := by
  obtain ⟨parent, hparent⟩ := Option.ne_none_iff_exists'.1 ((h _ _ hproc).parent side up rfl)
  rcases (h _ _ hparent).shape.free with hnone | ⟨m, hsplit⟩
  · rw [hnone side] at hproc
    cases hproc
  · exact ⟨parent, m, hparent, hsplit⟩

/-! ## Regions nest -/

def owns (s : System) (pid : Pid) : Option (Set Nat) :=
  (s.procs pid).map fun proc => Set.Ico proc.start.toNat proc.end_.toNat

theorem owns_of_procs (h : s.procs pid = some proc) :
    s.owns pid = some (Set.Ico proc.start.toNat proc.end_.toNat) := by
  unfold owns
  rw [h]
  rfl

theorem Split.toNat_succ (h : s.Split pid start end_ m) : (m + 1).toNat = m.toNat + 1 := by
  have hlt := end_.toNat_lt
  have hm := h.lt_end
  rw [UInt64.toNat_add, UInt64.toNat_one, Nat.mod_eq_of_lt (by omega)]

/-- Where a child's region is. -/
theorem Split.of_child (h : s.Split pid start end_ m) {c : Proc} (hc : s.procs (side :: pid) = some c) :
    side = .left ∧ c.start.toNat = start.toNat ∧ c.end_.toNat = m.toNat ∨
      side = .right ∧ c.start.toNat = m.toNat + 1 ∧ c.end_.toNat = end_.toNat := by
  cases side with
  | left =>
    obtain ⟨h1, h2⟩ := h.left c hc
    exact .inl ⟨rfl, by rw [h1], by rw [h2]⟩
  | right =>
    obtain ⟨h1, h2⟩ := h.right c hc
    exact .inr ⟨rfl, by rw [h1, h.toNat_succ], by rw [h2]⟩

theorem Inv.nested (h : Inv s) : Nest.Nested s.owns := by
  refine ⟨?_, ?_⟩
  · intro side up S hS
    obtain ⟨c, hc, rfl⟩ := Option.map_eq_some_iff.1 hS
    obtain ⟨parent, m, hparent, hsplit⟩ := h.split hc
    have hm1 := hsplit.start_le
    have hm2 := hsplit.lt_end
    refine ⟨_, owns_of_procs hparent, ?_⟩
    rcases hsplit.of_child hc with ⟨-, h1, h2⟩ | ⟨-, h1, h2⟩
    · exact Set.Ico_subset_Ico (by omega) (by omega)
    · exact Set.Ico_subset_Ico (by omega) (by omega)
  · intro a b up S T hab hS hT
    obtain ⟨c, hc, rfl⟩ := Option.map_eq_some_iff.1 hS
    obtain ⟨d, hd, rfl⟩ := Option.map_eq_some_iff.1 hT
    obtain ⟨parent, m, hparent, hsplit⟩ := h.split hc
    rw [Set.disjoint_left]
    intro i hi hi'
    rw [Set.mem_Ico] at hi hi'
    rcases hsplit.of_child hc with ⟨rfl, h1, h2⟩ | ⟨rfl, h1, h2⟩ <;>
      rcases hsplit.of_child hd with ⟨rfl, h3, h4⟩ | ⟨rfl, h3, h4⟩
    · exact hab rfl
    · omega
    · omega
    · exact hab rfl

/-- Below a process whose children have answered 1, everything has. -/
theorem Inv.settled (h : Inv s) {low : Pid}
    (hdone : ∀ side, s.procs (side :: pid) ≠ none → s.wait (side :: pid) = some (.returned 1))
    (hlow : pid <:+ low) (hne : low ≠ pid) (hthere : s.procs low ≠ none) :
    s.wait low = some (.returned 1) := by
  induction low with
  | nil => exact absurd (List.suffix_nil.1 hlow).symm hne
  | cons side up ih =>
    obtain ⟨c, hc⟩ := Option.ne_none_iff_exists'.1 hthere
    rcases List.suffix_cons_iff.1 hlow with rfl | hup
    · exact absurd rfl hne
    · by_cases heq : up = pid
      · rw [heq] at hthere ⊢
        exact hdone side hthere
      · obtain ⟨st, en, hproc⟩ := wait_eq_some.1 (ih hup heq ((h _ _ hc).parent side up rfl))
        rcases (h _ _ hproc).shape.2 with hzero | ⟨-, hanswered⟩
        · cases hzero
        · exact hanswered.children side hthere

/-! ## What a step leaves alone -/

/-- What a process at `pid` with the region `[start, end_)` may do to the others. -/
structure Touches (s s' : System) (pid : Pid) (start end_ : UInt64) : Prop where
  own : ∃ status, s'.procs pid = some ⟨start, end_, status⟩
  old : ∀ other, other ≠ pid → s.procs other ≠ none → s'.procs other = s.procs other
  new : ∀ other, other ≠ pid → (∀ side, other ≠ side :: pid) → s.procs other = none →
    s'.procs other = none
  arr : s'.arr = s.arr ∨ s.Childless pid ∧ Spares s.arr s'.arr start.toNat end_.toNat ∧
    (Rearranged s.arr.elems s'.arr.elems start.toNat end_.toNat ∨
      s'.wait pid = some (.abnormal .killed))

/-- What matters to a process at `pid` is as it was. -/
structure Kept (s s' : System) (pid : Pid) (start end_ : UInt64) : Prop where
  none_iff : ∀ side, s'.procs (side :: pid) = none ↔ s.procs (side :: pid) = none
  region : ∀ side c', s'.procs (side :: pid) = some c' →
    ∃ c, s.procs (side :: pid) = some c ∧ c.start = c'.start ∧ c.end_ = c'.end_
  wait : ∀ side outcome, s.wait (side :: pid) = some outcome → s'.wait (side :: pid) = some outcome
  cut : ∀ m, s.Split pid start end_ m →
    s'.Killed pid ∨ Cut s'.arr start.toNat end_.toNat m.toNat
  sorted : s.Done pid start end_ → SortedOn (· ≤ ·) s'.arr.elems start.toNat end_.toNat

theorem Kept.childless (h : Kept s s' pid start end_) (hnone : s.Childless pid) : s'.Childless pid :=
  fun side => (h.none_iff side).2 (hnone side)

theorem Kept.split (h : Kept s s' pid start end_) (hsplit : s.Split pid start end_ m) :
    s'.Split pid start end_ m := by
  refine ⟨hsplit.start_le, hsplit.lt_end, ?_, ?_, h.cut m hsplit⟩
  · intro c' hc'
    obtain ⟨c, hc, h1, h2⟩ := h.region .left c' hc'
    rw [← h1, ← h2]
    exact hsplit.left c hc
  · intro c' hc'
    obtain ⟨c, hc, h1, h2⟩ := h.region .right c' hc'
    rw [← h1, ← h2]
    exact hsplit.right c hc

theorem Kept.free (h : Kept s s' pid start end_) (hfree : s.Free pid start end_) :
    s'.Free pid start end_ :=
  hfree.imp h.childless fun ⟨m, hsplit⟩ => ⟨m, h.split hsplit⟩

theorem Kept.answer {value : Int32} (h : Kept s s' pid start end_)
    (hanswer : s.Answer pid start end_ value) : s'.Answer pid start end_ value := by
  refine ⟨h.free hanswer.1, hanswer.2.imp_right fun ⟨hone, hdone⟩ => ⟨hone, ?_, h.sorted hdone⟩⟩
  intro side hside
  exact h.wait side _ (hdone.children side fun hnone => hside ((h.none_iff side).2 hnone))

theorem Kept.at {pc : Pc} (h : Kept s s' pid start end_) (hat : s.At pid start end_ pc) :
    s'.At pid start end_ pc := by
  have hthere : ∀ side, s.procs (side :: pid) ≠ none → s'.procs (side :: pid) ≠ none :=
    fun side hside hnone => hside ((h.none_iff side).1 hnone)
  cases pc with
  | entry => exact h.childless hat
  | forkLeft m => exact ⟨h.childless hat.1, h.split hat.2⟩
  | forkRight m => exact ⟨hthere _ hat.1, (h.none_iff _).2 hat.2.1, h.split hat.2.2⟩
  | killLeft | reapLeft =>
    exact ⟨hthere _ hat.1, (h.none_iff _).2 hat.2.1, hat.2.2.imp fun m => h.split⟩
  | waitLeft | killRight | reapRight =>
    exact ⟨hthere _ hat.1, hthere _ hat.2.1, hat.2.2.imp fun m => h.split⟩
  | waitRight leftSuccess =>
    exact ⟨hthere _ hat.1, hthere _ hat.2.1, hat.2.2.1.imp fun m => h.split,
      hat.2.2.2.imp_right fun hone => ⟨hone.1, h.wait _ _ hone.2⟩⟩
  | leave value => exact h.answer hat

theorem Kept.shape {status : Status} (h : Kept s s' pid start end_)
    (hshape : s.Shape pid start end_ status) : s'.Shape pid start end_ status := by
  cases status with
  | running pc sigterm => exact h.at hshape
  | ended outcome =>
    cases outcome with
    | returned value => exact h.answer hshape
    | abnormal why => exact h.free hshape

section
variable {pc : Pc} {sigterm : Bool}

theorem not_wait_of_running {outcome : Outcome}
    (hproc : s.procs pid = some ⟨start, end_, .running pc sigterm⟩) : s.wait pid ≠ some outcome := by
  intro h
  obtain ⟨st, en, hended⟩ := wait_eq_some.1 h
  rw [hproc] at hended
  cases hended

theorem Touches.wait {other : Pid} {outcome : Outcome} (ht : Touches s s' pid start end_)
    (hproc : s.procs pid = some ⟨start, end_, .running pc sigterm⟩) (h : s.wait other = some outcome) :
    s'.wait other = some outcome := by
  have hne : other ≠ pid := by
    rintro rfl
    exact not_wait_of_running hproc h
  obtain ⟨st, en, hended⟩ := wait_eq_some.1 h
  refine wait_eq_some.2 ⟨st, en, ?_⟩
  rw [ht.old other hne (by rw [hended]; exact Option.some_ne_none _), hended]

/-- Nothing is below a childless process. -/
theorem Inv.not_below (h : Inv s) {other : Pid} {c : Proc} (hnone : s.Childless pid)
    (hother : s.procs other = some c) (hne : other ≠ pid) : ¬pid <:+ other := by
  intro hlow
  obtain ⟨side, hside⟩ := Nest.exists_child hlow hne
  obtain ⟨T, hT, -⟩ := h.nested.sub hside (owns_of_procs hother)
  obtain ⟨d, hd, -⟩ := Option.map_eq_some_iff.1 hT
  rw [hnone side] at hd
  cases hd

/-- A process that is not above a childless one has nothing in common with it. -/
theorem Inv.apart (h : Inv s) {other : Pid} {c : Proc}
    (hproc : s.procs pid = some ⟨start, end_, .running pc sigterm⟩) (hnone : s.Childless pid)
    (hother : s.procs other = some c) (hne : other ≠ pid) (habove : ¬other <:+ pid) :
    ∀ i, c.start.toNat ≤ i → i < c.end_.toNat → i < start.toNat ∨ end_.toNat ≤ i := by
  have hdisjoint := h.nested.disjoint habove (h.not_below hnone hother hne) (owns_of_procs hother) (owns_of_procs hproc)
  intro i h1 h2
  by_contra hin
  exact Set.disjoint_left.1 hdisjoint (Set.mem_Ico.2 ⟨h1, h2⟩) (Set.mem_Ico.2 (by dsimp only; omega))

/-- The processes above see a step only in the side of their cut that it is below. -/
theorem Inv.kept (h : Inv s) (hproc : s.procs pid = some ⟨start, end_, .running pc sigterm⟩)
    (ht : Touches s s' pid start end_) {other : Pid} {c : Proc} (hother : s.procs other = some c)
    (hne : other ≠ pid) : Kept s s' other c.start c.end_ := by
  have hchild : ∀ side, side :: other ≠ pid → ∀ up, side :: other ≠ up :: pid := by
    intro side _ up heq
    exact hne (List.cons.inj heq).2
  obtain ⟨status, hown⟩ := ht.own
  refine ⟨?_, ?_, fun side outcome hwait => ht.wait hproc hwait, ?_, ?_⟩
  · intro side
    by_cases hpid : side :: other = pid
    · rw [hpid, hproc, hown]
      simp
    · refine ⟨fun hnone' => ?_, fun hnone => ht.new _ hpid (hchild side hpid) hnone⟩
      by_contra hthere
      rw [ht.old _ hpid hthere] at hnone'
      exact hthere hnone'
  · intro side c' hc'
    by_cases hpid : side :: other = pid
    · rw [hpid] at hc' ⊢
      rw [hown] at hc'
      cases hc'
      exact ⟨_, hproc, rfl, rfl⟩
    · by_cases hthere : s.procs (side :: other) = none
      · rw [ht.new _ hpid (hchild side hpid) hthere] at hc'
        cases hc'
      · rw [ht.old _ hpid hthere] at hc'
        exact ⟨c', hc', rfl, rfl⟩
  · intro m hsplit
    rcases hsplit.cut with ⟨low, hlow, hwait⟩ | hcut
    · exact .inl ⟨low, hlow, ht.wait hproc hwait⟩
    rcases ht.arr with heq | ⟨hnone, hspares, hhow⟩
    · rw [heq]
      exact .inr hcut
    by_cases habove : other <:+ pid
    · rcases hhow with hre | hkilled
      · obtain ⟨side, hside⟩ := Nest.exists_child habove (Ne.symm hne)
        obtain ⟨T, hT, hsub⟩ := h.nested.sub hside (owns_of_procs hproc)
        obtain ⟨d, hd, rfl⟩ := Option.map_eq_some_iff.1 hT
        have hre' : Rearranged s.arr.elems s'.arr.elems d.start.toNat d.end_.toNat :=
          hre.of_subset fun i h1 h2 => hsub (Set.mem_Ico.2 ⟨h1, h2⟩)
        have hm := hsplit.lt_end
        refine .inr (hcut.rearranged hre' ?_)
        rcases hsplit.of_child hd with ⟨-, h1, h2⟩ | ⟨-, h1, h2⟩
        · omega
        · omega
      · exact .inl ⟨pid, habove, hkilled⟩
    · have hapart := h.apart hproc hnone hother hne habove
      exact .inr (hcut.congr hsplit.start_le hsplit.lt_end
        fun i h1 h2 => hspares.frame i (hapart i h1 h2))
  · intro hdone
    rcases ht.arr with heq | ⟨hnone, hspares, -⟩
    · rw [heq]
      exact hdone.sorted
    by_cases habove : other <:+ pid
    · have hwait := h.settled hdone.children habove (Ne.symm hne)
        (by rw [hproc]; exact Option.some_ne_none _)
      exact absurd hwait (not_wait_of_running hproc)
    · have hapart := h.apart hproc hnone hother hne habove
      unfold SortedOn
      rw [region_congr fun i h1 h2 => hspares.frame i (hapart i h1 h2)]
      exact hdone.sorted

theorem Touches.length_eq (ht : Touches s s' pid start end_) : s'.arr.length = s.arr.length := by
  rcases ht.arr with heq | ⟨-, hspares, -⟩
  · rw [heq]
  · exact hspares.length_eq

theorem Touches.there {other : Pid} (ht : Touches s s' pid start end_) (h : s.procs other ≠ none) :
    s'.procs other ≠ none := by
  by_cases hpid : other = pid
  · obtain ⟨status, hown⟩ := ht.own
    rw [hpid, hown]
    exact Option.some_ne_none _
  · rw [ht.old other hpid h]
    exact h

/-- **Step**, for the invariant: what is left to show is about the process and the child it may have created. -/
theorem Inv.of_touches (h : Inv s) (hproc : s.procs pid = some ⟨start, end_, .running pc sigterm⟩)
    (ht : Touches s s' pid start end_)
    (hshape : ∀ status, s'.procs pid = some ⟨start, end_, status⟩ → s'.Shape pid start end_ status)
    (hnew : ∀ side c, s.procs (side :: pid) = none → s'.procs (side :: pid) = some c →
      s'.Node (side :: pid) c) : Inv s' := by
  intro other proc hother
  by_cases hpid : other = pid
  · obtain ⟨status, hown⟩ := ht.own
    rw [hpid] at hother ⊢
    rw [hown] at hother
    cases hother
    have hnode := h _ _ hproc
    refine ⟨hnode.le, ht.length_eq ▸ hnode.fits, ?_, hshape status hown⟩
    intro side up hup
    exact ht.there (hnode.parent side up hup)
  · by_cases hthere : s.procs other = none
    · by_cases hchild : ∃ side, other = side :: pid
      · obtain ⟨side, rfl⟩ := hchild
        exact hnew side proc hthere hother
      · rw [ht.new other hpid (fun side heq => hchild ⟨side, heq⟩) hthere] at hother
        cases hother
    · have hold := ht.old other hpid hthere
      rw [hold] at hother
      have hnode := h _ _ hother
      refine ⟨hnode.le, ht.length_eq ▸ hnode.fits, ?_, (h.kept hproc ht hother hpid).shape hnode.shape⟩
      intro side up hup
      exact ht.there (hnode.parent side up hup)

theorem touches_put {status : Status} {arr' : Mapping}
    (harr : arr' = s.arr ∨ s.Childless pid ∧ Spares s.arr arr' start.toNat end_.toNat ∧
      (Rearranged s.arr.elems arr'.elems start.toNat end_.toNat ∨
        status = .ended (.abnormal .killed))) :
    Touches s (System.put { s with arr := arr' } pid ⟨start, end_, status⟩) pid start end_ := by
  refine ⟨⟨status, ?_⟩, ?_, ?_, harr.imp_right fun ⟨hnone, hspares, hhow⟩ =>
    ⟨hnone, hspares, hhow.imp_right ?_⟩⟩
  · rw [procs_put, if_pos rfl]
  · intro other hne _
    rw [procs_put, if_neg hne]
  · intro other hne _ hnone
    rw [procs_put, if_neg hne]
    exact hnone
  · intro hstatus
    exact wait_eq_some.2 ⟨start, end_, by rw [procs_put, if_pos rfl, hstatus]⟩

theorem childless_put {p : Proc} {arr' : Mapping} (h : s.Childless pid) :
    (System.put { s with arr := arr' } pid p).Childless pid := by
  intro side
  rw [procs_put, if_neg (List.cons_ne_self side pid)]
  exact h side

/-- A process that moves on finds what it left. -/
theorem Kept.self {status : Status} (hproc : s.procs pid = some ⟨start, end_, .running pc sigterm⟩) :
    Kept s (s.put pid ⟨start, end_, status⟩) pid start end_ := by
  have hsame : ∀ side, (s.put pid ⟨start, end_, status⟩).procs (side :: pid) = s.procs (side :: pid) :=
    fun side => by rw [procs_put, if_neg (List.cons_ne_self side pid)]
  have ht : Touches s (s.put pid ⟨start, end_, status⟩) pid start end_ := touches_put (.inl rfl)
  refine ⟨fun side => by rw [hsame], fun side c' hc' => ⟨c', hsame side ▸ hc', rfl, rfl⟩,
    fun side outcome hwait => ht.wait hproc hwait, ?_, fun hdone => hdone.sorted⟩
  intro m hsplit
  exact hsplit.cut.imp_left fun ⟨low, hlow, hwait⟩ => ⟨low, hlow, ht.wait hproc hwait⟩

/-- A process moves on, or ends, with the array as it is. -/
theorem Inv.goto (status : Status) (h : Inv s)
    (hproc : s.procs pid = some ⟨start, end_, .running pc sigterm⟩)
    (hshape : s.Shape pid start end_ status) : Inv (s.put pid ⟨start, end_, status⟩) := by
  refine h.of_touches hproc (touches_put (.inl rfl)) ?_ ?_
  · intro status' hown
    rw [procs_put, if_pos rfl] at hown
    cases hown
    exact (Kept.self hproc).shape hshape
  · intro side c hnone hc
    rw [procs_put, if_neg (List.cons_ne_self side pid), hnone] at hc
    cases hc

/-- A process without children works on its region. -/
theorem Inv.work {status : Status} {arr' : Mapping} (h : Inv s)
    (hproc : s.procs pid = some ⟨start, end_, .running pc sigterm⟩) (hnone : s.Childless pid)
    (hspares : Spares s.arr arr' start.toNat end_.toNat)
    (hhow : Rearranged s.arr.elems arr'.elems start.toNat end_.toNat ∨ status = .ended (.abnormal .killed))
    (hshape : (System.put { s with arr := arr' } pid ⟨start, end_, status⟩).Shape pid start end_ status) :
    Inv (System.put { s with arr := arr' } pid ⟨start, end_, status⟩) := by
  refine h.of_touches hproc (touches_put (.inr ⟨hnone, hspares, hhow⟩)) ?_ ?_
  · intro status' hown
    rw [procs_put, if_pos rfl] at hown
    cases hown
    exact hshape
  · intro side c hnone' hc
    rw [procs_put, if_neg (List.cons_ne_self side pid)] at hc
    rw [show s.procs (side :: pid) = none from hnone'] at hc
    cases hc

theorem Inv.kill (h : Inv s) (pid : Pid) : Inv (s.kill pid) := by
  unfold System.kill
  split
  · rename_i start end_ pc sigterm hproc
    exact h.goto (.running pc true) hproc ((h _ _ hproc).shape : s.At pid start end_ pc)
  · exact h

/-- A process forks for one side of its split. -/
theorem Inv.spawn (side : Side) (pc' : Pc) (child : Proc) (h : Inv s)
    (hproc : s.procs pid = some ⟨start, end_, .running pc sigterm⟩)
    (hsplit : s.Split pid start end_ m) (hnone : s.procs (side :: pid) = none) (harr : s'.arr = s.arr)
    (hprocs : ∀ other, s'.procs other = if other = side :: pid then some child
      else if other = pid then some ⟨start, end_, .running pc' sigterm⟩ else s.procs other)
    (hchild : child.status = .running .entry false)
    (hside : side = .left ∧ child.start = start ∧ child.end_ = m ∨
      side = .right ∧ child.start = m + 1 ∧ child.end_ = end_)
    (hat : s'.Split pid start end_ m → s'.At pid start end_ pc') : Inv s' := by
  have hself : side :: pid ≠ pid := List.cons_ne_self side pid
  have hown : s'.procs pid = some ⟨start, end_, .running pc' sigterm⟩ := by
    rw [hprocs, if_neg (Ne.symm hself), if_pos rfl]
  have hnew : s'.procs (side :: pid) = some child := by rw [hprocs, if_pos rfl]
  have hsame : ∀ other, other ≠ side :: pid → other ≠ pid → s'.procs other = s.procs other := by
    intro other h1 h2
    rw [hprocs, if_neg h1, if_neg h2]
  have ht : Touches s s' pid start end_ := by
    refine ⟨⟨_, hown⟩, ?_, ?_, .inl harr⟩
    · intro other hne hthere
      refine hsame other ?_ hne
      rintro rfl
      exact hthere hnone
    · intro other hne hchild hnone'
      rw [hsame other (hchild side) hne]
      exact hnone'
  have hold : ∀ other c, other ≠ side → s'.procs (other :: pid) = some c →
      s.procs (other :: pid) = some c := by
    intro other c hother hc
    rw [hsame _ (fun heq => hother (List.cons.inj heq).1) (List.cons_ne_self other pid)] at hc
    exact hc
  have hsplit' : s'.Split pid start end_ m := by
    refine ⟨hsplit.start_le, hsplit.lt_end, ?_, ?_, ?_⟩
    · intro c hc
      rcases hside with ⟨rfl, h1, h2⟩ | ⟨rfl, -, -⟩
      · rw [hnew] at hc
        cases hc
        exact ⟨h1, h2⟩
      · exact hsplit.left c (hold .left c (by decide) hc)
    · intro c hc
      rcases hside with ⟨rfl, -, -⟩ | ⟨rfl, h1, h2⟩
      · exact hsplit.right c (hold .right c (by decide) hc)
      · rw [hnew] at hc
        cases hc
        exact ⟨h1, h2⟩
    · rw [harr]
      exact hsplit.cut.imp_left fun ⟨low, hlow, hwait⟩ => ⟨low, hlow, ht.wait hproc hwait⟩
  have hnode := h _ _ hproc
  have hfits : end_.toNat ≤ s.arr.length := hnode.fits
  have hm1 := hsplit.start_le
  have hm2 := hsplit.lt_end
  have hm3 := hsplit.toNat_succ
  refine h.of_touches hproc ht ?_ ?_
  · intro status hstatus
    rw [hown] at hstatus
    cases hstatus
    exact hat hsplit'
  · intro other c hnone' hc
    by_cases hother : other = side
    · rw [hother] at hc ⊢
      rw [hnew] at hc
      cases hc
      refine ⟨?_, ?_, ?_, ?_⟩
      · rcases hside with ⟨-, h1, h2⟩ | ⟨-, h1, h2⟩ <;> rw [h1, h2] <;> omega
      · rw [harr]
        rcases hside with ⟨-, h1, h2⟩ | ⟨-, h1, h2⟩ <;> rw [h2] <;> omega
      · intro side' up heq
        obtain ⟨-, rfl⟩ := List.cons.inj heq
        rw [hown]
        exact Option.some_ne_none _
      · rw [hchild]
        intro low
        have hlow : s.procs (low :: side :: pid) = none := by
          by_contra hthere
          obtain ⟨d, hd⟩ := Option.ne_none_iff_exists'.1 hthere
          exact (h _ _ hd).parent low _ rfl hnone
        have hne : low :: side :: pid ≠ pid := fun heq => by
          have hlength := congrArg List.length heq
          rw [List.length_cons, List.length_cons] at hlength
          omega
        rw [hsame _ (List.cons_ne_self low _) hne, hlow]
    · rw [hold other c hother hc] at hnone'
      cases hnone'

/-- A child's `success` field is set when it has answered 1. -/
theorem Inv.childSuccess {outcome : Outcome} (h : Inv s) (hwait : s.wait pid = some outcome) :
    outcome.childSuccess = 0 ∨ outcome.childSuccess = 1 ∧ outcome = .returned 1 := by
  obtain ⟨st, en, hproc⟩ := wait_eq_some.1 hwait
  cases outcome with
  | abnormal why => exact .inl rfl
  | returned value =>
    rcases (h _ _ hproc).shape.2 with rfl | ⟨rfl, -⟩
    · exact .inl rfl
    · exact .inr ⟨rfl, rfl⟩

theorem Inv.done {pid : Pid} (h : Inv s) (hwait : s.wait pid = some (.returned 1)) :
    ∃ c, s.procs pid = some c ∧ s.Done pid c.start c.end_ := by
  obtain ⟨st, en, hproc⟩ := wait_eq_some.1 hwait
  rcases (h _ _ hproc).shape.2 with hzero | ⟨-, hdone⟩
  · cases hzero
  · exact ⟨_, hproc, hdone⟩

/-- **Join**: when both children have answered 1, nothing below was killed, and the two sides are in order. -/
theorem Inv.join (h : Inv s) (hproc : s.procs pid = some ⟨start, end_, .running pc sigterm⟩)
    (hsplit : s.Split pid start end_ m) (hleft : s.wait (.left :: pid) = some (.returned 1))
    (hright : s.wait (.right :: pid) = some (.returned 1)) : s.Done pid start end_ := by
  have hchildren : ∀ side, s.procs (side :: pid) ≠ none → s.wait (side :: pid) = some (.returned 1) := by
    intro side _
    cases side with
    | left => exact hleft
    | right => exact hright
  have hcut : Cut s.arr start.toNat end_.toNat m.toNat := by
    refine hsplit.cut.resolve_left ?_
    rintro ⟨low, hlow, hkilled⟩
    have hne : low ≠ pid := by
      rintro rfl
      exact not_wait_of_running hproc hkilled
    obtain ⟨st, en, hended⟩ := wait_eq_some.1 hkilled
    have hone := h.settled hchildren hlow hne (by rw [hended]; exact Option.some_ne_none _)
    rw [hkilled] at hone
    cases hone
  obtain ⟨pivotVal, hpivot, hlows, hhighs⟩ := hcut
  obtain ⟨l, hl, hldone⟩ := h.done hleft
  obtain ⟨r, hr, hrdone⟩ := h.done hright
  have hlsorted := hldone.sorted
  have hrsorted := hrdone.sorted
  rw [(hsplit.left l hl).1, (hsplit.left l hl).2] at hlsorted
  rw [(hsplit.right r hr).1, (hsplit.right r hr).2, hsplit.toNat_succ] at hrsorted
  exact ⟨hchildren, .join hsplit.start_le hsplit.lt_end hpivot hlsorted hrsorted
    (fun x hx => Int64.le_of_lt (hlows x hx)) hhighs⟩

/-- **Step** of one process, at its next call. -/
theorem Inv.next {q : Qsort} (hq : q.Lawful) {parThreshold : UInt64} {ok : Bool} (h : Inv s)
    (hproc : s.procs pid = some ⟨start, end_, .running pc sigterm⟩)
    (hnext : s.next q parThreshold pid start end_ sigterm pc ok = some s') : Inv s' := by
  have hnode := h _ _ hproc
  have hat : s.At pid start end_ pc := hnode.shape
  have hle : start.toNat ≤ end_.toNat := hnode.le
  have hfits : end_.toNat ≤ s.arr.length := hnode.fits
  unfold System.next at hnext
  cases pc with
  | entry =>
    cases ok with
    | false => cases hnext
    | true =>
      have hnone : s.Childless pid := hat
      cases hnext
      dsimp only
      rw [if_pos (UInt64.le_iff_toNat_le.2 hle)]
      split
      · rename_i hlen
        have hlen' := UInt64.lt_iff_toNat_lt.1 hlen
        rw [toNat_len (UInt64.le_iff_toNat_le.2 hle), show (2 : UInt64).toNat = 2 from rfl] at hlen'
        refine h.goto (.running (.leave 1) sigterm) hproc ⟨.inl hnone, .inr ⟨rfl, ?_, .short (by omega)⟩⟩
        intro side hside
        exact absurd (hnone side) hside
      · split
        · have hsorts := qsort_sorts hq hle hfits
          refine h.work hproc hnone (.of_rearranged hsorts.rearranged) (.inl hsorts.rearranged)
            ⟨.inl (childless_put hnone), .inr ⟨rfl, ?_, hsorts.sorted⟩⟩
          intro side hside
          exact absurd (childless_put hnone side) hside
        · split
          · rename_i why arr' hpart
            have hre := partition_error hfits hpart
            exact h.work hproc hnone (.of_rearranged hre) (.inl hre) (.inl (childless_put hnone))
          · rename_i mid arr' hpart
            have hre := partition_ok hpart
            refine h.work hproc hnone (.of_rearranged hre.rearranged) (.inl hre.rearranged)
              ⟨childless_put hnone, hre.start, hre.stop, ?_, ?_, .inr ?_⟩
            · intro c hc
              rw [childless_put hnone .left] at hc
              cases hc
            · intro c hc
              rw [childless_put hnone .right] at hc
              cases hc
            · obtain ⟨pivotVal, -, hcut⟩ := hre.pivot
              exact ⟨pivotVal, hcut⟩
  | forkLeft mid =>
    cases ok with
    | false =>
      cases hnext
      exact h.goto (.running (.leave 0) sigterm) hproc ⟨.inl hat.1, .inl rfl⟩
    | true =>
      cases hnext
      refine h.spawn .left (.forkRight mid) ⟨start, mid, _⟩ hproc hat.2 (hat.1 .left) rfl ?_ rfl (.inl ⟨rfl, rfl, rfl⟩) ?_
      · intro other
        rw [procs_put, procs_put]
      · intro hsplit
        refine ⟨?_, ?_, hsplit⟩
        · rw [procs_put, if_pos rfl]
          exact Option.some_ne_none _
        · rw [procs_put, if_neg (by simp), procs_put, if_neg (List.cons_ne_self _ _), hat.1 .right]
  | forkRight mid =>
    obtain ⟨hleft, hright, hsplit⟩ := hat
    cases ok with
    | false =>
      cases hnext
      exact h.goto (.running .killLeft sigterm) hproc ⟨hleft, hright, mid, hsplit⟩
    | true =>
      cases hnext
      refine h.spawn .right .waitLeft ⟨mid + 1, end_, _⟩ hproc hsplit hright rfl ?_ rfl (.inr ⟨rfl, rfl, rfl⟩) ?_
      · intro other
        rw [procs_put, procs_put]
      · intro hsplit'
        refine ⟨?_, ?_, mid, hsplit'⟩
        · rw [procs_put, if_neg (by simp), procs_put, if_neg (List.cons_ne_self _ _)]
          exact hleft
        · rw [procs_put, if_pos rfl]
          exact Option.some_ne_none _
  | killLeft =>
    cases ok with
    | false => cases hnext
    | true =>
      cases hnext
      exact Inv.kill (h.goto (.running .reapLeft sigterm) hproc hat) _
  | killRight =>
    cases ok with
    | false => cases hnext
    | true =>
      cases hnext
      exact Inv.kill (h.goto (.running .reapRight sigterm) hproc hat) _
  | reapLeft | reapRight =>
    have hleave : s.Answer pid start end_ 0 := ⟨.inr hat.2.2, .inl rfl⟩
    cases ok with
    | false =>
      cases hnext
      exact h.goto (.running (.leave 0) sigterm) hproc hleave
    | true =>
      obtain ⟨outcome, -, rfl⟩ := Option.map_eq_some_iff.1 hnext
      exact h.goto (.running (.leave 0) sigterm) hproc hleave
  | waitLeft =>
    cases ok with
    | false =>
      cases hnext
      exact h.goto (.running .killRight sigterm) hproc hat
    | true =>
      obtain ⟨left, hwait, rfl⟩ := Option.map_eq_some_iff.1 hnext
      refine h.goto (.running (.waitRight left.childSuccess) sigterm) hproc ⟨hat.1, hat.2.1, hat.2.2, ?_⟩
      exact (h.childSuccess hwait).imp_right fun ⟨hone, heq⟩ => ⟨hone, heq ▸ hwait⟩
  | waitRight leftSuccess =>
    obtain ⟨-, -, ⟨mid, hsplit⟩, hleft⟩ := hat
    cases ok with
    | false =>
      cases hnext
      refine h.goto (.running (.leave (logicalAnd leftSuccess 0)) sigterm) hproc
        ⟨.inr ⟨mid, hsplit⟩, .inl ?_⟩
      simp [logicalAnd]
    | true =>
      obtain ⟨right, hwait, rfl⟩ := Option.map_eq_some_iff.1 hnext
      refine h.goto (.running (.leave (logicalAnd leftSuccess right.childSuccess)) sigterm) hproc
        ⟨.inr ⟨mid, hsplit⟩, ?_⟩
      rcases hleft with hzero | ⟨hone, hleft⟩
      · exact .inl (by simp [logicalAnd, hzero])
      rcases h.childSuccess hwait with hzero | ⟨hone', heq⟩
      · exact .inl (by simp [logicalAnd, hzero])
      · exact .inr ⟨by simp [logicalAnd, hone, hone'], h.join hproc hsplit hleft (heq ▸ hwait)⟩
  | leave value =>
    cases ok with
    | false => cases hnext
    | true =>
      cases hnext
      exact h.goto (.ended (.returned value)) hproc hat

end

end System

end CsfAssignments.Parsort
