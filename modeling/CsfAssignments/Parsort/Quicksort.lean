import CsfAssignments.Parsort.Partition
/-!
# The process tree of `quicksort` (`csf_assign04/parsort.c:180-256`)

Every call of `quicksort` that gets past its base cases forks two processes that sort its halves in
the same mapping, and takes their exit statuses for an answer: 1 is success.

| here | there |
| --- | --- |
| `Choices`, `Env` | what the system decides at a process of the tree: a node is the path to it |
| `Outcome`        | a process that ends normally hands `exit` the value of `quicksort` |
| `Event`          | the system calls and the end of every process of the tree, for the statements only |
| `Flawless`       | the trees in which every call succeeds and every process ends normally |
| `waitChildren`   | `wait_children` (`:229`); `spawn_child` (`:222`) is the two branches on `fork` |
| `inOrder`        | the children work on disjoint regions: one child's work takes effect first |
| `Qsort`          | libc's `qsort`: a parameter |

A killed process leaves any array behind (`Choices.killed`): what it did before the signal, and
what the processes it leaves running still do. `SIGTERM` after a failed call is one such signal, and
it may come too late.
-/

namespace CsfAssignments.Parsort

open Rearrange

inductive Side where
  | left
  | right
deriving DecidableEq, Repr

/-- What one process meets. -/
structure Choices where
  /-- The process is killed by a signal, and the array is then this one. -/
  killed : Option (Nat → Int64)
  forkLeft : Bool
  forkRight : Bool
  waitLeft : Bool
  waitRight : Bool
  leftFirst : Bool

abbrev Env := List Side → Choices

/-- The part of the tree below a child. -/
def Env.child (env : Env) (side : Side) : Env := fun path => env (side :: path)

inductive Outcome where
  | returned (value : Int32)
  | abnormal (why : Abort)
deriving DecidableEq, Repr

inductive Event where
  | fork (ok : Bool)
  | waitpid (ok : Bool)
  | ended (outcome : Outcome)
deriving DecidableEq, Repr

/-- The system call succeeded; the process ended normally. -/
def Event.success : Event → Bool
  | .fork ok => ok
  | .waitpid ok => ok
  | .ended (.returned _) => true
  | .ended (.abnormal _) => false

/-- A process from its first instruction to its end, with everything below it. -/
structure Run where
  arr : Mapping
  outcome : Outcome
  log : List Event

def Run.return (arr : Mapping) (value : Int32) (log : List Event) : Run :=
  ⟨arr, .returned value, log ++ [.ended (.returned value)]⟩

def Run.abort (arr : Mapping) (why : Abort) : Run :=
  ⟨arr, .abnormal why, [.ended (.abnormal why)]⟩

/-- `child->success`: `WEXITSTATUS` of a child that `WIFEXITED`, else the initial 0. -/
def Outcome.childSuccess : Outcome → Int32
  | .returned value => value &&& 0xff
  | .abnormal _ => 0

/-- `parsort.c:229`: the two `success` fields. -/
def waitChildren (choices : Choices) (left right : Outcome) : (Int32 × Int32) × List Event :=
  if choices.waitLeft then
    if choices.waitRight then
      ((left.childSuccess, right.childSuccess), [.waitpid true, .waitpid true])
    else ((left.childSuccess, 0), [.waitpid true, .waitpid false])
  -- the right child is signalled, and waited for with no look at the result
  else ((0, 0), [.waitpid false, .waitpid choices.waitRight])

/-- C's `&&`. -/
def logicalAnd (a b : Int32) : Int32 := if a ≠ 0 ∧ b ≠ 0 then 1 else 0

def inOrder (leftFirst : Bool) (left right : Mapping → Run) (arr : Mapping) : Run × Run × Mapping :=
  if leftFirst then
    let l := left arr
    let r := right l.arr
    (l, r, r.arr)
  else
    let r := right arr
    let l := left r.arr
    (l, r, l.arr)

/-- libc's `qsort` on a region: it moves elements, and calls the comparator on them. -/
structure Qsort where
  sort : (Int64 → Int64 → Int32) → List Int64 → List Int64
  length_sort : ∀ cmp l, (sort cmp l).length = l.length

theorem Mapping.fits_qsort (arr : Mapping) (q : Qsort) (cmp : Int64 → Int64 → Int32) (s e : Nat) :
    8 * (arr.elems.take s ++ q.sort cmp (region arr.elems s e) ++ arr.elems.drop (max s e)).length <
      2 ^ 64 := by
  have hfit := arr.fits
  simp only [List.length_append, q.length_sort, region, List.length_take, List.length_drop]
  omega

/-- `qsort(arr + start, end - start, sizeof(int64_t), cmp)`. -/
def Mapping.qsort (arr : Mapping) (q : Qsort) (cmp : Int64 → Int64 → Int32) (s e : Nat) : Mapping :=
  ⟨arr.elems.take s ++ q.sort cmp (region arr.elems s e) ++ arr.elems.drop (max s e),
    arr.fits_qsort q cmp s e⟩

def Mapping.overwrite (arr : Mapping) (junk : Nat → Int64) : Mapping :=
  arr.update (arr.elems.mapIdx fun i _ => junk i) (by simp)

theorem left_smaller {arr arr' : Mapping} {start end_ mid : UInt64}
    (h : partition arr start end_ = .ok mid arr') :
    (mid - start).toNat < (end_ - start).toNat := by
  have hpart := partition_ok h
  have h1 := hpart.start
  have h2 := hpart.stop
  rw [toNat_len (UInt64.le_iff_toNat_le.2 h1),
    toNat_len (UInt64.le_iff_toNat_le.2 (Nat.le_of_lt (Nat.lt_of_le_of_lt h1 h2)))]
  omega

theorem toNat_mid_succ {arr arr' : Mapping} {start end_ mid : UInt64}
    (h : partition arr start end_ = .ok mid arr') : (mid + 1).toNat = mid.toNat + 1 := by
  have hlt := end_.toNat_lt
  have := (partition_ok h).stop
  rw [UInt64.toNat_add, UInt64.toNat_one, Nat.mod_eq_of_lt (by omega)]

theorem right_smaller {arr arr' : Mapping} {start end_ mid : UInt64}
    (h : partition arr start end_ = .ok mid arr') :
    (end_ - (mid + 1)).toNat < (end_ - start).toNat := by
  have hpart := partition_ok h
  have h1 := hpart.start
  have h2 := hpart.stop
  have h3 := toNat_mid_succ h
  rw [toNat_len (UInt64.le_iff_toNat_le.2 (by omega)),
    toNat_len (UInt64.le_iff_toNat_le.2 (Nat.le_of_lt (Nat.lt_of_le_of_lt h1 h2)))]
  omega

/-- `parsort.c:180`, run by the process at the root of `env`. -/
def quicksort (q : Qsort) (env : Env) (arr : Mapping) (start end_ parThreshold : UInt64) : Run :=
  match (env []).killed with
  | some junk => .abort (arr.overwrite junk) .killed
  | none =>
    if end_ ≥ start then
      let len := end_ - start
      if len < 2 then .return arr 1 []
      else if len ≤ parThreshold then .return (arr.qsort q compare start.toNat end_.toNat) 1 []
      else
        match _h : partition arr start end_ with
        | .error why arr => .abort arr why
        | .ok mid arr =>
          if (env []).forkLeft then
            if (env []).forkRight then
              let (left, right, arr) := inOrder (env []).leftFirst
                (fun arr => quicksort q (env.child .left) arr start mid parThreshold)
                (fun arr => quicksort q (env.child .right) arr (mid + 1) end_ parThreshold) arr
              let ((leftSuccess, rightSuccess), waits) :=
                waitChildren (env []) left.outcome right.outcome
              .return arr (logicalAnd leftSuccess rightSuccess)
                ([.fork true, .fork true] ++ left.log ++ right.log ++ waits)
            else
              let left := quicksort q (env.child .left) arr start mid parThreshold
              .return left.arr 0
                ([.fork true, .fork false] ++ left.log ++ [.waitpid (env []).waitLeft])
          else .return arr 0 [.fork false]
    else .abort arr .assertFailed
termination_by (end_ - start).toNat
decreasing_by
  · exact left_smaller _h
  · exact right_smaller _h
  · exact left_smaller _h

/-! ## The answer -/

/-- Every call of the tree succeeded and every process ended normally. -/
def Run.Clean (run : Run) : Prop := ∀ event ∈ run.log, event.success = true

/-- **Answer**: the answer is 0 or 1, and 1 exactly for a clean tree. -/
structure Answers (run : Run) : Prop where
  bool : ∀ value, run.outcome = .returned value → value = 0 ∨ value = 1
  iff : run.outcome = .returned 1 ↔ run.Clean

theorem clean_return {arr : Mapping} {value : Int32} {log : List Event} :
    (Run.return arr value log).Clean ↔ ∀ event ∈ log, event.success = true := by
  unfold Run.Clean Run.return
  simp only [List.forall_mem_append, List.mem_singleton, forall_eq, Event.success, and_true]

theorem Answers.done (arr : Mapping) : Answers (.return arr 1 []) := by
  refine ⟨?_, ?_⟩
  · intro value h
    cases h; exact .inr rfl
  · rw [clean_return]; simp [Run.return]

theorem Answers.failed {arr : Mapping} {log : List Event} (event : Event) (hmem : event ∈ log)
    (hfail : event.success = false) : Answers (.return arr 0 log) := by
  refine ⟨?_, ?_⟩
  · intro value h
    cases h; exact .inl rfl
  · rw [clean_return]
    refine ⟨fun h => by simp [Run.return] at h, ?_⟩
    intro h
    rw [h event hmem] at hfail
    cases hfail

theorem Answers.abort (arr : Mapping) (why : Abort) : Answers (.abort arr why) := by
  refine ⟨fun value h => (by cases h), fun h => (by cases h), ?_⟩
  intro h
  have := h (.ended (.abnormal why)) (List.mem_singleton.2 rfl)
  cases this

/-- A child's `success` field is set exactly when its whole tree is clean. -/
theorem Answers.childSuccess {run : Run} (h : Answers run) :
    run.outcome.childSuccess ≠ 0 ↔ run.Clean := by
  rw [← h.iff]
  cases hout : run.outcome with
  | abnormal why => simp [Outcome.childSuccess]
  | returned value =>
    rcases h.bool value hout with rfl | rfl
    · exact ⟨fun hc => absurd rfl hc, fun hc => by cases hc⟩
    · exact ⟨fun _ => rfl, fun _ => by decide⟩

/-- Both children's answers, and how waiting for them went, decide. -/
theorem Answers.join {left right : Run} {choices : Choices} {arr : Mapping}
    {success : Int32 × Int32} {waits : List Event} (hl : Answers left) (hr : Answers right)
    (hw : waitChildren choices left.outcome right.outcome = (success, waits)) :
    Answers (.return arr (logicalAnd success.1 success.2)
      ([.fork true, .fork true] ++ left.log ++ right.log ++ waits)) := by
  unfold waitChildren at hw
  split at hw
  · split at hw
    · cases hw
      have hclean : (Run.return arr 1
          ([.fork true, .fork true] ++ left.log ++ right.log ++ [.waitpid true, .waitpid true])).Clean ↔
          left.Clean ∧ right.Clean := by
        rw [clean_return, List.forall_mem_append, List.forall_mem_append, List.forall_mem_append]
        refine ⟨fun h => ⟨h.1.1.2, h.1.2⟩, fun h => ⟨⟨⟨?_, h.1⟩, h.2⟩, ?_⟩⟩
        · simp [Event.success]
        · simp [Event.success]
      by_cases hboth : left.outcome.childSuccess ≠ 0 ∧ right.outcome.childSuccess ≠ 0
      · rw [logicalAnd, if_pos hboth]
        refine ⟨fun value h => by cases h; exact .inr rfl, ?_, fun _ => rfl⟩
        intro _
        exact hclean.2 ⟨hl.childSuccess.1 hboth.1, hr.childSuccess.1 hboth.2⟩
      · rw [logicalAnd, if_neg hboth]
        refine ⟨fun value h => by cases h; exact .inl rfl, fun h => by simp [Run.return] at h, ?_⟩
        intro h
        obtain ⟨h1, h2⟩ := hclean.1 (clean_return.2 (clean_return.1 h))
        exact absurd ⟨hl.childSuccess.2 h1, hr.childSuccess.2 h2⟩ hboth
    · cases hw
      rw [show logicalAnd left.outcome.childSuccess 0 = 0 by simp [logicalAnd]]
      exact .failed (.waitpid false) (by simp) rfl
  · cases hw
    exact .failed (.waitpid false) (by simp) rfl

/-- The children's runs are runs of the two functions, whichever goes first. -/
theorem inOrder_cases {leftFirst : Bool} {left right : Mapping → Run} {arr arr' : Mapping}
    {l r : Run} (h : inOrder leftFirst left right arr = (l, r, arr')) :
    (leftFirst = true ∧ l = left arr ∧ r = right l.arr ∧ arr' = r.arr) ∨
      (leftFirst = false ∧ r = right arr ∧ l = left r.arr ∧ arr' = l.arr) := by
  cases leftFirst with
  | true => cases h; exact .inl ⟨rfl, rfl, rfl, rfl⟩
  | false => cases h; exact .inr ⟨rfl, rfl, rfl, rfl⟩

theorem quicksort_answers (q : Qsort) (env : Env) (arr : Mapping)
    (start end_ parThreshold : UInt64) : Answers (quicksort q env arr start end_ parThreshold) := by
  fun_induction quicksort q env arr start end_ parThreshold with
  | case1 => exact .abort _ _
  | case2 => exact .done _
  | case3 => exact .done _
  | case4 => exact .abort _ _
  | case5 env arr start end_ hkill hse len hlen hpar mid arr' hpart hfl hfr left right arr'' horder
      leftSuccess rightSuccess waits hwait ihl ihr =>
    rcases inOrder_cases horder with ⟨-, hl, hr, -⟩ | ⟨-, hr, hl, -⟩
    · exact .join (hl ▸ ihl _) (hr ▸ ihr _) hwait
    · exact .join (hl ▸ ihl _) (hr ▸ ihr _) hwait
  | case6 => exact .failed (.fork false) (by simp) rfl
  | case7 => exact .failed (.fork false) (by simp) rfl
  | case8 => exact .abort _ _

/-- The answer 1 comes from two answers 1 that the process learns of. -/
theorem answers_one_iff {left right : Run} {choices : Choices} {ls rs : Int32} {waits : List Event}
    (hl : Answers left) (hr : Answers right)
    (hw : waitChildren choices left.outcome right.outcome = ((ls, rs), waits)) :
    logicalAnd ls rs = 1 ↔ choices.waitLeft = true ∧ choices.waitRight = true ∧
      left.outcome = .returned 1 ∧ right.outcome = .returned 1 := by
  have hand : ∀ a b : Int32, logicalAnd a b = 1 ↔ a ≠ 0 ∧ b ≠ 0 := by
    intro a b
    unfold logicalAnd
    by_cases h : a ≠ 0 ∧ b ≠ 0
    · rw [if_pos h]; exact ⟨fun _ => h, fun _ => rfl⟩
    · rw [if_neg h]; exact ⟨fun hc => absurd hc (by decide), fun hc => absurd hc h⟩
  rw [hand, hl.iff, hr.iff, ← hl.childSuccess, ← hr.childSuccess]
  unfold waitChildren at hw
  cases hwl : choices.waitLeft with
  | false =>
    rw [hwl] at hw
    cases hw
    exact ⟨fun h => absurd rfl h.1, fun h => by cases h.1⟩
  | true =>
    cases hwr : choices.waitRight with
    | false =>
      rw [hwl, hwr] at hw
      cases hw
      exact ⟨fun h => absurd rfl h.2, fun h => by cases h.2.1⟩
    | true =>
      rw [hwl, hwr] at hw
      cases hw
      exact ⟨fun h => ⟨rfl, rfl, h.1, h.2⟩, fun h => ⟨h.2.2.1, h.2.2.2⟩⟩

/-! ## A tree in which nothing fails

Read off `env` and the array alone, with no look at what `quicksort` returns or logs. -/

/-- The process forks both children and learns how both have ended. -/
structure Choices.Joins (choices : Choices) : Prop where
  normal : choices.killed = none
  forkLeft : choices.forkLeft = true
  forkRight : choices.forkRight = true
  waitLeft : choices.waitLeft = true
  waitRight : choices.waitRight = true

/-- **Flawless**: every process of the tree ends normally, with no signal, no failed `assert` and no access
outside the array, and every `fork` and every `waitpid` succeeds. It leaves `arr'`. -/
inductive Flawless (q : Qsort) (parThreshold : UInt64) :
    Env → Mapping → UInt64 → UInt64 → Mapping → Prop where
  | short {env : Env} {arr : Mapping} {start end_ : UInt64} (normal : (env []).killed = none)
      (order : start ≤ end_) (len : end_ - start < 2) : Flawless q parThreshold env arr start end_ arr
  | sequential {env : Env} {arr : Mapping} {start end_ : UInt64} (normal : (env []).killed = none)
      (order : start ≤ end_) (len : ¬end_ - start < 2) (small : end_ - start ≤ parThreshold) :
      Flawless q parThreshold env arr start end_ (arr.qsort q compare start.toNat end_.toNat)
  | leftFirst {env : Env} {arr arr₁ arr₂ arr₃ : Mapping} {start end_ mid : UInt64}
      (joins : (env []).Joins) (order : start ≤ end_) (len : ¬end_ - start < 2)
      (large : ¬end_ - start ≤ parThreshold) (split : partition arr start end_ = .ok mid arr₁)
      (first : (env []).leftFirst = true)
      (left : Flawless q parThreshold (env.child .left) arr₁ start mid arr₂)
      (right : Flawless q parThreshold (env.child .right) arr₂ (mid + 1) end_ arr₃) :
      Flawless q parThreshold env arr start end_ arr₃
  | rightFirst {env : Env} {arr arr₁ arr₂ arr₃ : Mapping} {start end_ mid : UInt64}
      (joins : (env []).Joins) (order : start ≤ end_) (len : ¬end_ - start < 2)
      (large : ¬end_ - start ≤ parThreshold) (split : partition arr start end_ = .ok mid arr₁)
      (first : (env []).leftFirst = false)
      (right : Flawless q parThreshold (env.child .right) arr₁ (mid + 1) end_ arr₂)
      (left : Flawless q parThreshold (env.child .left) arr₂ start mid arr₃) :
      Flawless q parThreshold env arr start end_ arr₃

theorem Flawless.normal {q : Qsort} {parThreshold start end_ : UInt64} {env : Env} {arr arr' : Mapping}
    (h : Flawless q parThreshold env arr start end_ arr') : (env []).killed = none := by
  cases h with
  | short normal => exact normal
  | sequential normal => exact normal
  | leftFirst joins => exact joins.normal
  | rightFirst joins => exact joins.normal

theorem Flawless.order {q : Qsort} {parThreshold start end_ : UInt64} {env : Env} {arr arr' : Mapping}
    (h : Flawless q parThreshold env arr start end_ arr') : start ≤ end_ := by
  cases h with
  | short _ order => exact order
  | sequential _ order => exact order
  | leftFirst _ order => exact order
  | rightFirst _ order => exact order

/-- Past its base cases a process splits its region. -/
theorem Flawless.splits {q : Qsort} {parThreshold start end_ : UInt64} {env : Env} {arr arr' : Mapping}
    (h : Flawless q parThreshold env arr start end_ arr') (hlen : ¬end_ - start < 2)
    (hlarge : ¬end_ - start ≤ parThreshold) : ∃ mid arr₁, partition arr start end_ = .ok mid arr₁ := by
  cases h with
  | short _ _ len => exact absurd len hlen
  | sequential _ _ _ small => exact absurd small hlarge
  | leftFirst _ _ _ _ split => exact ⟨_, _, split⟩
  | rightFirst _ _ _ _ split => exact ⟨_, _, split⟩

/-- And it joins two flawless children, that of the flag first. -/
theorem Flawless.forks {q : Qsort} {parThreshold start end_ mid : UInt64} {env : Env}
    {arr arr₁ arr' : Mapping} (h : Flawless q parThreshold env arr start end_ arr')
    (hlen : ¬end_ - start < 2) (hlarge : ¬end_ - start ≤ parThreshold)
    (hpart : partition arr start end_ = .ok mid arr₁) :
    (env []).Joins ∧ ∃ arr₂,
      ((env []).leftFirst = true ∧ Flawless q parThreshold (env.child .left) arr₁ start mid arr₂ ∧
          Flawless q parThreshold (env.child .right) arr₂ (mid + 1) end_ arr' ∨
        (env []).leftFirst = false ∧ Flawless q parThreshold (env.child .right) arr₁ (mid + 1) end_ arr₂ ∧
          Flawless q parThreshold (env.child .left) arr₂ start mid arr') := by
  cases h with
  | short _ _ len => exact absurd len hlen
  | sequential _ _ _ small => exact absurd small hlarge
  | leftFirst joins _ _ _ split first left right =>
    cases split.symm.trans hpart
    exact ⟨joins, _, .inl ⟨first, left, right⟩⟩
  | rightFirst joins _ _ _ split first right left =>
    cases split.symm.trans hpart
    exact ⟨joins, _, .inr ⟨first, right, left⟩⟩

/-- One child's flawless tree, then the other's: two answers 1. -/
theorem one_then_one {first : Run} {second : Mapping → Run} {First : Mapping → Prop}
    {Second : Mapping → Mapping → Prop}
    (hfirst : ∀ arr', First arr' ↔ first.outcome = .returned 1 ∧ first.arr = arr')
    (hsecond : ∀ arr arr', Second arr arr' ↔ (second arr).outcome = .returned 1 ∧ (second arr).arr = arr')
    (arr' : Mapping) :
    (∃ arr₂, First arr₂ ∧ Second arr₂ arr') ↔
      first.outcome = .returned 1 ∧ (second first.arr).outcome = .returned 1 ∧ (second first.arr).arr = arr' := by
  constructor
  · rintro ⟨arr₂, h1, h2⟩
    obtain ⟨hone, rfl⟩ := (hfirst arr₂).1 h1
    exact ⟨hone, (hsecond _ _).1 h2⟩
  · rintro ⟨hone, h2⟩
    exact ⟨first.arr, (hfirst _).2 ⟨hone, rfl⟩, (hsecond _ _).2 h2⟩

/-- `quicksort` answers 1 in the flawless trees, and in no others. -/
theorem flawless_iff (q : Qsort) (env : Env) (arr arr' : Mapping) (start end_ parThreshold : UInt64) :
    Flawless q parThreshold env arr start end_ arr' ↔
      (quicksort q env arr start end_ parThreshold).outcome = .returned 1 ∧
        (quicksort q env arr start end_ parThreshold).arr = arr' := by
  fun_induction quicksort q env arr start end_ parThreshold generalizing arr' with
  | case1 env arr start end_ junk hkill =>
    refine ⟨fun h => ?_, fun h => by cases h.1⟩
    rw [h.normal] at hkill
    cases hkill
  | case2 env arr start end_ hkill hse len hlen =>
    refine ⟨fun h => ?_, ?_⟩
    · cases h with
      | short => exact ⟨rfl, rfl⟩
      | sequential _ _ hlen' => exact absurd hlen hlen'
      | leftFirst _ _ hlen' => exact absurd hlen hlen'
      | rightFirst _ _ hlen' => exact absurd hlen hlen'
    · rintro ⟨-, rfl⟩
      exact .short hkill hse hlen
  | case3 env arr start end_ hkill hse len hlen hpar =>
    refine ⟨fun h => ?_, ?_⟩
    · cases h with
      | short _ _ hlen' => exact absurd hlen' hlen
      | sequential => exact ⟨rfl, rfl⟩
      | leftFirst _ _ _ hlarge => exact absurd hpar hlarge
      | rightFirst _ _ _ hlarge => exact absurd hpar hlarge
    · rintro ⟨-, rfl⟩
      exact .sequential hkill hse hlen hpar
  | case4 env arr start end_ hkill hse len hlen hpar why arr₁ hpart =>
    refine ⟨fun h => ?_, fun h => by cases h.1⟩
    obtain ⟨mid, arr₁', hsplit⟩ := h.splits hlen hpar
    rw [hpart] at hsplit
    cases hsplit
  | case5 env arr start end_ hkill hse len hlen hpar mid arr₁ hpart hfl hfr left right arr₂ horder
      leftSuccess rightSuccess waits hwait ihl ihr =>
    rcases inOrder_cases horder with ⟨hflag, rfl, rfl, rfl⟩ | ⟨hflag, rfl, rfl, rfl⟩
    · have hone := answers_one_iff (quicksort_answers ..) (quicksort_answers ..) hwait
      have hboth := one_then_one (ihl arr₁) ihr arr'
      constructor
      · intro h
        obtain ⟨joins, arr₂, ⟨-, hleft, hright⟩ | ⟨hfalse, -⟩⟩ := h.forks hlen hpar hpart
        · obtain ⟨hlone, hrone, hend⟩ := hboth.1 ⟨arr₂, hleft, hright⟩
          exact ⟨congrArg _ (hone.2 ⟨joins.waitLeft, joins.waitRight, hlone, hrone⟩), hend⟩
        · rw [hflag] at hfalse
          cases hfalse
      · rintro ⟨hret, hend⟩
        obtain ⟨hwl, hwr, hlone, hrone⟩ := hone.1 (Outcome.returned.inj hret)
        obtain ⟨arr₂, hleft, hright⟩ := hboth.2 ⟨hlone, hrone, hend⟩
        exact .leftFirst ⟨hkill, hfl, hfr, hwl, hwr⟩ hse hlen hpar hpart hflag hleft hright
    · have hone := answers_one_iff (quicksort_answers ..) (quicksort_answers ..) hwait
      have hboth := one_then_one (ihr arr₁) ihl arr'
      constructor
      · intro h
        obtain ⟨joins, arr₂, ⟨htrue, -⟩ | ⟨-, hright, hleft⟩⟩ := h.forks hlen hpar hpart
        · rw [hflag] at htrue
          cases htrue
        · obtain ⟨hrone, hlone, hend⟩ := hboth.1 ⟨arr₂, hright, hleft⟩
          exact ⟨congrArg _ (hone.2 ⟨joins.waitLeft, joins.waitRight, hlone, hrone⟩), hend⟩
      · rintro ⟨hret, hend⟩
        obtain ⟨hwl, hwr, hlone, hrone⟩ := hone.1 (Outcome.returned.inj hret)
        obtain ⟨arr₂, hright, hleft⟩ := hboth.2 ⟨hrone, hlone, hend⟩
        exact .rightFirst ⟨hkill, hfl, hfr, hwl, hwr⟩ hse hlen hpar hpart hflag hright hleft
  | case6 env arr start end_ hkill hse len hlen hpar mid arr₁ hpart hfl hfr =>
    refine ⟨fun h => ?_, fun h => by cases h.1⟩
    exact absurd (h.forks hlen hpar hpart).1.forkRight hfr
  | case7 env arr start end_ hkill hse len hlen hpar mid arr₁ hpart hfl =>
    refine ⟨fun h => ?_, fun h => by cases h.1⟩
    exact absurd (h.forks hlen hpar hpart).1.forkLeft hfl
  | case8 env arr start end_ hkill hse =>
    exact ⟨fun h => absurd h.order hse, fun h => by cases h.1⟩

/-! ## The array -/

/-- What the standard asks of a comparator: it orders consistently. -/
structure Comparator (cmp : Int64 → Int64 → Int32) : Prop where
  swap : ∀ a b, cmp a b < 0 ↔ 0 < cmp b a
  trans : ∀ a b c, cmp a b ≤ 0 → cmp b c ≤ 0 → cmp a c ≤ 0

/-- What libc promises of `qsort`. -/
def Qsort.Lawful (q : Qsort) : Prop :=
  ∀ cmp, Comparator cmp → ∀ l,
    (q.sort cmp l).Perm l ∧ (q.sort cmp l).Pairwise fun a b => cmp a b ≤ 0

theorem compare_le (a b : Int64) : compare a b ≤ 0 ↔ a ≤ b := by
  unfold compare
  split
  · rename_i h
    exact ⟨fun _ => Int64.le_of_lt h, fun _ => by decide⟩
  · rename_i h
    split
    · rename_i h'
      exact ⟨fun hc => absurd hc (by decide), fun hc => absurd hc (Int64.not_le.2 h')⟩
    · rename_i h'
      exact ⟨fun _ => Int64.not_lt.1 h', fun _ => by decide⟩

theorem compare_lt (a b : Int64) : compare a b < 0 ↔ a < b := by
  unfold compare
  split
  · rename_i h
    exact ⟨fun _ => h, fun _ => by decide⟩
  · rename_i h
    split
    · exact ⟨fun hc => absurd hc (by decide), fun hc => absurd hc h⟩
    · exact ⟨fun hc => absurd hc (by decide), fun hc => absurd hc h⟩

theorem compare_comparator : Comparator compare := by
  refine ⟨?_, ?_⟩
  · intro a b
    rw [compare_lt, ← Int32.not_le, compare_le, Int64.not_le]
  · intro a b c hab hbc
    rw [compare_le] at *
    exact Int64.le_trans hab hbc

instance int64Le_isTrans : IsTrans Int64 (· ≤ ·) := ⟨fun _ _ _ => Int64.le_trans⟩

theorem qsort_sorts {q : Qsort} (hq : q.Lawful) {arr : Mapping} {s e : Nat} (hse : s ≤ e)
    (he : e ≤ arr.length) :
    Sorts (· ≤ ·) arr.elems (arr.qsort q compare s e).elems s e := by
  obtain ⟨hperm, hsorted⟩ := hq compare compare_comparator (region arr.elems s e)
  have helems : (arr.qsort q compare s e).elems =
      arr.elems.take s ++ q.sort compare (region arr.elems s e) ++ arr.elems.drop e := by
    change _ ++ arr.elems.drop (max s e) = _
    rw [Nat.max_eq_right hse]
  rw [helems]
  refine ⟨.splice hse he hperm, ?_⟩
  unfold SortedOn
  rw [region_splice (Nat.le_trans hse he) (by rw [hperm.length_eq, length_region he])]
  exact hsorted.imp fun {a b} h => (compare_le a b).1 h

/-- **Array**: a run that answers 1 has sorted its region. -/
theorem quicksort_sorts {q : Qsort} (hq : q.Lawful) (env : Env) (arr : Mapping)
    (start end_ parThreshold : UInt64) (hend : end_.toNat ≤ arr.length)
    (hone : (quicksort q env arr start end_ parThreshold).outcome = .returned 1) :
    Sorts (· ≤ ·) arr.elems (quicksort q env arr start end_ parThreshold).arr.elems
      start.toNat end_.toNat := by
  fun_induction quicksort q env arr start end_ parThreshold with
  | case1 => cases hone
  | case2 env arr start end_ hkill hse len hlen =>
    have hlen' := UInt64.lt_iff_toNat_lt.1 hlen
    rw [toNat_len hse, show (2 : UInt64).toNat = 2 from rfl] at hlen'
    exact ⟨.refl _ _ _, .short (by omega)⟩
  | case3 env arr start end_ hkill hse => exact qsort_sorts hq (UInt64.le_iff_toNat_le.1 hse) hend
  | case4 => cases hone
  | case5 env arr start end_ hkill hse len hlen hpar mid arr' hpart hfl hfr left right arr'' horder
      leftSuccess rightSuccess waits hwait ihl ihr =>
    have hsplit := partition_ok hpart
    have hmid := toNat_mid_succ hpart
    have hbound : ∀ {b : Mapping} {s e : Nat}, Rearranged arr'.elems b.elems s e →
        end_.toNat ≤ b.length := by
      intro b s e hre
      unfold Mapping.length at *
      rw [hre.length_eq, hsplit.rearranged.length_eq]
      exact hend
    obtain ⟨pivotVal, -, hpivot, hlows, hhighs⟩ := hsplit.pivot
    have hstop := hsplit.stop
    have hl' := quicksort_answers q (env.child .left)
    have hr' := quicksort_answers q (env.child .right)
    refine .of_rearranged hsplit.rearranged ?_
    rcases inOrder_cases horder with ⟨-, hl, hr, rfl⟩ | ⟨-, hr, hl, rfl⟩
    · obtain ⟨-, -, hlone, hrone⟩ := (answers_one_iff (hl ▸ hl' _ _ _ _) (hr ▸ hr' _ _ _ _)
        hwait).1 (Outcome.returned.inj hone)
      rw [hl] at hlone
      rw [hr] at hrone
      have h1 := ihl arr' (by have := hbound (.refl arr'.elems 0 0); omega) hlone
      rw [← hl] at h1
      have h2 := ihr left.arr (hbound h1.rearranged) hrone
      rw [← hr, hmid] at h2
      exact .join hsplit.start hstop hpivot (fun x hx => Int64.le_of_lt (hlows x hx)) hhighs
        (.inl ⟨h1, h2⟩)
    · obtain ⟨-, -, hlone, hrone⟩ := (answers_one_iff (hl ▸ hl' _ _ _ _) (hr ▸ hr' _ _ _ _)
        hwait).1 (Outcome.returned.inj hone)
      rw [hl] at hlone
      rw [hr] at hrone
      have h1 := ihr arr' (hbound (.refl arr'.elems 0 0)) hrone
      rw [← hr, hmid] at h1
      have h2 := ihl right.arr (by have := hbound h1.rearranged; omega) hlone
      rw [← hl] at h2
      exact .join hsplit.start hstop hpivot (fun x hx => Int64.le_of_lt (hlows x hx)) hhighs
        (.inr ⟨h1, h2⟩)
  | case6 => cases hone
  | case7 => cases hone
  | case8 => cases hone

/-- What a call that answers 1 has done: `arr'` is `arr` with `[start, end)` in nondecreasing order. -/
structure Sorted (arr arr' : Mapping) (start end_ : Nat) : Prop where
  sorted : (region arr'.elems start end_).Pairwise (· ≤ ·)
  perm : (region arr'.elems start end_).Perm (region arr.elems start end_)
  outside : ∀ i, i < start ∨ end_ ≤ i → arr'.elems[i]? = arr.elems[i]?

/-- **`quicksort` is correct**: whatever fails in the tree of processes and whichever child's work
comes first, the answer is 1 exactly when nothing fails (which the log of the calls made says too), and
then the region is sorted, to the one array that every threshold and every order lead to. -/
theorem quicksort_correct (q : Qsort) (hq : q.Lawful) (env : Env) (arr : Mapping)
    (start end_ parThreshold : UInt64) (hse : start ≤ end_) (hend : end_.toNat ≤ arr.length) :
    ((quicksort q env arr start end_ parThreshold).outcome = .returned 1 ↔
      ∃ arr', Flawless q parThreshold env arr start end_ arr') ∧
    ((quicksort q env arr start end_ parThreshold).outcome = .returned 1 ↔
      (quicksort q env arr start end_ parThreshold).Clean) ∧
    ((quicksort q env arr start end_ parThreshold).outcome = .returned 1 →
      Sorted arr (quicksort q env arr start end_ parThreshold).arr start.toNat end_.toNat ∧
      ∀ env' parThreshold', (quicksort q env' arr start end_ parThreshold').outcome = .returned 1 →
        (quicksort q env' arr start end_ parThreshold').arr =
          (quicksort q env arr start end_ parThreshold).arr) := by
  have hse' := UInt64.le_iff_toNat_le.1 hse
  refine ⟨⟨?_, ?_⟩, (quicksort_answers q env arr start end_ parThreshold).iff, ?_⟩
  · intro hone
    exact ⟨_, (flawless_iff ..).2 ⟨hone, rfl⟩⟩
  · rintro ⟨arr', hflawless⟩
    exact ((flawless_iff ..).1 hflawless).1
  intro hone
  have hs := quicksort_sorts hq env arr start end_ parThreshold hend hone
  refine ⟨⟨hs.sorted, hs.rearranged.region_perm hse', hs.rearranged.frame⟩, ?_⟩
  intro env' parThreshold' hone'
  have hs' := quicksort_sorts hq env' arr start end_ parThreshold' hend hone'
  exact Mapping.ext (Sorts.unique hse' hs' hs)

/-- `qsort` as a stable merge sort. -/
def mergeQsort : Qsort := ⟨fun cmp l => l.mergeSort fun a b => decide (cmp a b ≤ 0), by simp⟩

theorem mergeQsort_lawful : mergeQsort.Lawful := by
  intro cmp hcmp l
  refine ⟨List.mergeSort_perm l _, ?_⟩
  have hsorted : ∀ hle htotal, (mergeQsort.sort cmp l).Pairwise fun a b => decide (cmp a b ≤ 0) :=
    fun hle htotal => List.pairwise_mergeSort hle htotal l
  refine (hsorted ?_ ?_).imp fun h => of_decide_eq_true h
  · intro a b c hab hbc
    exact decide_eq_true (hcmp.trans a b c (of_decide_eq_true hab) (of_decide_eq_true hbc))
  · intro a b
    rw [Bool.or_eq_true, decide_eq_true_eq, decide_eq_true_eq]
    by_cases h : cmp a b ≤ 0
    · exact .inl h
    · exact .inr (Int32.le_of_lt ((hcmp.swap b a).2 (Int32.not_le.1 h)))

/-- Four elements above the threshold: the right child goes first, and has nothing to sort. -/
theorem quicksort_correct_2341 :
    let env : Env := fun _ => ⟨none, true, true, true, true, false⟩
    let arr : Mapping := ⟨[2, 3, 4, 1], by decide⟩
    (quicksort mergeQsort env arr 0 4 3).outcome = .returned 1 ∧ (quicksort mergeQsort env arr 0 4 3).Clean ∧
      Sorted arr (quicksort mergeQsort env arr 0 4 3).arr 0 4 ∧
      ∀ env' parThreshold', (quicksort mergeQsort env' arr 0 4 parThreshold').outcome = .returned 1 →
        (quicksort mergeQsort env' arr 0 4 parThreshold').arr = (quicksort mergeQsort env arr 0 4 3).arr := by
  intro env arr
  have hflawless : Flawless mergeQsort 3 env arr 0 4 _ :=
    .rightFirst ⟨rfl, rfl, rfl, rfl, rfl⟩ (by decide) (by decide) (by decide) partition_2341 rfl
      (.short rfl (by decide) (by decide)) (.sequential rfl (by decide) (by decide) (by decide))
  obtain ⟨hone, hclean, hsorted⟩ :=
    quicksort_correct mergeQsort mergeQsort_lawful env arr 0 4 3 (by decide) (by decide)
  have hret := hone.2 ⟨_, hflawless⟩
  exact ⟨hret, hclean.1 hret, hsorted hret⟩

end CsfAssignments.Parsort
