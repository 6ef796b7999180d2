import CsfAssignments.Parsort.Regions
/-!
# The array in every interleaving (`csf_assign04/parsort.c:180-256`)

Every step keeps the invariant of `Regions` (`Sound.step`), so every run does (`Reached.sound`). At the answer
1 the invariant says of every process of the tree that it has answered 1 (`Sound.all_answered`): nothing was
killed, every cut holds, and the sides are in order. An access outside the array counts as an abnormal end.
-/

namespace CsfAssignments.Parsort

open Rearrange

/-- The status without the pending signal. -/
def Status.calm : Status → Status
  | .running pc _ => .running pc false
  | .ended outcome => .ended outcome

namespace System

variable {s s' : System} {pid : Pid} {start end_ : UInt64} {pc : Pc} {sigterm : Bool}

/-! ## What the others see -/

/-- The process at `pid` has taken a step: no process goes away or gets another region, and only `pid`
is elsewhere in the code; a new process has not begun. -/
structure Evolves (s s' : System) (pid : Pid) : Prop where
  old : ∀ p c, s.procs p = some c → ∃ status, s'.procs p = some ⟨c.start, c.end_, status⟩ ∧
    (p ≠ pid → status.calm = c.status.calm)
  new : ∀ p c, s.procs p = none → s'.procs p = some c → c.status = .running .entry false

theorem Evolves.refl (s : System) (pid : Pid) : Evolves s s pid :=
  ⟨fun _ c hc => ⟨c.status, hc, fun _ => rfl⟩, fun p c hnone hc => by rw [hnone] at hc; cases hc⟩

/-- What has ended has ended. -/
theorem Evolves.wait {low : Pid} {outcome : Outcome} (h : Evolves s s' pid)
    (hproc : s.procs pid = some ⟨start, end_, .running pc sigterm⟩) (hwait : s.wait low = some outcome) :
    s'.wait low = some outcome := by
  have hne : low ≠ pid := by
    rintro rfl
    exact not_wait_of_running hproc hwait
  obtain ⟨st, en, hlow⟩ := wait_eq_some.1 hwait
  obtain ⟨status, hlow', hcalm⟩ := h.old _ _ hlow
  refine wait_eq_some.2 ⟨st, en, ?_⟩
  cases status with
  | running pc' sigterm' => cases hcalm hne
  | ended outcome' =>
    cases hcalm hne
    exact hlow'

theorem Evolves.put {s₀ : System} {status : Status} (h : Evolves s₀ s pid)
    (hproc : s.procs pid = some ⟨start, end_, .running pc sigterm⟩)
    (hthere : s₀.procs pid ≠ none) (arr' : Mapping) :
    Evolves s₀ (System.put { s with arr := arr' } pid ⟨start, end_, status⟩) pid := by
  refine ⟨?_, ?_⟩
  · intro p c hc
    obtain ⟨status', hc', hcalm⟩ := h.old p c hc
    by_cases hp : p = pid
    · subst hp
      rw [hproc] at hc'
      obtain ⟨hst, hen, -⟩ := Proc.mk.inj (Option.some.inj hc')
      exact ⟨status, by rw [procs_put, if_pos rfl, hst, hen], fun hne => absurd rfl hne⟩
    · exact ⟨status', by rw [procs_put, if_neg hp]; exact hc', hcalm⟩
  · intro p c hnone hc
    have hp : p ≠ pid := by
      rintro rfl
      exact hthere hnone
    rw [procs_put, if_neg hp] at hc
    exact h.new p c hnone hc

/-- A new process is where there was none. -/
theorem Evolves.spawn {s₀ : System} {child : Pid} {c : Proc} (h : Evolves s₀ s pid)
    (hnone : s₀.procs child = none) (hc : c.status = .running .entry false) :
    Evolves s₀ (s.put child c) pid := by
  refine ⟨?_, ?_⟩
  · intro p c' hc'
    have hp : p ≠ child := by
      rintro rfl
      rw [hnone] at hc'
      cases hc'
    obtain ⟨status, hc'', hcalm⟩ := h.old p c' hc'
    exact ⟨status, by rw [procs_put, if_neg hp]; exact hc'', hcalm⟩
  · intro p c' hnone' hc'
    rw [procs_put] at hc'
    by_cases hp : p = child
    · rw [if_pos hp] at hc'
      cases hc'
      exact hc
    · rw [if_neg hp] at hc'
      exact h.new p c' hnone' hc'

/-- Signalling a child that was there. -/
theorem Evolves.kill {s₀ : System} {child : Pid} (h : Evolves s₀ s pid) (hthere : s₀.procs child ≠ none) :
    Evolves s₀ (s.kill child) pid := by
  unfold System.kill
  split
  · rename_i start end_ pc sigterm hproc
    refine ⟨?_, ?_⟩
    · intro p c hc
      obtain ⟨status, hc', hcalm⟩ := h.old p c hc
      by_cases hp : p = child
      · subst hp
        rw [hproc] at hc'
        obtain ⟨hst, hen, rfl⟩ := Proc.mk.inj (Option.some.inj hc')
        exact ⟨.running pc true, by rw [procs_put, if_pos rfl, hst, hen], hcalm⟩
      · exact ⟨status, by rw [procs_put, if_neg hp]; exact hc', hcalm⟩
    · intro p c hnone hc
      have hp : p ≠ child := by
        rintro rfl
        exact hthere hnone
      rw [procs_put, if_neg hp] at hc
      exact h.new p c hnone hc
  · exact h

theorem arr_kill (s : System) (pid : Pid) : (s.kill pid).arr = s.arr := by
  unfold System.kill
  split <;> rfl

/-- What one process does, as the others see it. -/
theorem Inv.next_evolves {q : Qsort} (hq : q.Lawful) {parThreshold : UInt64} {ok : Bool} (h : Inv s)
    (hproc : s.procs pid = some ⟨start, end_, .running pc sigterm⟩)
    (hnext : s.next q parThreshold pid start end_ sigterm pc ok = some s') :
    Evolves s s' pid ∧
      (s'.arr = s.arr ∨
        pc = .entry ∧ Rearranged s.arr.elems s'.arr.elems start.toNat end_.toNat) := by
  have hnode := h _ _ hproc
  have hat : s.At pid start end_ pc := hnode.shape
  have hle : start.toNat ≤ end_.toNat := hnode.le
  have hfits : end_.toNat ≤ s.arr.length := hnode.fits
  have hput : ∀ status arr', Evolves s (System.put { s with arr := arr' } pid ⟨start, end_, status⟩) pid :=
    fun status arr' => (Evolves.refl s pid).put hproc (by rw [hproc]; exact Option.some_ne_none _) arr'
  unfold System.next at hnext
  cases pc with
  | entry =>
    cases ok with
    | false => cases hnext
    | true =>
      cases hnext
      dsimp only
      rw [if_pos (UInt64.le_iff_toNat_le.2 hle)]
      split
      · exact ⟨hput _ s.arr, .inl rfl⟩
      · split
        · exact ⟨hput _ _, .inr ⟨rfl, (qsort_sorts hq hle hfits).rearranged⟩⟩
        · split
          · rename_i hpart
            exact ⟨hput _ _, .inr ⟨rfl, partition_error hfits hpart⟩⟩
          · rename_i hpart
            exact ⟨hput _ _, .inr ⟨rfl, (partition_ok hpart).rearranged⟩⟩
  | forkLeft mid =>
    cases ok <;> cases hnext
    · exact ⟨hput _ s.arr, .inl rfl⟩
    · exact ⟨(hput _ s.arr).spawn (hat.1 .left) rfl, .inl rfl⟩
  | forkRight mid =>
    cases ok <;> cases hnext
    · exact ⟨hput _ s.arr, .inl rfl⟩
    · exact ⟨(hput _ s.arr).spawn hat.2.1 rfl, .inl rfl⟩
  | killLeft =>
    cases ok <;> cases hnext
    exact ⟨(hput _ s.arr).kill hat.1, .inl (arr_kill _ _)⟩
  | killRight =>
    cases ok <;> cases hnext
    exact ⟨(hput _ s.arr).kill hat.2.1, .inl (arr_kill _ _)⟩
  | reapLeft | reapRight | waitLeft | waitRight =>
    cases ok with
    | false =>
      cases hnext
      exact ⟨hput _ s.arr, .inl rfl⟩
    | true =>
      obtain ⟨outcome, -, rfl⟩ := Option.map_eq_some_iff.1 hnext
      exact ⟨hput _ s.arr, .inl rfl⟩
  | leave value =>
    cases ok <;> cases hnext
    exact ⟨hput _ s.arr, .inl rfl⟩

/-! ## Whole runs -/

variable {q : Qsort} {parThreshold : UInt64} {a : Action}

/-- A step is one of a running process: it goes on, a call fails, or a signal ends it. -/
theorem Step.cases (hstep : Step q parThreshold s a s') :
    ∃ start end_ pc sigterm, s.procs a.pid = some ⟨start, end_, .running pc sigterm⟩ ∧
      ((∃ ok, a.kind = (if ok then .goesOn else .fails) ∧
          s.next q parThreshold a.pid start end_ sigterm pc ok = some s') ∨
        a.kind = .dies ∧ ∃ arr', (arr' = s.arr ∨ pc = .entry ∧ Spares s.arr arr' start.toNat end_.toNat) ∧
          s' = System.put { s with arr := arr' } a.pid ⟨start, end_, .ended (.abnormal .killed)⟩) := by
  cases hstep with
  | killed hproc harr => exact ⟨_, _, _, _, hproc, .inr ⟨rfl, _, harr, rfl⟩⟩
  | next hstep =>
    obtain ⟨pid, kind⟩ := a
    unfold System.step at hstep
    split at hstep
    · rename_i start end_ pc sigterm hproc
      refine ⟨start, end_, pc, sigterm, hproc, ?_⟩
      cases kind with
      | goesOn => exact .inl ⟨true, rfl, hstep⟩
      | fails => exact .inl ⟨false, rfl, hstep⟩
      | dies =>
        dsimp only at hstep
        split at hstep
        · cases hstep
          exact .inr ⟨rfl, s.arr, .inl rfl, rfl⟩
        · cases hstep
    · cases hstep

theorem Inv.step (hq : q.Lawful) (h : Inv s) (hstep : Step q parThreshold s a s') : Inv s' := by
  obtain ⟨start, end_, pc, sigterm, hproc, ⟨ok, -, hnext⟩ | ⟨-, arr', harr, rfl⟩⟩ := hstep.cases
  · exact h.next hq hproc hnext
  · have hfree : s.Free a.pid start end_ := (h _ _ hproc).shape.free
    rcases harr with rfl | ⟨rfl, hspares⟩
    · exact h.goto (.ended (.abnormal .killed)) hproc hfree
    · have hnone : s.Childless a.pid := (h _ _ hproc).shape
      exact h.work hproc hnone hspares (.inr rfl) (.inl (childless_put hnone))

theorem Inv.step_evolves (hq : q.Lawful) (h : Inv s) (hstep : Step q parThreshold s a s') :
    Evolves s s' a.pid := by
  obtain ⟨start, end_, pc, sigterm, hproc, ⟨ok, -, hnext⟩ | ⟨-, arr', -, rfl⟩⟩ := hstep.cases
  · exact (h.next_evolves hq hproc hnext).1
  · exact (Evolves.refl s a.pid).put hproc (by rw [hproc]; exact Option.some_ne_none _) arr'

/-- Only a process at `entry` writes, in its region; it moves elements there, unless a signal ends it. -/
theorem Inv.step_arr (hq : q.Lawful) (h : Inv s) (hstep : Step q parThreshold s a s') :
    s'.arr = s.arr ∨ ∃ start end_ sigterm,
      s.procs a.pid = some ⟨start, end_, .running .entry sigterm⟩ ∧
      Spares s.arr s'.arr start.toNat end_.toNat ∧
      (Rearranged s.arr.elems s'.arr.elems start.toNat end_.toNat ∨ a.kind = .dies) := by
  obtain ⟨start, end_, pc, sigterm, hproc, ⟨ok, -, hnext⟩ | ⟨hdies, arr', harr, rfl⟩⟩ := hstep.cases
  · refine (h.next_evolves hq hproc hnext).2.imp_right ?_
    rintro ⟨rfl, hre⟩
    exact ⟨start, end_, sigterm, hproc, .of_rearranged hre, .inl hre⟩
  · refine harr.imp_right ?_
    rintro ⟨rfl, hspares⟩
    exact ⟨start, end_, sigterm, hproc, hspares, .inr hdies⟩

theorem Step.wait_of_dies (hstep : Step q parThreshold s a s') (hdies : a.kind = .dies) :
    s'.wait a.pid = some (.abnormal .killed) := by
  obtain ⟨start, end_, pc, sigterm, -, ⟨ok, hkind, -⟩ | ⟨-, arr', -, rfl⟩⟩ := hstep.cases
  · rw [hdies] at hkind
    cases ok <;> cases hkind
  · exact wait_eq_some.2 ⟨start, end_, by rw [procs_put, if_pos rfl]⟩

/-- What holds in every state reached from the root call on `[start, end_)` of `arr`. -/
structure Sound (arr : Mapping) (start end_ : UInt64) (acts : List Action) (s : System) : Prop where
  inv : Inv s
  root : ∃ status, s.procs [] = some ⟨start, end_, status⟩
  spares : Spares arr s.arr start.toNat end_.toNat
  perm : (∃ a ∈ acts, a.kind = .dies) ∨ Rearranged arr.elems s.arr.elems start.toNat end_.toNat
  killed : ∀ a ∈ acts, a.kind = .dies → s.Killed []

theorem Inv.init {arr : Mapping} (hse : start ≤ end_) (hend : end_.toNat ≤ arr.length) :
    Inv (init arr start end_) := by
  intro pid c hc
  unfold System.init at hc
  dsimp only at hc
  split at hc
  · rename_i hpid
    cases hc
    subst hpid
    refine ⟨UInt64.le_iff_toNat_le.1 hse, hend, fun side up hup => (by cases hup), ?_⟩
    intro side
    rfl
  · cases hc

/-- Every process has a part of the root's region. -/
theorem Sound.region_sub {arr : Mapping} {acts : List Action} (h : Sound arr start end_ acts s) {c : Proc}
    (hc : s.procs pid = some c) :
    ∀ i, c.start.toNat ≤ i → i < c.end_.toNat → start.toNat ≤ i ∧ i < end_.toNat := by
  obtain ⟨status, hroot⟩ := h.root
  obtain ⟨T, hT, hsub⟩ := h.inv.nested.sub List.nil_suffix (owns_of_procs hc)
  rw [owns_of_procs hroot] at hT
  cases hT
  exact fun i h1 h2 => hsub (Set.mem_Ico.2 ⟨h1, h2⟩)

theorem Sound.step {arr : Mapping} {acts : List Action} (hq : q.Lawful)
    (h : Sound arr start end_ acts s) (hstep : Step q parThreshold s a s') :
    Sound arr start end_ (acts ++ [a]) s' := by
  obtain ⟨status, hroot⟩ := h.root
  have hev := h.inv.step_evolves hq hstep
  obtain ⟨status', hroot', -⟩ := hev.old _ _ hroot
  obtain ⟨st, en, pc, sigterm, hproc, -⟩ := hstep.cases
  refine ⟨h.inv.step hq hstep, ⟨status', hroot'⟩, ?_, ?_, ?_⟩
  · rcases h.inv.step_arr hq hstep with heq | ⟨st', en', sigterm', hentry, hspares, -⟩
    · rw [heq]
      exact h.spares
    · have hsub := h.region_sub hentry
      refine ⟨by rw [hspares.length_eq, h.spares.length_eq], fun i hi => ?_⟩
      rw [hspares.frame i, h.spares.frame i hi]
      by_contra hin
      obtain ⟨h1, h2⟩ := not_or.1 hin
      have hin' := hsub i (Nat.not_lt.1 h1) (Nat.not_le.1 h2)
      omega
  · rcases h.perm with ⟨b, hb, hdies⟩ | hre
    · exact .inl ⟨b, List.mem_append_left _ hb, hdies⟩
    · rcases h.inv.step_arr hq hstep with heq | ⟨st', en', sigterm', hentry, -, hre' | hdies⟩
      · rw [heq]
        exact .inr hre
      · exact .inr (hre.trans (hre'.of_subset (h.region_sub hentry)))
      · exact .inl ⟨a, List.mem_append_right _ (List.mem_singleton.2 rfl), hdies⟩
  · intro b hb hdies
    rcases List.mem_append.1 hb with hb | hb
    · obtain ⟨low, hlow, hwait⟩ := h.killed b hb hdies
      exact ⟨low, hlow, hev.wait hproc hwait⟩
    · cases List.mem_singleton.1 hb
      exact ⟨_, List.nil_suffix, hstep.wait_of_dies hdies⟩

/-- **Run**: every interleaving keeps the invariant. -/
theorem Reached.sound {arr : Mapping} {acts : List Action} (hq : q.Lawful) (hse : start ≤ end_)
    (hend : end_.toNat ≤ arr.length) (h : Reached q parThreshold arr start end_ acts s) :
    Sound arr start end_ acts s := by
  induction h with
  | init =>
    exact ⟨.init hse hend, ⟨_, rfl⟩, ⟨rfl, fun _ _ => rfl⟩, .inr (.refl _ _ _), fun a ha => by cases ha⟩
  | step _ hstep ih => exact ih.step hq hstep

/-- When the root has answered 1, everything has. -/
theorem Sound.all_answered {arr : Mapping} {acts : List Action} (h : Sound arr start end_ acts s)
    (hone : s.wait [] = some (.returned 1)) {low : Pid} (hlow : s.procs low ≠ none) :
    s.wait low = some (.returned 1) := by
  by_cases hroot : low = []
  · rw [hroot]
    exact hone
  · obtain ⟨c, hc, hdone⟩ := h.inv.done hone
    exact h.inv.settled hdone.children List.nil_suffix hroot hlow

/-- The answer 1: no process was killed, and the region is in order. -/
theorem Sound.sorts {arr : Mapping} {acts : List Action} (h : Sound arr start end_ acts s)
    (hone : s.wait [] = some (.returned 1)) :
    Sorts (· ≤ ·) arr.elems s.arr.elems start.toNat end_.toNat := by
  obtain ⟨status, hroot⟩ := h.root
  obtain ⟨c, hc, hdone⟩ := h.inv.done hone
  rw [hroot] at hc
  cases hc
  refine ⟨h.perm.resolve_left ?_, hdone.sorted⟩
  rintro ⟨a, ha, hdies⟩
  obtain ⟨low, -, hwait⟩ := h.killed a ha hdies
  obtain ⟨st, en, hlow⟩ := wait_eq_some.1 hwait
  have hanswered := h.all_answered hone (by rw [hlow]; exact Option.some_ne_none _)
  rw [hwait] at hanswered
  cases hanswered

theorem Reached.run {arr : Mapping} {acts acts' : List Action}
    (h : Reached q parThreshold arr start end_ acts s) (hrun : s.run q parThreshold acts' = some s') :
    Reached q parThreshold arr start end_ (acts ++ acts') s' := by
  induction acts' generalizing acts s with
  | nil =>
    cases hrun
    rw [List.append_nil]
    exact h
  | cons a acts' ih =>
    obtain ⟨s₁, hstep, hrest⟩ := Option.bind_eq_some_iff.1 hrun
    rw [List.append_cons]
    exact ih (h.step (.next hstep)) hrest

end System

/-- **No two writers.** In every interleaving, only a process that has not forked yet writes the array, in
its own region; that is a part of the root's, and no other such process has an index of it. An access outside
the array is the end of the process, so it writes nothing there. -/
theorem reached_disjoint (q : Qsort) (hq : q.Lawful) (arr : Mapping) (start end_ parThreshold : UInt64)
    (hse : start ≤ end_) (hend : end_.toNat ≤ arr.length) (acts : List Action) (s : System)
    (hrun : System.Reached q parThreshold arr start end_ acts s) :
    (∀ a s', System.Step q parThreshold s a s' → s'.arr ≠ s.arr → ∃ st en sigterm,
      s.procs a.pid = some ⟨st, en, .running .entry sigterm⟩ ∧ Spares s.arr s'.arr st.toNat en.toNat) ∧
    ∀ pid st en sigterm, s.procs pid = some ⟨st, en, .running .entry sigterm⟩ →
      ∀ i, st.toNat ≤ i → i < en.toNat → (start.toNat ≤ i ∧ i < end_.toNat) ∧
        ∀ other st' en' sigterm', other ≠ pid →
          s.procs other = some ⟨st', en', .running .entry sigterm'⟩ → ¬(st'.toNat ≤ i ∧ i < en'.toNat) := by
  have hsound := hrun.sound hq hse hend
  refine ⟨?_, ?_⟩
  · intro a s' hstep hne
    obtain ⟨st, en, sigterm, hproc, hspares, -⟩ := (hsound.inv.step_arr hq hstep).resolve_left hne
    exact ⟨st, en, sigterm, hproc, hspares⟩
  · intro pid st en sigterm hproc i h1 h2
    refine ⟨hsound.region_sub hproc i h1 h2, ?_⟩
    rintro other st' en' sigterm' hne hother ⟨h3, h4⟩
    have hnone : s.Childless pid := (hsound.inv _ _ hproc).shape
    have hnone' : s.Childless other := (hsound.inv _ _ hother).shape
    have hapart := hsound.inv.apart hproc hnone hother hne
      (hsound.inv.not_below hnone' hproc (Ne.symm hne)) i h3 h4
    omega

theorem partition_321 : partition ⟨[3, 2, 1], by decide⟩ 0 3 = .ok 1 ⟨[1, 2, 3], by decide⟩ := by
  refine partition_eq 2 ⟨[1, 3, 2], by decide⟩ (by decide) (by decide) rfl rfl ?_ rfl
  rw [partitionLoop_swap (x := 3) (y := 1) (by decide) rfl (by decide) rfl (by decide) rfl,
    partitionLoop_left (x := 1) (by decide) rfl (by decide),
    partitionLoop_right (x := 3) (y := 3) (by decide) rfl (by decide) rfl (by decide),
    partitionLoop_done (by decide)]
  rfl

/-- Both children are about to sort. -/
theorem reached_321 : ∃ s,
    System.Reached mergeQsort 1 ⟨[3, 2, 1], by decide⟩ 0 3 [⟨[], .goesOn⟩, ⟨[], .goesOn⟩, ⟨[], .goesOn⟩] s ∧
      s.procs [.left] = some ⟨0, 1, .running .entry false⟩ ∧
      s.procs [.right] = some ⟨2, 3, .running .entry false⟩ := by
  have hentry : (System.init ⟨[3, 2, 1], by decide⟩ 0 3).step mergeQsort 1 ⟨[], .goesOn⟩ = some _ :=
    System.step_partition rfl (by decide) (by decide) (by decide) partition_321
  have hrun : ((System.init ⟨[3, 2, 1], by decide⟩ 0 3).run mergeQsort 1 [⟨[], .goesOn⟩,
      ⟨[], .goesOn⟩, ⟨[], .goesOn⟩]).map (fun s => (s.procs [.left], s.procs [.right])) =
        some (some ⟨0, 1, .running .entry false⟩, some ⟨2, 3, .running .entry false⟩) := by
    rw [System.run_cons hentry]
    rfl
  obtain ⟨s, hrun, hprocs⟩ := Option.map_eq_some_iff.1 hrun
  obtain ⟨hleft, hright⟩ := Prod.mk.inj hprocs
  exact ⟨s, System.Reached.init.run hrun, hleft, hright⟩

theorem reached_disjoint_321 : ∃ acts s, System.Reached mergeQsort 1 ⟨[3, 2, 1], by decide⟩ 0 3 acts s ∧
    s.procs [.left] = some ⟨0, 1, .running .entry false⟩ ∧
    s.procs [.right] = some ⟨2, 3, .running .entry false⟩ ∧
    ¬((0 : UInt64).toNat ≤ 2 ∧ 2 < (1 : UInt64).toNat) := by
  obtain ⟨s, hreached, hleft, hright⟩ := reached_321
  have hdisjoint := (reached_disjoint mergeQsort mergeQsort_lawful _ 0 3 1 (by decide) (by decide) _ s hreached).2
    [.right] 2 3 false hright 2 (by decide) (by decide)
  exact ⟨_, s, hreached, hleft, hright, hdisjoint.2 [.left] 0 1 false (by decide) hleft⟩

/-- The right child goes first. -/
theorem reached_2341 : ∃ acts s, System.Reached mergeQsort 3 ⟨[2, 3, 4, 1], by decide⟩ 0 4 acts s ∧
    s.wait [] = some (.returned 1) := by
  have hentry : (System.init ⟨[2, 3, 4, 1], by decide⟩ 0 4).step mergeQsort 3 ⟨[], .goesOn⟩ = some _ :=
    System.step_partition rfl (by decide) (by decide) (by decide) partition_2341
  have hrun : ((System.init ⟨[2, 3, 4, 1], by decide⟩ 0 4).run mergeQsort 3 [⟨[], .goesOn⟩,
      ⟨[], .goesOn⟩, ⟨[], .goesOn⟩, ⟨[.right], .goesOn⟩, ⟨[.left], .goesOn⟩, ⟨[.right], .goesOn⟩,
      ⟨[.left], .goesOn⟩, ⟨[], .goesOn⟩, ⟨[], .goesOn⟩, ⟨[], .goesOn⟩]).map (·.wait []) =
        some (some (.returned 1)) := by
    rw [System.run_cons hentry]
    rfl
  obtain ⟨s, hrun, hret⟩ := Option.map_eq_some_iff.1 hrun
  exact ⟨_, s, System.Reached.init.run hrun, hret⟩

end CsfAssignments.Parsort
