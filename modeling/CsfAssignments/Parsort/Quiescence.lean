import CsfAssignments.Parsort.Processes
/-!
# When `quicksort` returns, who is still running?

A process looks after its children until it has waited for them. `Supervised` says that every running
process but the root has a parent that still means to wait for it; then nothing is left once the root has
returned (`Supervised.quiescent`). Two kinds of steps break it, and no others (`Supervised.step_iff`): a
`waitpid` that fails while the child is running, and a `SIGTERM` that ends a process before its children.
-/

namespace CsfAssignments.Parsort

/-! ## Who may have a running child -/

/-- The children a process may have left running at `pc`, when nothing went wrong. -/
def Pc.mayRun : Pc → Side → Bool
  | .forkRight _, .left | .killLeft, .left | .reapLeft, .left => true
  | .waitLeft, _ => true
  | .killRight, .right | .reapRight, .right | .waitRight _, .right => true
  | _, _ => false

def Status.mayRun : Status → Side → Bool
  | .running pc _, side => pc.mayRun side
  | .ended _, _ => false

/-- The child that a `waitpid` at `pc` names. -/
def Pc.waitsFor : Pc → Option Side
  | .reapLeft | .waitLeft => some .left
  | .reapRight | .waitRight _ => some .right
  | _ => none

namespace System

def mayRun (s : System) (pid : Pid) (side : Side) : Bool :=
  match s.procs pid with
  | some proc => proc.status.mayRun side
  | none => false

/-- Every running process but the root has a parent that still means to wait for it. -/
def Supervised (s : System) : Prop :=
  ∀ pid side, s.running (side :: pid) = true → s.mayRun pid side = true

variable {s : System} {pid p : Pid} {side : Side}

theorem procs_put (s : System) (pid p : Pid) (proc : Proc) :
    (s.put pid proc).procs p = if p = pid then some proc else s.procs p := by
  unfold put
  exact Function.update_apply ..

theorem running_put (s : System) (pid p : Pid) (proc : Proc) :
    (s.put pid proc).running p = if p = pid then proc.status.isRunning else s.running p := by
  unfold running
  rw [procs_put]
  by_cases hp : p = pid
  · rw [if_pos hp, if_pos hp]
  · rw [if_neg hp, if_neg hp]

theorem mayRun_put (s : System) (pid p : Pid) (proc : Proc) (side : Side) :
    (s.put pid proc).mayRun p side = if p = pid then proc.status.mayRun side else s.mayRun p side := by
  unfold mayRun
  rw [procs_put]
  by_cases hp : p = pid
  · rw [if_pos hp, if_pos hp]
  · rw [if_neg hp, if_neg hp]

/-- A pending signal changes nothing yet. -/
theorem kill_keeps (s : System) (pid p : Pid) (side : Side) :
    (s.kill pid).running p = s.running p ∧ (s.kill pid).mayRun p side = s.mayRun p side := by
  unfold kill
  split
  · rename_i start end_ pc sigterm hproc
    rw [running_put, mayRun_put]
    by_cases hp : p = pid
    · subst hp
      rw [if_pos rfl, if_pos rfl, running, mayRun, hproc]
      exact ⟨rfl, rfl⟩
    · rw [if_neg hp, if_neg hp]
      exact ⟨rfl, rfl⟩
  · exact ⟨rfl, rfl⟩

theorem not_running_of_wait {outcome : Outcome} (h : s.wait pid = some outcome) :
    s.running pid = false := by
  unfold wait at h
  unfold running
  split at h
  · rename_i hproc
    rw [hproc]
    rfl
  · cases h

/-- A `waitpid` that has returned. -/
theorem waited {f : Outcome → System} {s' : System} (h : (s.wait pid).map f = some s') :
    ∃ outcome, s' = f outcome ∧ s.running pid = false := by
  obtain ⟨outcome, hwait, rfl⟩ := Option.map_eq_some_iff.1 h
  exact ⟨outcome, rfl, not_running_of_wait hwait⟩

theorem Supervised.kill (h : Supervised s) (pid : Pid) : Supervised (s.kill pid) := by
  intro p side hrun
  obtain ⟨hr, hm⟩ := kill_keeps s pid p side
  rw [hm]
  rw [(kill_keeps s pid (side :: p) side).1] at hrun
  exact h p side hrun

/-- A running process moves on, or ends. -/
theorem Supervised.put (h : Supervised s) (hpid : s.running pid = true) {start end_ : UInt64}
    {status : Status}
    (hstatus : ∀ side, s.running (side :: pid) = true → status.mayRun side = true) :
    Supervised (s.put pid ⟨start, end_, status⟩) := by
  intro p side hrun
  rw [running_put] at hrun
  rw [mayRun_put]
  by_cases hp : p = pid
  · subst hp
    rw [if_neg (List.cons_ne_self side p)] at hrun
    rw [if_pos rfl]
    exact hstatus side hrun
  · rw [if_neg hp]
    by_cases hchild : side :: p = pid
    · rw [← hchild] at hpid
      exact h p side hpid
    · rw [if_neg hchild] at hrun
      exact h p side hrun

/-- What is not running has no running child. -/
theorem Supervised.none_below (h : Supervised s) (hpid : s.running pid = false) (side : Side) :
    s.running (side :: pid) = false := by
  by_contra hrun
  have hmay := h pid side (by simpa using hrun)
  unfold mayRun at hmay
  unfold running at hpid
  cases hproc : s.procs pid with
  | none =>
    rw [hproc] at hmay
    cases hmay
  | some proc =>
    rw [hproc] at hmay hpid
    obtain ⟨start, end_, status⟩ := proc
    cases status with
    | running pc sigterm => cases hpid
    | ended outcome => cases hmay

/-- A child is created where there was none. -/
theorem Supervised.spawn (h : Supervised s) (hmay : s.mayRun pid side = true)
    (hnew : s.running (side :: pid) = false) (start end_ : UInt64) :
    Supervised (s.put (side :: pid) ⟨start, end_, .running .entry false⟩) := by
  intro p side' hrun
  rw [running_put] at hrun
  rw [mayRun_put]
  by_cases hp : p = side :: pid
  · subst hp
    rw [if_neg (List.cons_ne_self side' _), h.none_below hnew] at hrun
    cases hrun
  · rw [if_neg hp]
    by_cases hchild : side' :: p = side :: pid
    · obtain ⟨rfl, rfl⟩ := List.cons.inj hchild
      exact hmay
    · rw [if_neg hchild] at hrun
      exact h p side' hrun

/-- **What a process does** at `pc`: it goes on, ends, creates a child or signals one. A child it may
have had it still may have, unless a `waitpid` for it is over. -/
inductive Effect (s : System) (pid : Pid) (start end_ : UInt64) (sigterm : Bool) (pc : Pc) (ok : Bool) :
    System → Prop
  | moves (pc' : Pc) (arr : Mapping)
      (hkeep : ∀ side, pc.mayRun side = true → pc'.mayRun side = true ∨
        pc.waitsFor = some side ∧ (ok = true → s.running (side :: pid) = false)) :
      Effect s pid start end_ sigterm pc ok
        (System.put { s with arr := arr } pid ⟨start, end_, .running pc' sigterm⟩)
  | ends (outcome : Outcome) (arr : Mapping) (hnone : ∀ side, pc.mayRun side = false) :
      Effect s pid start end_ sigterm pc ok
        (System.put { s with arr := arr } pid ⟨start, end_, .ended outcome⟩)
  | forks (side : Side) (pc' : Pc) (start' end' : UInt64) (hold : pc.mayRun side = false)
      (hnew : pc'.mayRun side = true) (hkeep : ∀ side, pc.mayRun side = true → pc'.mayRun side = true) :
      Effect s pid start end_ sigterm pc ok
        ((s.put pid ⟨start, end_, .running pc' sigterm⟩).put (side :: pid)
          ⟨start', end', .running .entry false⟩)
  | signals (side : Side) (pc' : Pc)
      (hkeep : ∀ side, pc.mayRun side = true → pc'.mayRun side = true) :
      Effect s pid start end_ sigterm pc ok
        ((s.put pid ⟨start, end_, .running pc' sigterm⟩).kill (side :: pid))

/-- A process without children moves on. -/
theorem Effect.idle {start end_ : UInt64} {sigterm : Bool} {pc pc' : Pc} {ok : Bool} {arr : Mapping}
    (hnone : ∀ side, pc.mayRun side = false) :
    Effect s pid start end_ sigterm pc ok
      (System.put { s with arr := arr } pid ⟨start, end_, .running pc' sigterm⟩) := by
  refine .moves pc' arr fun side hside => ?_
  rw [hnone side] at hside
  cases hside

/-- A process leaves after it has waited for its only child, or `waitpid` has failed. -/
theorem Effect.left {start end_ : UInt64} {sigterm : Bool} {pc : Pc} {ok : Bool} {value : Int32}
    (hwaits : pc.waitsFor = some side) (honly : ∀ side', pc.mayRun side' = true → side' = side)
    (hgone : ok = true → s.running (side :: pid) = false) :
    Effect s pid start end_ sigterm pc ok (s.put pid ⟨start, end_, .running (.leave value) sigterm⟩) := by
  refine .moves (.leave value) s.arr fun side' hside => .inr ?_
  rw [honly side' hside]
  exact ⟨hwaits, hgone⟩

theorem next_effect {q : Qsort} {parThreshold start end_ : UInt64} {sigterm : Bool} {pc : Pc} {ok : Bool}
    {s' : System} (hnext : s.next q parThreshold pid start end_ sigterm pc ok = some s') :
    Effect s pid start end_ sigterm pc ok s' := by
  unfold System.next at hnext
  cases pc with
  | entry =>
    cases ok with
    | false => cases hnext
    | true =>
      cases hnext
      dsimp only
      split
      · split
        · exact .idle fun _ => rfl
        · split
          · exact .idle fun _ => rfl
          · split
            · exact .ends _ _ fun _ => rfl
            · exact .idle fun _ => rfl
      · exact .ends _ s.arr fun _ => rfl
  | forkLeft mid =>
    cases ok with
    | false =>
      cases hnext
      exact .idle fun _ => rfl
    | true =>
      cases hnext
      exact .forks .left (.forkRight mid) start mid rfl rfl fun _ h => by cases h
  | forkRight mid =>
    cases ok with
    | false =>
      cases hnext
      exact .moves .killLeft s.arr fun side h => .inl (by cases side <;> exact h)
    | true =>
      cases hnext
      exact .forks .right .waitLeft (mid + 1) end_ rfl rfl fun _ _ => rfl
  | killLeft =>
    cases ok with
    | false => cases hnext
    | true =>
      cases hnext
      exact .signals .left .reapLeft fun side h => by cases side <;> exact h
  | killRight =>
    cases ok with
    | false => cases hnext
    | true =>
      cases hnext
      exact .signals .right .reapRight fun side h => by cases side <;> exact h
  | waitLeft =>
    cases ok with
    | false =>
      cases hnext
      refine .moves .killRight s.arr fun side h => ?_
      cases side with
      | left => exact .inr ⟨rfl, fun h => by cases h⟩
      | right => exact .inl rfl
    | true =>
      obtain ⟨left, rfl, hgone⟩ := waited hnext
      refine .moves (.waitRight left.childSuccess) s.arr fun side h => ?_
      cases side with
      | left => exact .inr ⟨rfl, fun _ => hgone⟩
      | right => exact .inl rfl
  | reapLeft | reapRight | waitRight leftSuccess =>
    cases ok with
    | false =>
      cases hnext
      refine .left rfl (fun side h => ?_) fun h => by cases h
      cases side <;> cases h
      rfl
    | true =>
      obtain ⟨outcome, rfl, hgone⟩ := waited hnext
      refine .left rfl (fun side h => ?_) fun _ => hgone
      cases side <;> cases h
      rfl
  | leave value =>
    cases ok with
    | false => cases hnext
    | true =>
      cases hnext
      exact .ends _ s.arr fun _ => rfl

/-! ## Steps that leave no child behind -/

/-- No `waitpid` fails while the child it names is running, and `SIGTERM` ends no process that has a
running child. -/
def Careful (s : System) (a : Action) : Prop :=
  match a.kind with
  | .goesOn => True
  | .fails => ∀ start end_ pc sigterm side, s.procs a.pid = some ⟨start, end_, .running pc sigterm⟩ →
      pc.waitsFor = some side → s.running (side :: a.pid) = false
  | .dies => ∀ side, s.running (side :: a.pid) = false

theorem running_of_procs {start end_ : UInt64} {pc : Pc} {sigterm : Bool}
    (hproc : s.procs pid = some ⟨start, end_, .running pc sigterm⟩) : s.running pid = true := by
  unfold running
  rw [hproc]
  rfl

/-- A child that runs is one that its parent may have at its `pc`. -/
theorem Supervised.child_mayRun (h : Supervised s) {start end_ : UInt64} {pc : Pc} {sigterm : Bool}
    (hproc : s.procs pid = some ⟨start, end_, .running pc sigterm⟩)
    (hrun : s.running (side :: pid) = true) : pc.mayRun side = true := by
  have hmay := h pid side hrun
  unfold mayRun at hmay
  rw [hproc] at hmay
  exact hmay

/-- A process ends with no child running. -/
theorem Supervised.finish (h : Supervised s) (hpid : s.running pid = true) {outcome : Outcome}
    {start end_ : UInt64} (hgone : ∀ side, s.running (side :: pid) = false) :
    Supervised (s.put pid ⟨start, end_, .ended outcome⟩) := by
  refine h.put hpid fun side hrun => ?_
  rw [hgone side] at hrun
  cases hrun

/-- **Step**: a process that goes on, or whose `waitpid` fails in time, leaves no child behind. -/
theorem Supervised.next (h : Supervised s) {q : Qsort} {parThreshold start end_ : UInt64}
    {sigterm : Bool} {pc : Pc} {ok : Bool} {s' : System}
    (hproc : s.procs pid = some ⟨start, end_, .running pc sigterm⟩)
    (hcare : ok = false → ∀ side, pc.waitsFor = some side → s.running (side :: pid) = false)
    (hnext : s.next q parThreshold pid start end_ sigterm pc ok = some s') : Supervised s' := by
  have hpid := running_of_procs hproc
  have hmay : ∀ side, s.running (side :: pid) = true → pc.mayRun side = true := fun side => h.child_mayRun hproc
  cases next_effect hnext with
  | moves pc' arr hkeep =>
    refine Supervised.put (s := { s with arr := arr }) h hpid fun side hrun => ?_
    have hrun' : s.running (side :: pid) = true := hrun
    rcases hkeep side (hmay side hrun') with hpc' | ⟨hwaits, hdone⟩
    · exact hpc'
    · have hgone : s.running (side :: pid) = false := by
        cases ok with
        | false => exact hcare rfl side hwaits
        | true => exact hdone rfl
      rw [hgone] at hrun'
      cases hrun'
  | ends outcome arr hnone =>
    refine Supervised.put (s := { s with arr := arr }) h hpid fun side hrun => ?_
    have hside := hmay side hrun
    rw [hnone side] at hside
    cases hside
  | forks side pc' start' end' hold hnew hkeep =>
    have hchild : ∀ side, s.running (side :: pid) = true →
        (Status.running pc' sigterm).mayRun side = true := fun side hrun => hkeep side (hmay side hrun)
    refine (h.put hpid hchild).spawn ?_ ?_ start' end'
    · rw [mayRun_put, if_pos rfl]
      exact hnew
    · rw [running_put, if_neg (List.cons_ne_self side pid)]
      by_contra hrun
      rw [hmay side (by simpa using hrun)] at hold
      cases hold
  | signals side pc' hkeep =>
    have hchild : ∀ side, s.running (side :: pid) = true →
        (Status.running pc' sigterm).mayRun side = true := fun side hrun => hkeep side (hmay side hrun)
    exact (h.put hpid hchild).kill _

theorem Supervised.step (h : Supervised s) {q : Qsort} {parThreshold : UInt64} {a : Action}
    {s' : System} (hcare : s.Careful a) (hstep : s.step q parThreshold a = some s') :
    Supervised s' := by
  obtain ⟨pid, kind⟩ := a
  unfold System.step at hstep
  split at hstep
  · rename_i start end_ pc sigterm hproc
    cases kind with
    | goesOn => exact h.next hproc (fun hok => by cases hok) hstep
    | fails => exact h.next hproc (fun _ side => hcare start end_ pc sigterm side hproc) hstep
    | dies =>
      dsimp only at hstep
      split at hstep
      · cases hstep
        exact h.finish (running_of_procs hproc) hcare
      · cases hstep
  · cases hstep

/-- The condition is exact: a step that is not careful does leave a child behind. -/
theorem Supervised.step_iff (h : Supervised s) {q : Qsort} {parThreshold : UInt64} {a : Action}
    {s' : System} (hstep : s.step q parThreshold a = some s') : Supervised s' ↔ s.Careful a := by
  refine ⟨?_, fun hcare => h.step hcare hstep⟩
  intro h'
  -- in `s'` the process no longer means to wait for the child
  have hlost : ∀ (side : Side) (start end_ : UInt64) (status : Status),
      status.mayRun side = false → s' = s.put a.pid ⟨start, end_, status⟩ →
      s.running (side :: a.pid) = false := by
    rintro side start end_ status hstatus rfl
    by_contra hrun
    have hmay := h' a.pid side (by
      rw [running_put, if_neg (List.cons_ne_self side a.pid)]
      simpa using hrun)
    rw [mayRun_put, if_pos rfl, hstatus] at hmay
    cases hmay
  obtain ⟨pid, kind⟩ := a
  unfold Careful
  cases kind with
  | goesOn => trivial
  | fails =>
    intro start end_ pc sigterm side hproc hwaits
    unfold System.step at hstep
    rw [hproc] at hstep
    cases pc <;> cases hwaits <;> cases hstep
    · exact hlost .left start end_ (.running (.leave 0) sigterm) rfl rfl
    · exact hlost .left start end_ (.running .killRight sigterm) rfl rfl
    · exact hlost .right start end_ (.running (.leave _) sigterm) rfl rfl
    · exact hlost .right start end_ (.running (.leave _) sigterm) rfl rfl
  | dies =>
    intro side
    unfold System.step at hstep
    split at hstep
    · rename_i start end_ pc sigterm hproc
      dsimp only at hstep
      split at hstep
      · cases hstep
        exact hlost side start end_ (.ended (.abnormal .killed)) rfl rfl
      · cases hstep
    · cases hstep

/-- Every step of the run is careful. -/
def CarefulRun (q : Qsort) (parThreshold : UInt64) : System → List Action → Prop
  | _, [] => True
  | s, a :: acts =>
    s.Careful a ∧ ∀ s', s.step q parThreshold a = some s' → CarefulRun q parThreshold s' acts

theorem carefulRun_of_goesOn {q : Qsort} {parThreshold : UInt64} {acts : List Action}
    (hacts : ∀ a ∈ acts, a.kind = .goesOn) : CarefulRun q parThreshold s acts := by
  induction acts generalizing s with
  | nil => trivial
  | cons a acts ih =>
    refine ⟨?_, fun s' _ => ih fun b hb => hacts b (List.mem_cons_of_mem _ hb)⟩
    unfold Careful
    rw [hacts a (List.mem_cons_self ..)]
    trivial

theorem carefulRun_cons {q : Qsort} {parThreshold : UInt64} {a : Action} {acts : List Action}
    {s' : System} (h : s.step q parThreshold a = some s') (ha : s.Careful a)
    (hrest : CarefulRun q parThreshold s' acts) : CarefulRun q parThreshold s (a :: acts) := by
  refine ⟨ha, ?_⟩
  intro s'' h'
  rw [h] at h'
  cases h'
  exact hrest

theorem run_cons {q : Qsort} {parThreshold : UInt64} {a : Action} {acts : List Action} {s' : System}
    (h : s.step q parThreshold a = some s') :
    s.run q parThreshold (a :: acts) = s'.run q parThreshold acts := by
  unfold System.run
  rw [List.foldlM_cons, h]
  rfl

/-- The first step of a process that will fork. -/
theorem step_partition {q : Qsort} {parThreshold start end_ mid : UInt64} {sigterm : Bool}
    {arr' : Mapping} (hproc : s.procs pid = some ⟨start, end_, .running .entry sigterm⟩)
    (hse : end_ ≥ start) (hlen : ¬end_ - start < 2) (hpar : ¬end_ - start ≤ parThreshold)
    (hpart : partition s.arr start end_ = .ok mid arr') :
    s.step q parThreshold ⟨pid, .goesOn⟩ =
      some (System.put { s with arr := arr' } pid ⟨start, end_, .running (.forkLeft mid) sigterm⟩) := by
  unfold System.step
  rw [hproc]
  dsimp only [System.next]
  rw [if_pos hse, if_neg hlen, if_neg hpar, hpart]

theorem Supervised.run (h : Supervised s) {q : Qsort} {parThreshold : UInt64} {acts : List Action}
    {s' : System} (hcare : CarefulRun q parThreshold s acts)
    (hrun : s.run q parThreshold acts = some s') : Supervised s' := by
  induction acts generalizing s with
  | nil =>
    cases hrun
    exact h
  | cons a acts ih =>
    obtain ⟨s₁, hstep, hrest⟩ := Option.bind_eq_some_iff.1 hrun
    exact ih (h.step hcare.1 hstep) (hcare.2 s₁ hstep) hrest

theorem Supervised.init (arr : Mapping) (start end_ : UInt64) : Supervised (init arr start end_) := by
  intro pid side hrun
  cases hrun

/-- No process but the root is left. -/
def Quiescent (s : System) : Prop := ∀ pid, pid ≠ [] → s.running pid = false

/-- Nothing but the root acts on a quiescent system. -/
theorem Quiescent.step_none (h : Quiescent s) {q : Qsort} {parThreshold : UInt64} {a : Action}
    (ha : a.pid ≠ []) : s.step q parThreshold a = none := by
  have hdead := h a.pid ha
  unfold running at hdead
  unfold step
  split
  · rename_i hproc
    rw [hproc] at hdead
    cases hdead
  · rfl

/-- The root call has returned. -/
def Returned (s : System) : Prop := ∃ value, s.wait [] = some (.returned value)

/-- Below a process that has ended in a supervised system, everything has. -/
theorem Supervised.quiescent (h : Supervised s) (hret : s.Returned) : Quiescent s := by
  obtain ⟨value, hwait⟩ := hret
  have hall : ∀ pid, s.running pid = false := by
    intro pid
    induction pid with
    | nil => exact not_running_of_wait hwait
    | cons side pid ih => exact h.none_below ih side
  exact fun pid _ => hall pid

end System

/-- Whenever the root call returns, no process of its tree is left, in any run. -/
def QuiescentOnReturn (q : Qsort) (parThreshold : UInt64) (arr : Mapping) (start end_ : UInt64) : Prop :=
  ∀ acts s, (System.init arr start end_).run q parThreshold acts = some s → s.Returned → s.Quiescent

/-- **Quiescence.** In every run whose steps are careful, the root call returns to a quiescent system. -/
theorem quiescent_of_careful {q : Qsort} {parThreshold : UInt64} {arr : Mapping} {start end_ : UInt64}
    {acts : List Action} {s : System}
    (hcare : System.CarefulRun q parThreshold (System.init arr start end_) acts)
    (hrun : (System.init arr start end_).run q parThreshold acts = some s) (hret : s.Returned) :
    s.Quiescent :=
  ((System.Supervised.init arr start end_).run hcare hrun).quiescent hret

/-- The second fork of the root fails, and the signal comes too late for its child. -/
theorem quiescent_of_careful_2341 : ∃ s,
    (System.init ⟨[2, 3, 4, 1], by decide⟩ 0 4).run mergeQsort 3 [⟨[], .goesOn⟩, ⟨[], .goesOn⟩,
      ⟨[], .fails⟩, ⟨[.left], .goesOn⟩, ⟨[.left], .goesOn⟩, ⟨[], .goesOn⟩, ⟨[], .goesOn⟩,
      ⟨[], .goesOn⟩] = some s ∧ s.Quiescent := by
  have hentry : (System.init ⟨[2, 3, 4, 1], by decide⟩ 0 4).step mergeQsort 3 ⟨[], .goesOn⟩ = some _ :=
    System.step_partition rfl (by decide) (by decide) (by decide) partition_2341
  have hrun : ((System.init ⟨[2, 3, 4, 1], by decide⟩ 0 4).run mergeQsort 3 [⟨[], .goesOn⟩,
      ⟨[], .goesOn⟩, ⟨[], .fails⟩, ⟨[.left], .goesOn⟩, ⟨[.left], .goesOn⟩, ⟨[], .goesOn⟩,
      ⟨[], .goesOn⟩, ⟨[], .goesOn⟩]).map (·.wait []) = some (some (.returned 0)) := by
    rw [System.run_cons hentry]
    rfl
  obtain ⟨s, hrun, hret⟩ := Option.map_eq_some_iff.1 hrun
  refine ⟨s, hrun, quiescent_of_careful ?_ hrun ⟨0, hret⟩⟩
  refine System.carefulRun_cons hentry trivial (System.carefulRun_cons rfl trivial
    (System.carefulRun_cons rfl ?_ (System.carefulRun_of_goesOn (by decide))))
  -- at its second fork a process does not wait
  intro start end_ pc sigterm side hproc hwaits
  cases hproc
  cases hwaits

theorem partition_231 : partition ⟨[2, 3, 1, 4], by decide⟩ 0 3 = .ok 2 ⟨[2, 1, 3, 4], by decide⟩ := by
  refine partition_eq 3 ⟨[2, 1, 3, 4], by decide⟩ (by decide) (by decide) rfl rfl
    ?_ rfl
  rw [partitionLoop_left (x := 2) (by decide) rfl (by decide),
    partitionLoop_left (x := 1) (by decide) rfl (by decide), partitionLoop_done (by decide)]
  rfl

/-- The root's left child forks for its own left half, `[2, 1]`. Then the second fork of the root fails:
it kills and reaps its child and returns 0, with the grandchild about to sort. -/
theorem quiescence_fails_2341 : ¬QuiescentOnReturn mergeQsort 1 ⟨[2, 3, 4, 1], by decide⟩ 0 4 := by
  intro h
  have hrun : ((System.init ⟨[2, 3, 4, 1], by decide⟩ 0 4).run mergeQsort 1 [⟨[], .goesOn⟩,
      ⟨[], .goesOn⟩, ⟨[.left], .goesOn⟩, ⟨[.left], .goesOn⟩, ⟨[], .fails⟩, ⟨[], .goesOn⟩,
      ⟨[.left], .dies⟩, ⟨[], .goesOn⟩, ⟨[], .goesOn⟩]).map
        (fun s => (s.wait [], s.running [.left, .left])) = some (some (.returned 0), true) := by
    rw [System.run_cons (System.step_partition rfl (by decide) (by decide) (by decide) partition_2341),
      System.run_cons rfl,
      System.run_cons (System.step_partition rfl (by decide) (by decide) (by decide) partition_231)]
    rfl
  obtain ⟨s, hrun, hs⟩ := Option.map_eq_some_iff.1 hrun
  obtain ⟨hret, hleft⟩ := Prod.mk.inj hs
  have hquiet := h _ s hrun ⟨0, hret⟩ [.left, .left] (by decide)
  rw [hleft] at hquiet
  cases hquiet

end CsfAssignments.Parsort
