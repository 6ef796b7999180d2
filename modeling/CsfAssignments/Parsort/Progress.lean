import CsfAssignments.Lib.Potential
import CsfAssignments.Parsort.Interleaving
/-!
# How a run of `quicksort` ends (`csf_assign04/parsort.c:180-256`)

| here | there |
| --- | --- |
| `Proc.weight`   | the calls that a process and those it will create can still make |
| `Status.failed` | the answer cannot be 1 any more |

Every step makes the weight of the tree smaller (`Inv.step_weighs`), so a run is finite. It stops only when
nobody is running: a process waits for a child that is there, and the child's region is smaller
(`Inv.progress`). The root answers 1 exactly when nothing has failed (`Reached.answer`).
-/

namespace CsfAssignments.Parsort

open Potential

/-- A call on `n` elements, with all the processes below it, takes at most `9 * n + 2` steps. -/
def Proc.weight (proc : Proc) : Nat :=
  match proc.status with
  | .ended _ => 0
  | .running pc _ =>
    match pc with
    | .entry => 9 * (proc.end_.toNat - proc.start.toNat) + 2
    | .forkLeft _ => 9 * (proc.end_.toNat - proc.start.toNat) + 1
    | .forkRight mid => 9 * (proc.end_.toNat - (mid.toNat + 1)) + 7
    | .waitLeft => 4
    | .killLeft | .killRight => 3
    | .reapLeft | .reapRight | .waitRight _ => 2
    | .leave _ => 1

/-- Nothing but a failure leads here. -/
def Status.failed : Status → Bool
  | .running .killLeft _ | .running .reapLeft _ => true
  | .running .killRight _ | .running .reapRight _ => true
  | .running (.waitRight value) _ | .running (.leave value) _ => value == 0
  | .ended (.returned value) => value == 0
  | .ended (.abnormal _) => true
  | _ => false

theorem Status.failed_calm (status : Status) : status.calm.failed = status.failed := by
  cases status with
  | ended outcome => rfl
  | running pc sigterm => cases pc <;> rfl

namespace System

variable {s s' : System} {pid : Pid} {start end_ : UInt64} {pc : Pc} {sigterm : Bool} {n : Nat}

/-! ## A run is finite -/

theorem weighs_put {c : Proc} (hw : Weighs Proc.weight s.procs n) (hproc : s.procs pid = some c)
    (child : Proc) (arr' : Mapping) :
    ∃ m, Weighs Proc.weight (System.put { s with arr := arr' } pid child).procs m ∧
      m + c.weight = n + child.weight := by
  obtain ⟨m, hm, heq⟩ := hw.update pid child
  rw [hproc] at heq
  exact ⟨m, hm, heq⟩

theorem weighs_spawn {child : Proc} (hw : Weighs Proc.weight s.procs n) (hnone : s.procs pid = none) :
    Weighs Proc.weight (s.put pid child).procs (n + child.weight) := by
  obtain ⟨m, hm, heq⟩ := hw.update pid child
  rw [hnone] at heq
  have hsum : n + child.weight = m := heq.symm
  rw [hsum]
  exact hm

/-- A signal weighs nothing. -/
theorem weighs_kill (hw : Weighs Proc.weight s.procs n) (pid : Pid) :
    Weighs Proc.weight (s.kill pid).procs n := by
  unfold System.kill
  split
  · rename_i start end_ pc sigterm hproc
    obtain ⟨m, hm, heq⟩ := weighs_put hw hproc ⟨start, end_, .running pc true⟩ s.arr
    have hsame : Proc.weight ⟨start, end_, .running pc true⟩ = Proc.weight ⟨start, end_, .running pc sigterm⟩ :=
      rfl
    rw [show n = m by omega]
    exact hm
  · exact hw

/-- **Step**: one process goes on, and the tree weighs less. -/
theorem Inv.next_weighs {q : Qsort} {parThreshold : UInt64} {ok : Bool} (h : Inv s)
    (hproc : s.procs pid = some ⟨start, end_, .running pc sigterm⟩)
    (hnext : s.next q parThreshold pid start end_ sigterm pc ok = some s')
    (hw : Weighs Proc.weight s.procs n) : ∃ m, Weighs Proc.weight s'.procs m ∧ m < n := by
  have hat : s.At pid start end_ pc := (h _ _ hproc).shape
  -- a process that moves on to something lighter
  have hput : ∀ (status : Status) (arr' : Mapping),
      Proc.weight ⟨start, end_, status⟩ < Proc.weight ⟨start, end_, .running pc sigterm⟩ →
      ∃ m, Weighs Proc.weight (System.put { s with arr := arr' } pid ⟨start, end_, status⟩).procs m ∧ m < n := by
    intro status arr' hlt
    obtain ⟨m, hm, heq⟩ := weighs_put hw hproc ⟨start, end_, status⟩ arr'
    exact ⟨m, hm, by omega⟩
  -- a process that forks
  have hfork : ∀ (status : Status) (side : Side) (child : Proc), s.procs (side :: pid) = none →
      Proc.weight ⟨start, end_, status⟩ + child.weight < Proc.weight ⟨start, end_, .running pc sigterm⟩ →
      ∃ m, Weighs Proc.weight ((s.put pid ⟨start, end_, status⟩).put (side :: pid) child).procs m ∧ m < n := by
    intro status side child hnone hlt
    obtain ⟨m, hm, heq⟩ := weighs_put hw hproc ⟨start, end_, status⟩ s.arr
    refine ⟨_, weighs_spawn hm ?_, by omega⟩
    rw [procs_put, if_neg (List.cons_ne_self side pid)]
    exact hnone
  unfold System.next at hnext
  cases pc with
  | entry =>
    cases ok with
    | false => cases hnext
    | true =>
      cases hnext
      dsimp only
      split
      · split
        · exact hput _ s.arr (by simp only [Proc.weight]; omega)
        · split
          · exact hput _ _ (by simp only [Proc.weight]; omega)
          · split
            · exact hput _ _ (by simp only [Proc.weight]; omega)
            · exact hput _ _ (by simp only [Proc.weight]; omega)
      · exact hput _ s.arr (by simp only [Proc.weight]; omega)
  | forkLeft mid =>
    have hstart := hat.2.start_le
    have hstop := hat.2.lt_end
    cases ok <;> cases hnext
    · exact hput _ s.arr (by simp only [Proc.weight]; omega)
    · exact hfork _ .left _ (hat.1 .left) (by simp only [Proc.weight]; omega)
  | forkRight mid =>
    have hsucc := hat.2.2.toNat_succ
    cases ok <;> cases hnext
    · exact hput _ s.arr (by simp only [Proc.weight]; omega)
    · exact hfork _ .right _ hat.2.1 (by simp only [Proc.weight, hsucc]; omega)
  | killLeft =>
    cases ok <;> cases hnext
    obtain ⟨m, hm, hlt⟩ := hput (.running .reapLeft sigterm) s.arr (by simp only [Proc.weight]; omega)
    exact ⟨m, weighs_kill hm _, hlt⟩
  | killRight =>
    cases ok <;> cases hnext
    obtain ⟨m, hm, hlt⟩ := hput (.running .reapRight sigterm) s.arr (by simp only [Proc.weight]; omega)
    exact ⟨m, weighs_kill hm _, hlt⟩
  | reapLeft | reapRight | waitLeft | waitRight =>
    cases ok with
    | false =>
      cases hnext
      exact hput _ s.arr (by simp only [Proc.weight]; omega)
    | true =>
      obtain ⟨outcome, -, rfl⟩ := Option.map_eq_some_iff.1 hnext
      exact hput _ s.arr (by simp only [Proc.weight]; omega)
  | leave value =>
    cases ok <;> cases hnext
    exact hput _ s.arr (by simp only [Proc.weight]; omega)

variable {q : Qsort} {parThreshold : UInt64} {a : Action} {arr : Mapping} {acts : List Action}

theorem Inv.step_weighs (h : Inv s) (hstep : Step q parThreshold s a s')
    (hw : Weighs Proc.weight s.procs n) : ∃ m, Weighs Proc.weight s'.procs m ∧ m < n := by
  obtain ⟨start, end_, pc, sigterm, hproc, ⟨ok, -, hnext⟩ | ⟨-, arr', -, rfl⟩⟩ := hstep.cases
  · exact h.next_weighs hproc hnext hw
  · obtain ⟨m, hm, heq⟩ := weighs_put hw hproc ⟨start, end_, .ended (.abnormal .killed)⟩ arr'
    refine ⟨m, hm, ?_⟩
    have hpos : 0 < Proc.weight ⟨start, end_, .running pc sigterm⟩ := by
      cases pc <;> simp [Proc.weight]
    have hzero : Proc.weight ⟨start, end_, .ended (.abnormal .killed)⟩ = 0 := rfl
    omega

/-- **Run**: the steps taken and what is left to do. -/
theorem Reached.weighs (hq : q.Lawful) (hse : start ≤ end_) (hend : end_.toNat ≤ arr.length)
    (h : Reached q parThreshold arr start end_ acts s) :
    ∃ n, Weighs Proc.weight s.procs n ∧ acts.length + n ≤ 9 * (end_.toNat - start.toNat) + 2 := by
  induction h with
  | init => exact ⟨_, .single Proc.weight [] ⟨start, end_, .running .entry false⟩, by simp [Proc.weight]⟩
  | step hreached hstep ih =>
    obtain ⟨n, hn, hle⟩ := ih
    obtain ⟨m, hm, hlt⟩ := (hreached.sound hq hse hend).inv.step_weighs hstep hn
    refine ⟨m, hm, ?_⟩
    rw [List.length_append, List.length_singleton]
    omega

/-! ## Nobody waits for ever -/

theorem exists_map_wait {outcome : Outcome} {f : Outcome → System} (h : s.wait pid = some outcome) :
    ∃ s', (s.wait pid).map f = some s' :=
  ⟨f outcome, by rw [h]; rfl⟩

/-- A process at `pid` that is not in a `waitpid`, or whose child has ended, goes on. -/
theorem step_of_next {ok : Bool} (hok : ok = true)
    (hproc : s.procs pid = some ⟨start, end_, .running pc sigterm⟩)
    (hnext : ∃ s', s.next q parThreshold pid start end_ sigterm pc ok = some s') :
    ∃ s', s.step q parThreshold ⟨pid, .goesOn⟩ = some s' := by
  obtain ⟨s', hnext⟩ := hnext
  refine ⟨s', ?_⟩
  unfold System.step
  rw [hproc]
  rw [hok] at hnext
  exact hnext

/-- **No deadlock**: a process that runs goes on, or it waits for a child below which one goes on. -/
theorem Inv.progress (h : Inv s) (hproc : s.procs pid = some ⟨start, end_, .running pc sigterm⟩) :
    ∃ low s', s.step q parThreshold ⟨low, .goesOn⟩ = some s' := by
  induction hsize : end_.toNat - start.toNat using Nat.strong_induction_on
    generalizing pid start end_ pc sigterm with
  | _ size ih =>
    have hat : s.At pid start end_ pc := (h _ _ hproc).shape
    -- the child has ended, or something at or below it goes on
    have hchild : ∀ side m, s.procs (side :: pid) ≠ none → s.Split pid start end_ m →
        (∃ outcome, s.wait (side :: pid) = some outcome) ∨
          ∃ low s', s.step q parThreshold ⟨low, .goesOn⟩ = some s' := by
      intro side m hthere hsplit
      obtain ⟨⟨st, en, status⟩, hc⟩ := Option.ne_none_iff_exists'.1 hthere
      have hstart := hsplit.start_le
      have hstop := hsplit.lt_end
      have hsmaller : en.toNat - st.toNat < size := by
        rcases hsplit.of_child hc with ⟨-, h1, h2⟩ | ⟨-, h1, h2⟩ <;> dsimp only at h1 h2 <;> omega
      cases status with
      | ended outcome => exact .inl ⟨outcome, wait_eq_some.2 ⟨st, en, hc⟩⟩
      | running pc' sigterm' => exact .inr (ih _ hsmaller hc rfl)
    have hself : (∃ s', s.next q parThreshold pid start end_ sigterm pc true = some s') →
        ∃ low s', s.step q parThreshold ⟨low, .goesOn⟩ = some s' :=
      fun hnext => ⟨pid, step_of_next rfl hproc hnext⟩
    cases pc with
    | entry | forkLeft mid | forkRight mid | killLeft | killRight | leave value => exact hself ⟨_, rfl⟩
    | reapLeft | waitLeft =>
      obtain ⟨hthere, -, m, hsplit⟩ := hat
      rcases hchild .left m hthere hsplit with ⟨outcome, hwait⟩ | hbelow
      · exact hself (exists_map_wait hwait)
      · exact hbelow
    | reapRight =>
      obtain ⟨-, hthere, m, hsplit⟩ := hat
      rcases hchild .right m hthere hsplit with ⟨outcome, hwait⟩ | hbelow
      · exact hself (exists_map_wait hwait)
      · exact hbelow
    | waitRight leftSuccess =>
      obtain ⟨-, hthere, ⟨m, hsplit⟩, -⟩ := hat
      rcases hchild .right m hthere hsplit with ⟨outcome, hwait⟩ | hbelow
      · exact hself (exists_map_wait hwait)
      · exact hbelow

/-! ## What the answer says -/

theorem Evolves.failed (h : Evolves s s' pid) {p : Pid} {c : Proc} (hc : s.procs p = some c) (hp : p ≠ pid) :
    ∃ status, s'.procs p = some ⟨c.start, c.end_, status⟩ ∧ status.failed = c.status.failed := by
  obtain ⟨status, hc', hcalm⟩ := h.old p c hc
  exact ⟨status, hc', by rw [← Status.failed_calm, hcalm hp, Status.failed_calm]⟩

theorem procs_kill {p : Pid} (s : System) (hp : p ≠ pid) : (s.kill pid).procs p = s.procs p := by
  unfold System.kill
  split
  · rw [procs_put, if_neg hp]
  · rfl

/-- A child that has not failed has answered 1. -/
theorem Inv.childSuccess_of_not_failed (h : Inv s) {outcome : Outcome}
    (hwait : s.wait pid = some outcome) (hnot : (Status.ended outcome).failed = false) :
    outcome.childSuccess = 1 := by
  obtain ⟨st, en, hproc⟩ := wait_eq_some.1 hwait
  cases outcome with
  | abnormal why => cases hnot
  | returned value =>
    rcases (h _ _ hproc).shape.2 with rfl | ⟨rfl, -⟩
    · cases hnot
    · rfl

/-- Failures stay, and one call that fails is enough; without any, only an abort is one. -/
theorem Inv.next_failed {ok : Bool} (h : Inv s)
    (hproc : s.procs pid = some ⟨start, end_, .running pc sigterm⟩)
    (hnext : s.next q parThreshold pid start end_ sigterm pc ok = some s') :
    ∃ status, s'.procs pid = some ⟨start, end_, status⟩ ∧
      ((Status.running pc sigterm).failed = true ∨ ok = false → status.failed = true) ∧
      ((Status.running pc sigterm).failed = false → ok = true →
        (∀ p c, s.procs p = some c → c.status.failed = false) →
          status.failed = false ∨ ∃ why, status = .ended (.abnormal why)) := by
  have hown : ∀ (status : Status) (arr' : Mapping),
      (System.put { s with arr := arr' } pid ⟨start, end_, status⟩).procs pid = some ⟨start, end_, status⟩ :=
    fun status arr' => by rw [procs_put, if_pos rfl]
  have hchild : ∀ side, pid ≠ side :: pid := fun side => (List.cons_ne_self side pid).symm
  have hone : ∀ side outcome, s.wait (side :: pid) = some outcome →
      (∀ p c, s.procs p = some c → c.status.failed = false) → outcome.childSuccess = 1 := by
    intro side outcome hwait hall
    obtain ⟨st, en, hended⟩ := wait_eq_some.1 hwait
    exact h.childSuccess_of_not_failed hwait (hall _ _ hended)
  unfold System.next at hnext
  cases pc with
  | entry =>
    cases ok with
    | false => cases hnext
    | true =>
      cases hnext
      have hnot : ¬((Status.running .entry sigterm).failed = true ∨ true = false) := by simp [Status.failed]
      dsimp only
      split
      · split
        · exact ⟨_, hown _ s.arr, fun hf => absurd hf hnot, fun _ _ _ => .inl rfl⟩
        · split
          · exact ⟨_, hown _ _, fun hf => absurd hf hnot, fun _ _ _ => .inl rfl⟩
          · split
            · exact ⟨_, hown _ _, fun hf => absurd hf hnot, fun _ _ _ => .inr ⟨_, rfl⟩⟩
            · exact ⟨_, hown _ _, fun hf => absurd hf hnot, fun _ _ _ => .inl rfl⟩
      · exact ⟨_, hown _ s.arr, fun hf => absurd hf hnot, fun _ _ _ => .inr ⟨_, rfl⟩⟩
  | forkLeft mid | forkRight mid =>
    cases ok with
    | false =>
      cases hnext
      exact ⟨_, hown _ s.arr, fun _ => rfl, fun _ hok => by cases hok⟩
    | true =>
      cases hnext
      refine ⟨_, by rw [procs_put, if_neg (hchild _)]; exact hown _ s.arr, ?_, fun _ _ _ => .inl rfl⟩
      rintro (hf | hf) <;> cases hf
  | killLeft | killRight =>
    cases ok <;> cases hnext
    exact ⟨_, by rw [procs_kill _ (hchild _)]; exact hown _ s.arr, fun _ => rfl, fun hf => by cases hf⟩
  | reapLeft | reapRight =>
    cases ok with
    | false =>
      cases hnext
      exact ⟨_, hown _ s.arr, fun _ => rfl, fun hf => by cases hf⟩
    | true =>
      obtain ⟨outcome, -, rfl⟩ := Option.map_eq_some_iff.1 hnext
      exact ⟨_, hown _ s.arr, fun _ => rfl, fun hf => by cases hf⟩
  | waitLeft =>
    cases ok with
    | false =>
      cases hnext
      exact ⟨_, hown _ s.arr, fun _ => rfl, fun _ hok => by cases hok⟩
    | true =>
      obtain ⟨left, hwait, rfl⟩ := Option.map_eq_some_iff.1 hnext
      refine ⟨_, hown _ s.arr, ?_, fun _ _ hall => .inl ?_⟩
      · rintro (hf | hf) <;> cases hf
      · rw [hone .left left hwait hall]
        rfl
  | waitRight leftSuccess =>
    cases ok with
    | false =>
      cases hnext
      exact ⟨_, hown _ s.arr, fun _ => by simp [Status.failed, logicalAnd], fun _ hok => by cases hok⟩
    | true =>
      obtain ⟨right, hwait, rfl⟩ := Option.map_eq_some_iff.1 hnext
      refine ⟨_, hown _ s.arr, ?_, fun hnot _ hall => .inl ?_⟩
      · rintro (hf | hf)
        · have hzero : leftSuccess = 0 := by simpa [Status.failed] using hf
          simp [Status.failed, logicalAnd, hzero]
        · cases hf
      · have hpos : leftSuccess ≠ 0 := by simpa [Status.failed] using hnot
        simp [Status.failed, logicalAnd, hone .right right hwait hall, hpos]
  | leave value =>
    cases ok <;> cases hnext
    refine ⟨_, hown _ s.arr, ?_, fun hnot _ _ => .inl hnot⟩
    rintro (hf | hf)
    · exact hf
    · cases hf

/-- Every step but a successful one leaves its process failed, for good. -/
theorem Reached.failed (hq : q.Lawful) (hse : start ≤ end_) (hend : end_.toNat ≤ arr.length)
    (h : Reached q parThreshold arr start end_ acts s) :
    ∀ a ∈ acts, a.kind ≠ .goesOn → ∃ c, s.procs a.pid = some c ∧ c.status.failed = true := by
  induction h with
  | init => exact fun a ha => by cases ha
  | step hreached hstep ih =>
    rename_i acts s b s'
    have hinv := (hreached.sound hq hse hend).inv
    obtain ⟨st, en, pc, sigterm, hproc, hhow⟩ := hstep.cases
    have hstays : ∀ p c, s.procs p = some c → c.status.failed = true →
        ∃ c, s'.procs p = some c ∧ c.status.failed = true := by
      intro p c hc hf
      by_cases hp : p = b.pid
      · subst hp
        rw [hproc] at hc
        cases hc
        rcases hhow with ⟨ok, -, hnext⟩ | ⟨-, arr', -, rfl⟩
        · obtain ⟨status, hown, hfailed, -⟩ := hinv.next_failed hproc hnext
          exact ⟨_, hown, hfailed (.inl hf)⟩
        · exact ⟨_, by rw [procs_put, if_pos rfl], rfl⟩
      · obtain ⟨status, hc', heq⟩ := (hinv.step_evolves hq hstep).failed hc hp
        exact ⟨_, hc', by rw [heq, hf]⟩
    intro a ha hkind
    rcases List.mem_append.1 ha with ha | ha
    · obtain ⟨c, hc, hf⟩ := ih a ha hkind
      exact hstays _ c hc hf
    · cases List.mem_singleton.1 ha
      rcases hhow with ⟨ok, hok, hnext⟩ | ⟨-, arr', -, rfl⟩
      · obtain ⟨status, hown, hfailed, -⟩ := hinv.next_failed hproc hnext
        cases ok with
        | true => exact absurd hok hkind
        | false => exact ⟨_, hown, hfailed (.inr rfl)⟩
      · exact ⟨_, by rw [procs_put, if_pos rfl], rfl⟩

/-- As long as every step is successful, nothing has failed, unless something has aborted. -/
theorem Reached.not_failed (hq : q.Lawful) (hse : start ≤ end_) (hend : end_.toNat ≤ arr.length)
    (h : Reached q parThreshold arr start end_ acts s) (hall : ∀ a ∈ acts, a.kind = .goesOn) :
    (∃ low why, s.wait low = some (.abnormal why)) ∨
      ∀ p c, s.procs p = some c → c.status.failed = false := by
  induction h with
  | init =>
    refine .inr fun p c hc => ?_
    unfold System.init at hc
    dsimp only at hc
    split at hc <;> cases hc
    rfl
  | step hreached hstep ih =>
    rename_i acts s b s'
    have hinv := (hreached.sound hq hse hend).inv
    have hev := hinv.step_evolves hq hstep
    obtain ⟨st, en, pc, sigterm, hproc, hhow⟩ := hstep.cases
    rcases ih fun a ha => hall a (List.mem_append_left _ ha) with ⟨low, why, hwait⟩ | hnone
    · exact .inl ⟨low, why, hev.wait hproc hwait⟩
    · have hgoes := hall b (List.mem_append_right _ (List.mem_singleton.2 rfl))
      rcases hhow with ⟨ok, hok, hnext⟩ | ⟨hdies, -⟩
      · obtain ⟨status, hown, -, hkeeps⟩ := hinv.next_failed hproc hnext
        have htrue : ok = true := by
          cases ok with
          | true => rfl
          | false =>
            rw [hgoes] at hok
            cases hok
        rcases hkeeps (hnone _ _ hproc) htrue hnone with hstatus | ⟨why, rfl⟩
        · refine .inr fun p c hc => ?_
          by_cases hp : p = b.pid
          · subst hp
            rw [hown] at hc
            cases hc
            exact hstatus
          · cases hold : s.procs p with
            | none => rw [hev.new p c hold hc]; rfl
            | some c₀ =>
              obtain ⟨status', hc', heq⟩ := hev.failed hold hp
              rw [hc'] at hc
              cases hc
              rw [heq, hnone p c₀ hold]
        · exact .inl ⟨_, why, wait_eq_some.2 ⟨st, en, hown⟩⟩
      · rw [hgoes] at hdies
        cases hdies

end System

/-- **Every run ends.** No interleaving takes more than `9 * n + 2` steps on a region of `n` elements, and
it goes on, with no further failure, as long as any process runs. -/
theorem reached_terminates (q : Qsort) (hq : q.Lawful) (arr : Mapping) (start end_ parThreshold : UInt64)
    (hse : start ≤ end_) (hend : end_.toNat ≤ arr.length) (acts : List Action) (s : System)
    (hrun : System.Reached q parThreshold arr start end_ acts s) :
    acts.length ≤ 9 * (end_.toNat - start.toNat) + 2 ∧
      ((∃ pid, s.running pid = true) →
        ∃ pid s', System.Step q parThreshold s ⟨pid, .goesOn⟩ s') := by
  obtain ⟨n, -, hle⟩ := hrun.weighs hq hse hend
  refine ⟨by omega, ?_⟩
  rintro ⟨pid, hrunning⟩
  unfold System.running at hrunning
  split at hrunning
  · rename_i c hc
    obtain ⟨st, en, status⟩ := c
    cases status with
    | ended outcome => cases hrunning
    | running pc sigterm =>
      obtain ⟨low, s', hstep⟩ := (hrun.sound hq hse hend).inv.progress hc
      exact ⟨low, s', .next hstep⟩
  · cases hrunning

theorem reached_terminates_321 : ∃ acts s, System.Reached mergeQsort 1 ⟨[3, 2, 1], by decide⟩ 0 3 acts s ∧
    acts.length ≤ 29 ∧ ∃ pid s', System.Step mergeQsort 1 s ⟨pid, .goesOn⟩ s' := by
  obtain ⟨s, hreached, hleft, -⟩ := reached_321
  obtain ⟨hlength, hgoes⟩ := reached_terminates mergeQsort mergeQsort_lawful _ 0 3 1 (by decide) (by decide) _ s
    hreached
  exact ⟨_, s, hreached, hlength, hgoes ⟨[.left], System.running_of_procs hleft⟩⟩

/-- **The answer.** Once the root call has ended, it has answered 1 if no `fork` or `waitpid` has failed, no
signal has ended a process and none has aborted, anywhere in the tree; and only then. -/
theorem reached_answer (q : Qsort) (hq : q.Lawful) (arr : Mapping) (start end_ parThreshold : UInt64)
    (hse : start ≤ end_) (hend : end_.toNat ≤ arr.length) (acts : List Action) (s : System)
    (hrun : System.Reached q parThreshold arr start end_ acts s) (outcome : Outcome)
    (hended : s.wait [] = some outcome) :
    outcome = .returned 1 ↔
      (∀ a ∈ acts, a.kind = .goesOn) ∧ ∀ pid why, s.wait pid ≠ some (.abnormal why) := by
  have hsound := hrun.sound hq hse hend
  constructor
  · rintro rfl
    have hanswered : ∀ {p c}, s.procs p = some c → c.status = .ended (.returned 1) := by
      intro p c hc
      obtain ⟨st, en, hproc⟩ := System.wait_eq_some.1
        (hsound.all_answered hended (by rw [hc]; exact Option.some_ne_none _))
      rw [hproc] at hc
      cases hc
      rfl
    refine ⟨?_, ?_⟩
    · intro a ha
      by_contra hkind
      obtain ⟨c, hc, hfailed⟩ := hrun.failed hq hse hend a ha hkind
      rw [hanswered hc] at hfailed
      cases hfailed
    · intro pid why hwait
      obtain ⟨st, en, hproc⟩ := System.wait_eq_some.1 hwait
      cases hanswered hproc
  · rintro ⟨hall, hnone⟩
    obtain ⟨st, en, hproc⟩ := System.wait_eq_some.1 hended
    rcases hrun.not_failed hq hse hend hall with ⟨low, why, hwait⟩ | hnot
    · exact absurd hwait (hnone low why)
    · have hroot := hnot _ _ hproc
      cases outcome with
      | abnormal why => cases hroot
      | returned value =>
        rcases (hsound.inv _ _ hproc).shape.2 with rfl | ⟨rfl, -⟩
        · cases hroot
        · rfl

theorem reached_answer_2341 : ∃ acts s, System.Reached mergeQsort 3 ⟨[2, 3, 4, 1], by decide⟩ 0 4 acts s ∧
    s.wait [] = some (.returned 1) ∧ ∀ pid why, s.wait pid ≠ some (.abnormal why) := by
  obtain ⟨acts, s, hreached, hret⟩ := reached_2341
  have hanswer := (reached_answer mergeQsort mergeQsort_lawful _ 0 4 3 (by decide) (by decide) acts s hreached
    _ hret).1 rfl
  exact ⟨acts, s, hreached, hret, hanswer.2⟩

end CsfAssignments.Parsort
