import CsfAssignments.Lib.Potential
/-!
# Operations under one lock

An object has a state of type `σ` and a lock. A thread that calls an operation waits for the lock; from then on
it works on the state in small steps, until the code of the operation is at its end and gives the lock back.
The threads take turns in any order, and nothing but the lock keeps them apart.

`Linear.run` is the point: the operations that have had the lock have happened one after the other, in the
order in which they took it, and the one that still has it is under way. `progress` and `length_le` are about
the way there: no run gets stuck, and the work is all that a call can take long for.
-/

namespace Monitor

open Potential

/-- What the operations do between taking and giving back the lock. `none` is the end. -/
structure Code (Op L σ : Type*) where
  enter : Op → L
  step : L → σ → Option (L × σ)

inductive Thread (Op L : Type*) where
  | waiting (op : Op)
  | inside (op : Op) (l : L)

structure System (T Op L σ : Type*) where
  state : σ
  lock : Option T
  /-- `none` is a thread that is in no operation. -/
  threads : T → Option (Thread Op L)

inductive Label (T Op : Type*) where
  | call (t : T) (op : Op)
  | acquire (t : T) (op : Op)
  | work (t : T)
  | release (t : T)

variable {T Op L σ : Type*}

/-- Who takes the lock, and for what. -/
def Label.entered : Label T Op → Option (T × Op)
  | .acquire t op => some (t, op)
  | _ => none

/-- The operations that have had the lock, in the order in which they took it. -/
def history (labels : List (Label T Op)) : List (T × Op) := labels.filterMap Label.entered

inductive Kind where
  | call
  | acquire
  | work
  | release
deriving DecidableEq

def Label.kind : Label T Op → Kind
  | .call _ _ => .call
  | .acquire _ _ => .acquire
  | .work _ => .work
  | .release _ => .release

/-- How many steps of a kind there are. -/
def count (kind : Kind) (labels : List (Label T Op)) : Nat := labels.countP fun label => label.kind = kind

@[simp] theorem count_append (kind : Kind) (labels : List (Label T Op)) (label : Label T Op) :
    count kind (labels ++ [label]) = count kind labels + if label.kind = kind then 1 else 0 := by
  simp [count, List.countP_append, List.countP_cons]

theorem length_eq (labels : List (Label T Op)) :
    labels.length = count .call labels + count .acquire labels + count .work labels +
      count .release labels := by
  induction labels using List.reverseRecOn with
  | nil => rfl
  | append_singleton labels label ih =>
    cases label <;>
    · simp [Label.kind, ih]
      omega

namespace System

def start (s : σ) : System T Op L σ := ⟨s, none, fun _ => none⟩

variable [DecidableEq T] [DecidableEq Op]

def next (code : Code Op L σ) (sys : System T Op L σ) : Label T Op → Option (System T Op L σ)
  | .call t op =>
    match sys.threads t with
    | none => some { sys with threads := Function.update sys.threads t (some (.waiting op)) }
    | some _ => none
  | .acquire t op =>
    match sys.threads t, sys.lock with
    | some (.waiting op'), none =>
      if op' = op then
        some ⟨sys.state, some t, Function.update sys.threads t (some (.inside op (code.enter op)))⟩
      else none
    | _, _ => none
  | .work t =>
    match sys.threads t with
    | some (.inside op l) =>
      match code.step l sys.state with
      | some (l', s') =>
        some ⟨s', sys.lock, Function.update sys.threads t (some (.inside op l'))⟩
      | none => none
    | _ => none
  | .release t =>
    match sys.threads t with
    | some (.inside _ l) =>
      match code.step l sys.state with
      | some _ => none
      | none => some ⟨sys.state, none, Function.update sys.threads t none⟩
    | _ => none

/-- The steps of a run, one after the other. -/
def run (code : Code Op L σ) : System T Op L σ → List (Label T Op) → Option (System T Op L σ)
  | sys, [] => some sys
  | sys, label :: labels =>
    match sys.next code label with
    | some sys' => run code sys' labels
    | none => none

/-- What a step can do. -/
inductive Step (code : Code Op L σ) (sys : System T Op L σ) : Label T Op → System T Op L σ → Prop
  | call {t : T} {op : Op} (hout : sys.threads t = none) :
      Step code sys (.call t op)
        { sys with threads := Function.update sys.threads t (some (.waiting op)) }
  | acquire {t : T} {op : Op} (hwait : sys.threads t = some (.waiting op)) (hfree : sys.lock = none) :
      Step code sys (.acquire t op)
        ⟨sys.state, some t, Function.update sys.threads t (some (.inside op (code.enter op)))⟩
  | work {t : T} {op : Op} {l l' : L} {s' : σ} (hin : sys.threads t = some (.inside op l))
      (hstep : code.step l sys.state = some (l', s')) :
      Step code sys (.work t) ⟨s', sys.lock, Function.update sys.threads t (some (.inside op l'))⟩
  | release {t : T} {op : Op} {l : L} (hin : sys.threads t = some (.inside op l))
      (hend : code.step l sys.state = none) :
      Step code sys (.release t) ⟨sys.state, none, Function.update sys.threads t none⟩

variable {code : Code Op L σ} {sys sys' : System T Op L σ} {label : Label T Op}

theorem step_of_next (h : sys.next code label = some sys') : Step code sys label sys' := by
  cases label with
  | call t op =>
    simp only [next] at h
    split at h
    · cases h
      exact .call ‹_›
    · cases h
  | acquire t op =>
    simp only [next] at h
    split at h
    · rename_i op' hwait hfree
      split at h
      · rename_i heq
        cases h
        exact .acquire (heq ▸ hwait) hfree
      · cases h
    · cases h
  | work t =>
    simp only [next] at h
    split at h
    · split at h
      · cases h
        exact .work ‹_› ‹_›
      · cases h
    · cases h
  | release t =>
    simp only [next] at h
    split at h
    · split at h
      · cases h
      · cases h
        exact .release ‹_› ‹_›
    · cases h

theorem run_append (sys : System T Op L σ) (labels : List (Label T Op)) (label : Label T Op) :
    sys.run code (labels ++ [label]) = (sys.run code labels).bind fun sys' => sys'.next code label := by
  induction labels generalizing sys with
  | nil =>
    show (match sys.next code label with | some sys' => some sys' | none => none) = sys.next code label
    cases sys.next code label <;> rfl
  | cons label' labels ih =>
    simp only [List.cons_append, run]
    cases sys.next code label' with
    | none => rfl
    | some sys' => exact ih sys'

/-- What every step keeps, every run keeps. -/
theorem run_induction {P : List (Label T Op) → System T Op L σ → Prop} {s : σ} (hstart : P [] (start s))
    (hstep : ∀ labels sys label sys', P labels sys → Step code sys label sys' → P (labels ++ [label]) sys')
    {labels : List (Label T Op)} (h : (start s).run code labels = some sys) : P labels sys := by
  induction labels using List.reverseRecOn generalizing sys with
  | nil =>
    cases h
    exact hstart
  | append_singleton labels label ih =>
    rw [run_append, Option.bind_eq_some_iff] at h
    obtain ⟨mid, hmid, hnext⟩ := h
    exact hstep labels mid label sys (ih hmid) (step_of_next hnext)

end System

/-! ## One operation after the other -/

/-- `n` steps of the code of one operation. -/
inductive Steps (code : Code Op L σ) (l : L) (s : σ) : Nat → L → σ → Prop
  | refl : Steps code l s 0 l s
  | step {n : Nat} {l' l'' : L} {s' s'' : σ} (h : Steps code l s n l' s')
      (hstep : code.step l' s' = some (l'', s'')) : Steps code l s (n + 1) l'' s''

/-- The operation takes `s` to `s'` in `n` steps. -/
def Does (code : Code Op L σ) (op : Op) (s : σ) (n : Nat) (s' : σ) : Prop :=
  ∃ l, Steps code (code.enter op) s n l s' ∧ code.step l s' = none

/-- The operations do so one after the other. -/
inductive DoAll (code : Code Op L σ) (s : σ) : List Op → Nat → σ → Prop
  | nil : DoAll code s [] 0 s
  | snoc {ops : List Op} {op : Op} {m n : Nat} {s' s'' : σ} (h : DoAll code s ops m s')
      (hop : Does code op s' n s'') : DoAll code s (ops ++ [op]) (m + n) s''

def ops (labels : List (Label T Op)) : List Op := (history labels).map Prod.snd

theorem ops_append (labels : List (Label T Op)) (label : Label T Op) :
    ops (labels ++ [label]) = ops labels ++ (label.entered.map Prod.snd).toList := by
  cases label <;> simp [ops, history, Label.entered]

@[simp] theorem length_ops (labels : List (Label T Op)) : (ops labels).length = count .acquire labels := by
  induction labels using List.reverseRecOn with
  | nil => rfl
  | append_singleton labels label ih =>
    cases label <;> simp [ops_append, Label.entered, Label.kind, ih]

/-- Nobody is inside, or one thread that has the lock. -/
inductive Linear (code : Code Op L σ) (s : σ) (labels : List (Label T Op)) (sys : System T Op L σ) : Prop
  | free (hlock : sys.lock = none) (hall : DoAll code s (ops labels) (count .work labels) sys.state)
      (hout : ∀ t op l, sys.threads t ≠ some (.inside op l))
  | held {t : T} {op : Op} {l : L} {before : List Op} {m n : Nat} {mid : σ} (hlock : sys.lock = some t)
      (hops : ops labels = before ++ [op]) (hworks : count .work labels = m + n)
      (hall : DoAll code s before m mid)
      (hin : sys.threads t = some (.inside op l)) (hsteps : Steps code (code.enter op) mid n l sys.state)
      (hout : ∀ t' ≠ t, ∀ op l, sys.threads t' ≠ some (.inside op l))

section
variable {code : Code Op L σ} {s : σ} {labels : List (Label T Op)} {label : Label T Op}
  {sys sys' : System T Op L σ} [DecidableEq T]

/-- Who is inside has the lock. -/
theorem Linear.of_inside (h : Linear code s labels sys) {t : T} {op : Op} {l : L}
    (hin : sys.threads t = some (.inside op l)) : sys.lock = some t := by
  cases h with
  | free _ _ hout => exact absurd hin (hout t op l)
  | @held t' _ _ _ _ _ _ hlock _ _ _ _ _ hout =>
    by_cases ht : t = t'
    · rw [ht, hlock]
    · exact absurd hin (hout t ht op l)

theorem outside_update {f : T → Option (Thread Op L)} {P : T → Prop} {t : T} {th : Option (Thread Op L)}
    (h : ∀ t', P t' → ∀ op l, f t' ≠ some (.inside op l)) (hth : P t → ∀ op l, th ≠ some (.inside op l)) :
    ∀ t', P t' → ∀ op l, Function.update f t th t' ≠ some (.inside op l) := by
  intro t' ht' op l
  by_cases heq : t' = t
  · subst heq
    rw [Function.update_self]
    exact hth ht' op l
  · rw [Function.update_of_ne heq]
    exact h t' ht' op l

/-- **Step.** -/
theorem Linear.step (h : Linear code s labels sys) (hstep : System.Step code sys label sys') :
    Linear code s (labels ++ [label]) sys' := by
  cases hstep with
  | @call t op hout =>
    have hops : ops (labels ++ [.call t op]) = ops labels := by simp [ops_append, Label.entered]
    have hworks : count .work (labels ++ [.call t op]) = count .work labels := by simp [Label.kind]
    cases h with
    | free hlock hall hnone =>
      refine .free hlock (by rw [hops, hworks]; exact hall) fun t' => ?_
      exact outside_update (P := fun _ => True) (fun t' _ => hnone t') (fun _ _ _ => by simp) t' trivial
    | @held t' op' l _ _ _ _ hlock hops' hworks' hall hin hsteps hnone =>
      have hne : t' ≠ t := by
        rintro rfl
        rw [hin] at hout
        cases hout
      refine .held hlock (hops.trans hops') (hworks.trans hworks') hall ?_ hsteps ?_
      · exact (Function.update_of_ne hne _ _).trans hin
      · exact outside_update hnone fun _ _ _ => by simp
  | @acquire t op hwait hfree =>
    have hops : ops (labels ++ [.acquire t op]) = ops labels ++ [op] := by simp [ops_append, Label.entered]
    have hworks : count .work (labels ++ [.acquire t op]) = count .work labels + 0 := by simp [Label.kind]
    cases h with
    | free hlock hall hnone =>
      refine .held rfl hops hworks hall (Function.update_self _ _ _) .refl ?_
      exact outside_update (fun t' _ => hnone t') fun hne => absurd rfl hne
    | held hlock =>
      rw [hfree] at hlock
      cases hlock
  | @work t op l l' s' hin hwork =>
    have hops : ops (labels ++ [.work t]) = ops labels := by simp [ops_append, Label.entered]
    have hworks : count .work (labels ++ [.work t]) = count .work labels + 1 := by simp [Label.kind]
    cases h with
    | free hlock hall hnone => exact absurd hin (hnone t op l)
    | @held t' op' l'' before m n mid hlock hops' hworks' hall hin' hsteps hnone =>
      by_cases ht : t = t'
      · subst ht
        rw [hin] at hin'
        cases hin'
        refine .held hlock (hops.trans hops') (hworks.trans ?_) hall (Function.update_self _ _ _)
          (hsteps.step hwork) (outside_update hnone fun hne => absurd rfl hne)
        rw [hworks', Nat.add_assoc]
      · exact absurd hin (hnone t ht op l)
  | @release t op l hin hend =>
    have hops : ops (labels ++ [.release t]) = ops labels := by simp [ops_append, Label.entered]
    have hworks : count .work (labels ++ [.release t]) = count .work labels := by simp [Label.kind]
    cases h with
    | free hlock hall hnone => exact absurd hin (hnone t op l)
    | @held t' op' l' before m n mid hlock hops' hworks' hall hin' hsteps hnone =>
      by_cases ht : t = t'
      · subst ht
        rw [hin] at hin'
        cases hin'
        refine .free rfl ?_ fun t' => ?_
        · rw [hops, hworks, hops', hworks']
          exact hall.snoc ⟨l, hsteps, hend⟩
        · by_cases ht' : t' = t
          · subst ht'
            simp
          · exact outside_update hnone (fun hne => absurd rfl hne) t' ht'
      · exact absurd hin (hnone t ht op l)

/-! ## Counting -/

/-- Who waits has called and not had the lock. -/
def waits : Thread Op L → Nat
  | .waiting _ => 1
  | .inside _ _ => 0

structure Counted (labels : List (Label T Op)) (sys : System T Op L σ) : Prop where
  waiting : ∃ n, Weighs waits sys.threads n ∧ count .acquire labels + n = count .call labels
  released : count .release labels + sys.lock.toList.length = count .acquire labels

theorem Counted.step (hlin : Linear code s labels sys) (h : Counted labels sys)
    (hstep : System.Step code sys label sys') : Counted (labels ++ [label]) sys' := by
  obtain ⟨⟨n, hn, hcalls⟩, hreleased⟩ := h
  cases hstep with
  | @call t op hout =>
    obtain ⟨m, hm, heq⟩ := hn.update t (some (.waiting op))
    have hweight : m = n + 1 := by simpa [hout, waits] using heq
    exact ⟨⟨m, hm, by simp [Label.kind]; omega⟩, by simpa [Label.kind] using hreleased⟩
  | @acquire t op hwait hfree =>
    obtain ⟨m, hm, heq⟩ := hn.update t (some (.inside op (code.enter op)))
    have hweight : m + 1 = n := by simpa [hwait, waits] using heq
    refine ⟨⟨m, hm, by simp [Label.kind]; omega⟩, ?_⟩
    simpa [Label.kind, hfree] using hreleased
  | @work t op l l' s' hin hwork =>
    obtain ⟨m, hm, heq⟩ := hn.update t (some (.inside op l'))
    have hweight : m = n := by simpa [hin, waits] using heq
    exact ⟨⟨m, hm, by simp [Label.kind]; omega⟩, by simpa [Label.kind] using hreleased⟩
  | @release t op l hin hend =>
    obtain ⟨m, hm, heq⟩ := hn.update t none
    have hweight : m = n := by simpa [hin, waits] using heq
    refine ⟨⟨m, hm, by simp [Label.kind]; omega⟩, ?_⟩
    simpa [Label.kind, hlin.of_inside hin] using hreleased

/-! ## Runs -/

variable [DecidableEq Op]

/-- **Run**: what has happened under the lock has happened in the order of the lock. -/
theorem Linear.run (h : (System.start s).run code labels = some sys) : Linear code s labels sys :=
  System.run_induction (.free rfl .nil fun _ _ _ => nofun) (fun _ _ _ _ hl hs => hl.step hs) h

theorem Counted.run (h : (System.start s).run code labels = some sys) : Counted labels sys := by
  have hstart : Counted ([] : List (Label T Op)) (System.start s : System T Op L σ) :=
    ⟨⟨0, .empty _, rfl⟩, rfl⟩
  refine (System.run_induction (P := fun labels sys => Linear code s labels sys ∧ Counted labels sys)
    ⟨.free rfl .nil fun _ _ _ => nofun, hstart⟩ ?_ h).2
  rintro _ _ _ _ ⟨hl, hc⟩ hs
  exact ⟨hl.step hs, hc.step hl hs⟩

/-- No more than three steps for each call, and the work done under the lock. -/
theorem length_le (h : (System.start s).run code labels = some sys) :
    labels.length ≤ 3 * count .call labels + count .work labels := by
  obtain ⟨⟨n, -, hcalls⟩, hreleased⟩ := Counted.run h
  have hlen := length_eq labels
  omega

/-- **No deadlock**: as long as a thread is in an operation, one can go on. -/
theorem progress (h : (System.start s).run code labels = some sys) {t : T} (ht : sys.threads t ≠ none) :
    ∃ label, label.kind ≠ .call ∧ (sys.next code label).isSome = true := by
  have hinside {t : T} {op : Op} {l : L} (hin : sys.threads t = some (.inside op l)) :
      ∃ label, label.kind ≠ .call ∧ (sys.next code label).isSome = true := by
    cases hstep : code.step l sys.state with
    | none => exact ⟨.release t, nofun, by simp [System.next, hin, hstep]⟩
    | some _ => exact ⟨.work t, nofun, by simp [System.next, hin, hstep]⟩
  cases Linear.run h with
  | free hlock _ hout =>
    obtain ⟨op | ⟨op, l⟩, hthread⟩ := Option.ne_none_iff_exists'.1 ht
    · exact ⟨.acquire t op, nofun, by simp [System.next, hthread, hlock]⟩
    · exact absurd hthread (hout t op l)
  | held _ _ _ _ hin => exact hinside hin

end

end Monitor
