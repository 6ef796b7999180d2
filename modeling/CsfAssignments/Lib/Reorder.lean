import Mathlib.Data.List.Basic
/-!
# Runs of commuting actions

Actions carry keys, and two actions of different keys commute on the states of an invariant. Then a run
depends only on what each key sees: two lists with the same actions under every key, in the same order,
end in the same state (`foldlM_eq_of_sameOrder`).
-/

namespace Reorder

variable {S A K : Type} [DecidableEq K]

/-- The two lists have, under every key, the same actions in the same order. -/
def SameOrder (key : A → K) (t u : List A) : Prop :=
  ∀ k, t.filter (fun a => key a = k) = u.filter (fun a => key a = k)

/-- What makes the order of actions of different keys irrelevant. -/
structure Commuting (step : S → A → Option S) (key : A → K) (Inv : S → Prop) : Prop where
  keeps : ∀ {s a s'}, Inv s → step s a = some s' → Inv s'
  swap : ∀ {s a b}, Inv s → key a ≠ key b →
    (step s a).bind (step · b) = (step s b).bind (step · a)

variable {step : S → A → Option S} {key : A → K} {Inv : S → Prop} {s : S} {a : A} {t u v : List A}

omit [DecidableEq K] in
/-- An action moves to the front over actions of other keys. -/
theorem Commuting.foldlM_front (h : Commuting step key Inv) (hs : Inv s)
    (hu : ∀ b ∈ u, key b ≠ key a) :
    (u ++ a :: v).foldlM step s = (a :: (u ++ v)).foldlM step s := by
  induction u generalizing s with
  | nil => rfl
  | cons b u ih =>
    have hrest : ∀ c ∈ u, key c ≠ key a := fun c hc => hu c (List.mem_cons_of_mem _ hc)
    have hswap := h.swap hs (hu b (List.mem_cons_self ..))
    calc (b :: u ++ a :: v).foldlM step s
        = (step s b).bind fun s' => (u ++ a :: v).foldlM step s' := rfl
      _ = (step s b).bind fun s' => (step s' a).bind fun s'' => (u ++ v).foldlM step s'' := by
          cases hb : step s b with
          | none => rfl
          | some s' => exact ih (h.keeps hs hb) hrest
      _ = ((step s a).bind (step · b)).bind fun s'' => (u ++ v).foldlM step s'' := by
          rw [← Option.bind_assoc, hswap]
      _ = (a :: (b :: u ++ v)).foldlM step s := Option.bind_assoc ..

/-- What is left after taking the first action of a key out of both lists. -/
theorem SameOrder.tail (h : SameOrder key (a :: t) (u ++ a :: v)) (hu : ∀ b ∈ u, key b ≠ key a) :
    SameOrder key t (u ++ v) := by
  intro k
  have hk := h k
  rw [List.filter_append, List.filter_cons, List.filter_cons] at hk
  rw [List.filter_append]
  by_cases hak : key a = k
  · subst hak
    have hnone : u.filter (fun b => key b = key a) = [] :=
      List.filter_eq_nil_iff.2 fun b hb => by simpa using hu b hb
    simpa [hnone] using hk
  · simpa [hak] using hk

/-- **Reordering.** Lists with the same order under every key have the same run. -/
theorem Commuting.foldlM_eq_of_sameOrder (h : Commuting step key Inv) (hs : Inv s)
    (ht : SameOrder key t u) : t.foldlM step s = u.foldlM step s := by
  induction t generalizing s u with
  | nil =>
    cases u with
    | nil => rfl
    | cons b u =>
      have hb := ht (key b)
      simp at hb
  | cons a t ih =>
    have hhead := ht (key a)
    rw [List.filter_cons, if_pos (by simp)] at hhead
    obtain ⟨u, v, rfl, hu, -, -⟩ := List.filter_eq_cons_iff.1 hhead.symm
    have hu' : ∀ b ∈ u, key b ≠ key a := fun b hb => by simpa using hu b hb
    rw [h.foldlM_front hs hu', List.foldlM_cons, List.foldlM_cons]
    cases ha : step s a with
    | none => rfl
    | some s' => exact ih (h.keeps hs ha) (ht.tail hu')

end Reorder
