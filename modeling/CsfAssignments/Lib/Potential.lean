import Mathlib.Algebra.BigOperators.Group.Finset.Basic
/-!
# The weight of a state with finitely many parts

The parts of a state are `f : ι → Option β`, and each has a weight. `Weighs w f n` says that finitely many
parts are there and that their weights add up to `n`; writing one part changes the sum by what that part
weighed before and weighs now (`Weighs.update`). A step that always makes the sum smaller bounds the runs.
-/

namespace Potential

variable {ι β : Type*} {w : β → Nat} {f : ι → Option β} {n : Nat}

/-- The parts of `f` weigh `n` in all. -/
def Weighs (w : β → Nat) (f : ι → Option β) (n : Nat) : Prop :=
  ∃ dom : Finset ι, (∀ i ∉ dom, f i = none) ∧ ∑ i ∈ dom, (f i).elim 0 w = n

theorem Weighs.empty (w : β → Nat) : Weighs w (fun _ : ι => none) 0 := ⟨∅, fun _ _ => rfl, rfl⟩

variable [DecidableEq ι]

theorem Weighs.single (w : β → Nat) (i : ι) (b : β) :
    Weighs w (fun j => if j = i then some b else none) (w b) := by
  refine ⟨{i}, ?_, ?_⟩
  · intro j hj
    exact if_neg fun h => hj (Finset.mem_singleton.2 h)
  · rw [Finset.sum_singleton]
    exact congrArg (fun o : Option β => o.elim 0 w) (if_pos rfl)

/-- The set of the parts can be taken to have `i` in it. -/
theorem Weighs.with_mem (h : Weighs w f n) (i : ι) :
    ∃ dom : Finset ι, i ∈ dom ∧ (∀ j ∉ dom, f j = none) ∧ ∑ j ∈ dom, (f j).elim 0 w = n := by
  obtain ⟨dom, hnone, hsum⟩ := h
  refine ⟨insert i dom, Finset.mem_insert_self i dom, ?_, ?_⟩
  · intro j hj
    exact hnone j fun hmem => hj (Finset.mem_insert_of_mem hmem)
  · by_cases hi : i ∈ dom
    · rw [Finset.insert_eq_of_mem hi, hsum]
    · rw [Finset.sum_insert hi, hnone i hi, hsum]
      exact Nat.zero_add n

theorem Weighs.update (h : Weighs w f n) (i : ι) (o : Option β) :
    ∃ m, Weighs w (Function.update f i o) m ∧ m + (f i).elim 0 w = n + o.elim 0 w := by
  obtain ⟨dom, hi, hnone, hsum⟩ := h.with_mem i
  refine ⟨_, ⟨dom, ?_, rfl⟩, ?_⟩
  · intro j hj
    have hne : j ≠ i := by
      rintro rfl
      exact hj hi
    rw [Function.update_of_ne hne, hnone j hj]
  · have hrest : ∑ j ∈ dom.erase i, (Function.update f i o j).elim 0 w =
        ∑ j ∈ dom.erase i, (f j).elim 0 w :=
      Finset.sum_congr rfl fun j hj => by rw [Function.update_of_ne (Finset.ne_of_mem_erase hj)]
    rw [← Finset.sum_erase_add dom _ hi] at hsum
    rw [← Finset.sum_erase_add dom _ hi, hrest, Function.update_self]
    omega

end Potential
