import Mathlib.Algebra.BigOperators.Ring.Finset
import Mathlib.Algebra.Order.BigOperators.Group.Finset
/-!
# Weighted means of natural numbers

`mean s w x` is the mean of the values `x` with the weights `w`, rounded down. It lies between any bounds
of the values, so it is the common value when there is one.
-/

namespace Mean

variable {ι : Type} {s : Finset ι} {w x : ι → ℕ} {a : ℕ}

def mean (s : Finset ι) (w x : ι → ℕ) : ℕ := (∑ i ∈ s, w i * x i) / ∑ i ∈ s, w i

theorem le_mean (hw : 0 < ∑ i ∈ s, w i) (h : ∀ i ∈ s, a ≤ x i) : a ≤ mean s w x := by
  rw [mean, Nat.le_div_iff_mul_le hw]
  calc a * ∑ i ∈ s, w i = ∑ i ∈ s, w i * a := by rw [Nat.mul_comm, Finset.sum_mul]
    _ ≤ ∑ i ∈ s, w i * x i := Finset.sum_le_sum fun i hi => Nat.mul_le_mul_left (w i) (h i hi)

theorem mean_le (h : ∀ i ∈ s, x i ≤ a) : mean s w x ≤ a := by
  apply Nat.div_le_of_le_mul
  calc ∑ i ∈ s, w i * x i ≤ ∑ i ∈ s, w i * a :=
        Finset.sum_le_sum fun i hi => Nat.mul_le_mul_left (w i) (h i hi)
    _ = (∑ i ∈ s, w i) * a := (Finset.sum_mul ..).symm

theorem mean_const (hw : 0 < ∑ i ∈ s, w i) (h : ∀ i ∈ s, x i = a) : mean s w x = a :=
  Nat.le_antisymm (mean_le fun i hi => Nat.le_of_eq (h i hi))
    (le_mean hw fun i hi => Nat.le_of_eq (h i hi).symm)

end Mean
