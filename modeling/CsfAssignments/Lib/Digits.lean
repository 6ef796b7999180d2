import Mathlib.Data.Nat.Digits.Lemmas
/-!
# Digits in groups

`Nat.ofDigits b` reads little-endian digits. Reading them in groups of `k` gives the digits of the same
number in base `b ^ k`. Leading zeros, which come last here, do not count.
-/

namespace Digits

open Nat (ofDigits)

variable {b k n : Nat} {d : List Nat}

/-- Group `j` of the digits. -/
def group (k : Nat) (d : List Nat) (j : Nat) : List Nat := (d.drop (k * j)).take k

theorem ofDigits_take_add (b : Nat) (d : List Nat) (k m : Nat) :
    ofDigits b (d.take (k + m)) = ofDigits b (d.take k) + b ^ k * ofDigits b ((d.drop k).take m) := by
  rw [List.take_add, Nat.ofDigits_append]
  by_cases hk : k ≤ d.length
  · rw [List.length_take, Nat.min_eq_left hk]
  · have hnil : d.drop k = [] := List.drop_eq_nil_of_le (by omega)
    simp [hnil]

/-- **Groups of digits are digits.** -/
theorem ofDigits_groups (b k n : Nat) (d : List Nat) :
    ofDigits (b ^ k) ((List.range n).map fun j => ofDigits b (group k d j)) =
      ofDigits b (d.take (k * n)) := by
  induction n generalizing d with
  | zero => simp
  | succ n ih =>
    have htail : ((List.range n).map fun j => ofDigits b (group k d (j + 1))) =
        (List.range n).map fun j => ofDigits b (group k (d.drop k) j) := by
      refine List.map_congr_left fun j _ => ?_
      rw [group, group, List.drop_drop, Nat.mul_succ, Nat.add_comm]
    rw [List.range_succ_eq_map, List.map_cons, List.map_map, Nat.ofDigits_cons, Nat.mul_succ,
      Nat.add_comm (k * n), ofDigits_take_add]
    refine congrArg₂ (· + b ^ k * ·) ?_ ?_
    · simp [group]
    · exact (congrArg _ htail).trans (ih (d.drop k))

end Digits
