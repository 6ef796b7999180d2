import CsfAssignments.Imgproc.CModel
import Mathlib.Algebra.Order.Ring.Int
import Mathlib.Tactic.Ring
/-!
# `gradient` (`c_imgproc_fns.c:34-38`)

| here | there |
| --- | --- |
| `gradientAt`      | the function over the integers, with the two factors of its quotient cancelled |
| `gradientOffset`  | the value that is squared |
| `GradientSafe`    | the operations, one field each |
-/

namespace CsfAssignments.Imgproc

/-! ## `int64_t` -/

theorem msb_ofNat {n : Nat} (hn : n < 2 ^ 63) : (BitVec.ofNat 64 n).msb = false := by
  rw [BitVec.msb_eq_false_iff_two_mul_lt, BitVec.toNat_ofNat]
  omega

theorem udiv_ofNat {a b : Nat} (ha : a < 2 ^ 63) (hb : b < 2 ^ 63) :
    BitVec.ofNat 64 a / BitVec.ofNat 64 b = BitVec.ofNat 64 (a / b) := by
  have hlt : a / b < 2 ^ 63 := Nat.lt_of_le_of_lt (Nat.div_le_self a b) ha
  apply BitVec.eq_of_toNat_eq
  rw [BitVec.toNat_udiv, BitVec.toNat_ofNat, BitVec.toNat_ofNat, BitVec.toNat_ofNat,
    Nat.mod_eq_of_lt (by omega), Nat.mod_eq_of_lt (by omega), Nat.mod_eq_of_lt (by omega)]

/-- Signed and unsigned division agree on numbers below `2 ^ 63`. -/
theorem sdiv_ofNat {a b : Nat} (ha : a < 2 ^ 63) (hb : b < 2 ^ 63) :
    (BitVec.ofNat 64 a).sdiv (BitVec.ofNat 64 b) = BitVec.ofNat 64 (a / b) := by
  rw [BitVec.sdiv_eq, msb_ofNat ha, msb_ofNat hb]
  exact udiv_ofNat ha hb

theorem toInt_long {n : Nat} (hn : n < 2 ^ 63) : (BitVec.ofNat 64 n).toInt = n := by
  rw [BitVec.toInt_eq_toNat_of_msb (msb_ofNat hn), BitVec.toNat_ofNat, Nat.mod_eq_of_lt (by omega)]

theorem not_smulOverflow {a b : BitVec 64} {z : Int} (hz : a.toInt * b.toInt = z) (hlo : -2 ^ 63 ≤ z)
    (hhi : z < 2 ^ 63) : ¬a.smulOverflow b ∧ (a * b).toInt = z := by
  have hfits : ¬a.smulOverflow b := by
    simp only [BitVec.smulOverflow, hz, Bool.or_eq_true, decide_eq_true_eq]
    omega
  exact ⟨hfits, (BitVec.toInt_mul_of_not_smulOverflow hfits).trans hz⟩

theorem not_ssubOverflow {a b : BitVec 64} {z : Int} (hz : a.toInt - b.toInt = z) (hlo : -2 ^ 63 ≤ z)
    (hhi : z < 2 ^ 63) : ¬a.ssubOverflow b ∧ (a - b).toInt = z := by
  have hfits : ¬a.ssubOverflow b := by
    simp only [BitVec.ssubOverflow, hz, Bool.or_eq_true, decide_eq_true_eq]
    omega
  exact ⟨hfits, (BitVec.toInt_sub_of_not_ssubOverflow hfits).trans hz⟩

/-! ## The function -/

/-- `square` before it is squared (`:35`). -/
def gradientOffset (x max : BitVec 64) : BitVec 64 :=
  (2000000000#64 * x).sdiv (1000000#64 * max) - 1000#64

theorem gradient_eq (x max : BitVec 64) :
    gradient x max = 1000000#64 - gradientOffset x max * gradientOffset x max := rfl

/-- No operation of `gradient` overflows, and it does not divide by zero. -/
structure GradientSafe (x max : BitVec 64) : Prop where
  dividend : ¬(2000000000#64).smulOverflow x
  divisor : ¬(1000000#64).smulOverflow max
  nonzero : 1000000#64 * max ≠ 0#64
  quotient : ¬(2000000000#64 * x).sdivOverflow (1000000#64 * max)
  offset : ¬((2000000000#64 * x).sdiv (1000000#64 * max)).ssubOverflow 1000#64
  squared : ¬(gradientOffset x max).smulOverflow (gradientOffset x max)
  result : ¬(1000000#64).ssubOverflow (gradientOffset x max * gradientOffset x max)

def gradientAt (x max : Nat) : Int := 1000000 - (((2000 * x / max : Nat) : Int) - 1000) ^ 2

theorem quotient_le {x max : Nat} (hx : x < max) : 2000 * x / max ≤ 2000 := by
  apply Nat.div_le_of_le_mul
  omega

/-- The square of a distance of up to 1000. -/
theorem square_range {q : Nat} (hq : q ≤ 2000) :
    0 ≤ ((q : Int) - 1000) ^ 2 ∧ ((q : Int) - 1000) ^ 2 ≤ 1000000 := by
  refine ⟨sq_nonneg _, ?_⟩
  have hexpand : ((q : Int) - 1000) ^ 2 = 1000000 - q * (2000 - q) := by ring
  have hprod : 0 ≤ (q : Int) * (2000 - q) := mul_nonneg (by omega) (by omega)
  omega

theorem gradientAt_range {x max : Nat} (hx : x < max) :
    0 ≤ gradientAt x max ∧ gradientAt x max ≤ 1000000 := by
  have hsquare := square_range (quotient_le hx)
  unfold gradientAt
  omega

/-- **The gradient is exact**: every step is in range, and the result is `gradientAt`. -/
theorem gradient_exact {x max : Nat} (hx : x < max) (hmax : max < 2 ^ 31) :
    GradientSafe (BitVec.ofNat 64 x) (BitVec.ofNat 64 max) ∧
      (gradient (BitVec.ofNat 64 x) (BitVec.ofNat 64 max)).toInt = gradientAt x max := by
  have hx63 := toInt_long (show x < 2 ^ 63 by omega)
  have hmax63 := toInt_long (show max < 2 ^ 63 by omega)
  have hmillion : (1000000#64).toInt = 1000000 := rfl
  have hnum : 2000000000#64 * BitVec.ofNat 64 x = BitVec.ofNat 64 (2000000000 * x) :=
    (BitVec.ofNat_mul ..).symm
  have hden : 1000000#64 * BitVec.ofNat 64 max = BitVec.ofNat 64 (1000000 * max) :=
    (BitVec.ofNat_mul ..).symm
  have hcancel : 2000000000 * x / (1000000 * max) = 2000 * x / max := by
    rw [show 2000000000 * x = 1000000 * (2000 * x) by omega]
    exact Nat.mul_div_mul_left _ _ (by decide)
  have hquot := quotient_le hx
  have hsquare := square_range hquot
  have hresult : gradientAt x max = 1000000 - (((2000 * x / max : Nat) : Int) - 1000) ^ 2 := rfl
  generalize 2000 * x / max = q at hcancel hquot hsquare hresult
  have hquot63 := toInt_long (show q < 2 ^ 63 by omega)
  have hdiv : (2000000000#64 * BitVec.ofNat 64 x).sdiv (1000000#64 * BitVec.ofNat 64 max) =
      BitVec.ofNat 64 q := by
    rw [hnum, hden, sdiv_ofNat (by omega) (by omega), hcancel]
  have hoff : gradientOffset (BitVec.ofNat 64 x) (BitVec.ofNat 64 max) = BitVec.ofNat 64 q - 1000#64 := by
    rw [gradientOffset, hdiv]
  -- the operations in the order of the source
  have hdividend := not_smulOverflow (a := 2000000000#64) (b := BitVec.ofNat 64 x)
    (z := 2000000000 * x) (by rw [hx63]; rfl) (by omega) (by omega)
  have hdivisor := not_smulOverflow (a := 1000000#64) (b := BitVec.ofNat 64 max)
    (z := 1000000 * max) (by rw [hmax63, hmillion]) (by omega) (by omega)
  have hoffset := not_ssubOverflow (a := BitVec.ofNat 64 q) (b := 1000#64) (z := q - 1000)
    (by rw [hquot63]; rfl) (by omega) (by omega)
  have hoffset_eq := hoffset.2
  rw [← hoff] at hoffset_eq
  have hsquared := not_smulOverflow (z := ((q : Int) - 1000) ^ 2)
    (show (gradientOffset (BitVec.ofNat 64 x) (BitVec.ofNat 64 max)).toInt *
      (gradientOffset (BitVec.ofNat 64 x) (BitVec.ofNat 64 max)).toInt = _ by rw [hoffset_eq, sq])
    (by omega) (by omega)
  have hlast := not_ssubOverflow (a := 1000000#64) (z := gradientAt x max)
    (by rw [hsquared.2, hmillion, hresult]) (by omega) (by omega)
  rw [gradient_eq]
  refine ⟨⟨hdividend.1, hdivisor.1, ?_, ?_, ?_, hsquared.1, hlast.1⟩, hlast.2⟩
  · intro hzero
    have hpos := hdivisor.2
    rw [hzero, BitVec.toInt_zero] at hpos
    omega
  · have hquot_eq : ((2000000000 * x : Nat) : Int) / ((1000000 * max : Nat) : Int) = q := by
      rw [← Int.natCast_ediv, hcancel]
    rw [hnum, hden, BitVec.sdivOverflow, toInt_long (by omega), toInt_long (by omega), hquot_eq]
    simp only [Bool.or_eq_true, decide_eq_true_eq]
    omega
  · rw [hdiv]
    exact hoffset.1

/-- A gradient is between 0 and 10^6. -/
theorem gradient_spec {x max : Nat} (hx : x < max) (hmax : max < 2 ^ 31) :
    ∃ g ≤ 1000000, gradient (BitVec.ofNat 64 x) (BitVec.ofNat 64 max) = BitVec.ofNat 64 g := by
  obtain ⟨-, hvalue⟩ := gradient_exact hx hmax
  obtain ⟨hlo, hhi⟩ := gradientAt_range hx
  refine ⟨(gradientAt x max).toNat, by omega, ?_⟩
  apply BitVec.eq_of_toInt_eq
  rw [hvalue, toInt_long (by omega), Int.toNat_of_nonneg hlo]

end CsfAssignments.Imgproc
