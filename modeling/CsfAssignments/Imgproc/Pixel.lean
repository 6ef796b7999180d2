import CsfAssignments.Imgproc.CModel
import CsfAssignments.Lib.Mean
import Mathlib.Data.Fin.VecNotation
import Mathlib.Algebra.BigOperators.Fin
import Mathlib.Tactic.IntervalCases
/-!
# Pixels and their components (`c_imgproc_fns.c:9-32`)

A component is a byte, and `make_pixel` keeps four bytes apart. The gray of a pixel is a weighted mean of
its components (`luma_toNat`): it lies between them, and a gray pixel is its own gray.
-/

namespace CsfAssignments.Imgproc

open Mean

theorem component_le (p : Pixel) :
    (getR p).toNat ≤ 255 ∧ (getG p).toNat ≤ 255 ∧ (getB p).toNat ≤ 255 := by
  have hp := p.isLt
  have hmask (mask : BitVec 32) : (p &&& mask).toNat ≤ mask.toNat := by
    rw [BitVec.toNat_and]
    exact Nat.and_le_right
  have hr := hmask 0xFF000000#32
  have hg := hmask 0x00FF0000#32
  have hb := hmask 0x0000FF00#32
  simp only [getR, getG, getB, BitVec.toNat_ushiftRight, Nat.shiftRight_eq_div_pow]
  simp only [BitVec.toNat_ofNat] at hr hg hb
  omega

theorem getA_le (p : Pixel) : (getA p).toNat ≤ 255 := by
  rw [getA, BitVec.toNat_and]
  exact Nat.and_le_right

/-- `make_pixel` keeps four bytes apart. -/
theorem get_makePixel {r g b a : BitVec 32} (hr : r.toNat ≤ 255) (hg : g.toNat ≤ 255)
    (hb : b.toNat ≤ 255) (ha : a.toNat ≤ 255) :
    getR (makePixel r g b a) = r ∧ getG (makePixel r g b a) = g ∧ getB (makePixel r g b a) = b ∧
      getA (makePixel r g b a) = a := by
  have hhigh : ∀ v : BitVec 32, v.toNat ≤ 255 → ∀ i (hi : i < 32), 8 ≤ i → v[i] = false := by
    intro v hv i hi h8
    rw [BitVec.getElem_eq_testBit_toNat]
    exact Nat.testBit_lt_two_pow (Nat.lt_of_le_of_lt hv (Nat.lt_of_lt_of_le (by decide)
      (Nat.pow_le_pow_right (by decide) h8)))
  have hr := hhigh r hr
  have hg := hhigh g hg
  have hb := hhigh b hb
  have ha := hhigh a ha
  refine ⟨?_, ?_, ?_, ?_⟩
  all_goals
    apply BitVec.eq_of_getLsbD_eq
    intro i hi
    interval_cases i <;> simp [makePixel, getR, getG, getB, getA, hr, hg, hb, ha]

/-- The components or-ed together. -/
theorem makePixel_or (p : Pixel) :
    makePixel (getR p) 0#32 0#32 (getA p) ||| makePixel 0#32 (getG p) 0#32 (getA p) |||
      makePixel 0#32 0#32 (getB p) (getA p) = p := by
  apply BitVec.eq_of_getLsbD_eq
  intro i hi
  interval_cases i <;> simp [makePixel, getR, getG, getB, getA]

/-! ## Gray -/

/-- The weights of `to_grayscale` (`:30`); they sum to 256. -/
def weights : Fin 3 → ℕ := ![79, 128, 49]

def components (p : Pixel) : Fin 3 → ℕ := ![(getR p).toNat, (getG p).toNat, (getB p).toNat]

theorem forall_components {p : Pixel} (P : ℕ → Prop) (hr : P (getR p).toNat)
    (hg : P (getG p).toNat) (hb : P (getB p).toNat) : ∀ i ∈ Finset.univ, P (components p i)
  | 0, _ => hr
  | 1, _ => hg
  | 2, _ => hb

theorem sum_weights : ∑ i, weights i = 256 := rfl

/-- Neither the sum nor the division leaves 32 bits. -/
theorem luma_toNat (p : Pixel) : (luma p).toNat = mean Finset.univ weights (components p) := by
  obtain ⟨hr, hg, hb⟩ := component_le p
  have hsum : ∑ i, weights i * components p i =
      79 * (getR p).toNat + 128 * (getG p).toNat + 49 * (getB p).toNat := Fin.sum_univ_three _
  rw [mean, sum_weights, hsum]
  simp only [luma, BitVec.ofNat_eq_ofNat, BitVec.toNat_udiv, BitVec.toNat_add, BitVec.toNat_mul, BitVec.toNat_ofNat,
    Nat.reducePow, Nat.reduceMod]
  omega

theorem luma_le (p : Pixel) : (luma p).toNat ≤ 255 := by
  obtain ⟨hr, hg, hb⟩ := component_le p
  rw [luma_toNat]
  exact mean_le (forall_components (· ≤ 255) hr hg hb)

/-- What `to_grayscale` makes of a pixel. -/
structure GrayPixel (old new : Pixel) (y : BitVec 32) : Prop where
  pixel : new = makePixel y y y (getA old)
  /-- No component spills into its neighbour. -/
  apart : getR new = y ∧ getG new = y ∧ getB new = y ∧ getA new = getA old
  least : min (getR old).toNat (min (getG old).toNat (getB old).toNat) ≤ y.toNat
  greatest : y.toNat ≤ max (getR old).toNat (max (getG old).toNat (getB old).toNat)

theorem grayPixel (p : Pixel) : GrayPixel p (toGrayscale p) (luma p) := by
  have hy := luma_le p
  refine ⟨rfl, get_makePixel hy hy hy (getA_le p), ?_, ?_⟩
  · rw [luma_toNat]
    exact le_mean (by decide) (forall_components (_ ≤ ·) (by omega) (by omega) (by omega))
  · rw [luma_toNat]
    exact mean_le (forall_components (· ≤ _) (by omega) (by omega) (by omega))

/-- A gray pixel is its own gray. -/
theorem toGrayscale_gray {y a : BitVec 32} (hy : y.toNat ≤ 255) (ha : a.toNat ≤ 255) :
    toGrayscale (makePixel y y y a) = makePixel y y y a := by
  obtain ⟨hr, hg, hb, halpha⟩ := get_makePixel hy hy hy ha
  have hluma : luma (makePixel y y y a) = y := by
    apply BitVec.eq_of_toNat_eq
    rw [luma_toNat]
    exact mean_const (by decide) (forall_components (· = _) (by rw [hr]) (by rw [hg]) (by rw [hb]))
  rw [toGrayscale, hluma, halpha]

/-- **Gray stays gray.** -/
theorem toGrayscale_idem (p : Pixel) : toGrayscale (toGrayscale p) = toGrayscale p :=
  toGrayscale_gray (luma_le p) (getA_le p)

end CsfAssignments.Imgproc
