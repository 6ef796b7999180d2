import CsfAssignments.Imgproc.AsmFade
import CsfAssignments.Imgproc.Gradient
import CsfAssignments.Imgproc.Picture
import CsfAssignments.Imgproc.Pixel
/-!
# `imgproc_fade` in C and assembly

The assembly divides unsigned and does not clamp. `gradient_spec` is why that makes no difference: a
gradient is between 0 and 10^6, so a faded component is at most the component.
-/

namespace CsfAssignments.Imgproc

open Memory X86 Asm

variable {text : List (Instr Label) → Addr} {L : Layout} {w h i j : Nat} {inPix p : Nat → Pixel}

/-- The division of a faded component is exact. -/
theorem faded_ofNat {gr gc : Nat} {c : BitVec 32} (hgr : gr ≤ 1000000) (hgc : gc ≤ 1000000)
    (hc : c.toNat ≤ 255) :
    (BitVec.ofNat 64 gr * BitVec.ofNat 64 gc * c.zeroExtend 64).sdiv 1000000000000#64 =
        BitVec.ofNat 64 (gr * gc * c.toNat / 1000000000000) ∧
      gr * gc * c.toNat ≤ 255 * 1000000000000 := by
  have hprod : gr * gc ≤ 1000000 * 1000000 := Nat.mul_le_mul hgr hgc
  have hall : gr * gc * c.toNat ≤ 1000000 * 1000000 * 255 := Nat.mul_le_mul hprod hc
  have hzext : c.zeroExtend 64 = BitVec.ofNat 64 c.toNat := by
    apply BitVec.eq_of_toNat_eq
    simp
  rw [hzext, ← BitVec.ofNat_mul, ← BitVec.ofNat_mul]
  exact ⟨sdiv_ofNat (by omega) (by omega), by omega⟩

/-- **The clamp never fires.** -/
theorem fadeComponent_eq {gr gc : Nat} {c : BitVec 32} (hgr : gr ≤ 1000000) (hgc : gc ≤ 1000000)
    (hc : c.toNat ≤ 255) :
    fadeComponent (BitVec.ofNat 64 gr) (BitVec.ofNat 64 gc) c =
      scaled (BitVec.ofNat 64 gr) (BitVec.ofNat 64 gc) c := by
  obtain ⟨hsigned, hall⟩ := faded_ofNat hgr hgc hc
  have hunsigned : zext c * (BitVec.ofNat 64 gc * BitVec.ofNat 64 gr) / 1000000000000#64 =
      BitVec.ofNat 64 (gr * gc * c.toNat / 1000000000000) := by
    have hzext : zext c = BitVec.ofNat 64 c.toNat := by
      apply BitVec.eq_of_toNat_eq
      simp [zext]
    have hcomm : zext c * (BitVec.ofNat 64 gc * BitVec.ofNat 64 gr) =
        BitVec.ofNat 64 (gr * gc * c.toNat) := by
      rw [hzext, ← BitVec.ofNat_mul, ← BitVec.ofNat_mul]
      congr 1
      ring
    rw [hcomm]
    exact udiv_ofNat (by omega) (by omega)
  have hC : fadeComponent (BitVec.ofNat 64 gr) (BitVec.ofNat 64 gc) c =
      if 255#32 < low (BitVec.ofNat 64 (gr * gc * c.toNat / 1000000000000)) then 255#32
      else low (BitVec.ofNat 64 (gr * gc * c.toNat / 1000000000000)) := by
    rw [← hsigned]
    rfl
  rw [hC, scaled, hunsigned]
  have hquot : gr * gc * c.toNat / 1000000000000 ≤ 255 := by omega
  generalize gr * gc * c.toNat / 1000000000000 = q at hquot
  apply if_neg
  rw [low_ofNat, BitVec.lt_def, BitVec.toNat_ofNat, BitVec.toNat_ofNat]
  omega

/-! ## The C function -/

theorem word_eq {n : Nat} (hn : n < 2 ^ 32) : word n = BitVec.ofNat 64 n := by
  apply BitVec.eq_of_toNat_eq
  rw [toNat_word hn, BitVec.toNat_ofNat]
  omega

theorem fadeOnePixel_picture (hw : w < 2 ^ 31) (hh : h < 2 ^ 31) (hsize : w * h < 2 ^ 31) (hi : i < h)
    (hj : j < w) :
    fadeOnePixel (picture w h inPix) (gradient (BitVec.ofNat 64 i) (BitVec.ofNat 64 h))
      (gradient (BitVec.ofNat 64 j) (BitVec.ofNat 64 w)) (BitVec.ofNat 64 i) (BitVec.ofNat 64 j)
      (picture w h p) = some (picture w h (fadeCell w h inPix p (i * w + j))) := by
  obtain ⟨gr, hgr, hrow⟩ := gradient_spec hi hh
  obtain ⟨gc, hgc, hcol⟩ := gradient_spec hj hw
  have htrunc (n : Nat) : (BitVec.ofNat 64 n).truncate 32 = BitVec.ofNat 32 n := low_ofNat n
  have hx := index_lt hi hj
  obtain ⟨hR, hG, hB⟩ := component_le (inPix (i * w + j))
  simp only [fadeOnePixel, htrunc, computeIndex_picture, load_picture hsize hx,
    store_picture hsize hx, Option.bind_eq_bind, Option.bind_some, fadeCell, index_div i hj,
    index_mod i hj, word_eq (show i < 2 ^ 32 by omega), word_eq (show j < 2 ^ 32 by omega),
    word_eq (show w < 2 ^ 32 by omega), word_eq (show h < 2 ^ 32 by omega), hrow, hcol, fadePixel,
    fadeComponent_eq hgr hgc hR, fadeComponent_eq hgr hgc hG, fadeComponent_eq hgr hgc hB]

theorem imgprocFade_picture (hw : w < 2 ^ 31) (hh : h < 2 ^ 31) (hsize : w * h < 2 ^ 31) :
    imgprocFade (picture w h inPix) (picture w h p) =
      some (picture w h ((List.range (w * h)).foldl (fadeCell w h inPix) p)) := by
  have hwidth : (picture w h inPix).width.signExtend 64 = BitVec.ofNat 64 w := signExtend_ofNat hw
  have hheight : (picture w h inPix).height.signExtend 64 = BitVec.ofNat 64 h := signExtend_ofNat hh
  rw [imgprocFade, hwidth, hheight, Nat.mul_comm w h]
  exact forLoop_pixels (by omega) (by omega)
    (fun i hi j hj p => fadeOnePixel_picture hw hh hsize hi hj) p

/-- **C and assembly agree** on every pixel of the output. -/
theorem fade_agree {s : State} (hc : Called L s) (hfit : Entry.fade.Fits L) :
    ∃ ra s', Returns (program text) .imgprocFade s ra s' ∧
      imgprocFade (L.inp.image s.mem) (L.out.image s.mem) = some (L.out.image s'.mem) := by
  have hv := hc.valid
  obtain ⟨s', hr, -, -, -, -, -, -, -, hm⟩ := fade_returns hc hfit
  refine ⟨s.top, s', hr, ?_⟩
  rw [(hc.holds 0).inp.image, (hc.holds 0).out.image, hm.out.image, hfit.1, hfit.2]
  exact imgprocFade_picture hv.inp.width hv.inp.height hv.inp.size

theorem fade_agree_three_by_two :
    let L := sampleLayout 3 2 3 2
    let s := sampleState ⟨0, 0, 0, 0, 0, 0, 0, 0, 0, 0, 0, 0, 0, 0, 0, 0⟩ L
    ∃ ra s', Returns (program fun _ => 0x400000#64) .imgprocFade s ra s' ∧
      imgprocFade (L.inp.image s.mem) (L.out.image s.mem) = some (L.out.image s'.mem) :=
  fade_agree (sample_called _ (by decide) (by decide) (by decide) (by decide) (by decide) (by decide))
    ⟨rfl, rfl⟩

end CsfAssignments.Imgproc
