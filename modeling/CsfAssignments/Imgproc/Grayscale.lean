import CsfAssignments.Imgproc.OutputImage
/-!
# `imgproc_grayscale` in C and assembly

Both write `to_grayscale` of each input pixel to the same place of the output (`grayCell`). What comes out
is gray already, so a second pass changes nothing.
-/

namespace CsfAssignments.Imgproc

open Memory X86 Asm

variable {text : List (Instr Label) → Addr} {L : Layout} {w h i j : Nat} {inPix p : Nat → Pixel}

theorem picture_gray : picture w h ((List.range (w * h)).foldl (grayCell inPix) p) =
    picture w h fun x => toGrayscale (inPix x) :=
  picture_congr fun _ hx => Paint.foldl_update (fun x => toGrayscale (inPix x)) (List.mem_range.mpr hx)

/-! ## The C function -/

theorem grayscalePixel_picture (hsize : w * h < 2 ^ 31) (hi : i < h) (hj : j < w) :
    grayscalePixel (picture w h inPix) (BitVec.ofNat 32 i) (BitVec.ofNat 32 j) (picture w h p) =
      some (picture w h (grayCell inPix p (i * w + j))) := by
  have hx := index_lt hi hj
  simp only [grayscalePixel, computeIndex_picture, load_picture hsize hx, store_picture hsize hx,
    Option.bind_eq_bind, Option.bind_some, grayCell]

theorem imgprocGrayscale_picture (hw : w < 2 ^ 31) (hh : h < 2 ^ 31) (hsize : w * h < 2 ^ 31) :
    imgprocGrayscale (picture w h inPix) (picture w h p) =
      some (picture w h fun x => toGrayscale (inPix x)) := by
  rw [← picture_gray (p := p), Nat.mul_comm w h]
  exact forLoop_pixels (by omega) (by omega)
    (fun i hi j hj p => grayscalePixel_picture hsize hi hj) p

/-- `output` is the gray of `input`, and nothing but itself after a second pass. -/
structure Grayed (w h : Nat) (input output : Image) : Prop where
  size : output.HasSize w h
  pixels : ∀ row < h, ∀ col < w, ∃ old new y, input.data[row * w + col]? = some old ∧
    output.data[row * w + col]? = some new ∧ GrayPixel old new y
  again : ∀ other : Image, other.HasSize w h → imgprocGrayscale output other = some output

theorem grayed_picture (hw : w < 2 ^ 31) (hh : h < 2 ^ 31) (hsize : w * h < 2 ^ 31) :
    Grayed w h (picture w h inPix) (picture w h fun x => toGrayscale (inPix x)) := by
  refine ⟨picture_hasSize hw hh, ?_, ?_⟩
  · intro row hrow col hcol
    have hx := index_lt hrow hcol
    exact ⟨_, _, _, getElem?_picture hx, getElem?_picture hx, grayPixel _⟩
  · intro other hother
    obtain ⟨q, rfl⟩ := eq_picture hother.width hother.height hother.length
    rw [imgprocGrayscale_picture hw hh hsize]
    simp only [toGrayscale_idem]

/-- **Grayscale is a weighted mean**, on every image of fewer than `2^31` pixels. -/
theorem grayscale_exact (hsize : w * h < 2 ^ 31) {input output : Image} (hin : input.HasSize w h)
    (hout : output.HasSize w h) :
    ∃ result, imgprocGrayscale input output = some result ∧ Grayed w h input result := by
  have hw := hin.width_lt
  have hh := hin.height_lt
  obtain ⟨inPix, rfl⟩ := eq_picture hin.width hin.height hin.length
  obtain ⟨p, rfl⟩ := eq_picture hout.width hout.height hout.length
  exact ⟨_, imgprocGrayscale_picture hw hh hsize, grayed_picture hw hh hsize⟩

/-! ## Agreement -/

theorem grayscale_output {s : State} (hc : Called L s) (hfit : Entry.grayscale.Fits L) :
    ∃ s', Returns (program text) .imgprocGrayscale s s.top s' ∧
      L.out.image s'.mem = picture L.inp.width L.inp.height fun x =>
        toGrayscale ((L.contents s.mem).inPix x) := by
  obtain ⟨s', hr, -, -, hm⟩ := grayscale_returns hc hfit
  refine ⟨s', hr, ?_⟩
  rw [hm.out.image, hfit.1, hfit.2]
  exact picture_gray

/-- The assembly gives the output of the C function. -/
theorem grayscale_same {s : State} (hc : Called L s) (hfit : Entry.grayscale.Fits L) :
    ∃ s', Returns (program text) .imgprocGrayscale s s.top s' ∧
      imgprocGrayscale (L.inp.image s.mem) (L.out.image s.mem) = some (L.out.image s'.mem) ∧
      Grayed L.inp.width L.inp.height (L.inp.image s.mem) (L.out.image s'.mem) := by
  have hv := hc.valid
  obtain ⟨s', hr, hout⟩ := grayscale_output hc hfit
  refine ⟨s', hr, ?_, ?_⟩
  · rw [(hc.holds 0).inp.image, (hc.holds 0).out.image, hout, hfit.1, hfit.2]
    exact imgprocGrayscale_picture hv.inp.width hv.inp.height hv.inp.size
  · rw [(hc.holds 0).inp.image, hout]
    exact grayed_picture hv.inp.width hv.inp.height hv.inp.size

/-- **C and assembly agree** on every pixel of the output, which is the gray of the input. A second pass
over the output, of either one, gives that output again. -/
theorem grayscale_agree {s : State} (hc : Called L s) (hfit : Entry.grayscale.Fits L) :
    ∃ ra s', Returns (program text) .imgprocGrayscale s ra s' ∧
      imgprocGrayscale (L.inp.image s.mem) (L.out.image s.mem) = some (L.out.image s'.mem) ∧
      Grayed L.inp.width L.inp.height (L.inp.image s.mem) (L.out.image s'.mem) ∧
      ∀ (M : Layout) (t : State), Called M t → Entry.grayscale.Fits M →
        M.inp.image t.mem = L.out.image s'.mem →
        ∃ ra t', Returns (program text) .imgprocGrayscale t ra t' ∧
          M.out.image t'.mem = L.out.image s'.mem := by
  obtain ⟨s', hr, hsame, hgray⟩ := grayscale_same hc hfit
  refine ⟨s.top, s', hr, hsame, hgray, ?_⟩
  intro M t hcM hfitM hin
  obtain ⟨t', hrM, hsameM, -⟩ := grayscale_same hcM hfitM
  refine ⟨t.top, t', hrM, ?_⟩
  have hsizeM := hcM.valid.inp.hasSize t.mem
  rw [hin] at hsizeM
  obtain ⟨hw, hh⟩ := hsizeM.unique hgray.size
  have hother := hcM.valid.out.hasSize t.mem
  rw [hfitM.1, hfitM.2, hw, hh] at hother
  rw [hin, hgray.again _ hother, Option.some.injEq] at hsameM
  exact hsameM.symm

/-- Two rows of three pixels. -/
theorem grayscale_agree_three_by_two :
    let L := sampleLayout 3 2 3 2
    let s := sampleState ⟨0, 0, 0, 0, 0, 0, 0, 0, 0, 0, 0, 0, 0, 0, 0, 0⟩ L
    ∃ ra s', Returns (program fun _ => 0x400000#64) .imgprocGrayscale s ra s' ∧
      imgprocGrayscale (L.inp.image s.mem) (L.out.image s.mem) = some (L.out.image s'.mem) ∧
      Grayed L.inp.width L.inp.height (L.inp.image s.mem) (L.out.image s'.mem) ∧
      ∀ (M : Layout) (t : State), Called M t → Entry.grayscale.Fits M →
        M.inp.image t.mem = L.out.image s'.mem →
        ∃ ra t', Returns (program fun _ => 0x400000#64) .imgprocGrayscale t ra t' ∧
          M.out.image t'.mem = L.out.image s'.mem :=
  grayscale_agree
    (sample_called _ (by decide) (by decide) (by decide) (by decide) (by decide) (by decide)) ⟨rfl, rfl⟩

end CsfAssignments.Imgproc
