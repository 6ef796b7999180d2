import CsfAssignments.Imgproc.AsmPixelwise
import CsfAssignments.Imgproc.Picture
import CsfAssignments.Imgproc.Pixel
import CsfAssignments.Lib.Paint
/-!
# `imgproc_rgb` tiles its output

The output is four copies of the input. `tile` is the pixel in row `r` and column `c` of it, and
`tile_written` is why the copies neither overlap nor leave a gap: what is written at a place is what
`tile` says, and every place is written.
-/

namespace CsfAssignments.Imgproc

open Memory X86 Asm Paint

variable {text : List (Instr Label) → Addr} {L : Layout} {w h x r c : Nat} {inPix pix : Nat → Pixel}

/-- The whole pixel, then its red, green and blue component. -/
def tile (w h : Nat) (inPix : Nat → Pixel) (r c : Nat) : Pixel :=
  let i := if r < h then r else r - h
  let j := if c < w then c else c - w
  let pixel := inPix (i * w + j)
  if r < h then
    if c < w then pixel else makePixel (getR pixel) 0#32 0#32 (getA pixel)
  else
    if c < w then makePixel 0#32 (getG pixel) 0#32 (getA pixel)
    else makePixel 0#32 0#32 (getB pixel) (getA pixel)

/-- The writes of a round. -/
def rgbWrites (w h : Nat) (inPix : Nat → Pixel) (x : Nat) : List (Nat × Pixel) :=
  let i := x / w
  let j := x % w
  let v := inPix x
  [(i * (2 * w) + j, v),
    (i * (2 * w) + (j + w), makePixel (getR v) 0#32 0#32 (getA v)),
    ((i + h) * (2 * w) + j, makePixel 0#32 (getG v) 0#32 (getA v)),
    ((i + h) * (2 * w) + (j + w), makePixel 0#32 0#32 (getB v) (getA v))]

theorem rgbCell_eq : rgbCell w h inPix = fun p x => paint (rgbWrites w h inPix x) p := rfl

/-- What is written is a tile. -/
theorem tile_of_write (hx : x < w * h) {y : Nat × Pixel} (hy : y ∈ rgbWrites w h inPix x) :
    ∃ r < 2 * h, ∃ c < 2 * w, y = (r * (2 * w) + c, tile w h inPix r c) := by
  have hw : 0 < w := Nat.pos_of_ne_zero fun h0 => by simp [h0] at hx
  have hi : x / w < h := Nat.div_lt_of_lt_mul hx
  have hj : x % w < w := Nat.mod_lt x hw
  have hxx : x / w * w + x % w = x := Nat.div_add_mod' x w
  simp only [rgbWrites, List.mem_cons, List.not_mem_nil, or_false] at hy
  rcases hy with rfl | rfl | rfl | rfl
  · refine ⟨x / w, by omega, x % w, by omega, ?_⟩
    simp [tile, hi, hj, hxx]
  · refine ⟨x / w, by omega, x % w + w, by omega, ?_⟩
    simp [tile, hi, hxx]
  · refine ⟨x / w + h, by omega, x % w, by omega, ?_⟩
    simp [tile, hj, hxx]
  · refine ⟨x / w + h, by omega, x % w + w, by omega, ?_⟩
    simp [tile, hxx]

/-- Every place is written. -/
theorem tile_written (inPix : Nat → Pixel) (hr : r < 2 * h) (hc : c < 2 * w) :
    ∃ x < w * h, (r * (2 * w) + c, tile w h inPix r c) ∈ rgbWrites w h inPix x := by
  obtain ⟨i, hi, hri⟩ : ∃ i < h, r = i ∨ r = i + h := by
    by_cases hlt : r < h
    · exact ⟨r, hlt, .inl rfl⟩
    · exact ⟨r - h, by omega, .inr (by omega)⟩
  obtain ⟨j, hj, hcj⟩ : ∃ j < w, c = j ∨ c = j + w := by
    by_cases hlt : c < w
    · exact ⟨c, hlt, .inl rfl⟩
    · exact ⟨c - w, by omega, .inr (by omega)⟩
  refine ⟨i * w + j, index_lt hi hj, ?_⟩
  simp only [rgbWrites, index_div i hj, index_mod i hj]
  rcases hri with rfl | rfl <;> rcases hcj with rfl | rfl <;> simp [tile, hi, hj]

theorem rgb_tiles (hr : r < 2 * h) (hc : c < 2 * w) :
    (List.range (w * h)).foldl (rgbCell w h inPix) pix (r * (2 * w) + c) = tile w h inPix r c := by
  rw [rgbCell_eq, foldl_paint]
  apply paint_of_mem
  · obtain ⟨x, hx, hmem⟩ := tile_written inPix hr hc
    exact List.mem_flatMap.mpr ⟨x, List.mem_range.mpr hx, hmem⟩
  · intro y hy hplace
    obtain ⟨x, hx, hy⟩ := List.mem_flatMap.mp hy
    obtain ⟨r', -, c', hc', rfl⟩ := tile_of_write (List.mem_range.mp hx) hy
    simp only [Nat.mul_comm _ (2 * w)] at hplace
    obtain ⟨rfl, rfl⟩ := index_inj hc' hc hplace
    rfl

/-! ## The C function -/

theorem rgbPixel_picture (hin : w * h < 2 ^ 31) (hout : 2 * w * (2 * h) < 2 ^ 31) {i j : Nat}
    (hi : i < h) (hj : j < w) :
    rgbPixel (picture w h inPix) (BitVec.ofNat 32 i) (BitVec.ofNat 32 j)
      (picture (2 * w) (2 * h) pix) =
      some (picture (2 * w) (2 * h) (rgbCell w h inPix pix (i * w + j))) := by
  have hplace {a b : Nat} (ha : a < 2 * h) (hb : b < 2 * w) : a * (2 * w) + b < 2 * w * (2 * h) :=
    index_lt ha hb
  have hcopy := hplace (a := i) (b := j) (by omega) (by omega)
  have hred := hplace (a := i) (b := j + w) (by omega) (by omega)
  have hgreen := hplace (a := i + h) (b := j) (by omega) (by omega)
  have hblue := hplace (a := i + h) (b := j + w) (by omega) (by omega)
  have hright : BitVec.ofNat 32 w + BitVec.ofNat 32 j = BitVec.ofNat 32 (j + w) := by
    rw [← BitVec.ofNat_add, Nat.add_comm]
  have hdown : BitVec.ofNat 32 h + BitVec.ofNat 32 i = BitVec.ofNat 32 (i + h) := by
    rw [← BitVec.ofNat_add, Nat.add_comm]
  have hwidth : (picture w h inPix).width = BitVec.ofNat 32 w := rfl
  have hheight : (picture w h inPix).height = BitVec.ofNat 32 h := rfl
  simp only [rgbPixel, hwidth, hheight, hright, hdown, computeIndex_picture,
    load_picture hin (index_lt hi hj), store_picture hout hcopy, store_picture hout hred,
    store_picture hout hgreen, store_picture hout hblue, Option.bind_eq_bind, Option.bind_some]
  simp only [rgbCell, index_div i hj, index_mod i hj]
  rfl

theorem imgprocRgb_picture (hw : w < 2 ^ 31) (hh : h < 2 ^ 31) (hout : 2 * w * (2 * h) < 2 ^ 31) :
    imgprocRgb (picture w h inPix) (picture (2 * w) (2 * h) pix) =
      some (picture (2 * w) (2 * h) ((List.range (w * h)).foldl (rgbCell w h inPix) pix)) := by
  have hin : w * h < 2 ^ 31 := by
    have hfour : 2 * w * (2 * h) = 4 * (w * h) := by ring
    omega
  rw [Nat.mul_comm w h]
  exact forLoop_pixels (by omega) (by omega)
    (fun i hi j hj pix => rgbPixel_picture hin hout hi hj) pix

/-! ## Agreement -/

/-- The four copies, and the input again from three of them. -/
def Tiled (w h : Nat) (inPix outPix : Nat → Pixel) : Prop :=
  ∀ i < h, ∀ j < w,
    let p := inPix (i * w + j)
    let copy := outPix (i * (2 * w) + j)
    let red := outPix (i * (2 * w) + (w + j))
    let green := outPix ((h + i) * (2 * w) + j)
    let blue := outPix ((h + i) * (2 * w) + (w + j))
    copy = p ∧ red = makePixel (getR p) 0#32 0#32 (getA p) ∧
      green = makePixel 0#32 (getG p) 0#32 (getA p) ∧
      blue = makePixel 0#32 0#32 (getB p) (getA p) ∧ red ||| green ||| blue = p

theorem tiled_of_tile {outPix : Nat → Pixel}
    (ht : ∀ r < 2 * h, ∀ c < 2 * w, outPix (r * (2 * w) + c) = tile w h inPix r c) :
    Tiled w h inPix outPix := by
  intro i hi j hj
  simp only
  rw [ht i (by omega) j (by omega), ht i (by omega) (w + j) (by omega),
    ht (h + i) (by omega) j (by omega), ht (h + i) (by omega) (w + j) (by omega)]
  simp only [tile, hi, hj, if_true, Nat.not_lt_of_le (Nat.le_add_right _ _), if_false,
    Nat.add_sub_cancel_left, true_and]
  exact makePixel_or _

theorem rgb_inside (hv : L.Valid) (hfit : Entry.rgb.Fits L) :
    ∀ a ∈ (List.range L.inp.size).flatMap (rgbAccesses L L.inp.width L.inp.height),
      L.InBounds a := by
  intro a ha
  obtain ⟨x, hx, ha⟩ := List.mem_flatMap.mp ha
  have hx := List.mem_range.mp hx
  rcases List.mem_cons.mp ha with rfl | ha
  · exact inBounds_load hv hx
  -- the stores are at the places of the writes
  obtain ⟨y, hy, rfl⟩ : ∃ y ∈ rgbWrites L.inp.width L.inp.height (fun _ => 0#32) x,
      a = ⟨true, L.out.data, word y.1⟩ := by
    simp only [List.mem_cons, List.not_mem_nil, or_false] at ha
    rcases ha with rfl | rfl | rfl | rfl <;> simp [rgbWrites]
  obtain ⟨r, hr, c, hc, rfl⟩ := tile_of_write hx hy
  refine inBounds_store hv ?_
  rw [Img.size, hfit.1, hfit.2]
  exact index_lt hr hc

/-- Every pixel of the output is stored. -/
theorem rgb_stores (hfit : Entry.rgb.Fits L) (hx : x < L.out.size) :
    ⟨true, L.out.data, word x⟩ ∈
      (List.range L.inp.size).flatMap (rgbAccesses L L.inp.width L.inp.height) := by
  rw [Img.size, hfit.1, hfit.2] at hx
  have hpos : 0 < 2 * L.inp.width := Nat.pos_of_ne_zero fun h0 => by simp [h0] at hx
  have hrow : x / (2 * L.inp.width) < 2 * L.inp.height := Nat.div_lt_of_lt_mul hx
  have hcol : x % (2 * L.inp.width) < 2 * L.inp.width := Nat.mod_lt x hpos
  obtain ⟨y, hy, hmem⟩ := tile_written (fun _ => 0#32) hrow hcol
  rw [Nat.div_add_mod'] at hmem
  refine List.mem_flatMap.mpr ⟨y, List.mem_range.mpr hy, ?_⟩
  simp only [rgbWrites, List.mem_cons, Prod.mk.injEq, List.not_mem_nil, or_false] at hmem
  rcases hmem with ⟨hx, -⟩ | ⟨hx, -⟩ | ⟨hx, -⟩ | ⟨hx, -⟩ <;> simp [rgbAccesses, ← hx]

/-- **C and assembly agree, and tile the output.** The assembly stores every pixel and leaves the
arrays alone elsewhere; the C function gives the same output over anything that was there before. -/
theorem rgb_agree {s : State} (hc : Called L s) (hfit : Entry.rgb.Fits L) :
    ∃ ra s' new, Returns (program text) .imgprocRgb s ra s' ∧ s'.accesses = s.accesses ++ new ∧
      (∀ a ∈ new, L.InBounds a) ∧ (∀ x < L.out.size, ⟨true, L.out.data, word x⟩ ∈ new) ∧
      (∀ pix, imgprocRgb (L.inp.image s.mem) (picture L.out.width L.out.height pix) =
        some (L.out.image s'.mem)) ∧
      Tiled L.inp.width L.inp.height (L.contents s.mem).inPix (L.contents s'.mem).outPix := by
  have hv := hc.valid
  obtain ⟨s', hr, -, hacc, hm⟩ := rgb_returns hc hfit
  have hsize := hv.out.size
  rw [Img.size, hfit.1, hfit.2] at hsize
  have himage := hm.out.image
  refine ⟨s.top, s', _, hr, hacc, rgb_inside hv hfit, fun x hx => rgb_stores hfit hx, ?_, ?_⟩
  · intro pix
    rw [Img.image, hfit.1, hfit.2]
    refine (imgprocRgb_picture hv.inp.width hv.inp.height hsize).trans ?_
    rw [himage, hfit.1, hfit.2]
    refine congrArg some (picture_congr fun x hx => ?_)
    have hpos : 0 < 2 * L.inp.width := Nat.pos_of_ne_zero fun h0 => by simp [h0] at hx
    have hrow : x / (2 * L.inp.width) < 2 * L.inp.height := Nat.div_lt_of_lt_mul hx
    have hcol : x % (2 * L.inp.width) < 2 * L.inp.width := Nat.mod_lt x hpos
    rw [← Nat.div_add_mod' x (2 * L.inp.width), rgb_tiles hrow hcol]
    exact (rgb_tiles hrow hcol).symm
  · refine tiled_of_tile fun r hr c hc => ?_
    have hx : r * (2 * L.inp.width) + c < L.out.size := by
      rw [Img.size, hfit.1, hfit.2]
      exact index_lt hr hc
    exact (hm.out.pixels _ hx).trans (rgb_tiles hr hc)

/-- A 2 by 1 input. -/
def rgbState : State :=
  sampleState ⟨0, 0, 0, 0, 0, 0, 0, 0, 0, 0, 0, 0, 0, 0, 0, 0⟩ (sampleLayout 2 1 4 2)

theorem rgb_agree_two_by_one :
    let L := sampleLayout 2 1 4 2
    ∃ ra s' new, Returns (program fun _ => 0x400000#64) .imgprocRgb rgbState ra s' ∧
      s'.accesses = rgbState.accesses ++ new ∧ (∀ a ∈ new, L.InBounds a) ∧
      (∀ x < L.out.size, ⟨true, L.out.data, word x⟩ ∈ new) ∧
      (∀ pix, imgprocRgb (L.inp.image rgbState.mem) (picture L.out.width L.out.height pix) =
        some (L.out.image s'.mem)) ∧
      Tiled L.inp.width L.inp.height (L.contents rgbState.mem).inPix (L.contents s'.mem).outPix :=
  rgb_agree (sample_called _ (by decide) (by decide) (by decide) (by decide) (by decide) (by decide))
    ⟨rfl, rfl⟩

end CsfAssignments.Imgproc
