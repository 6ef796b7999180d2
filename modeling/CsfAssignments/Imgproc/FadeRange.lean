import CsfAssignments.Imgproc.Fade
import CsfAssignments.Imgproc.OutputImage
/-!
# The numbers of `imgproc_fade` (`c_imgproc_fns.c:117-149`)

| here | there |
| --- | --- |
| `ComponentSafe`   | those of `(row_fade * col_fade * r)/1000000000000LL` and the clamp (`:135-143`) |
| `FadedPixel`      | the body of the inner loop, for the pixel at `row` and `col` |
-/

namespace CsfAssignments.Imgproc

/-! ## A component -/

/-- A component faded, before the clamp. -/
def fadedComponent (rowFade colFade : BitVec 64) (c : BitVec 32) : BitVec 32 :=
  ((rowFade * colFade * c.zeroExtend 64).sdiv 1000000000000#64).truncate 32

theorem fadeComponent_def (rowFade colFade : BitVec 64) (c : BitVec 32) :
    fadeComponent rowFade colFade c =
      if 255#32 < fadedComponent rowFade colFade c then 255#32 else fadedComponent rowFade colFade c :=
  rfl

/-- No operation on a component overflows, and the clamp is not taken. -/
structure ComponentSafe (rowFade colFade : BitVec 64) (c : BitVec 32) : Prop where
  product : ¬rowFade.smulOverflow colFade
  scaled : ¬(rowFade * colFade).smulOverflow (c.zeroExtend 64)
  quotient : ¬(rowFade * colFade * c.zeroExtend 64).sdivOverflow 1000000000000#64
  unclamped : ¬255#32 < fadedComponent rowFade colFade c

theorem component_exact {gr gc : Nat} {c : BitVec 32} (hgr : gr ≤ 1000000) (hgc : gc ≤ 1000000)
    (hc : c.toNat ≤ 255) :
    ComponentSafe (BitVec.ofNat 64 gr) (BitVec.ofNat 64 gc) c ∧
      (fadeComponent (BitVec.ofNat 64 gr) (BitVec.ofNat 64 gc) c).toNat =
        gr * gc * c.toNat / 1000000000000 := by
  obtain ⟨hsigned, hall⟩ := faded_ofNat hgr hgc hc
  have hprod : gr * gc ≤ 1000000 * 1000000 := Nat.mul_le_mul hgr hgc
  have hzext : (c.zeroExtend 64).toInt = c.toNat := by
    have hof : c.zeroExtend 64 = BitVec.ofNat 64 c.toNat := by
      apply BitVec.eq_of_toNat_eq
      simp
    rw [hof, toInt_long (by omega)]
  have hproduct := not_smulOverflow (a := BitVec.ofNat 64 gr) (b := BitVec.ofNat 64 gc)
    (z := ((gr * gc : Nat) : Int))
    (by rw [toInt_long (by omega), toInt_long (by omega), Int.natCast_mul]) (by omega) (by omega)
  have hscaled := not_smulOverflow (b := c.zeroExtend 64) (z := ((gr * gc * c.toNat : Nat) : Int))
    (show (BitVec.ofNat 64 gr * BitVec.ofNat 64 gc).toInt * _ = _ by
      rw [hproduct.2, hzext, Int.natCast_mul (gr * gc)]) (by omega) (by omega)
  have hfaded : (fadedComponent (BitVec.ofNat 64 gr) (BitVec.ofNat 64 gc) c).toNat =
      gr * gc * c.toNat / 1000000000000 := by
    rw [fadedComponent, hsigned, BitVec.truncate_eq_setWidth, BitVec.toNat_setWidth, BitVec.toNat_ofNat]
    omega
  have hunclamped : ¬255#32 < fadedComponent (BitVec.ofNat 64 gr) (BitVec.ofNat 64 gc) c := by
    rw [BitVec.lt_def, hfaded, BitVec.toNat_ofNat]
    omega
  refine ⟨⟨hproduct.1, hscaled.1, ?_, hunclamped⟩, ?_⟩
  · rw [BitVec.sdivOverflow, hscaled.2, show (1000000000000#64).toInt = 1000000000000 from rfl]
    simp only [Bool.or_eq_true, decide_eq_true_eq]
    omega
  · rw [fadeComponent_def, if_neg hunclamped, hfaded]

/-! ## The picture -/

/-- The pixel at `row` and `col`, and what becomes of it. -/
structure FadedPixel (w h row col : Nat) (old new : Pixel) : Prop where
  /-- `row++` and `col++`. -/
  counters : ¬(BitVec.ofNat 64 row).saddOverflow 1#64 ∧ ¬(BitVec.ofNat 64 col).saddOverflow 1#64
  rowSafe : GradientSafe (BitVec.ofNat 64 row) (BitVec.ofNat 64 h)
  colSafe : GradientSafe (BitVec.ofNat 64 col) (BitVec.ofNat 64 w)
  rowFade : (gradient (BitVec.ofNat 64 row) (BitVec.ofNat 64 h)).toInt = gradientAt row h
  colFade : (gradient (BitVec.ofNat 64 col) (BitVec.ofNat 64 w)).toInt = gradientAt col w
  rowRange : 0 ≤ gradientAt row h ∧ gradientAt row h ≤ 1000000
  colRange : 0 ≤ gradientAt col w ∧ gradientAt col w ≤ 1000000
  safe : ∀ get ∈ [getR, getG, getB],
    ComponentSafe (gradient (BitVec.ofNat 64 row) (BitVec.ofNat 64 h))
      (gradient (BitVec.ofNat 64 col) (BitVec.ofNat 64 w)) (get old)
  value : ∀ get ∈ [getR, getG, getB], ((get new).toNat : Int) =
    gradientAt row h * gradientAt col w * (get old).toNat / 1000000000000
  dims : ∀ get ∈ [getR, getG, getB], (get new).toNat ≤ (get old).toNat
  alpha : getA new = getA old

variable {w h row col : Nat} {inPix p : Nat → Pixel}

theorem no_increment_overflow {n : Nat} (hn : n < 2 ^ 31) :
    ¬(BitVec.ofNat 64 n).saddOverflow 1#64 := by
  rw [BitVec.saddOverflow, toInt_long (by omega), show (1#64).toInt = 1 from rfl]
  simp only [Bool.or_eq_true, decide_eq_true_eq]
  omega

/-- Every pixel is written once. -/
theorem fade_cells {x : Nat} (hx : x < w * h) :
    (List.range (w * h)).foldl (fadeCell w h inPix) p x =
      fadePixel (gradient (word (x / w)) (word h)) (gradient (word (x % w)) (word w)) (inPix x) := by
  exact Paint.foldl_update (fun x => fadePixel (gradient (word (x / w)) (word h))
    (gradient (word (x % w)) (word w)) (inPix x)) (List.mem_range.mpr hx)

/-- A component times two factors of at most one. -/
theorem scaled_toNat {gr gc : Nat} {c : BitVec 32} (hgr : gr ≤ 1000000) (hgc : gc ≤ 1000000)
    (hc : c.toNat ≤ 255) :
    (scaled (BitVec.ofNat 64 gr) (BitVec.ofNat 64 gc) c).toNat = gr * gc * c.toNat / 1000000000000 ∧
      gr * gc * c.toNat / 1000000000000 ≤ c.toNat := by
  rw [← fadeComponent_eq hgr hgc hc]
  refine ⟨(component_exact hgr hgc hc).2, Nat.div_le_of_le_mul ?_⟩
  exact Nat.mul_le_mul_right c.toNat (Nat.mul_le_mul hgr hgc)

/-- The components of a faded pixel are the faded components. -/
theorem get_fadePixel {gr gc : Nat} (hgr : gr ≤ 1000000) (hgc : gc ≤ 1000000) (v : Pixel) :
    (∀ get ∈ [getR, getG, getB], (get v).toNat ≤ 255 ∧
      get (fadePixel (BitVec.ofNat 64 gr) (BitVec.ofNat 64 gc) v) =
        scaled (BitVec.ofNat 64 gr) (BitVec.ofNat 64 gc) (get v)) ∧
      getA (fadePixel (BitVec.ofNat 64 gr) (BitVec.ofNat 64 gc) v) = getA v := by
  obtain ⟨hR, hG, hB⟩ := component_le v
  have hle : ∀ c : BitVec 32, c.toNat ≤ 255 →
      (scaled (BitVec.ofNat 64 gr) (BitVec.ofNat 64 gc) c).toNat ≤ 255 := by
    intro c hc
    obtain ⟨heq, hdim⟩ := scaled_toNat hgr hgc hc
    omega
  obtain ⟨hnewR, hnewG, hnewB, hnewA⟩ :=
    get_makePixel (hle _ hR) (hle _ hG) (hle _ hB) (getA_le v)
  refine ⟨?_, hnewA⟩
  intro get hmem
  simp only [List.mem_cons, List.not_mem_nil, or_false] at hmem
  rcases hmem with rfl | rfl | rfl
  · exact ⟨hR, hnewR⟩
  · exact ⟨hG, hnewG⟩
  · exact ⟨hB, hnewB⟩

theorem fadedPixel (hrow : row < h) (hcol : col < w) (hw : w < 2 ^ 31) (hh : h < 2 ^ 31) (v : Pixel) :
    FadedPixel w h row col v (fadePixel (gradient (BitVec.ofNat 64 row) (BitVec.ofNat 64 h))
      (gradient (BitVec.ofNat 64 col) (BitVec.ofNat 64 w)) v) := by
  obtain ⟨hrowSafe, hrowFade⟩ := gradient_exact hrow hh
  obtain ⟨hcolSafe, hcolFade⟩ := gradient_exact hcol hw
  obtain ⟨gr, hgr, hr⟩ := gradient_spec hrow hh
  obtain ⟨gc, hgc, hc⟩ := gradient_spec hcol hw
  have hgrAt : (gr : Int) = gradientAt row h := by rw [← hrowFade, hr, toInt_long (by omega)]
  have hgcAt : (gc : Int) = gradientAt col w := by rw [← hcolFade, hc, toInt_long (by omega)]
  obtain ⟨hget, halpha⟩ := get_fadePixel hgr hgc v
  refine ⟨⟨no_increment_overflow (by omega), no_increment_overflow (by omega)⟩, hrowSafe, hcolSafe,
    hrowFade, hcolFade, gradientAt_range hrow, gradientAt_range hcol, ?_, ?_, ?_, ?_⟩
  · intro get hmem
    rw [hr, hc]
    exact (component_exact hgr hgc (hget get hmem).1).1
  · intro get hmem
    obtain ⟨h255, hnew⟩ := hget get hmem
    rw [hr, hc, hnew, (scaled_toNat hgr hgc h255).1, ← hgrAt, ← hgcAt, ← Int.natCast_mul,
      ← Int.natCast_mul, Int.natCast_ediv]
    rfl
  · intro get hmem
    obtain ⟨h255, hnew⟩ := hget get hmem
    obtain ⟨heq, hdim⟩ := scaled_toNat hgr hgc h255
    rwa [hr, hc, hnew, heq]
  · rwa [hr, hc]

/-- **Fade is exact.** On every image of fewer than `2^31` pixels nothing overflows and no clamp is
taken; every component is the input component times the two gradients, rounded down. -/
theorem fade_exact (hsize : w * h < 2 ^ 31) {input output : Image} (hin : input.HasSize w h)
    (hout : output.HasSize w h) :
    ∃ result, imgprocFade input output = some result ∧ result.HasSize w h ∧
      ∀ row < h, ∀ col < w, ∃ old new, input.data[row * w + col]? = some old ∧
        result.data[row * w + col]? = some new ∧ FadedPixel w h row col old new := by
  have hw := hin.width_lt
  have hh := hin.height_lt
  obtain ⟨inPix, rfl⟩ := eq_picture hin.width hin.height hin.length
  obtain ⟨p, rfl⟩ := eq_picture hout.width hout.height hout.length
  refine ⟨_, imgprocFade_picture hw hh hsize, picture_hasSize hw hh, ?_⟩
  intro row hrow col hcol
  have hx := index_lt hrow hcol
  refine ⟨_, _, getElem?_picture hx, getElem?_picture hx, ?_⟩
  rw [fade_cells hx, index_div row hcol, index_mod row hcol, word_eq (by omega), word_eq (by omega),
    word_eq (by omega), word_eq (by omega)]
  exact fadedPixel hrow hcol hw hh _

/-- Two pixels in two rows. -/
theorem fade_exact_one_by_two :
    ∃ result, imgprocFade ⟨1#32, 2#32, [0xFF8040FF#32, 0x10203040#32]⟩ ⟨1#32, 2#32, [0#32, 0#32]⟩ =
        some result ∧ result.HasSize 1 2 ∧
      ∀ row < 2, ∀ col < 1, ∃ old new,
        [0xFF8040FF#32, 0x10203040#32][row * 1 + col]? = some old ∧
        result.data[row * 1 + col]? = some new ∧ FadedPixel 1 2 row col old new :=
  fade_exact (by decide)
    (show Image.HasSize ⟨1#32, 2#32, [0xFF8040FF#32, 0x10203040#32]⟩ 1 2 from
      ⟨rfl, rfl, by decide, by decide, rfl⟩)
    ⟨rfl, rfl, by decide, by decide, rfl⟩

end CsfAssignments.Imgproc
