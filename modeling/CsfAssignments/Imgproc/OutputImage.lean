import CsfAssignments.Imgproc.Rgb
/-!
# The output image (`c_imgproc_main.c:38-63`, `image.c:19-37`)

`create_output_img` doubles both sizes for `rgb`, and `img_init` multiplies them as `int`. The number of
pixels wraps from `2 ^ 29` input pixels on, and the buffer is then too small (or far too large).

`malloc` is a parameter: call number `k` for `n` bytes gives the words of the new buffer, or `none`.
-/

namespace CsfAssignments.Imgproc

/-- A buffer has as many bytes as were asked for. -/
def Exact (malloc : Nat → BitVec 64 → Option (List Pixel)) : Prop :=
  ∀ k n buffer, malloc k n = some buffer → buffer.length = n.toNat / 4

/-- `image.h:5`. -/
def imgSuccess : BitVec 32 := 0#32
def imgErrMallocFailed : BitVec 32 := -3#32

/-- `image.c:19`, with the `k`-th call of `malloc`. -/
def imgInit (malloc : Nat → BitVec 64 → Option (List Pixel)) (k : Nat) (img : Image)
    (width height : BitVec 32) : Option (BitVec 32 × Image) :=
  let numPixels := width * height
  match malloc k (numPixels.signExtend 64 * 4#64) with
  | none => some (imgErrMallocFailed, img)
  | some pixelData => do
    let filled ← forLoop 0#32 numPixels (fun i (buffer : Image) => buffer.store i 0x000000FF#32)
      { img with data := pixelData }
    return (imgSuccess, { width := width, height := height, data := filled.data })

/-- `c_imgproc_main.c:38`. The inner `none` is `NULL`; the fields of a new `struct Image` are not
read before `img_init` sets them. -/
def createOutputImg (malloc : Nat → BitVec 64 → Option (List Pixel)) (inputImg : Image)
    (transformation : String) : Option (Option Image) :=
  let rgb : Bool := transformation = "rgb"
  let outW := if rgb then inputImg.width * 2#32 else inputImg.width
  let outH := if rgb then inputImg.height * 2#32 else inputImg.height
  match malloc 0 16#64 with
  | none => some none
  | some _ => do
    let (status, outImg) ← imgInit malloc 1 ⟨0#32, 0#32, []⟩ outW outH
    return if status ≠ imgSuccess then none else some outImg

/-- An image of `w` by `h` pixels. -/
structure Image.HasSize (img : Image) (w h : Nat) : Prop where
  width : img.width = BitVec.ofNat 32 w
  height : img.height = BitVec.ofNat 32 h
  width_lt : w < 2 ^ 31
  height_lt : h < 2 ^ 31
  length : img.data.length = w * h

variable {malloc : Nat → BitVec 64 → Option (List Pixel)} {input out : Image} {w h : Nat}

theorem eq_picture (hw : input.width = BitVec.ofNat 32 w) (hh : input.height = BitVec.ofNat 32 h)
    (hdata : input.data.length = w * h) : ∃ pix, input = picture w h pix := by
  obtain ⟨width, height, data⟩ := input
  simp only at hw hh hdata
  refine ⟨fun i => data.getD i 0#32, ?_⟩
  have hlist : data = (List.range (w * h)).map fun i => data.getD i 0#32 := by
    apply List.ext_getElem
    · simp [hdata]
    · intro i h1 h2
      simp [h1]
  rw [picture, hw, hh, ← hlist]

theorem picture_hasSize {pix : Nat → Pixel} (hw : w < 2 ^ 31) (hh : h < 2 ^ 31) :
    (picture w h pix).HasSize w h :=
  ⟨rfl, rfl, hw, hh, by simp [picture]⟩

/-- The image of a `struct Image` has its size. -/
theorem Img.Sized.hasSize {I : Img} (h : I.Sized) (m : Memory.Mem) :
    (I.image m).HasSize I.width I.height := picture_hasSize h.width h.height

/-- The fields determine the size. -/
theorem Image.HasSize.unique {img : Image} {w' h' : Nat} (hs : img.HasSize w h)
    (hs' : img.HasSize w' h') : w = w' ∧ h = h' := by
  have hw := congrArg BitVec.toNat (hs.width.symm.trans hs'.width)
  have hh := congrArg BitVec.toNat (hs.height.symm.trans hs'.height)
  have hlt := hs.width_lt
  have hlt' := hs'.width_lt
  have hle := hs.height_lt
  have hle' := hs'.height_lt
  simp only [BitVec.toNat_ofNat] at hw hh
  omega

/-- What every store keeps, a loop of stores keeps. -/
theorem forLoop_length {b : Nat} {l u : BitVec b} {f : BitVec b → Image → Option Image}
    (hf : ∀ i img img', f i img = some img' → img'.data.length = img.data.length) {img img' : Image}
    (h : forLoop l u f img = some img') : img'.data.length = img.data.length := by
  unfold forLoop at h
  generalize List.range (u.toInt - l.toInt).toNat = ks at h
  induction ks generalizing img with
  | nil => exact congrArg (·.data.length) (Option.some.inj h).symm
  | cons k ks ih =>
    rw [List.foldlM_cons] at h
    obtain ⟨next, hnext, h⟩ := Option.bind_eq_some_iff.mp h
    exact (ih h).trans (hf _ _ _ hnext)

theorem length_store {img img' : Image} {i : BitVec 32} {v : Pixel} (h : img.store i v = some img') :
    img'.data.length = img.data.length := by
  unfold Image.store at h
  split at h
  · cases h
  · cases h
    simp

/-- What `img_init` allocates. -/
theorem createOutputImg_rgb (hexact : Exact malloc) (hin : input.HasSize w h)
    (hout : createOutputImg malloc input "rgb" = some (some out)) :
    out.width = BitVec.ofNat 32 (2 * w) ∧ out.height = BitVec.ofNat 32 (2 * h) ∧
      out.data.length =
        ((BitVec.ofNat 32 (2 * w * (2 * h))).signExtend 64 * 4#64).toNat / 4 := by
  have hw : input.width * 2#32 = BitVec.ofNat 32 (2 * w) := by
    rw [hin.width, BitVec.mul_comm, ← BitVec.ofNat_mul]
  have hh : input.height * 2#32 = BitVec.ofNat 32 (2 * h) := by
    rw [hin.height, BitVec.mul_comm, ← BitVec.ofNat_mul]
  simp only [createOutputImg, decide_true, if_true, hw, hh, imgInit, ← BitVec.ofNat_mul] at hout
  cases h0 : malloc 0 16#64 with
  | none => simp [h0] at hout
  | some _ =>
    cases h1 : malloc 1 ((BitVec.ofNat 32 (2 * w * (2 * h))).signExtend 64 * 4#64) with
    | none => simp [h0, h1, imgSuccess, imgErrMallocFailed] at hout
    | some buffer =>
      simp only [h0, h1, Option.bind_eq_bind, Option.pure_def] at hout
      cases h2 : forLoop 0#32 (BitVec.ofNat 32 (2 * w * (2 * h)))
          (fun i (buffer : Image) => buffer.store i 0x000000FF#32)
          { width := 0#32, height := 0#32, data := buffer } with
      | none => simp [h2] at hout
      | some filled =>
        simp [h2] at hout
        subst hout
        have hlen := forLoop_length (fun _ _ _ => length_store) h2
        exact ⟨rfl, rfl, hlen.trans (hexact 1 _ _ h1)⟩

/-- The pixel count as `img_init` computes it, in bytes. -/
theorem allocated_eq_iff {n : Nat} (hn : n < 2 ^ 33) :
    ((BitVec.ofNat 32 n).signExtend 64 * 4#64).toNat / 4 = n ↔ n < 2 ^ 31 := by
  by_cases hmsb : n % 2 ^ 32 < 2 ^ 31
  · have hpos : (BitVec.ofNat 32 n).signExtend 64 = BitVec.ofNat 64 (n % 2 ^ 32) := by
      rw [BitVec.signExtend_eq_setWidth_of_msb_false]
      · apply BitVec.eq_of_toNat_eq
        simp
      · rw [BitVec.msb_eq_false_iff_two_mul_lt, BitVec.toNat_ofNat]
        omega
    rw [hpos, BitVec.toNat_mul, BitVec.toNat_ofNat, BitVec.toNat_ofNat]
    omega
  · have hneg : ((BitVec.ofNat 32 n).signExtend 64).toNat = 2 ^ 64 - 2 ^ 32 + n % 2 ^ 32 := by
      rw [BitVec.toNat_signExtend, BitVec.toNat_setWidth, BitVec.toNat_ofNat]
      have hm : (BitVec.ofNat 32 n).msb = true := by
        rw [BitVec.msb_eq_true_iff_two_mul_ge, BitVec.toNat_ofNat]
        omega
      rw [hm, if_pos rfl]
      omega
    rw [BitVec.toNat_mul, hneg, BitVec.toNat_ofNat]
    omega

/-- **When the rgb output buffer is big enough**: below `2 ^ 29` input pixels. -/
theorem rgb_buffer_iff (hexact : Exact malloc) (hin : input.HasSize w h) (hwh : w * h < 2 ^ 31)
    (hout : createOutputImg malloc input "rgb" = some (some out)) :
    out.data.length = 2 * w * (2 * h) ∧ (imgprocRgb input out).isSome ↔ 4 * (w * h) < 2 ^ 31 := by
  obtain ⟨how, hoh, hlen⟩ := createOutputImg_rgb hexact hin hout
  have hfour : 2 * w * (2 * h) = 4 * (w * h) := by ring
  rw [hlen, allocated_eq_iff (by omega)]
  constructor
  · rintro ⟨hlt, -⟩
    omega
  · intro hlt
    refine ⟨by omega, ?_⟩
    obtain ⟨inPix, rfl⟩ := eq_picture hin.width hin.height hin.length
    obtain ⟨pix, rfl⟩ := eq_picture how hoh (hlen.trans ((allocated_eq_iff (by omega)).mpr (by omega)))
    rw [imgprocRgb_picture hin.width_lt hin.height_lt (by omega)]
    rfl

/-- A `malloc` that never fails. -/
def mallocAll (_ : Nat) (n : BitVec 64) : Option (List Pixel) :=
  some (List.replicate (n.toNat / 4) 0#32)

theorem mallocAll_exact : Exact mallocAll := by
  rintro k n buffer ⟨⟩
  exact List.length_replicate

/-- An image of zeroes. -/
def blank (w h : Nat) : Image := picture w h fun _ => 0#32

theorem blank_hasSize {w h : Nat} (hw : w < 2 ^ 31) (hh : h < 2 ^ 31) : (blank w h).HasSize w h :=
  picture_hasSize hw hh

theorem rgb_buffer_iff_two_by_one :
    ∃ out, createOutputImg mallocAll (blank 2 1) "rgb" = some (some out) ∧
      (out.data.length = 2 * 2 * (2 * 1) ∧ (imgprocRgb (blank 2 1) out).isSome ↔
        4 * (2 * 1) < 2 ^ 31) :=
  ⟨⟨4#32, 2#32, List.replicate 8 0x000000FF#32⟩, rfl,
    rgb_buffer_iff mallocAll_exact (blank_hasSize (by decide) (by decide)) (by decide) rfl⟩

/-- `2 ^ 30` input pixels: the count wraps to zero. -/
theorem rgb_buffer_empty_32768 :
    (blank 32768 32768).HasSize 32768 32768 ∧ 32768 * 32768 < 2 ^ 31 ∧
      ∃ out, createOutputImg mallocAll (blank 32768 32768) "rgb" = some (some out) ∧
        ¬(out.data.length = 2 * 32768 * (2 * 32768) ∧ (imgprocRgb (blank 32768 32768) out).isSome) := by
  refine ⟨blank_hasSize (by decide) (by decide), by decide, ⟨65536#32, 65536#32, []⟩, rfl, ?_⟩
  rintro ⟨h, -⟩
  cases h

end CsfAssignments.Imgproc
