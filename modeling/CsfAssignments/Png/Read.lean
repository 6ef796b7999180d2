import CsfAssignments.Png.Literal
import CsfAssignments.Png.Image
/-!
# `img_read` on PNG files

A `File` is a PNG file by its parts: lines, each with a filter, and a list of chunks whose `IDAT`s make up a
zlib stream of the filtered lines. `img_read` gives the pixels of the lines, however the lines are filtered,
however the stream is cut into `IDAT` chunks and whatever other chunks are among them (`imgRead_render`).
-/

namespace CsfAssignments.Png

open Imgproc Paint

/-! ## Words and pixels -/

/-- Pixel `i` of lines without filter: 4 bytes or, if they have no alpha, 3. -/
def pixelAt (stride : Nat) (bytes : Bytes) (i : Nat) : Pixel :=
  getUl [bytes.getD (stride * i) 0, bytes.getD (stride * i + 1) 0, bytes.getD (stride * i + 2) 0,
    if stride = 4 then bytes.getD (stride * i + 3) 0 else 255]

theorem leBytes_eq (val : BitVec 32) : leBytes val = (setUl val).reverse := rfl

theorem byteswap_getUl (b0 b1 b2 b3 : Byte) :
    byteswap (getUl [b3, b2, b1, b0]) = getUl [b0, b1, b2, b3] := by
  rw [byteswap, leBytes_eq, setUl_getUl]
  rfl

theorem length_words (bytes : Bytes) : (words bytes).length = bytes.length / 4 := by
  fun_induction words bytes with
  | case1 b0 b1 b2 b3 bytes ih =>
    simp only [List.length_cons, ih]
    omega
  | case2 bytes h =>
    match bytes with
    | [] => rfl
    | [_] => simp
    | [_, _] => simp
    | [_, _, _] => simp
    | b0 :: b1 :: b2 :: b3 :: bytes => exact absurd rfl (h b0 b1 b2 b3 bytes)

theorem getElem?_words {bytes : Bytes} {i : Nat} (hi : 4 * i + 4 ≤ bytes.length) :
    (words bytes)[i]? = some (byteswap (pixelAt 4 bytes i)) := by
  fun_induction words bytes generalizing i with
  | case1 b0 b1 b2 b3 bytes ih =>
    cases i with
    | zero => simp [pixelAt, byteswap_getUl]
    | succ i =>
      have hshift : pixelAt 4 (b0 :: b1 :: b2 :: b3 :: bytes) (i + 1) = pixelAt 4 bytes i := by
        simp [pixelAt, Nat.mul_succ]
      simp only [List.length_cons] at hi
      rw [List.getElem?_cons_succ, ih (by omega), hshift]
  | case2 bytes h =>
    match bytes with
    | [] => simp at hi
    | [_] => simp at hi
    | [_, _] => simp at hi
    | [_, _, _] => simp at hi
    | b0 :: b1 :: b2 :: b3 :: bytes => exact absurd rfl (h b0 b1 b2 b3 bytes)

theorem byteswap_byteswap (val : BitVec 32) : byteswap (byteswap val) = val := by
  rw [byteswap, byteswap, leBytes_eq, leBytes_eq]
  change getUl (setUl (getUl [_, _, _, _])).reverse = val
  rw [setUl_getUl]
  exact getUl_setUl_self val

variable {w h : Nat} {bytes : Bytes}

/-- The words of a buffer, as an image. -/
theorem words_picture (hlen : bytes.length = 4 * (w * h)) :
    (⟨BitVec.ofNat 32 w, BitVec.ofNat 32 h, words bytes⟩ : Image) =
      picture w h fun i => byteswap (pixelAt 4 bytes i) := by
  have hdata : words bytes = (List.range (w * h)).map fun i => byteswap (pixelAt 4 bytes i) := by
    apply List.ext_getElem?
    intro i
    by_cases hi : i < w * h
    · rw [getElem?_words (by omega)]
      simp [hi]
    · rw [List.getElem?_eq_none (by rw [length_words]; omega), List.getElem?_eq_none (by simp; omega)]
  rw [picture, hdata]

/-- The loop over RGBA data. -/
theorem swapPixel_loop (hsize : w * h < 2 ^ 31) (p : Nat → Pixel) :
    forLoop 0#32 (BitVec.ofNat 32 (w * h)) swapPixel (picture w h p) =
      some (picture w h fun i => byteswap (p i)) := by
  have hloop := forLoop_fold (l := 0) (φ := picture w h) (f := swapPixel)
    (g := fun p x => Function.update p x (byteswap (p x))) (Nat.zero_le (w * h)) (by omega)
    (fun k _ hk p => by
      simp only [swapPixel, load_picture hsize hk, Option.bind_eq_bind, Option.bind_some,
        store_picture hsize hk]) p
  rw [Nat.sub_zero, ← List.range_eq_range'] at hloop
  rw [show 0#32 = BitVec.ofNat 32 0 from rfl, hloop]
  exact congrArg some (picture_congr fun x hx =>
    foldl_modify (fun _ => byteswap) List.nodup_range (List.mem_range.mpr hx))

theorem rawAt_eq {raw : Bytes} {i k : Nat} (hi : 3 * i + k < raw.length) (hfit : raw.length < 2 ^ 31) :
    rawAt raw (BitVec.ofNat 32 i * 3#32 + BitVec.ofNat 32 k) = some (raw.getD (3 * i + k) 0) := by
  have hidx : BitVec.ofNat 32 i * 3#32 + BitVec.ofNat 32 k = BitVec.ofNat 32 (3 * i + k) := by
    rw [Nat.mul_comm, BitVec.ofNat_add, BitVec.ofNat_mul]
  have hnat : (BitVec.ofNat 32 (3 * i + k)).toNat = 3 * i + k := by
    rw [BitVec.toNat_ofNat]
    exact Nat.mod_eq_of_lt (by omega)
  have hneg : ¬(BitVec.ofNat 32 (3 * i + k)).toInt < 0 := by
    rw [BitVec.toInt_eq_toNat_of_lt (by omega)]
    omega
  rw [hidx, rawAt, if_neg hneg, hnat]
  simp [List.getD_eq_getElem?_getD, hi]

/-- The loop over RGB data. -/
theorem expandPixel_loop (hlen : bytes.length = 3 * (w * h)) (hfit : bytes.length < 2 ^ 31)
    (p : Nat → Pixel) :
    forLoop 0#32 (BitVec.ofNat 32 (w * h)) (expandPixel bytes) (picture w h p) =
      some (picture w h (pixelAt 3 bytes)) := by
  have hloop := forLoop_fold (l := 0) (φ := picture w h) (f := expandPixel bytes)
    (g := fun p x => Function.update p x (pixelAt 3 bytes x)) (Nat.zero_le (w * h)) (by omega)
    (fun k _ hk p => by
      have h0 : rawAt bytes (BitVec.ofNat 32 k * 3#32 + BitVec.ofNat 32 0) = _ := rawAt_eq (by omega) hfit
      have h1 : rawAt bytes (BitVec.ofNat 32 k * 3#32 + BitVec.ofNat 32 1) = _ := rawAt_eq (by omega) hfit
      have h2 : rawAt bytes (BitVec.ofNat 32 k * 3#32 + BitVec.ofNat 32 2) = _ := rawAt_eq (by omega) hfit
      simp only [expandPixel, h0, h1, h2, Option.bind_eq_bind, Option.bind_some,
        store_picture (show w * h < 2 ^ 31 by omega) hk]
      rfl) p
  rw [Nat.sub_zero, ← List.range_eq_range'] at hloop
  rw [show 0#32 = BitVec.ofNat 32 0 from rfl, hloop]
  exact congrArg some (picture_congr fun x hx => foldl_update _ (List.mem_range.mpr hx))

/-! ## Files -/

/-- A PNG file, by its parts. -/
structure File where
  header : Header
  lines : List (Filter × Bytes)
  body : List Chunk
  /-- What follows the type of `IEND`. -/
  trailer : Bytes

namespace File

/-- The data of the header chunk, with its type. -/
def ihdr (header : Header) : Bytes :=
  typeIhdr ++ setUl header.width ++ setUl header.height ++
    [header.depth, header.colorType, header.compressionMethod, header.filterMethod,
      header.interlaceMethod]

/-- Everything behind the header. -/
def rest (Z : Zlib) (file : File) : Bytes :=
  file.body.flatMap (Chunk.render Z) ++ (setUl 0 ++ (typeIend ++ file.trailer))

def render (Z : Zlib) (file : File) : Bytes :=
  signature ++ setUl 13 ++ ihdr file.header ++ setUl (Z.crc32 Z.crcInit (ihdr file.header)) ++ file.rest Z

/-- The bytes of the lines, without filter. -/
def pixelBytes (file : File) : Bytes := (file.lines.map Prod.snd).flatten

/-- The image that the file is of. -/
def image (file : File) : Image :=
  picture file.header.width.toNat file.header.height.toNat
    (pixelAt (pngGetBpp file.header).toNat file.pixelBytes)

/-- A truecolor PNG file with 8 bits a sample and no interlace, of a size that `int` can count. -/
structure WellFormed {Z : Zlib} (spec : Z.Spec) (file : File) : Prop where
  color : file.header.colorType = pngTruecolor ∨ file.header.colorType = pngTruecolorAlpha
  depth : file.header.depth = 8
  interlace : file.header.interlaceMethod = 0
  height : file.lines.length = file.header.height.toNat
  lines : ∀ l ∈ file.lines,
    l.2.length = file.header.width.toNat * (pngGetBpp file.header).toNat
  size : file.header.height.toNat * (file.header.width.toNat * (pngGetBpp file.header).toNat + 1) < 2 ^ 31
  body : ∀ chunk ∈ file.body, chunk.Legal
  stream : spec.Encodes (filteredLines (pngGetBpp file.header).toNat none file.lines) (pieces file.body)

end File

variable {Z : Zlib} {spec : Z.Spec} {env : Env} {file : File}

theorem length_ihdr (header : Header) : (File.ihdr header).length = 17 := rfl

/-- The header of a file. -/
theorem pngOpenRead_render (file : File) (hcolor : file.header.colorType ≠ pngIndexed)
    (hdepth : file.header.depth = 8 ∨ file.header.depth = 16) (hinterlace : file.header.interlaceMethod = 0) :
    pngOpenRead Z env (file.render Z) = .ok (file.header, file.rest Z) := by
  have hsplit : file.render Z = signature ++ (setUl 13 ++ (File.ihdr file.header ++
      (setUl (Z.crc32 Z.crcInit (File.ihdr file.header)) ++ file.rest Z))) := by
    simp only [File.render, List.append_assoc]
  have hwidth : getUl ((File.ihdr file.header).drop 4) = file.header.width :=
    getUl_setUl file.header.width _
  have hheight : getUl ((File.ihdr file.header).drop 8) = file.header.height :=
    getUl_setUl file.header.height _
  have hsample : ¬(file.header.depth ≠ 8 ∧ file.header.depth ≠ 16) := by
    rintro ⟨h8, h16⟩
    rcases hdepth with h | h
    · exact h8 h
    · exact h16 h
  rw [hsplit, pngOpenRead, fileRead_append (by rfl)]
  simp only [pngReadIhdr, fileReadUl_setUl, fileRead_append (length_ihdr file.header), length_ihdr,
    Option.getD_some, hwidth, hheight]
  change (if signature.length ≠ 8 then _ else if signature ≠ signature then _ else
    if (13#32) ≠ 13 then _ else if 17 ≠ 17 then _ else if _ ≠ _ then _ else
    if file.header.colorType = pngIndexed then _ else
    if file.header.depth ≠ 8 ∧ file.header.depth ≠ 16 then _ else
    if file.header.interlaceMethod ≠ 0 then _ else _) = _
  rw [if_neg (by decide), if_neg (by simp), if_neg (by simp), if_neg (by simp), if_neg (by simp),
    if_neg hcolor, if_neg hsample, if_neg (by simp [hinterlace])]
  rfl

/-! ## Sizes

Below `2 ^ 31` bytes, the numbers that the reader computes with do not wrap. -/

/-- An image of no rows has lines of any length. -/
theorem Header.toNat_lineBytes {header : Header} (hpos : 0 < header.height.toNat)
    (hsize : header.height.toNat * (header.width.toNat * (pngGetBpp header).toNat + 1) < 2 ^ 31) :
    header.lineBytes.toNat = header.width.toNat * (pngGetBpp header).toNat := by
  have hle := Nat.le_mul_of_pos_left (header.width.toNat * (pngGetBpp header).toNat + 1) hpos
  rw [Header.lineBytes, BitVec.toNat_mul, BitVec.toNat_setWidth,
    Nat.mod_eq_of_lt (Nat.lt_of_lt_of_le (pngGetBpp header).isLt (by decide))]
  exact Nat.mod_eq_of_lt (by omega)

/-- What the size of the filtered image is, modulo `2 ^ 32`. -/
theorem pngSize_eq (header : Header) :
    pngSize header = BitVec.ofNat 32
      (header.height.toNat * (header.width.toNat * (pngGetBpp header).toNat + 1)) := by
  have hbpp : (pngGetBpp header).zeroExtend 32 = BitVec.ofNat 32 (pngGetBpp header).toNat := by
    apply BitVec.eq_of_toNat_eq
    simp
  have hnat : header.height.toNat * (header.width.toNat * (pngGetBpp header).toNat + 1) =
      header.width.toNat * header.height.toNat * (pngGetBpp header).toNat + header.height.toNat := by
    rw [Nat.mul_add_one, ← Nat.mul_assoc, Nat.mul_comm header.height.toNat]
  rw [pngSize, hbpp, hnat]
  simp only [BitVec.ofNat_add, BitVec.ofNat_mul, BitVec.ofNat_toNat, BitVec.setWidth_eq]

/-- `num_pixels`. -/
theorem numPixels_eq (width height : BitVec 32) :
    width * height = BitVec.ofNat 32 (width.toNat * height.toNat) := by
  rw [BitVec.ofNat_mul, BitVec.ofNat_toNat, BitVec.ofNat_toNat, BitVec.setWidth_eq, BitVec.setWidth_eq]

/-- The bytes of `n` words. -/
theorem rgbaBytes_eq {n : Nat} (hn : n < 2 ^ 31) :
    ((BitVec.ofNat 32 n).signExtend 64 * 4#64).toNat = 4 * n := by
  rw [signExtend_ofNat hn, BitVec.toNat_mul, BitVec.toNat_ofNat, BitVec.toNat_ofNat]
  omega

theorem rgbBytes_eq {n : Nat} (hn : 3 * n < 2 ^ 31) :
    ((BitVec.ofNat 32 n * 3#32).signExtend 64).toNat = 3 * n := by
  rw [← BitVec.ofNat_mul, signExtend_ofNat (by omega), BitVec.toNat_ofNat]
  omega

theorem image_fields (width height : BitVec 32) (data : List Pixel) :
    (⟨width, height, data⟩ : Image) =
      ⟨BitVec.ofNat 32 width.toNat, BitVec.ofNat 32 height.toNat, data⟩ := by
  rw [BitVec.ofNat_toNat, BitVec.ofNat_toNat, BitVec.setWidth_eq, BitVec.setWidth_eq]

/-! ## Well-formed files -/

namespace File.WellFormed

variable (hwf : file.WellFormed spec)
include hwf

/-- 3 bytes a pixel without alpha, 4 with it. -/
theorem bpp : file.header.colorType = pngTruecolor ∧ (pngGetBpp file.header).toNat = 3 ∨
    file.header.colorType = pngTruecolorAlpha ∧ (pngGetBpp file.header).toNat = 4 := by
  have hbpp : ∀ color depth : Byte, depth = 8 → color = pngTruecolor ∨ color = pngTruecolorAlpha →
      ∀ header : Header, header.colorType = color → header.depth = depth →
      (pngGetBpp header).toNat = if color = pngTruecolor then 3 else 4 := by
    rintro _ _ rfl (rfl | rfl) header hc hd
    · rw [pngGetBpp, hc, hd]
      decide
    · rw [pngGetBpp, hc, hd]
      decide
  rcases hwf.color with hc | hc
  · exact .inl ⟨hc, hbpp _ _ hwf.depth (.inl rfl) _ hc rfl⟩
  · exact .inr ⟨hc, hbpp _ _ hwf.depth (.inr rfl) _ hc rfl⟩

theorem sampled : file.header.Sampled where
  depth := .inl hwf.depth
  stride := by rcases hwf.bpp with ⟨-, h⟩ | ⟨-, h⟩ <;> omega
  even h16 := by
    rw [hwf.depth] at h16
    exact absurd h16 (by decide)

end File.WellFormed

theorem length_flatten_of_forall {ls : List Bytes} {n : Nat} (h : ∀ l ∈ ls, l.length = n) :
    ls.flatten.length = ls.length * n := by
  have hmap : ls.map List.length = List.replicate ls.length n := by
    rw [List.map_eq_replicate_iff]
    exact h
  rw [List.length_flatten, hmap, List.sum_replicate_nat]

/-- The numbers that the reader computes with do not wrap. -/
theorem File.WellFormed.sizes (hwf : file.WellFormed spec) :
    (file.lines ≠ [] → file.header.lineBytes.toNat < 2 ^ 31) ∧
      (∀ l ∈ file.lines, l.2.length = file.header.lineBytes.toNat) ∧
      file.lines.length * (file.header.lineBytes.toNat + 1) = (pngSize file.header).toNat ∧
      file.lines.length * file.header.lineBytes.toNat = file.pixelBytes.length ∧
      file.pixelBytes.length = (pngGetBpp file.header).toNat *
        (file.header.width.toNat * file.header.height.toNat) := by
  have hsize := hwf.size
  have hheight := hwf.height
  have hrow : file.lines ≠ [] → file.header.lineBytes.toNat =
      file.header.width.toNat * (pngGetBpp file.header).toNat := fun hne =>
    Header.toNat_lineBytes (hheight ▸ List.length_pos_iff.mpr hne) hsize
  have hlines : ∀ l ∈ file.lines, l.2.length = file.header.lineBytes.toNat := by
    intro l hl
    rw [hrow (List.ne_nil_of_mem hl)]
    exact hwf.lines l hl
  have hflat : file.pixelBytes.length = file.lines.length * file.header.lineBytes.toNat := by
    rw [File.pixelBytes, length_flatten_of_forall (n := file.header.lineBytes.toNat), List.length_map]
    intro line hline
    obtain ⟨l, hl, rfl⟩ := List.mem_map.mp hline
    exact hlines l hl
  have hpng : (pngSize file.header).toNat =
      file.header.height.toNat * (file.header.width.toNat * (pngGetBpp file.header).toNat + 1) := by
    rw [pngSize_eq, BitVec.toNat_ofNat]
    exact Nat.mod_eq_of_lt (by omega)
  by_cases hne : file.lines = []
  · have hzero : file.header.height.toNat = 0 := by simpa [hne] using hheight.symm
    refine ⟨fun h => absurd hne h, hlines, ?_, hflat.symm, ?_⟩
    · rw [hpng, hzero, hne]
      simp
    · rw [hflat, hzero, hne]
      simp
  · have hpos : 0 < file.header.height.toNat := hheight ▸ List.length_pos_iff.mpr hne
    have hle := Nat.le_mul_of_pos_left
      (file.header.width.toNat * (pngGetBpp file.header).toNat + 1) hpos
    refine ⟨fun _ => ?_, hlines, ?_, hflat.symm, ?_⟩
    · rw [hrow hne]
      omega
    · rw [hpng, hrow hne, hheight]
    · rw [hflat, hrow hne, hheight]
      ring

/-- What the reader leaves in a buffer of the right size. -/
theorem pngGetData_render (henv : env.Allocates Z) (hwf : file.WellFormed spec) {calls : Nat}
    {buffer : Bytes} (hlen : buffer.length = file.pixelBytes.length) :
    pngGetData Z env file.header calls (file.rest Z) buffer = some (.noError, file.pixelBytes) := by
  obtain ⟨hsmall, hlines, hsize, hpixels, -⟩ := hwf.sizes
  have hmachine : (file.lines.map fun l => file.header.machine l.2) = file.lines.map Prod.snd := by
    refine List.map_congr_left fun l _ => ?_
    rw [Header.machine, if_neg (by rw [hwf.depth]; decide)]
  rw [File.rest, pngGetData_body henv hwf.sampled hwf.height hlines hsmall hsize
    (Nat.le_of_eq (hpixels.trans hlen.symm)) hwf.body hwf.stream, hmachine, hpixels, ← hlen,
    List.drop_length, List.append_nil]
  rfl

/-- **Every well-formed file is read**: any filters, any cut of the stream into `IDAT` chunks, any other
chunks among them. -/
theorem imgRead_render (henv : env.Allocates Z) (hwf : file.WellFormed spec) (img : Image) :
    imgRead Z env (some (file.render Z)) img = some (imgSuccess, file.image) := by
  obtain ⟨-, -, -, -, hbytes⟩ := hwf.sizes
  have hsize := hwf.size
  have hopen : pngOpenFileRead Z env (some (file.render Z)) = .ok (file.header, file.rest Z) :=
    pngOpenRead_render file (by rcases hwf.color with h | h <;> rw [h] <;> decide) (.inl hwf.depth) hwf.interlace
  have hfit : file.pixelBytes.length < 2 ^ 31 := by
    have hnat : file.header.height.toNat *
        (file.header.width.toNat * (pngGetBpp file.header).toNat + 1) =
        (pngGetBpp file.header).toNat * (file.header.width.toNat * file.header.height.toNat) +
          file.header.height.toNat := by ring
    omega
  rw [imgRead, hopen]
  simp only [numPixels_eq file.header.width, image_fields file.header.width, File.image]
  generalize file.header.width.toNat = w at hbytes ⊢
  generalize file.header.height.toNat = h at hbytes ⊢
  have hn : w * h < 2 ^ 31 := by rcases hwf.bpp with ⟨-, hb⟩ | ⟨-, hb⟩ <;> rw [hb] at hbytes <;> omega
  obtain ⟨pixelData, hmalloc, hlen⟩ := henv.malloc 0 (4 * (w * h))
  rw [rgbaBytes_eq hn, hmalloc, Option.getD_some]
  have htoNat : ∀ n : Nat, n < 256 → (pngGetBpp file.header).toNat = n →
      pngGetBpp file.header = BitVec.ofNat 8 n := by
    rintro n hn rfl
    simp
  rcases hwf.bpp with ⟨hcolor, hb⟩ | ⟨hcolor, hb⟩
  · have hbpp := htoNat 3 (by decide) hb
    rw [hb] at hbytes ⊢
    obtain ⟨raw, hraw, hrawlen⟩ := henv.malloc 1 file.pixelBytes.length
    rw [if_neg (by simp [hcolor, hbpp]), if_pos hcolor,
      rgbBytes_eq (hbytes ▸ hfit), ← hbytes, hraw, Option.getD_some,
      pngGetData_render henv hwf hrawlen]
    change Option.bind (forLoop _ _ _ _) _ = _
    rw [words_picture hlen, expandPixel_loop hbytes hfit]
    rfl
  · have hbpp := htoNat 4 (by decide) hb
    rw [hb] at hbytes ⊢
    rw [if_neg (by simp [hcolor, hbpp]), if_neg (by rw [hcolor]; decide),
      pngGetData_render henv hwf (hlen.trans hbytes.symm)]
    change Option.bind (forLoop _ _ _ _) _ = _
    rw [words_picture hbytes, swapPixel_loop hn]
    simp only [byteswap_byteswap]
    rfl

/-- Two lines of two pixels, two filters, and another chunk in the middle of the stream. -/
def sampleFile : File :=
  let lines : List (Filter × Bytes) :=
    [(.sub, [0x80, 0x90, 0xA0, 0xB0, 0xC0, 0xD0]), (.paeth, [0xFF, 0x00, 0x7F, 0x01, 0xFE, 0x02])]
  let stream := literalZlib.compress (filteredLines 3 none lines)
  { header := ⟨2, 2, 8, pngTruecolor, 0, 0, 0⟩
    lines := lines
    body := [.idat (stream.take 1), .other [0x74, 0x45, 0x58, 0x74] [0x61, 0x00] [1, 2, 3, 4],
      .idat (stream.drop 1)]
    trailer := [] }

theorem sampleFile_wellFormed : sampleFile.WellFormed literalSpec := by
  have hbpp : (pngGetBpp sampleFile.header).toNat = 3 := by decide
  refine ⟨.inl rfl, rfl, rfl, rfl, ?_, ?_, ?_, ?_⟩
  · rw [hbpp]
    decide
  · rw [hbpp]
    decide
  · obtain ⟨rest, hstream⟩ := compress_eq (filteredLines 3 none sampleFile.lines)
    have hbound := literalSpec.compress_le (filteredLines 3 none sampleFile.lines)
    have hlen : (filteredLines 3 none sampleFile.lines).length = 14 := by decide
    rw [hlen] at hbound
    have hsmall : literalZlib.compressBound 14 < 2 ^ 32 := by decide
    change ∀ chunk ∈ [Chunk.idat ((literalZlib.compress (filteredLines 3 none sampleFile.lines)).take 1), _,
      Chunk.idat ((literalZlib.compress (filteredLines 3 none sampleFile.lines)).drop 1)], chunk.Legal
    rw [hstream] at hbound ⊢
    simp only [List.mem_cons, List.not_mem_nil, or_false, forall_eq_or_imp, forall_eq]
    refine ⟨⟨by simp, by simp⟩, ⟨rfl, by decide, by decide, by decide, rfl⟩, by simp, ?_⟩
    simp only [List.length_cons, List.drop_succ_cons, List.drop_zero] at hbound ⊢
    omega
  · rw [hbpp]
    change pieces sampleFile.body = literalZlib.compress (filteredLines 3 none sampleFile.lines)
    simp only [pieces, sampleFile, List.flatMap_cons, List.flatMap_nil, Chunk.piece, List.append_nil,
      List.nil_append, List.take_append_drop]

theorem imgRead_sampleFile :
    imgRead literalZlib zeros (some (sampleFile.render literalZlib)) ⟨0, 0, []⟩ =
      some (imgSuccess, sampleFile.image) :=
  imgRead_render zeros_allocates sampleFile_wellFormed _

end CsfAssignments.Png
