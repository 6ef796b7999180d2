import CsfAssignments.Png.Read
/-!
# `img_write`, and reading what it has written

The writer puts the filter byte 0 in front of every line (`filterNone_eq`) and all of the image in one `IDAT`
chunk. The chunk is built in a buffer of `compressBound(size) + 4` bytes, but with type and CRC it has 8 more
than the compressed data: data within 4 bytes of the bound are too long (`pngWriteIdats_eq`). In the other
cases the file is well formed, and reading it gives the image back (`imgRead_imgWrite`).
-/

namespace CsfAssignments.Png

open Imgproc Paint

/-! ## Lines without filter -/

theorem Filter.encode_none (stride : Nat) (prevLine : Option Bytes) (line : Bytes) :
    Filter.none.encode stride prevLine line = line := by
  have hall : ∀ past, Predictive.residuals (fun _ => (0 : Byte)) past line = line := by
    induction line with
    | nil => exact fun _ => rfl
    | cons b line ih =>
      intro past
      rw [Predictive.residuals, ih, sub_zero]
  exact hall []

theorem filteredLines_none (stride : Nat) (prevLine : Option Bytes) (lines : List Bytes) :
    filteredLines stride prevLine (lines.map (Prod.mk .none)) = lines.flatMap (List.cons 0) := by
  induction lines generalizing prevLine with
  | nil => rfl
  | cons line lines ih =>
    rw [List.map_cons, filteredLines, Filter.encode_none, ih]
    rfl

/-- Line `k` of lines of `n` bytes. -/
def line (data : Bytes) (n k : Nat) : Bytes := (data.drop (k * n)).take n

/-- `h` lines of `n` bytes. -/
def linesOf (data : Bytes) (n h : Nat) : List Bytes := (List.range h).map (line data n)

theorem linesOf_succ (data : Bytes) (n h : Nat) :
    linesOf data n (h + 1) = linesOf data n h ++ [line data n h] := by
  rw [linesOf, List.range_succ, List.map_append]
  rfl

variable {data buffer : Bytes} {n h : Nat}

theorem length_line {k : Nat} (hk : k < h) (hdata : data.length = h * n) :
    (line data n k).length = n := by
  have hle : (k + 1) * n ≤ h * n := Nat.mul_le_mul_right n hk
  rw [Nat.succ_mul] at hle
  rw [line, List.length_take, List.length_drop]
  omega

theorem flatten_linesOf (data : Bytes) (n h : Nat) : (linesOf data n h).flatten = data.take (h * n) := by
  induction h with
  | zero => simp [linesOf]
  | succ h ih =>
    rw [linesOf_succ, List.flatten_append, ih, Nat.succ_mul, List.take_add]
    simp [line]

theorem mem_linesOf {l : Bytes} (hl : l ∈ linesOf data n h) (hdata : data.length = h * n) :
    l.length = n := by
  obtain ⟨k, hk, rfl⟩ := List.mem_map.mp hl
  exact length_line (List.mem_range.mp hk) hdata

/-- The filtered image. -/
def filtered (data : Bytes) (n h : Nat) : Bytes := (linesOf data n h).flatMap (List.cons 0)

theorem filtered_succ (data : Bytes) (n h : Nat) :
    filtered data n (h + 1) = filtered data n h ++ (0 :: line data n h) := by
  rw [filtered, linesOf_succ, List.flatMap_append]
  simp [filtered]

theorem length_filtered {k : Nat} (hk : k ≤ h) (hdata : data.length = h * n) :
    (filtered data n k).length = k * (n + 1) := by
  induction k with
  | zero => simp [filtered, linesOf]
  | succ k ih =>
    rw [filtered_succ, List.length_append, ih (Nat.le_of_lt hk), List.length_cons,
      length_line hk hdata, Nat.succ_mul]

variable {header : Header}

/-- The body of the loop of `png_set_data`. -/
theorem filterNone_step {k : Nat} (hk : k < header.height.toNat)
    (hdata : data.length = header.height.toNat * header.lineBytes.toNat)
    (hbuffer : buffer.length = header.height.toNat * (header.lineBytes.toNat + 1))
    (hsize : buffer.length < 2 ^ 32) :
    filterNoneLine header data (filtered data header.lineBytes.toNat k ++
        buffer.drop (k * (header.lineBytes.toNat + 1))) k =
      some (filtered data header.lineBytes.toNat (k + 1) ++
        buffer.drop ((k + 1) * (header.lineBytes.toNat + 1))) := by
  have hfront := length_filtered (Nat.le_of_lt hk) hdata
  have hline := length_line hk hdata
  have hstart : BitVec.ofNat 32 k * header.width * (pngGetBpp header).zeroExtend 32 =
      BitVec.ofNat 32 (k * header.lineBytes.toNat) := by
    rw [BitVec.mul_assoc, ← Header.lineBytes, BitVec.ofNat_mul, BitVec.ofNat_toNat, BitVec.setWidth_eq]
  have hle : (k + 1) * header.lineBytes.toNat ≤ data.length := hdata ▸ Nat.mul_le_mul_right _ hk
  have hle' : (k + 1) * (header.lineBytes.toNat + 1) ≤ buffer.length :=
    hbuffer ▸ Nat.mul_le_mul_right _ hk
  rw [filterNoneLine, filtered_succ, ← Header.lineBytes]
  simp only [hstart]
  generalize header.lineBytes.toNat = n at *
  generalize hf : filtered data n k = front at *
  have hmul : k * (n + 1) = k * n + k := Nat.mul_add_one k n
  have hsucc : (k + 1) * n = k * n + n := Nat.succ_mul k n
  have hsucc' : (k + 1) * (n + 1) = k * n + k + (n + 1) := by rw [Nat.succ_mul, hmul]
  have h0 : (BitVec.ofNat 32 (k * n)).toNat = k * n := by
    rw [BitVec.toNat_ofNat]
    exact Nat.mod_eq_of_lt (by omega)
  have h1 : (BitVec.ofNat 32 (k * n) + BitVec.ofNat 32 k).toNat = front.length := by
    rw [← BitVec.ofNat_add, BitVec.toNat_ofNat, hfront, hmul]
    exact Nat.mod_eq_of_lt (by omega)
  have h2 : (BitVec.ofNat 32 (k * n) + BitVec.ofNat 32 k + 1).toNat = front.length + 1 := by
    rw [BitVec.toNat_add, h1]
    exact Nat.mod_eq_of_lt (by simp; omega)
  have hslice : slice data (k * n) n = some (line data n k) := by
    rw [slice, if_pos (by omega)]
    rfl
  -- the filter byte, then the line
  have hzero : writeAt (front ++ buffer.drop (k * (n + 1))) front.length [0] =
      some (front ++ [0] ++ buffer.drop (k * (n + 1) + 1)) := by
    rw [writeAt_of_drop (by simp) (a := (buffer.drop (k * (n + 1))).take 1)
      (b := (buffer.drop (k * (n + 1))).drop 1) (by simp) (by simp; omega), List.take_left,
      List.drop_drop]
  have hrest : writeAt (front ++ [0] ++ buffer.drop (k * (n + 1) + 1)) (front.length + 1) (line data n k) =
      some (front ++ [0] ++ line data n k ++ buffer.drop (k * (n + 1) + 1 + n)) := by
    have hlen : (front ++ [(0 : Byte)]).length = front.length + 1 := by simp
    rw [← hlen, writeAt_of_drop (by simp) (a := (buffer.drop (k * (n + 1) + 1)).take n)
      (b := (buffer.drop (k * (n + 1) + 1)).drop n) (by simp) (by simp; omega), List.take_left,
      List.drop_drop]
  change (writeAt (front ++ buffer.drop (k * (n + 1)))
    (BitVec.ofNat 32 (k * n) + BitVec.ofNat 32 k).toNat [0]).bind (fun filtered =>
      (slice data (BitVec.ofNat 32 (k * n)).toNat n).bind fun bytes =>
        writeAt filtered (BitVec.ofNat 32 (k * n) + BitVec.ofNat 32 k + 1).toNat bytes) = _
  rw [h0, h1, h2, hzero, Option.bind_some, hslice, Option.bind_some, hrest]
  simp only [List.append_assoc, List.singleton_append, hsucc', hmul, Nat.add_assoc, Nat.add_comm 1 n]

/-- **All lines**, each behind a filter byte. -/
theorem filterNone_eq (hdata : data.length = header.height.toNat * header.lineBytes.toNat)
    (hbuffer : buffer.length = header.height.toNat * (header.lineBytes.toNat + 1))
    (hsize : buffer.length < 2 ^ 32) :
    filterNone header data buffer = some (filtered data header.lineBytes.toNat header.height.toNat) := by
  have hrun : ∀ k ≤ header.height.toNat, (List.range k).foldlM (filterNoneLine header data) buffer =
      some (filtered data header.lineBytes.toNat k ++
        buffer.drop (k * (header.lineBytes.toNat + 1))) := by
    intro k hk
    induction k with
    | zero => simp [filtered, linesOf]
    | succ k ih =>
      rw [List.range_succ, List.foldlM_append, ih (Nat.le_of_lt hk)]
      change Option.bind (filterNoneLine header data _ k) some = _
      rw [filterNone_step hk hdata hbuffer hsize, Option.bind_some]
  have hall := hrun header.height.toNat (Nat.le_refl _)
  rwa [← hbuffer, List.drop_length, List.append_nil] at hall

/-! ## The chunks -/

variable {Z : Zlib} {spec : Z.Spec} {env : Env}

/-- What `png_write_idats` writes, as chunks: the CRC of `IEND` starts from 0. -/
def idats (Z : Zlib) (data : Bytes) : Bytes :=
  (Chunk.idat (Z.compress data)).render Z ++ (setUl 0 ++ (typeIend ++ setUl (Z.crc32 0 typeIend)))

/-- **The chunk buffer** is 4 bytes short of what the bound would need. -/
theorem pngWriteIdats_eq (spec : Z.Spec) (henv : env.Allocates Z) (calls : Nat)
    (hdata : data.length = (pngSize header).toNat)
    (hbound : Z.compressBound data.length + 4 < 2 ^ 32) :
    pngWriteIdats Z env header calls data =
      if (Z.compress data).length + 4 ≤ Z.compressBound data.length then some (idats Z data) else none := by
  have hle := spec.compress_le data
  generalize hcomp : Z.compress data = compressed at *
  have hchunk : (BitVec.ofNat 32 (Z.compressBound data.length) + 4#32).toNat =
      Z.compressBound data.length + 4 := by
    rw [BitVec.toNat_add, BitVec.toNat_ofNat, BitVec.toNat_ofNat]
    omega
  obtain ⟨chunk, hmalloc, hlen⟩ := henv.malloc calls (Z.compressBound data.length + 4)
  have htype : writeAt chunk 0 typeIdat = some (typeIdat ++ chunk.drop 4) := by
    rw [writeAt_of_le (by rw [hlen]; simp [typeIdat])]
    rfl
  have hslice : slice data 0 data.length = some data := by simp [slice]
  have hdrop : (typeIdat ++ chunk.drop 4).drop 4 =
      (chunk.drop 4).take compressed.length ++ (chunk.drop 4).drop compressed.length := by
    simp [typeIdat]
  have hcompressed : writeAt (typeIdat ++ chunk.drop 4) 4 compressed =
      some (typeIdat ++ compressed ++ chunk.drop (4 + compressed.length)) := by
    rw [writeAt_of_drop (by simp [typeIdat]) hdrop (by simp; omega), List.drop_drop]
    rfl
  have hfront : (typeIdat ++ compressed).length = compressed.length + 4 := by
    rw [List.length_append, Nat.add_comm]
    rfl
  have hcrc : slice (typeIdat ++ compressed ++ chunk.drop (4 + compressed.length)) 0
      (compressed.length + 4) = some (typeIdat ++ compressed) := by
    rw [← hfront, slice, if_pos (by simp), List.drop_zero, List.take_left]
  generalize hword : Z.crc32 Z.crcInit (typeIdat ++ compressed) = word
  have hstep : pngWriteIdats Z env header calls data =
      (writeAt (typeIdat ++ compressed ++ chunk.drop (4 + compressed.length)) (compressed.length + 4)
        (setUl word)).bind fun chunk => (slice chunk 0 (compressed.length + 8)).bind fun bytes =>
          some (setUl (BitVec.ofNat 32 compressed.length) ++ bytes ++
            (setUl 0 ++ typeIend ++ setUl (Z.crc32 0 typeIend))) := by
    simp only [pngWriteIdats, ← hdata, hchunk, hmalloc, Option.bind_eq_bind, Option.bind_some, htype,
      hslice, hcomp, hcompressed, hcrc, hword]
    rfl
  rw [hstep]
  split
  · rename_i hroom
    have htail : (typeIdat ++ compressed ++ chunk.drop (4 + compressed.length)).drop
        (typeIdat ++ compressed).length =
        (chunk.drop (4 + compressed.length)).take 4 ++ (chunk.drop (4 + compressed.length)).drop 4 := by
      rw [List.drop_left, List.take_append_drop]
    have hfull : (typeIdat ++ compressed ++ setUl word).length = compressed.length + 8 := by
      rw [List.length_append, hfront, length_setUl]
    rw [← hfront, writeAt_of_drop (by simp) htail (by simp; omega), List.take_left, Option.bind_some,
      slice, ← hfull, if_pos (by simp), List.drop_zero, List.take_left, Option.bind_some, idats,
      Chunk.render, hcomp, hword]
    simp only [List.append_assoc]
  · rename_i hroom
    have hlong : writeAt (typeIdat ++ compressed ++ chunk.drop (4 + compressed.length))
        (compressed.length + 4) (setUl word) = none := by
      rw [writeAt, if_neg]
      rw [List.length_append, hfront, List.length_drop, hlen, length_setUl]
      omega
    rw [hlong, Option.bind_none]

/-! ## Images -/

/-- A swapped pixel is stored in the order of the file. -/
theorem leBytes_byteswap (val : Pixel) : leBytes (byteswap val) = setUl val := by
  rw [leBytes_eq, byteswap, leBytes_eq]
  change (setUl (getUl [_, _, _, _])).reverse = _
  rw [setUl_getUl]
  rfl

theorem length_flatMap_setUl (data : List Pixel) : (data.flatMap setUl).length = 4 * data.length := by
  induction data with
  | nil => rfl
  | cons v data ih =>
    rw [List.flatMap_cons, List.length_append, ih, length_setUl, List.length_cons]
    omega

theorem pixelAt_flatMap {data : List Pixel} {i : Nat} (hi : i < data.length) :
    pixelAt 4 (data.flatMap setUl) i = data[i] := by
  induction data generalizing i with
  | nil => cases hi
  | cons v data ih =>
    cases i with
    | zero =>
      have hword : pixelAt 4 (setUl v ++ data.flatMap setUl) 0 = getUl (setUl v) := by
        simp [pixelAt, setUl]
      rw [List.flatMap_cons, hword, getUl_setUl_self]
      rfl
    | succ i =>
      have hshift : pixelAt 4 (setUl v ++ data.flatMap setUl) (i + 1) = pixelAt 4 (data.flatMap setUl) i := by
        simp [pixelAt, setUl, Nat.mul_succ]
      rw [List.flatMap_cons, hshift, ih (by simpa using hi)]
      rfl

/-- The header that `img_write` asks for. -/
def rgbaHeader (img : Image) : Header := ⟨img.width, img.height, 8, pngTruecolorAlpha, 0, 0, 0⟩

/-- What `img_write` compresses. -/
def filteredImage (img : Image) : Bytes :=
  filtered (img.data.flatMap setUl) (rgbaHeader img).lineBytes.toNat img.height.toNat

/-- The file that `img_write` writes. -/
def fileOf (Z : Zlib) (img : Image) : File where
  header := rgbaHeader img
  lines := (linesOf (img.data.flatMap setUl) (rgbaHeader img).lineBytes.toNat img.height.toNat).map
    (Prod.mk .none)
  body := [.idat (Z.compress (filteredImage img))]
  trailer := setUl (Z.crc32 0 typeIend)

theorem bpp_rgbaHeader (img : Image) : pngGetBpp (rgbaHeader img) = 4 := by
  simp only [pngGetBpp, rgbaHeader]
  decide

variable {img : Image}

/-- An image whose filtered bytes an `int` can count. -/
structure Writable (img : Image) : Prop where
  data : img.data.length = img.width.toNat * img.height.toNat
  size : img.height.toNat * (img.width.toNat * 4 + 1) < 2 ^ 31

/-- The lines of an image. An image of no rows has lines of any length. -/
theorem Writable.lines (h : Writable img) :
    (0 < img.height.toNat → (rgbaHeader img).lineBytes.toNat = img.width.toNat * 4) ∧
      (img.data.flatMap setUl).length = img.height.toNat * (rgbaHeader img).lineBytes.toNat ∧
      (filteredImage img).length = img.height.toNat * (img.width.toNat * 4 + 1) ∧
      (pngSize (rgbaHeader img)).toNat = img.height.toNat * (img.width.toNat * 4 + 1) := by
  have hsize := h.size
  have hrow : 0 < img.height.toNat → (rgbaHeader img).lineBytes.toNat = img.width.toNat * 4 := by
    intro hpos
    have hle := Nat.le_mul_of_pos_left (img.width.toNat * 4 + 1) hpos
    rw [Header.lineBytes, bpp_rgbaHeader, BitVec.toNat_mul]
    exact Nat.mod_eq_of_lt (by simp [rgbaHeader]; omega)
  have hbytes : (img.data.flatMap setUl).length = img.height.toNat * (rgbaHeader img).lineBytes.toNat := by
    rw [length_flatMap_setUl, h.data]
    rcases Nat.eq_zero_or_pos img.height.toNat with hz | hpos
    · rw [hz]
      simp
    · rw [hrow hpos]
      ring
  refine ⟨hrow, hbytes, ?_, ?_⟩
  · rw [filteredImage, length_filtered (Nat.le_refl _) hbytes]
    rcases Nat.eq_zero_or_pos img.height.toNat with hz | hpos
    · rw [hz]
      simp
    · rw [hrow hpos]
  · rw [pngSize_eq, bpp_rgbaHeader, BitVec.toNat_ofNat]
    exact Nat.mod_eq_of_lt (by simpa [rgbaHeader] using (by omega))

/-- **What is written is well formed.** -/
theorem fileOf_wellFormed (spec : Z.Spec) (h : Writable img)
    (hlen : (Z.compress (filteredImage img)).length < 2 ^ 32) : (fileOf Z img).WellFormed spec := by
  obtain ⟨hrow, hbytes, -, -⟩ := h.lines
  have hencodes := spec.compress_encodes (filteredImage img)
  have hne : Z.compress (filteredImage img) ≠ [] := by
    intro hnil
    rw [hnil] at hencodes
    exact spec.encodes_ne_nil _ hencodes
  have hbpp : (pngGetBpp (fileOf Z img).header).toNat = 4 := congrArg BitVec.toNat (bpp_rgbaHeader img)
  refine ⟨.inr rfl, rfl, rfl, by simp [fileOf, linesOf, rgbaHeader], ?_, ?_, ?_, ?_⟩
  · intro l hl
    obtain ⟨bytes, hline, rfl⟩ := List.mem_map.mp hl
    have hpos : 0 < img.height.toNat := by
      obtain ⟨k, hk, -⟩ := List.mem_map.mp hline
      exact Nat.zero_lt_of_lt (List.mem_range.mp hk)
    rw [hbpp]
    exact (mem_linesOf hline hbytes).trans (hrow hpos)
  · rw [hbpp]
    exact h.size
  · intro chunk hchunk
    rw [List.mem_singleton.mp hchunk]
    exact ⟨hne, hlen⟩
  · have hpieces : pieces (fileOf Z img).body = Z.compress (filteredImage img) := by
      simp [fileOf, pieces, Chunk.piece]
    rw [hpieces]
    change spec.Encodes (filteredLines _ none (List.map _ (linesOf _ _ _))) _
    rw [filteredLines_none]
    exact hencodes

/-- It is a file of the image. -/
theorem image_fileOf (h : Writable img) : (fileOf Z img).image = img := by
  obtain ⟨-, hbytes, -, -⟩ := h.lines
  have hpixels : (fileOf Z img).pixelBytes = img.data.flatMap setUl := by
    have hfst : ((linesOf (img.data.flatMap setUl) (rgbaHeader img).lineBytes.toNat
        img.height.toNat).map (Prod.mk Filter.none)).map Prod.snd =
        linesOf (img.data.flatMap setUl) (rgbaHeader img).lineBytes.toNat img.height.toNat := by
      rw [List.map_map]
      exact List.map_id _
    rw [File.pixelBytes, fileOf, hfst, flatten_linesOf, ← hbytes, List.take_length]
  have hdata : (List.range (img.width.toNat * img.height.toNat)).map
      (pixelAt 4 (img.data.flatMap setUl)) = img.data := by
    apply List.ext_getElem
    · simp [h.data]
    · intro i hi hi'
      rw [List.getElem_map, List.getElem_range, pixelAt_flatMap hi']
  have hbpp : (pngGetBpp (fileOf Z img).header).toNat = 4 := congrArg BitVec.toNat (bpp_rgbaHeader img)
  have hpicture : (fileOf Z img).image = picture img.width.toNat img.height.toNat
      (pixelAt 4 (img.data.flatMap setUl)) := by
    rw [File.image, hpixels, hbpp]
    rfl
  rw [hpicture, picture, hdata, ← image_fields]

/-- The loop of `img_write`. -/
theorem swapInto_loop {w h : Nat} (hsize : w * h < 2 ^ 31) (pix p : Nat → Pixel) :
    forLoop 0#32 (BitVec.ofNat 32 (w * h)) (swapInto (picture w h pix)) (picture w h p) =
      some (picture w h fun i => byteswap (pix i)) := by
  have hloop := forLoop_fold (l := 0) (φ := picture w h) (f := swapInto (picture w h pix))
    (g := fun p x => Function.update p x (byteswap (pix x))) (Nat.zero_le (w * h)) (by omega)
    (fun k _ hk p => by
      simp only [swapInto, load_picture hsize hk, Option.bind_eq_bind, Option.bind_some,
        store_picture hsize hk]) p
  rw [Nat.sub_zero, ← List.range_eq_range'] at hloop
  rw [show 0#32 = BitVec.ofNat 32 0 from rfl, hloop]
  exact congrArg some (picture_congr fun x hx => foldl_update _ (List.mem_range.mpr hx))

/-- `png_set_data` on the bytes of an image. -/
theorem pngSetData_eq (spec : Z.Spec) (henv : env.Allocates Z) (h : Writable img) (calls : Nat)
    (hbound : Z.compressBound (filteredImage img).length + 4 < 2 ^ 32) :
    pngSetData Z env calls img.width img.height 8 pngTruecolorAlpha (img.data.flatMap setUl) =
      if (Z.compress (filteredImage img)).length + 4 ≤ Z.compressBound (filteredImage img).length then
        some ((fileOf Z img).render Z) else none := by
  obtain ⟨hrow, hbytes, hfiltered, hpng⟩ := h.lines
  have hsize := h.size
  obtain ⟨buffer, hmalloc, hlen⟩ := henv.malloc calls (pngSize (rgbaHeader img)).toNat
  have hroom : buffer.length = img.height.toNat * ((rgbaHeader img).lineBytes.toNat + 1) := by
    rw [hlen, hpng]
    rcases Nat.eq_zero_or_pos img.height.toNat with hz | hpos
    · simp [hz]
    · rw [hrow hpos]
  have hnone : filterNone (rgbaHeader img) (img.data.flatMap setUl) buffer = some (filteredImage img) :=
    filterNone_eq hbytes hroom (by omega)
  have hidats := pngWriteIdats_eq spec henv (calls + 1) (hfiltered.trans hpng.symm) hbound
  have hstep : pngSetData Z env calls img.width img.height 8 pngTruecolorAlpha
      (img.data.flatMap setUl) = (pngWriteIdats Z env (rgbaHeader img) (calls + 1) (filteredImage img)).bind
        fun bytes => some (pngWriteIhdr Z (rgbaHeader img) ++ bytes) := by
    change (env.malloc calls (pngSize (rgbaHeader img)).toNat).bind (fun filtered =>
      (filterNone (rgbaHeader img) (img.data.flatMap setUl) filtered).bind fun filtered =>
        (pngWriteIdats Z env (rgbaHeader img) (calls + 1) filtered).bind fun bytes =>
          some (pngWriteIhdr Z (rgbaHeader img) ++ bytes)) = _
    rw [hmalloc, Option.bind_some, hnone, Option.bind_some]
  have hrender : pngWriteIhdr Z (rgbaHeader img) ++ idats Z (filteredImage img) = (fileOf Z img).render Z := by
    simp only [File.render, File.rest, idats, fileOf, List.flatMap_cons, List.flatMap_nil, List.append_nil]
    rfl
  rw [hstep, hidats]
  split
  · rw [Option.bind_some, hrender]
  · rfl

/-- **`img_write`** writes a file of the image, unless the chunk buffer is too short. -/
theorem imgWrite_eq (spec : Z.Spec) (henv : env.Allocates Z) (h : Writable img)
    (hbound : Z.compressBound (filteredImage img).length + 4 < 2 ^ 32) :
    imgWrite Z env img =
      if (Z.compress (filteredImage img)).length + 4 ≤ Z.compressBound (filteredImage img).length then
        some (imgSuccess, (fileOf Z img).render Z) else none := by
  have hsize := h.size
  have hset := pngSetData_eq spec henv h 1 hbound
  obtain ⟨pix, himg⟩ := eq_picture (w := img.width.toNat) (h := img.height.toNat) (by simp) (by simp) h.data
  have hn : 4 * (img.width.toNat * img.height.toNat) < 2 ^ 31 := by
    have hnat : img.height.toNat * (img.width.toNat * 4 + 1) =
        4 * (img.width.toNat * img.height.toNat) + img.height.toNat := by ring
    omega
  have hbytes : ((img.width * img.height).signExtend 64 * 4#64).toNat =
      4 * (img.width.toNat * img.height.toNat) := by
    rw [numPixels_eq, rgbaBytes_eq (by omega)]
  obtain ⟨buffer, hmalloc, hlen⟩ := henv.malloc 0 (4 * (img.width.toNat * img.height.toNat))
  have hswap : ∃ swapped, forLoop 0#32 (img.width * img.height) (swapInto img)
      ⟨img.width, img.height, words buffer⟩ = some swapped ∧
        swapped.data.flatMap leBytes = img.data.flatMap setUl := by
    have hwords := words_picture hlen
    rw [← image_fields] at hwords
    have hdata : img.data = (List.range (img.width.toNat * img.height.toNat)).map pix :=
      congrArg Image.data himg
    refine ⟨picture img.width.toNat img.height.toNat fun i => byteswap (pix i), ?_, ?_⟩
    · have hbody := congrArg swapInto himg
      rw [numPixels_eq, hwords, hbody]
      exact swapInto_loop (by omega) pix _
    · rw [hdata, picture, List.flatMap_map, List.flatMap_map]
      simp only [leBytes_byteswap]
  obtain ⟨swapped, hloop, hdata⟩ := hswap
  have hstep : imgWrite Z env img = (pngSetData Z env 1 img.width img.height 8 pngTruecolorAlpha
      (img.data.flatMap setUl)).bind fun file => some (imgSuccess, file) := by
    simp only [imgWrite, hbytes, hmalloc, hloop, Option.bind_eq_bind, Option.bind_some, hdata]
    rfl
  rw [hstep, hset]
  split <;> rfl

/-- An image that `img_write` can write: it is small enough, and so is what zlib makes of it. -/
structure Storable (Z : Zlib) (img : Image) : Prop extends Writable img where
  bound : Z.compressBound (filteredImage img).length + 4 < 2 ^ 32
  buffer : (Z.compress (filteredImage img)).length + 4 ≤ Z.compressBound (filteredImage img).length

/-- What is written is read back. -/
theorem Storable.read (spec : Z.Spec) (h : Storable Z img) (henv : env.Allocates Z) (img' : Image) :
    imgRead Z env (some ((fileOf Z img).render Z)) img' = some (imgSuccess, img) := by
  have hlen := h.buffer
  have hbound := h.bound
  rw [imgRead_render henv (fileOf_wellFormed spec h.toWritable (by omega)), image_fileOf h.toWritable]

/-- One pixel. zlib makes 13 bytes of its 5, one less than there is room for. -/
def dot : Image := ⟨1, 1, [0x50607080#32]⟩

theorem dot_storable : Storable literalZlib dot :=
  ⟨⟨rfl, by decide⟩, by decide +kernel, by decide +kernel⟩

end CsfAssignments.Png
