import Mathlib.Data.BitVec
import CsfAssignments.Lib.Predictive
/-!
# Reading and writing PNG files (`csf_assign02/pnglite.c`)

| here | there |
| --- | --- |
| `fileRead`, `fileReadUl`, `setUl`, `getUl` | `file_read`, `file_read_ul`, `set_ul`, `get_ul` (`pnglite.c:21-106`) |
| `pngOpenRead`, `pngReadIhdr` | `:254`, `:148` |
| `pngProcessChunk`, `pngReadIdat`, `pngInflate` | `:556`, `:511`, `:420` |
| `pngFilterSub`, …, `pngUnfilter` | `:599-768` |
| `pngGetData`, `pngSetData` | `:770`, `:808` |
| `pngWriteIhdr`, `pngWriteIdats` | `:199`, `:478` |

The result is `none` where the code leaves a buffer, or prints the string at `NULL`. `Env` is what the program
cannot know: what `malloc` answers, and what two local variables hold before they are set. zlib is a parameter
(`Zlib`).
-/

namespace CsfAssignments.Png

abbrev Byte := BitVec 8
abbrev Bytes := List Byte

/-- `pnglite.h:47-61`. -/
inductive Code where
  | done
  | noError
  | fileError
  | headerError
  | ioError
  | eofError
  | crcError
  | memoryError
  | zlibError
  | unknownFilter
  | notSupported
  | wrongArguments
deriving DecidableEq, Repr

/-! ## zlib -/

/-- What a call of `inflate` did: `avail_in` afterwards, the bytes it put at `next_out`, the stream. -/
structure Inflated (S : Type) where
  /-- The result is `Z_OK` or `Z_STREAM_END`. -/
  ok : Bool
  /-- `stream->msg` is not `NULL`. -/
  msg : Bool
  availIn : Nat
  out : Bytes
  stream : S

structure Zlib where
  Stream : Type
  /-- `crc32(0, Z_NULL, 0)` -/
  crcInit : BitVec 32
  crc32 : BitVec 32 → Bytes → BitVec 32
  compressBound : Nat → Nat
  compress : Bytes → Bytes
  inflateInit : Option Stream
  /-- The new bytes at `next_in`, and `avail_out`. -/
  inflate : Stream → Bytes → Nat → Inflated Stream

/-! ## Memory -/

structure Env where
  /-- The `k`-th call, for `n` bytes. -/
  malloc : Nat → Nat → Option Bytes
  /-- `length` (`pnglite.c:150`, `:560`) when `file_read_ul` fails. -/
  length : BitVec 32
  /-- `orig_crc` (`:152`, `:514`) when `file_read_ul` fails. -/
  origCrc : BitVec 32

/-- The `n` bytes at `pos`. -/
def slice (buf : Bytes) (pos n : Nat) : Option Bytes :=
  if pos + n ≤ buf.length then some ((buf.drop pos).take n) else none

/-- Overwrites the bytes at `pos`. -/
def writeAt (buf : Bytes) (pos : Nat) (bytes : Bytes) : Option Bytes :=
  if pos + bytes.length ≤ buf.length then
    some (buf.take pos ++ bytes ++ buf.drop (pos + bytes.length))
  else none

theorem writeAt_of_le {buf : Bytes} {pos : Nat} {bytes : Bytes} (h : pos + bytes.length ≤ buf.length) :
    writeAt buf pos bytes = some (buf.take pos ++ bytes ++ buf.drop (pos + bytes.length)) := if_pos h

theorem length_of_drop {buf a b : Bytes} {pos : Nat} (hpos : pos ≤ buf.length)
    (h : buf.drop pos = a ++ b) : pos + a.length + b.length = buf.length := by
  have := congrArg List.length h
  simp only [List.length_drop, List.length_append] at this
  omega

theorem slice_of_drop {buf a b : Bytes} {pos : Nat} (hpos : pos ≤ buf.length)
    (h : buf.drop pos = a ++ b) : slice buf pos a.length = some a := by
  have hlen := length_of_drop hpos h
  rw [slice, if_pos (by omega), h, List.take_left]

/-- The bytes overwritten, and those behind them. -/
theorem writeAt_of_drop {buf a b bytes : Bytes} {pos : Nat} (hpos : pos ≤ buf.length)
    (h : buf.drop pos = a ++ b) (hlen : bytes.length = a.length) :
    writeAt buf pos bytes = some (buf.take pos ++ bytes ++ b) := by
  have htotal := length_of_drop hpos h
  rw [writeAt_of_le (by omega), hlen, ← List.drop_drop, h, List.drop_left]

/-! ## Files -/

/-- What `fread` delivers of `n` bytes, and what is left of the file. -/
def fileRead (n : Nat) (file : Bytes) : Bytes × Bytes := (file.take n, file.drop n)

def getUl (buf : Bytes) : BitVec 32 :=
  (buf.getD 0 0).zeroExtend 32 <<< 24 ||| (buf.getD 1 0).zeroExtend 32 <<< 16 |||
    (buf.getD 2 0).zeroExtend 32 <<< 8 ||| (buf.getD 3 0).zeroExtend 32

def setUl (n : BitVec 32) : Bytes :=
  [(n >>> 24).truncate 8, (n >>> 16).truncate 8, (n >>> 8).truncate 8, n.truncate 8]

/-- `none` is `PNG_FILE_ERROR`, and the variable keeps what it held. -/
def fileReadUl (file : Bytes) : Option (BitVec 32) × Bytes :=
  let (buf, file) := fileRead 4 file
  (if buf.length ≠ 4 then none else some (getUl buf), file)

def signature : Bytes := [0x89, 0x50, 0x4E, 0x47, 0x0D, 0x0A, 0x1A, 0x0A]
def typeIhdr : Bytes := [0x49, 0x48, 0x44, 0x52]
def typeIdat : Bytes := [0x49, 0x44, 0x41, 0x54]
def typeIend : Bytes := [0x49, 0x45, 0x4E, 0x44]

/-! ## Header -/

/-- `pnglite.h:67-74`. -/
def pngGreyscale : Byte := 0
def pngTruecolor : Byte := 2
def pngIndexed : Byte := 3
def pngGreyscaleAlpha : Byte := 4
def pngTruecolorAlpha : Byte := 6

/-- The fields of `png_t` (`pnglite.h:85-106`) that the header sets. -/
structure Header where
  width : BitVec 32
  height : BitVec 32
  depth : Byte
  colorType : Byte
  compressionMethod : Byte
  filterMethod : Byte
  interlaceMethod : Byte
deriving DecidableEq, Repr

/-- `png_get_bpp` (`:123`), as the `unsigned char` its callers store. -/
def pngGetBpp (header : Header) : Byte :=
  if header.colorType = pngGreyscale then 1 * (header.depth / 8)
  else if header.colorType = pngTruecolor then 3 * (header.depth / 8)
  else if header.colorType = pngIndexed then 1 * (header.depth / 8)
  else if header.colorType = pngGreyscaleAlpha then 2 * (header.depth / 8)
  else if header.colorType = pngTruecolorAlpha then 4 * (header.depth / 8)
  else -1

/-- `:148`. The type of the chunk is not looked at. -/
def pngReadIhdr (Z : Zlib) (env : Env) (file : Bytes) : Except Code (Header × Bytes) :=
  let (length, file) := fileReadUl file
  if length.getD env.length ≠ 13 then .error .crcError
  else
    let (ihdr, file) := fileRead 17 file
    if ihdr.length ≠ 17 then .error .eofError
    else
      let (origCrc, file) := fileReadUl file
      if origCrc.getD env.origCrc ≠ Z.crc32 Z.crcInit ihdr then .error .crcError
      else
        let header : Header :=
          { width := getUl (ihdr.drop 4)
            height := getUl (ihdr.drop 8)
            depth := ihdr.getD 12 0
            colorType := ihdr.getD 13 0
            compressionMethod := ihdr.getD 14 0
            filterMethod := ihdr.getD 15 0
            interlaceMethod := ihdr.getD 16 0 }
        if header.colorType = pngIndexed then .error .notSupported
        else if header.depth ≠ 8 ∧ header.depth ≠ 16 then .error .notSupported
        else if header.interlaceMethod ≠ 0 then .error .notSupported
        else .ok (header, file)

/-- `:254`, with a file for `user_pointer`. -/
def pngOpenRead (Z : Zlib) (env : Env) (file : Bytes) : Except Code (Header × Bytes) :=
  let (header, file) := fileRead 8 file
  if header.length ≠ 8 then .error .eofError
  else if header ≠ signature then .error .headerError
  else pngReadIhdr Z env file

/-- `png_open_file_read` (`:296`); without a file `fopen` fails. -/
def pngOpenFileRead (Z : Zlib) (env : Env) (file : Option Bytes) : Except Code (Header × Bytes) :=
  match file with
  | none => .error .fileError
  | some file => pngOpenRead Z env file

/-! ## Chunks -/

/-- `z_stream`, and where `next_out` is in `png_data`. -/
structure ZStream (S : Type) where
  stream : S
  nextOut : Nat
  availOut : Nat

/-- The fields of `png_t` that `png_get_data` works with. -/
structure Reader (S : Type) where
  file : Bytes
  /-- Calls of `malloc` so far. -/
  calls : Nat
  zs : Option (ZStream S)
  pngDatalen : BitVec 32
  pngData : Option Bytes
  /-- `readbuflen`; what is in the buffer is read only where it has just been written. -/
  readbuf : Option Nat

section
variable (Z : Zlib) (env : Env) (header : Header)

/-- The bytes of the filtered image, in `unsigned`. -/
def pngSize : BitVec 32 :=
  header.width * header.height * (pngGetBpp header).zeroExtend 32 + header.height

/-- `:349`. `sizeof(z_stream)` is 112. -/
def pngInitInflate (st : Reader Z.Stream) : Code × Reader Z.Stream :=
  let block := env.malloc st.calls 112
  let st := { st with calls := st.calls + 1 }
  match block, Z.inflateInit with
  | none, _ => (.memoryError, st)
  | some _, none => (.zlibError, st)
  | some _, some stream => (.noError, { st with zs := some ⟨stream, 0, st.pngDatalen.toNat⟩ })

/-- What `png_inflate` makes of the result (`:439-448`). On an error it prints `stream->msg`. -/
def inflateResult {S : Type} (r : Inflated S) : Option Code :=
  if !r.ok then if r.msg then some .zlibError else none
  else if r.availIn ≠ 0 then some .zlibError
  else some .noError

/-- `:420`. -/
def pngInflate (st : Reader Z.Stream) (data : Bytes) : Option (Code × Reader Z.Stream) :=
  match st.zs with
  | none => some (.memoryError, st)
  | some zs => do
    let r := Z.inflate zs.stream data zs.availOut
    let pngData ← writeAt (st.pngData.getD []) zs.nextOut r.out
    let zs := ⟨r.stream, zs.nextOut + r.out.length, zs.availOut - r.out.length⟩
    let st := { st with zs := some zs, pngData := some pngData }
    return (← inflateResult r, st)

/-- The buffer of `png_read_idat` (`:518-526`). -/
def growReadbuf (length : BitVec 32) (st : Reader Z.Stream) : Reader Z.Stream :=
  if st.readbuf.all (· < length.toNat) then
    { st with
      readbuf := (env.malloc st.calls length.toNat).map fun _ => length.toNat
      calls := st.calls + 1 }
  else st

/-- `:511`. -/
def pngReadIdat (length : BitVec 32) (st : Reader Z.Stream) : Option (Code × Reader Z.Stream) :=
  let st := growReadbuf Z env length st
  if st.readbuf.isNone then some (.memoryError, st)
  else
    let (buf, file) := fileRead length.toNat st.file
    let st := { st with file := file }
    if buf.length ≠ length.toNat then some (.fileError, st)
    else
      let calcCrc := Z.crc32 (Z.crc32 Z.crcInit typeIdat) buf
      let (origCrc, file) := fileReadUl st.file
      let st := { st with file := file }
      if origCrc.getD env.origCrc ≠ calcCrc then some (.crcError, st)
      else pngInflate Z st buf

/-- The first `IDAT` allocates `png_data` (`:569-573`). -/
def allocPngData (st : Reader Z.Stream) : Reader Z.Stream :=
  if st.pngData.isNone then
    { st with
      pngDatalen := pngSize header
      pngData := env.malloc st.calls (pngSize header).toNat
      calls := st.calls + 1 }
  else st

/-- It initialises the stream, too (`:578-583`). -/
def openInflate (st : Reader Z.Stream) : Code × Reader Z.Stream :=
  if st.zs.isNone then pngInitInflate Z env st else (.noError, st)

/-- An `IDAT` chunk (`:567-586`). -/
def pngProcessIdat (length : BitVec 32) (st : Reader Z.Stream) : Option (Code × Reader Z.Stream) :=
  let st := allocPngData Z env header st
  if st.pngData.isNone then some (.memoryError, st)
  else
    let (result, st) := openInflate Z env st
    if result ≠ .noError then some (result, st) else pngReadIdat Z env length st

/-- `:556`. `length + 4` is computed in `unsigned`. -/
def pngProcessChunk (st : Reader Z.Stream) : Option (Code × Reader Z.Stream) :=
  let (length, file) := fileReadUl st.file
  let length := length.getD env.length
  let (type, file) := fileRead 4 file
  let st := { st with file := file }
  if type.length ≠ 4 then some (.fileError, st)
  else if type = typeIdat then pngProcessIdat Z env header length st
  else if type = typeIend then some (.done, st)
  else some (.noError, { st with file := (fileRead (length + 4#32).toNat st.file).2 })

variable {Z env header} {st st' : Reader Z.Stream} {code : Code}

theorem suffix_fileRead (n : Nat) (file : Bytes) : (fileRead n file).2 <:+ file := List.drop_suffix n file

theorem suffix_fileReadUl (file : Bytes) : (fileReadUl file).2 <:+ file := suffix_fileRead 4 file

theorem inflateResult_cases {S : Type} {r : Inflated S} {code : Code} (h : inflateResult r = some code) :
    code = .zlibError ∨ code = .noError := by
  unfold inflateResult at h
  repeat' split at h
  all_goals cases h
  all_goals simp

theorem pngInflate_file {data : Bytes} (h : pngInflate Z st data = some (code, st')) :
    st'.file = st.file := by
  unfold pngInflate at h
  split at h
  · cases h
    rfl
  · obtain ⟨pngData, -, h⟩ := Option.bind_eq_some_iff.mp h
    obtain ⟨result, -, h⟩ := Option.bind_eq_some_iff.mp h
    cases h
    rfl

theorem growReadbuf_file (length : BitVec 32) (st : Reader Z.Stream) :
    (growReadbuf Z env length st).file = st.file := by
  unfold growReadbuf
  split <;> rfl

theorem pngReadIdat_file {length : BitVec 32} (h : pngReadIdat Z env length st = some (code, st')) :
    st'.file <:+ st.file := by
  have hgrow : (growReadbuf Z env length st).file = st.file := growReadbuf_file length st
  have hread := suffix_fileRead length.toNat st.file
  have hcrc := suffix_fileReadUl (fileRead length.toNat st.file).2
  simp only [pngReadIdat, hgrow] at h
  split at h
  · cases h
    rw [hgrow]
  · split at h
    · cases h
      exact hread
    · split at h
      · cases h
        exact hcrc.trans hread
      · rw [pngInflate_file h]
        exact hcrc.trans hread

theorem allocPngData_file (st : Reader Z.Stream) : (allocPngData Z env header st).file = st.file := by
  unfold allocPngData
  split <;> rfl

theorem openInflate_file (st : Reader Z.Stream) : (openInflate Z env st).2.file = st.file := by
  simp only [openInflate, pngInitInflate]
  split
  · split <;> rfl
  · rfl

theorem pngProcessIdat_file {length : BitVec 32}
    (h : pngProcessIdat Z env header length st = some (code, st')) : st'.file <:+ st.file := by
  have halloc : (allocPngData Z env header st).file = st.file := allocPngData_file st
  have hopen : (openInflate Z env (allocPngData Z env header st)).2.file = _ := openInflate_file _
  simp only [pngProcessIdat] at h
  split at h
  · cases h
    rw [halloc]
  · split at h
    · cases h
      rw [hopen, halloc]
    · have hsuffix := pngReadIdat_file h
      rwa [hopen, halloc] at hsuffix

/-- A chunk that goes through takes its length and its type from the file, at least. -/
theorem pngProcessChunk_file (h : pngProcessChunk Z env header st = some (.noError, st')) :
    st'.file <:+ (fileRead 4 (fileReadUl st.file).2).2 ∧ (fileRead 4 (fileReadUl st.file).2).1.length = 4 := by
  simp only [pngProcessChunk] at h
  split at h
  · cases h
  · rename_i htype
    refine ⟨?_, by simpa using htype⟩
    split at h
    · exact pngProcessIdat_file h
    · split at h
      · cases h
      · cases h
        exact suffix_fileRead _ _

theorem pngProcessChunk_shrinks (h : pngProcessChunk Z env header st = some (.noError, st')) :
    st'.file.length < st.file.length := by
  obtain ⟨hsuffix, htype⟩ := pngProcessChunk_file h
  have hle := hsuffix.length_le
  simp only [fileReadUl, fileRead, List.length_take, List.length_drop] at htype hle
  omega

variable (Z env header)

/-- The loop of `png_get_data` (`:780-783`). -/
def pngProcessChunks (st : Reader Z.Stream) : Option (Code × Reader Z.Stream) :=
  match _h : pngProcessChunk Z env header st with
  | none => none
  | some (.noError, st') => pngProcessChunks st'
  | some (result, st') => some (result, st')
termination_by st.file.length
decreasing_by exact pngProcessChunk_shrinks _h

end

/-! ## Scanlines -/

/-- `out[i - stride]` for the next index `i`, and 0 in front of the line (`:606`, `:640`, `:691`). -/
def leftOf (stride : Nat) (out : Bytes) : Byte :=
  if stride ≤ out.length then out.getD (out.length - stride) 0 else 0

/-- `prev_line[i]`; there is none above the first line. -/
def aboveOf (prevLine : Option Bytes) (out : Bytes) : Byte :=
  (prevLine.getD []).getD out.length 0

/-- `prev_line[i - stride]`. -/
def aboveLeftOf (stride : Nat) (prevLine : Option Bytes) (out : Bytes) : Byte :=
  if stride ≤ out.length then (prevLine.getD []).getD (out.length - stride) 0 else 0

/-- `:650`. -/
def pngPaeth (a b c : Byte) : Byte :=
  let p : Int := a.toNat + b.toNat - c.toNat
  let pa := (p - a.toNat).natAbs
  let pb := (p - b.toNat).natAbs
  let pc := (p - c.toNat).natAbs
  if pa ≤ pb ∧ pa ≤ pc then a else if pb ≤ pc then b else c

/-- `for(i = 0; i < len; i++) out[i] = in[i] + …`, where what is added depends on `out[0..i)`. -/
def filterLoop (added : Bytes → Byte) (input : Bytes) : Bytes :=
  input.foldl (fun out x => out ++ [x + added out]) []

/-- `:599`. -/
def pngFilterSub (stride : Nat) (input : Bytes) : Bytes := filterLoop (leftOf stride) input

/-- `:613`. -/
def pngFilterUp (input : Bytes) (prevLine : Option Bytes) : Bytes :=
  match prevLine with
  | some line => filterLoop (aboveOf (some line)) input
  | none => input

/-- `:628`. -/
def pngFilterAverage (stride : Nat) (input : Bytes) (prevLine : Option Bytes) : Bytes :=
  filterLoop (fun out =>
    BitVec.ofNat 8 (((leftOf stride out).toNat + (aboveOf prevLine out).toNat) / 2)) input

/-- `:669`. -/
def pngFilterPaeth (stride : Nat) (input : Bytes) (prevLine : Option Bytes) : Bytes :=
  filterLoop (fun out =>
    pngPaeth (leftOf stride out) (aboveOf prevLine out) (aboveLeftOf stride prevLine out)) input

/-- Every two bytes change places. -/
def swapPairs : Bytes → Bytes
  | a :: b :: bytes => b :: a :: swapPairs bytes
  | bytes => bytes

/-- What a loop over `i < len` reads, `len` being an `int`. -/
def lineAt (buf : Bytes) (pos : Nat) (len : BitVec 32) : Option Bytes :=
  if len.toInt < 0 then some [] else slice buf pos len.toNat

/-- The line above `data + outpos` (`:742`), when there is one. -/
def prevLineAt (data : Bytes) (outpos row : BitVec 32) : Option (Option Bytes) :=
  if outpos = 0 then some none
  else if row.toInt < 0 then some (some [])
  else if outpos.toNat < row.toNat then none
  else (slice data (outpos.toNat - row.toNat) row.toNat).map some

/-- The `switch` of `png_unfilter` (`:733-761`): the bytes it puts at `data + outpos`. The inner `none` is
`PNG_UNKNOWN_FILTER`. -/
def unfilterLine (stride : Nat) (filter : Byte) (filtered : Bytes) (pos : Nat) (data : Bytes)
    (outpos row : BitVec 32) : Option (Option Bytes) :=
  if filter = 0 then (slice filtered pos row.toNat).map some
  else if filter = 1 then do
    return some (pngFilterSub stride (← lineAt filtered pos row))
  else if filter = 2 then do
    match ← prevLineAt data outpos row with
    | some line => return some (pngFilterUp (← lineAt filtered pos row) (some line))
    | none => if row.toInt < 0 then none else return some (pngFilterUp (← slice filtered pos row.toNat) none)
  else if filter = 3 then do
    return some (pngFilterAverage stride (← lineAt filtered pos row) (← prevLineAt data outpos row))
  else if filter = 4 then do
    return some (pngFilterPaeth stride (← lineAt filtered pos row) (← prevLineAt data outpos row))
  else some none

/-- The bytes of a 16-bit line in the order of the machine (`:725-731`). -/
def swapLine (header : Header) (filtered : Bytes) (pos : Nat) (row : BitVec 32) : Option Bytes :=
  if header.depth = 16 then do
    writeAt filtered pos (swapPairs (← slice filtered pos ((row.toNat + 1) / 2 * 2)))
  else some filtered

/-- The `while` of `png_unfilter` (`:719`), for at most `rounds` lines. -/
def unfilterLoop (header : Header) (datalen : BitVec 32) :
    Nat → BitVec 32 → BitVec 32 → Bytes → Bytes → Option (Code × Bytes)
  | rounds, pos, outpos, filtered, data =>
    if pos < datalen then
      match rounds with
      | 0 => none
      | rounds + 1 => do
        let stride := pngGetBpp header
        let row := header.width * stride.zeroExtend 32
        let filter ← filtered[pos.toNat]?
        let pos := pos + 1
        let filtered ← swapLine header filtered pos.toNat row
        match ← unfilterLine stride.toNat filter filtered pos.toNat data outpos row with
        | none => return (.unknownFilter, data)
        | some line =>
          let data ← writeAt data outpos.toNat line
          unfilterLoop header datalen rounds (pos + row) (outpos + row) filtered data
    else some (.noError, data)

/-- `:710`. There are as many lines as the image has rows. -/
def pngUnfilter (header : Header) (datalen : BitVec 32) (filtered data : Bytes) :
    Option (Code × Bytes) :=
  unfilterLoop header datalen header.height.toNat 0 0 filtered data

/-- `:770`, into the buffer `data`. `png_end_inflate` is left out, with the message it prints when `inflateEnd` fails,
as it does behind a failed `inflateInit`. -/
def pngGetData (Z : Zlib) (env : Env) (header : Header) (calls : Nat) (file data : Bytes) :
    Option (Code × Bytes) := do
  let (result, st) ← pngProcessChunks Z env header ⟨file, calls, none, 0, none, none⟩
  if result ≠ .done then return (result, data)
  else pngUnfilter header st.pngDatalen (st.pngData.getD []) data

/-! ## Writing -/

/-- `:199`: what is written to the file. -/
def pngWriteIhdr (Z : Zlib) (header : Header) : Bytes :=
  let ihdr := typeIhdr ++ setUl header.width ++ setUl header.height ++
    [header.depth, header.colorType, 0, 0, 0]
  signature ++ setUl 13 ++ ihdr ++ setUl (Z.crc32 Z.crcInit ihdr)

/-- `:478`: the chunk is built in a buffer of `chunk_size + 4` bytes. -/
def pngWriteIdats (Z : Zlib) (env : Env) (header : Header) (calls : Nat) (data : Bytes) :
    Option Bytes := do
  let size := pngSize header
  let chunkSize := BitVec.ofNat 32 (Z.compressBound size.toNat)
  let chunk ← env.malloc calls (chunkSize + 4#32).toNat
  let chunk ← writeAt chunk 0 typeIdat
  let compressed := Z.compress (← slice data 0 size.toNat)
  let chunk ← writeAt chunk 4 compressed
  let written := compressed.length
  let crc := Z.crc32 Z.crcInit (← slice chunk 0 (written + 4))
  let chunk ← writeAt chunk (written + 4) (setUl crc)
  return setUl (BitVec.ofNat 32 written) ++ (← slice chunk 0 (written + 8)) ++
    (setUl 0 ++ typeIend ++ setUl (Z.crc32 0 typeIend))

/-- The body of the loop of `png_set_data` (`:823-824`): a filter byte 0, and the line. -/
def filterNoneLine (header : Header) (data filtered : Bytes) (k : Nat) : Option Bytes := do
  let i := BitVec.ofNat 32 k
  let start := i * header.width * (pngGetBpp header).zeroExtend 32
  let row := header.width * (pngGetBpp header).zeroExtend 32
  let filtered ← writeAt filtered (start + i).toNat [0]
  writeAt filtered (start + i + 1).toNat (← slice data start.toNat row.toNat)

/-- The loop (`:821-825`). -/
def filterNone (header : Header) (data filtered : Bytes) : Option Bytes :=
  (List.range header.height.toNat).foldlM (filterNoneLine header data) filtered

/-- `:808`: the file. The result is always `PNG_NO_ERROR`. -/
def pngSetData (Z : Zlib) (env : Env) (calls : Nat) (width height : BitVec 32) (depth colorType : Byte)
    (data : Bytes) : Option Bytes := do
  let header : Header := ⟨width, height, depth, colorType, 0, 0, 0⟩
  let filtered ← env.malloc calls (pngSize header).toNat
  let filtered ← filterNone header data filtered
  return pngWriteIhdr Z header ++ (← pngWriteIdats Z env header (calls + 1) filtered)

end CsfAssignments.Png
