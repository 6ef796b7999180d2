import Mathlib.Tactic.IntervalCases
import CsfAssignments.Png.Filter
/-!
# Chunks

A PNG file is a signature and a list of chunks: length, type, data and CRC. The reader takes the header chunk,
feeds the data of the `IDAT` chunks to zlib, skips the others, and stops at `IEND`.

What zlib is relied on for is `Zlib.Spec`. `Inflating` says how far it is: what has been inflated is at the
front of `png_data`. One chunk keeps it (`processChunk_idat`, `processChunk_other`), and so do all of them
(`processChunks_body`).
-/

namespace CsfAssignments.Png

/-- What zlib documents. A stream takes any pieces of its input, as long as there is room for the output. -/
structure Zlib.Spec (Z : Zlib) where
  /-- The second is a zlib stream of the first. -/
  Encodes : Bytes → Bytes → Prop
  /-- To come are this input and this output. -/
  Decoding : Z.Stream → Bytes → Bytes → Prop
  crcInit_eq : Z.crcInit = 0
  crc_append : ∀ crc a b, Z.crc32 (Z.crc32 crc a) b = Z.crc32 crc (a ++ b)
  compress_encodes : ∀ data, Encodes data (Z.compress data)
  compress_le : ∀ data, (Z.compress data).length ≤ Z.compressBound data.length
  encodes_ne_nil : ∀ data, ¬Encodes data []
  start : ∀ {s data comp}, Z.inflateInit = some s → Encodes data comp → Decoding s comp data
  feed : ∀ {s piece comp data avail}, Decoding s (piece ++ comp) data → piece ≠ [] →
    data.length ≤ avail → (Z.inflate s piece avail).ok = true ∧ (Z.inflate s piece avail).availIn = 0 ∧
      ∃ rest, data = (Z.inflate s piece avail).out ++ rest ∧
        Decoding (Z.inflate s piece avail).stream comp rest
  finish : ∀ {s data}, Decoding s [] data → data = []

/-- `malloc` and `inflateInit` do not fail, and a buffer has the size asked for. -/
structure Env.Allocates (env : Env) (Z : Zlib) : Prop where
  malloc : ∀ k n, ∃ buf, env.malloc k n = some buf ∧ buf.length = n
  inflateInit : ∃ s, Z.inflateInit = some s

/-! ## Big-endian words -/

@[simp] theorem length_setUl (n : BitVec 32) : (setUl n).length = 4 := rfl

theorem getUl_setUl (n : BitVec 32) (rest : Bytes) : getUl (setUl n ++ rest) = n := by
  apply BitVec.eq_of_getLsbD_eq
  intro i hi
  interval_cases i <;> simp [getUl, setUl]

theorem getUl_setUl_self (n : BitVec 32) : getUl (setUl n) = n := by
  simpa using getUl_setUl n []

theorem setUl_getUl (a b c d : Byte) : setUl (getUl [a, b, c, d]) = [a, b, c, d] := by
  have hword : ∀ k, k ≤ 24 → ∀ e : Byte, (∀ i < 8, (getUl [a, b, c, d]).getLsbD (k + i) = e.getLsbD i) →
      (getUl [a, b, c, d] >>> k).truncate 8 = e := by
    intro k hk e he
    apply BitVec.eq_of_getLsbD_eq
    intro i hi
    simp [hi, he i hi]
  have h0 : (getUl [a, b, c, d]).truncate 8 = d := by
    apply BitVec.eq_of_getLsbD_eq
    intro i hi
    interval_cases i <;> simp [getUl]
  rw [setUl, hword 24 (by omega) a, hword 16 (by omega) b, hword 8 (by omega) c, h0]
  all_goals
    intro i hi
    interval_cases i <;> simp [getUl]

theorem fileRead_append {n : Nat} {a : Bytes} (h : a.length = n) (rest : Bytes) :
    fileRead n (a ++ rest) = (a, rest) := by
  rw [fileRead, List.take_left' h, List.drop_left' h]

theorem fileReadUl_setUl (n : BitVec 32) (rest : Bytes) : fileReadUl (setUl n ++ rest) = (some n, rest) := by
  rw [fileReadUl, fileRead_append (length_setUl n)]
  simp [getUl_setUl_self]

/-! ## Chunks -/

inductive Chunk where
  | idat (data : Bytes)
  | other (type data crc : Bytes)
deriving DecidableEq, Repr

namespace Chunk

/-- A chunk that may stand between the header and `IEND`. The CRC of an unknown chunk is not looked at. -/
def Legal : Chunk → Prop
  | idat data => data ≠ [] ∧ data.length < 2 ^ 32
  | other type data crc =>
    type.length = 4 ∧ type ≠ typeIdat ∧ type ≠ typeIend ∧ data.length + 4 < 2 ^ 32 ∧ crc.length = 4

/-- What a chunk adds to the zlib stream. -/
def piece : Chunk → Bytes
  | idat data => data
  | other _ _ _ => []

def render (Z : Zlib) : Chunk → Bytes
  | idat data =>
    setUl (BitVec.ofNat 32 data.length) ++ typeIdat ++ data ++ setUl (Z.crc32 Z.crcInit (typeIdat ++ data))
  | other type data crc => setUl (BitVec.ofNat 32 data.length) ++ type ++ data ++ crc

end Chunk

section
variable {Z : Zlib} {env : Env} {header : Header} {st : Reader Z.Stream} {rest : Bytes}

/-- The length and the type in front of a chunk. -/
theorem processChunk_eq {n : BitVec 32} {type : Bytes} (htype : type.length = 4)
    (hfile : st.file = setUl n ++ (type ++ rest)) :
    pngProcessChunk Z env header st =
      if type = typeIdat then pngProcessIdat Z env header n { st with file := rest }
      else if type = typeIend then some (.done, { st with file := rest })
      else some (.noError, { st with file := rest.drop (n + 4#32).toNat }) := by
  simp only [pngProcessChunk, hfile, fileReadUl_setUl, fileRead_append htype, Option.getD_some]
  rw [if_neg (by simp [htype])]
  rfl

/-- An unknown chunk is skipped. -/
theorem processChunk_other {type data crc : Bytes} (hlegal : (Chunk.other type data crc).Legal)
    (hfile : st.file = (Chunk.other type data crc).render Z ++ rest) :
    pngProcessChunk Z env header st = some (.noError, { st with file := rest }) := by
  obtain ⟨htype, hidat, hiend, hlen, hcrc⟩ := hlegal
  have hskip : (BitVec.ofNat 32 data.length + 4#32).toNat = (data ++ crc).length := by
    rw [BitVec.toNat_add, BitVec.toNat_ofNat, BitVec.toNat_ofNat, List.length_append, hcrc]
    omega
  have hfile' : st.file = setUl (BitVec.ofNat 32 data.length) ++ (type ++ ((data ++ crc) ++ rest)) := by
    rw [hfile, Chunk.render]
    simp only [List.append_assoc]
  rw [processChunk_eq htype hfile', if_neg hidat, if_neg hiend, hskip, List.drop_left]

theorem processChunk_iend {n : BitVec 32} (hfile : st.file = setUl n ++ (typeIend ++ rest)) :
    pngProcessChunk Z env header st = some (.done, { st with file := rest }) := by
  rw [processChunk_eq rfl hfile, if_neg (by decide), if_pos rfl]

end

/-! ## Inflating -/

variable {Z : Zlib} {env : Env} {header : Header}

/-- The stream is open: the first `n` bytes of `png_data` are inflated, and `rest` is still to come. -/
structure Opened (spec : Z.Spec) (header : Header) (data comp : Bytes) (st : Reader Z.Stream)
    (s : Z.Stream) (n : Nat) (buf rest : Bytes) : Prop where
  zs : st.zs = some ⟨s, n, (pngSize header).toNat - n⟩
  datalen : st.pngDatalen = pngSize header
  pngData : st.pngData = some buf
  length : buf.length = (pngSize header).toNat
  decoding : spec.Decoding s comp rest
  split : buf.take n ++ rest = data
  le : n ≤ (pngSize header).toNat

/-- `data` is being inflated, and `comp` is what has not been read of its zlib stream. -/
def Inflating (spec : Z.Spec) (header : Header) (data comp : Bytes) (st : Reader Z.Stream) : Prop :=
  (st.zs = none ∧ st.pngData = none ∧ spec.Encodes data comp) ∨
    ∃ s n buf rest, Opened spec header data comp st s n buf rest

variable {spec : Z.Spec} {data comp piece : Bytes} {st st' : Reader Z.Stream}

theorem Opened.congr {s : Z.Stream} {n : Nat} {buf rest : Bytes}
    (h : Opened spec header data comp st s n buf rest) (hzs : st'.zs = st.zs)
    (hlen : st'.pngDatalen = st.pngDatalen) (hdata : st'.pngData = st.pngData) :
    Opened spec header data comp st' s n buf rest :=
  ⟨hzs.trans h.zs, hlen.trans h.datalen, hdata.trans h.pngData, h.length, h.decoding, h.split, h.le⟩

/-- Where the file is read does not matter. -/
theorem Inflating.seek (h : Inflating spec header data comp st) (file : Bytes) :
    Inflating spec header data comp { st with file := file } := by
  rcases h with h | ⟨s, n, buf, rest, h⟩
  · exact .inl h
  · exact .inr ⟨s, n, buf, rest, h.congr rfl rfl rfl⟩

/-- The first `IDAT` opens the stream. -/
theorem Inflating.open (h : Inflating spec header data comp st) (henv : env.Allocates Z) :
    (allocPngData Z env header st).pngData.isNone = false ∧
      ∃ st' s n buf rest, openInflate Z env (allocPngData Z env header st) = (.noError, st') ∧
        st'.file = st.file ∧ Opened spec header data comp st' s n buf rest := by
  rcases h with ⟨hzs, hdata, hencodes⟩ | ⟨s, n, buf, rest, hopen⟩
  · obtain ⟨buf, hbuf, hlen⟩ := henv.malloc st.calls (pngSize header).toNat
    obtain ⟨block, hblock, -⟩ := henv.malloc (st.calls + 1) 112
    obtain ⟨s, hs⟩ := henv.inflateInit
    have halloc : allocPngData Z env header st =
        { st with pngDatalen := pngSize header, pngData := some buf, calls := st.calls + 1 } := by
      rw [allocPngData, if_pos (by simp [hdata]), hbuf]
    rw [halloc]
    refine ⟨rfl, { st with
      calls := st.calls + 1 + 1
      zs := some ⟨s, 0, (pngSize header).toNat⟩
      pngDatalen := pngSize header
      pngData := some buf }, s, 0, buf, data, ?_, rfl, ?_⟩
    · rw [openInflate, if_pos (by simp [hzs])]
      simp only [pngInitInflate, hblock, hs]
    · exact ⟨rfl, rfl, rfl, hlen, spec.start hs hencodes, rfl, Nat.zero_le _⟩
  · have halloc : allocPngData Z env header st = st := by
      rw [allocPngData, if_neg (by simp [hopen.pngData])]
    rw [halloc]
    refine ⟨by simp [hopen.pngData], st, s, n, buf, rest, ?_, rfl, hopen⟩
    rw [openInflate, if_neg (by simp [hopen.zs])]

/-- **One piece** of the stream is inflated behind what is there. -/
theorem Opened.inflate {s : Z.Stream} {n : Nat} {buf rest : Bytes}
    (h : Opened spec header data (piece ++ comp) st s n buf rest) (hpiece : piece ≠ [])
    (hfit : data.length ≤ (pngSize header).toNat) :
    ∃ st', pngInflate Z st piece = some (.noError, st') ∧ st'.file = st.file ∧
      Inflating spec header data comp st' := by
  have hn : (buf.take n).length = n := by
    rw [List.length_take, h.length]
    exact Nat.min_eq_left h.le
  have htotal := congrArg List.length h.split
  rw [List.length_append, hn] at htotal
  have hroom : rest.length ≤ (pngSize header).toNat - n := by omega
  obtain ⟨hok, hin, rest', hsplit, hdecoding⟩ := spec.feed h.decoding hpiece hroom
  generalize hr : Z.inflate s piece ((pngSize header).toNat - n) = r at hok hin hsplit hdecoding
  have hout : n + r.out.length ≤ (pngSize header).toNat := by
    have := congrArg List.length hsplit
    simp only [List.length_append] at this
    omega
  have hwrite : writeAt buf n r.out = some (buf.take n ++ r.out ++ buf.drop (n + r.out.length)) :=
    writeAt_of_le (hout.trans_eq h.length.symm)
  have hbuf : (buf.take n ++ r.out).length = n + r.out.length := by rw [List.length_append, hn]
  refine ⟨{ st with
    zs := some ⟨r.stream, n + r.out.length, (pngSize header).toNat - n - r.out.length⟩
    pngData := some (buf.take n ++ r.out ++ buf.drop (n + r.out.length)) }, ?_, rfl,
    .inr ⟨r.stream, n + r.out.length, buf.take n ++ r.out ++ buf.drop (n + r.out.length), rest', ?_⟩⟩
  · have hresult : inflateResult r = some .noError := by simp [inflateResult, hok, hin]
    simp only [pngInflate, h.zs, h.pngData, Option.getD_some, hr, hwrite, hresult]
    rfl
  · refine ⟨?_, h.datalen, rfl, ?_, hdecoding, ?_, hout⟩
    · simp only [Nat.sub_sub]
    · rw [List.length_append, hbuf, List.length_drop, h.length]
      omega
    · rw [List.take_left' hbuf, List.append_assoc, ← hsplit, h.split]

/-- **An `IDAT` chunk** moves its data from the file to zlib. -/
theorem processChunk_idat {rest : Bytes} (henv : env.Allocates Z)
    (h : Inflating spec header data (piece ++ comp) st) (hlegal : (Chunk.idat piece).Legal)
    (hfit : data.length ≤ (pngSize header).toNat)
    (hfile : st.file = (Chunk.idat piece).render Z ++ rest) :
    ∃ st', pngProcessChunk Z env header st = some (.noError, st') ∧ st'.file = rest ∧
      Inflating spec header data comp st' := by
  obtain ⟨hpiece, hlen⟩ := hlegal
  have hcrc : Z.crc32 (Z.crc32 Z.crcInit typeIdat) piece = Z.crc32 Z.crcInit (typeIdat ++ piece) :=
    spec.crc_append ..
  generalize hword : Z.crc32 Z.crcInit (typeIdat ++ piece) = word at hcrc
  have hlength : (BitVec.ofNat 32 piece.length).toNat = piece.length := by
    rw [BitVec.toNat_ofNat, Nat.mod_eq_of_lt hlen]
  have hfile' : st.file = setUl (BitVec.ofNat 32 piece.length) ++
      (typeIdat ++ (piece ++ (setUl word ++ rest))) := by
    rw [hfile, Chunk.render, hword]
    simp only [List.append_assoc]
  -- the buffers first, then the data and its CRC
  obtain ⟨halloc, st₁, s, n, buf, tail, hopen, hsame, hopened⟩ :=
    (h.seek (piece ++ (setUl word ++ rest))).open henv
  have hread : ∃ st₂ : Reader Z.Stream, pngReadIdat Z env (BitVec.ofNat 32 piece.length) st₁ =
      pngInflate Z st₂ piece ∧ st₂.file = rest ∧
        Opened spec header data (piece ++ comp) st₂ s n buf tail := by
    have hgrow : ∃ st₂ : Reader Z.Stream,
        growReadbuf Z env (BitVec.ofNat 32 piece.length) st₁ = st₂ ∧ st₂.readbuf.isNone = false ∧
          st₂.file = st₁.file ∧ Opened spec header data (piece ++ comp) st₂ s n buf tail := by
      unfold growReadbuf
      split
      · obtain ⟨block, hblock, -⟩ := henv.malloc st₁.calls (BitVec.ofNat 32 piece.length).toNat
        exact ⟨_, rfl, by rw [hblock]; rfl, rfl, hopened.congr rfl rfl rfl⟩
      · rename_i hlarge
        refine ⟨st₁, rfl, ?_, rfl, hopened⟩
        cases hbuf : st₁.readbuf with
        | none => simp [hbuf] at hlarge
        | some k => rfl
    obtain ⟨st₂, hgrow, hsome, hfile₂, hopened₂⟩ := hgrow
    refine ⟨{ st₂ with file := rest }, ?_, rfl, hopened₂.congr rfl rfl rfl⟩
    simp only [pngReadIdat, hgrow, hsome, hfile₂, hsame, hlength, fileRead_append rfl, fileReadUl_setUl,
      hcrc, Option.getD_some, ne_eq, not_true, if_false, Bool.false_eq_true]
  obtain ⟨st₂, hread, hfile₂, hopened₂⟩ := hread
  obtain ⟨st', hinflate, hfile'', hinflating⟩ := hopened₂.inflate hpiece hfit
  refine ⟨st', ?_, hfile''.trans hfile₂, hinflating⟩
  rw [processChunk_eq rfl hfile', if_pos rfl]
  simp only [pngProcessIdat, halloc, hopen, hread, hinflate, ne_eq, not_true, if_false,
    Bool.false_eq_true]

/-! ## The body of a file -/

/-- The zlib stream that the `IDAT` chunks of a body make up. -/
def pieces (body : List Chunk) : Bytes := body.flatMap Chunk.piece

theorem processChunks_step (h : pngProcessChunk Z env header st = some (.noError, st')) :
    pngProcessChunks Z env header st = pngProcessChunks Z env header st' := by
  rw [pngProcessChunks, h]

theorem processChunks_stop {code : Code} (h : pngProcessChunk Z env header st = some (code, st'))
    (hcode : code ≠ .noError) : pngProcessChunks Z env header st = some (code, st') := by
  rw [pngProcessChunks, h]
  cases code <;> first | rfl | exact absurd rfl hcode

/-- **All chunks** of a body, in any order: the loop gets to `IEND`, and all of the stream is read. -/
theorem processChunks_body {body : List Chunk} {trailer : Bytes} {n : BitVec 32}
    (henv : env.Allocates Z) (h : Inflating spec header data (pieces body ++ comp) st)
    (hbody : ∀ chunk ∈ body, chunk.Legal) (hfit : data.length ≤ (pngSize header).toNat)
    (hfile : st.file = body.flatMap (Chunk.render Z) ++ (setUl n ++ (typeIend ++ trailer))) :
    ∃ st', pngProcessChunks Z env header st = some (.done, st') ∧ st'.file = trailer ∧
      Inflating spec header data comp st' := by
  induction body generalizing st with
  | nil =>
    refine ⟨{ st with file := trailer }, ?_, rfl, h.seek trailer⟩
    exact processChunks_stop (processChunk_iend hfile) (by decide)
  | cons chunk body ih =>
    simp only [List.mem_cons, forall_eq_or_imp] at hbody
    rw [List.flatMap_cons, List.append_assoc] at hfile
    cases chunk with
    | idat piece =>
      rw [pieces, List.flatMap_cons, Chunk.piece, List.append_assoc] at h
      obtain ⟨st₁, hstep, hfile₁, h₁⟩ := processChunk_idat henv h hbody.1 hfit hfile
      obtain ⟨st', hrun, htrailer, h'⟩ := ih h₁ hbody.2 hfile₁
      exact ⟨st', (processChunks_step hstep).trans hrun, htrailer, h'⟩
    | other type data crc =>
      have hstep : pngProcessChunk Z env header st = _ := processChunk_other hbody.1 hfile
      obtain ⟨st', hrun, htrailer, h'⟩ := ih (h.seek _) hbody.2 rfl
      exact ⟨st', (processChunks_step hstep).trans hrun, htrailer, h'⟩

/-- At the end of the stream, the inflated bytes are at the front of `png_data`. -/
theorem Inflating.finish (h : Inflating spec header data [] st) :
    ∃ buf, st.pngData = some buf ∧ st.pngDatalen = pngSize header ∧
      buf.length = (pngSize header).toNat ∧ buf.take data.length = data := by
  rcases h with ⟨-, -, hencodes⟩ | ⟨s, n, buf, rest, hopen⟩
  · exact absurd hencodes (spec.encodes_ne_nil data)
  · have hrest := spec.finish hopen.decoding
    have hsplit := hopen.split
    rw [hrest, List.append_nil] at hsplit
    have hlen := congrArg List.length hsplit
    rw [List.length_take, hopen.length, Nat.min_eq_left hopen.le] at hlen
    exact ⟨buf, hopen.pngData, hopen.datalen, hopen.length, by rw [← hlen, hsplit]⟩

/-- **Reading the data** of a body whose stream encodes an image. -/
theorem pngGetData_body {body : List Chunk} {trailer buffer : Bytes} {n : BitVec 32} {calls : Nat}
    {lines : List (Filter × Bytes)} (henv : env.Allocates Z) (h : header.Sampled)
    (hheight : lines.length = header.height.toNat)
    (hlines : ∀ l ∈ lines, l.2.length = header.lineBytes.toNat)
    (hsmall : lines ≠ [] → header.lineBytes.toNat < 2 ^ 31)
    (hsize : lines.length * (header.lineBytes.toNat + 1) = (pngSize header).toNat)
    (hroom : lines.length * header.lineBytes.toNat ≤ buffer.length)
    (hbody : ∀ chunk ∈ body, chunk.Legal)
    (hencodes : spec.Encodes (filteredLines (pngGetBpp header).toNat none lines) (pieces body)) :
    pngGetData Z env header calls
        (body.flatMap (Chunk.render Z) ++ (setUl n ++ (typeIend ++ trailer))) buffer =
      some (.noError, (lines.map fun l => header.machine l.2).flatten ++
        buffer.drop (lines.length * header.lineBytes.toNat)) := by
  have hlen : (filteredLines (pngGetBpp header).toNat none lines).length = (pngSize header).toNat := by
    rw [length_filteredLines hlines, hsize]
  have hstart : Inflating spec header (filteredLines (pngGetBpp header).toNat none lines)
      (pieces body ++ []) ⟨body.flatMap (Chunk.render Z) ++ (setUl n ++ (typeIend ++ trailer)),
        calls, none, 0, none, none⟩ := by
    rw [List.append_nil]
    exact .inl ⟨rfl, rfl, hencodes⟩
  obtain ⟨st', hrun, -, hend⟩ := processChunks_body henv hstart hbody (Nat.le_of_eq hlen) rfl
  obtain ⟨buf, hdata, hdatalen, hbuf, htake⟩ := hend.finish
  rw [hlen, ← hbuf, List.take_length] at htake
  rw [pngGetData, hrun]
  change pngUnfilter header st'.pngDatalen (st'.pngData.getD []) buffer = _
  rw [hdata, hdatalen, Option.getD_some, htake]
  exact unfilter_filtered h hheight hlines hsmall hsize hroom

end CsfAssignments.Png
