import CsfAssignments.Png.Read
/-!
# Files that are cut short

The reader never looks at what is behind the type of `IEND`, and it needs all that is in front. What it
accepts, it accepts with any bytes behind it (`pngProcessChunks_more`, `imgRead_more`); so a file cut off in
front of that point is not accepted (`imgRead_take`). Neither depends on what the two variables hold that a
failed `file_read_ul` does not set: a file that ends there is rejected by the next `file_read`.
-/

namespace CsfAssignments.Png

open Imgproc

/-- More bytes behind what is left of the file. -/
def Reader.more {S : Type} (st : Reader S) (q : Bytes) : Reader S := { st with file := st.file ++ q }

variable {Z : Zlib} {env env' : Env} {header : Header} {st st' : Reader Z.Stream} {q : Bytes}

theorem fileRead_more {n : Nat} {file : Bytes} (h : n ≤ file.length) (q : Bytes) :
    fileRead n (file ++ q) = ((fileRead n file).1, (fileRead n file).2 ++ q) := by
  rw [fileRead, List.take_append_of_le_length h, List.drop_append_of_le_length h]
  rfl

theorem fileReadUl_of_lt {file : Bytes} (h : file.length < 4) : fileReadUl file = (none, []) := by
  rw [fileReadUl, fileRead]
  simp [Nat.le_of_lt h, Nat.ne_of_lt h]

/-- Four bytes are a word. -/
theorem exists_setUl {file : Bytes} (h : 4 ≤ file.length) : ∃ n rest, file = setUl n ++ rest := by
  match file, h with
  | a :: b :: c :: d :: rest, _ => exact ⟨getUl [a, b, c, d], rest, by rw [setUl_getUl]; rfl⟩

/-- The length and the type of a chunk. -/
theorem exists_length_type {file : Bytes} (h : 8 ≤ file.length) :
    ∃ n type rest, type.length = 4 ∧ file = setUl n ++ (type ++ rest) := by
  obtain ⟨n, rest, rfl⟩ := exists_setUl (show 4 ≤ file.length by omega)
  rw [List.length_append, length_setUl] at h
  exact ⟨n, rest.take 4, rest.drop 4, by simp; omega, by rw [List.take_append_drop]⟩

/-! ## One chunk -/

theorem pngInflate_more (data q : Bytes) :
    pngInflate Z (st.more q) data = (pngInflate Z st data).map fun r => (r.1, r.2.more q) := by
  unfold pngInflate
  cases hzs : st.zs with
  | none => simp [Reader.more, hzs]
  | some zs =>
    simp only [Reader.more, hzs]
    cases writeAt (st.pngData.getD []) zs.nextOut (Z.inflate zs.stream data zs.availOut).out with
    | none => rfl
    | some pngData => cases inflateResult (Z.inflate zs.stream data zs.availOut) <;> rfl

section
variable (hmalloc : env'.malloc = env.malloc)
include hmalloc

theorem growReadbuf_more (length : BitVec 32) :
    growReadbuf Z env' length (st.more q) = (growReadbuf Z env length st).more q := by
  simp only [growReadbuf, Reader.more, hmalloc]
  split <;> rfl

theorem allocPngData_more :
    allocPngData Z env' header (st.more q) = (allocPngData Z env header st).more q := by
  simp only [allocPngData, Reader.more, hmalloc]
  split <;> rfl

theorem openInflate_more :
    openInflate Z env' (st.more q) = ((openInflate Z env st).1, (openInflate Z env st).2.more q) := by
  simp only [openInflate, pngInitInflate, Reader.more, hmalloc]
  split
  · split <;> rfl
  · rfl

theorem pngReadIdat_more {length : BitVec 32} (h : pngReadIdat Z env length st = some (.noError, st'))
    (hne : st'.file ≠ []) : pngReadIdat Z env' length (st.more q) = some (.noError, st'.more q) := by
  have hgrow : growReadbuf Z env' length (st.more q) = (growReadbuf Z env length st).more q :=
    growReadbuf_more hmalloc length
  simp only [pngReadIdat, hgrow] at h ⊢
  generalize growReadbuf Z env length st = st₁ at h ⊢
  change (if st₁.readbuf.isNone then _ else _) = _
  split at h
  · cases h
  · rename_i hbuf
    rw [if_neg hbuf]
    split at h
    · cases h
    · rename_i hlen
      have hle : length.toNat ≤ st₁.file.length := by
        by_contra hlt
        exact hlen (by simp [fileRead]; omega)
      have hread := fileRead_more hle q
      generalize fileRead length.toNat st₁.file = r at h hlen hread
      obtain ⟨buf, file⟩ := r
      simp only at h hlen hread
      have hfile : 4 ≤ file.length := by
        by_contra hshort
        rw [fileReadUl_of_lt (by omega)] at h
        split at h
        · cases h
        · exact hne (pngInflate_file h)
      obtain ⟨crc, rest, rfl⟩ := exists_setUl hfile
      simp only [fileReadUl_setUl, Option.getD_some] at h
      simp only [Reader.more, hread, if_neg hlen, List.append_assoc, fileReadUl_setUl, Option.getD_some]
      split at h
      · cases h
      · rename_i hsame
        rw [if_neg hsame]
        exact (pngInflate_more buf q).trans (congrArg (Option.map _) h)

theorem pngProcessIdat_more {length : BitVec 32}
    (h : pngProcessIdat Z env header length st = some (.noError, st')) (hne : st'.file ≠ []) :
    pngProcessIdat Z env' header length (st.more q) = some (.noError, st'.more q) := by
  simp only [pngProcessIdat, allocPngData_more hmalloc, openInflate_more hmalloc] at h ⊢
  generalize allocPngData Z env header st = st₁ at h ⊢
  change (if st₁.pngData.isNone then _ else _) = _
  split at h
  · cases h
  · rename_i hdata
    rw [if_neg hdata]
    split at h
    · rename_i hresult
      rw [← (Prod.mk.inj (Option.some.inj h)).1] at hresult
      exact absurd rfl hresult
    · rename_i hresult
      rw [if_neg hresult]
      exact pngReadIdat_more hmalloc h hne

omit hmalloc in
/-- Only `IEND` is the end. -/
theorem pngProcessIdat_ne_done {length : BitVec 32} {code : Code}
    (h : pngProcessIdat Z env header length st = some (code, st')) : code ≠ .done := by
  rintro rfl
  have hopen : (openInflate Z env (allocPngData Z env header st)).1 ≠ .done := by
    simp only [openInflate, pngInitInflate]
    split
    · split <;> simp
    · simp
  simp only [pngProcessIdat] at h
  split at h
  · cases h
  · split at h
    · exact hopen (Prod.mk.inj (Option.some.inj h)).1
    · simp only [pngReadIdat, pngInflate] at h
      split at h
      · cases h
      · split at h
        · cases h
        · split at h
          · cases h
          · split at h
            · cases h
            · obtain ⟨pngData, -, h⟩ := Option.bind_eq_some_iff.mp h
              obtain ⟨result, hresult, h⟩ := Option.bind_eq_some_iff.mp h
              cases h
              rcases inflateResult_cases hresult with h | h <;> cases h

/-- What a chunk does, it does with more bytes behind it. -/
theorem pngProcessChunk_more {code : Code} (h : pngProcessChunk Z env header st = some (code, st'))
    (hcode : code = .done ∨ code = .noError ∧ st'.file ≠ []) :
    pngProcessChunk Z env' header (st.more q) = some (code, st'.more q) := by
  have hle : 8 ≤ st.file.length := by
    by_contra hshort
    have htype : (fileRead 4 (fileReadUl st.file).2).1.length ≠ 4 := by
      simp only [fileRead, fileReadUl, List.length_take, List.length_drop]
      omega
    simp only [pngProcessChunk, if_pos htype] at h
    rw [← (Prod.mk.inj (Option.some.inj h)).1] at hcode
    simp at hcode
  obtain ⟨n, type, rest, htype, hfile⟩ := exists_length_type hle
  have hmore : (st.more q).file = setUl n ++ (type ++ (rest ++ q)) := by
    rw [Reader.more, hfile]
    simp only [List.append_assoc]
  rw [processChunk_eq htype hfile] at h
  rw [processChunk_eq htype hmore]
  split at h
  · rename_i hidat
    rw [if_pos hidat]
    obtain ⟨rfl, hne⟩ := hcode.resolve_left (pngProcessIdat_ne_done h)
    exact pngProcessIdat_more hmalloc h hne
  · rename_i hidat
    rw [if_neg hidat]
    split at h
    · rename_i hiend
      rw [if_pos hiend]
      cases h
      rfl
    · rename_i hiend
      rw [if_neg hiend]
      cases h
      have hskip : (n + 4#32).toNat ≤ rest.length := by
        by_contra hlt
        refine (hcode.resolve_left (by decide)).2 (List.drop_eq_nil_of_le ?_)
        omega
      rw [List.drop_append_of_le_length hskip]
      rfl

omit hmalloc in
/-- There is no end in nothing. -/
theorem pngProcessChunks_ne_nil (h : pngProcessChunks Z env header st = some (.done, st')) :
    st.file ≠ [] := by
  intro hnil
  have hchunk : ∃ st₁, pngProcessChunk Z env header st = some (.fileError, st₁) := by
    rw [pngProcessChunk, hnil]
    exact ⟨_, rfl⟩
  obtain ⟨st₁, hchunk⟩ := hchunk
  rw [processChunks_stop hchunk (by decide)] at h
  cases h

/-- **What the reader accepts, it accepts with any bytes behind it.** -/
theorem pngProcessChunks_more (h : pngProcessChunks Z env header st = some (.done, st')) :
    pngProcessChunks Z env' header (st.more q) = some (.done, st'.more q) := by
  induction st using pngProcessChunks.induct Z env header with
  | case1 st hchunk =>
    rw [pngProcessChunks, hchunk] at h
    cases h
  | case2 st st₁ hchunk ih =>
    rw [processChunks_step hchunk] at h
    have hmore := pngProcessChunk_more (q := q) hmalloc hchunk (.inr ⟨rfl, pngProcessChunks_ne_nil h⟩)
    rw [processChunks_step hmore]
    exact ih h
  | case3 st code st₁ hcode hchunk =>
    rw [processChunks_stop hchunk hcode] at h
    cases h
    exact processChunks_stop (pngProcessChunk_more hmalloc hchunk (.inl rfl)) (by decide)

omit hmalloc in
/-- The loop does not stop in between. -/
theorem pngProcessChunks_ne_noError {code : Code} (h : pngProcessChunks Z env header st = some (code, st')) :
    code ≠ .noError := by
  induction st using pngProcessChunks.induct Z env header with
  | case1 st hchunk =>
    rw [pngProcessChunks, hchunk] at h
    cases h
  | case2 st st₁ hchunk ih =>
    rw [processChunks_step hchunk] at h
    exact ih h
  | case3 st code' st₁ hcode hchunk =>
    rw [processChunks_stop hchunk hcode] at h
    cases h
    exact hcode

theorem pngGetData_more {calls : Nat} {file data data' : Bytes}
    (h : pngGetData Z env header calls file data = some (.noError, data')) :
    file ≠ [] ∧ pngGetData Z env' header calls (file ++ q) data = some (.noError, data') := by
  rw [pngGetData] at h
  obtain ⟨⟨code, st'⟩, hrun, h⟩ := Option.bind_eq_some_iff.mp h
  have hcode : code = .done := by
    by_contra hcode
    simp only [ne_eq, hcode, not_false_eq_true, if_true] at h
    exact pngProcessChunks_ne_noError hrun (Prod.mk.inj (Option.some.inj h)).1
  subst hcode
  rw [pngGetData]
  exact ⟨pngProcessChunks_ne_nil hrun,
    Option.bind_eq_some_iff.mpr ⟨_, pngProcessChunks_more (q := q) hmalloc hrun, h⟩⟩

/-! ## The whole file -/

omit hmalloc in
theorem pngReadIhdr_more {file rest : Bytes} (h : pngReadIhdr Z env file = .ok (header, rest))
    (hne : rest ≠ []) : pngReadIhdr Z env' (file ++ q) = .ok (header, rest ++ q) := by
  have hlength : 4 ≤ file.length := by
    by_contra hshort
    rw [pngReadIhdr, fileReadUl_of_lt (by omega)] at h
    simp only [fileRead] at h
    split at h
    · cases h
    · cases h
  obtain ⟨n, file, rfl⟩ := exists_setUl hlength
  have hihdr : (fileRead 17 file).1.length = 17 := by
    by_contra hshort
    simp only [pngReadIhdr, fileReadUl_setUl, if_pos hshort] at h
    split at h <;> cases h
  have hread : fileRead 17 (file ++ q) = _ := fileRead_more (by simp [fileRead] at hihdr; omega) q
  simp only [pngReadIhdr, fileReadUl_setUl, List.append_assoc, hread, hihdr, Option.getD_some] at h ⊢
  generalize fileRead 17 file = r at h ⊢
  obtain ⟨ihdr, file⟩ := r
  have hcrc : 4 ≤ file.length := by
    by_contra hshort
    simp only [fileReadUl_of_lt (show file.length < 4 by omega)] at h
    repeat' split at h
    all_goals cases h
    exact hne rfl
  obtain ⟨crc, file, rfl⟩ := exists_setUl hcrc
  simp only [fileReadUl_setUl, List.append_assoc, Option.getD_some] at h ⊢
  split at h
  · cases h
  · split at h
    · cases h
    · split at h
      · cases h
      · split at h
        · cases h
        · split at h
          · cases h
          · split at h
            · cases h
            · rename_i h13 hlen hsum hindexed hdepth hinterlace
              cases h
              rw [if_neg h13, if_neg hlen, if_neg hsum, if_neg hindexed, if_neg hdepth,
                if_neg hinterlace]

omit hmalloc in
theorem pngOpenRead_more {file rest : Bytes} (h : pngOpenRead Z env file = .ok (header, rest))
    (hne : rest ≠ []) : pngOpenRead Z env' (file ++ q) = .ok (header, rest ++ q) := by
  have hlen : (fileRead 8 file).1.length = 8 := by
    by_contra hshort
    rw [pngOpenRead] at h
    simp only [if_pos hshort] at h
    cases h
  have hread : fileRead 8 (file ++ q) = _ := fileRead_more (by simp [fileRead] at hlen; omega) q
  simp only [pngOpenRead, hread, hlen] at h ⊢
  split at h
  · cases h
  · split at h
    · cases h
    · rename_i h8 hsignature
      rw [if_neg h8, if_neg hsignature]
      exact pngReadIhdr_more h hne

/-- **An image that is read, is read with any bytes behind it.** -/
theorem imgRead_more {file : Bytes} {img img' out : Image}
    (h : imgRead Z env (some file) img = some (imgSuccess, out)) :
    imgRead Z env' (some (file ++ q)) img' = some (imgSuccess, out) := by
  rw [imgRead] at h
  split at h
  · cases h
  · rename_i header rest hopen
    -- the header goes through as soon as there is data
    have hheader : rest ≠ [] → pngOpenFileRead Z env' (some (file ++ q)) = .ok (header, rest ++ q) :=
      fun hne => pngOpenRead_more hopen hne
    split at h
    · cases h
    · rename_i hcolor
      split at h
      · rename_i hrgb
        obtain ⟨⟨code, raw⟩, hdata, h⟩ := Option.bind_eq_some_iff.mp h
        by_cases hcode : code = .noError
        · subst hcode
          obtain ⟨hne, hdata⟩ := pngGetData_more (q := q) hmalloc hdata
          rw [imgRead, hheader hne]
          simp only [if_neg hcolor, if_pos hrgb, hmalloc]
          exact Option.bind_eq_some_iff.mpr ⟨_, hdata, h⟩
        · simp only [ne_eq, hcode, not_false_eq_true, if_true] at h
          cases h
      · rename_i hrgba
        obtain ⟨⟨code, pixelData⟩, hdata, h⟩ := Option.bind_eq_some_iff.mp h
        by_cases hcode : code = .noError
        · subst hcode
          obtain ⟨hne, hdata⟩ := pngGetData_more (q := q) hmalloc hdata
          rw [imgRead, hheader hne]
          simp only [if_neg hcolor, if_neg hrgba, hmalloc]
          exact Option.bind_eq_some_iff.mpr ⟨_, hdata, h⟩
        · simp only [ne_eq, hcode, not_false_eq_true, if_true] at h
          cases h

end

/-- Bytes behind the end, and variables that hold what a header would have. -/
theorem imgRead_more_sampleFile :
    imgRead literalZlib { zeros with length := 13#32, origCrc := 1#32 }
        (some (sampleFile.render literalZlib ++ [1, 2, 3])) ⟨1, 1, [0]⟩ =
      some (imgSuccess, sampleFile.image) :=
  have hmalloc : ({ zeros with length := 13#32, origCrc := 1#32 } : Env).malloc = zeros.malloc := rfl
  imgRead_more hmalloc imgRead_sampleFile

/-- What reading an image takes. -/
theorem imgRead_accepted {file : Bytes} {img out : Image}
    (h : imgRead Z env (some file) img = some (imgSuccess, out)) :
    ∃ header rest calls st', pngOpenRead Z env file = .ok (header, rest) ∧
      pngProcessChunks Z env header ⟨rest, calls, none, 0, none, none⟩ = some (.done, st') := by
  have hchunks : ∀ {header : Header} {calls : Nat} {rest data : Bytes} {code : Code} {data' : Bytes},
      pngGetData Z env header calls rest data = some (code, data') → code = .noError →
      ∃ st', pngProcessChunks Z env header ⟨rest, calls, none, 0, none, none⟩ = some (.done, st') := by
    rintro header calls rest data code data' hdata rfl
    rw [pngGetData] at hdata
    obtain ⟨⟨code, st'⟩, hrun, hdata⟩ := Option.bind_eq_some_iff.mp hdata
    by_cases hcode : code = .done
    · exact ⟨st', hcode ▸ hrun⟩
    · simp only [ne_eq, hcode, not_false_eq_true, if_true] at hdata
      exact absurd (Prod.mk.inj (Option.some.inj hdata)).1 (pngProcessChunks_ne_noError hrun)
  rw [imgRead] at h
  split at h
  · cases h
  · rename_i header rest hopen
    split at h
    · cases h
    · split at h
      all_goals
        obtain ⟨⟨code, data'⟩, hdata, h⟩ := Option.bind_eq_some_iff.mp h
        by_cases hcode : code = .noError
        · obtain ⟨st', hrun⟩ := hchunks hdata hcode
          exact ⟨header, rest, _, st', hopen, hrun⟩
        · simp only [ne_eq, hcode, not_false_eq_true, if_true] at h
          cases h

variable {spec : Z.Spec} {file : File}

/-- The file with other bytes behind the type of `IEND`. -/
def File.ending (file : File) (trailer : Bytes) : File := { file with trailer := trailer }

theorem File.WellFormed.ending (hwf : file.WellFormed spec) (trailer : Bytes) :
    (file.ending trailer).WellFormed spec :=
  ⟨hwf.color, hwf.depth, hwf.interlace, hwf.height, hwf.lines, hwf.size, hwf.body, hwf.stream⟩

theorem render_ending (file : File) (trailer : Bytes) :
    (file.ending trailer).render Z = (file.ending []).render Z ++ trailer := by
  simp only [File.render, File.rest, File.ending, List.append_assoc, List.append_nil]

/-- Nothing in front of the type of `IEND` is the end. -/
theorem render_needed (henv : env.Allocates Z) (hwf : file.WellFormed spec) {p : Bytes} {img out : Image}
    (h : imgRead Z env (some p) img = some (imgSuccess, out))
    (hp : p ++ q = (file.ending []).render Z) : q = [] := by
  obtain ⟨header, rest, calls, st', hopen, hrun⟩ := imgRead_accepted h
  have hmore : pngOpenRead Z env (p ++ q) = .ok (header, rest ++ q) :=
    pngOpenRead_more hopen (pngProcessChunks_ne_nil hrun)
  have hfile : pngOpenRead Z env ((file.ending []).render Z) =
      .ok (file.header, (file.ending []).rest Z) :=
    pngOpenRead_render (file.ending [])
      (by rw [File.ending]; rcases hwf.color with h | h <;> rw [h] <;> decide) (.inl hwf.depth) hwf.interlace
  rw [hp, hfile] at hmore
  obtain ⟨rfl, hrest⟩ := Prod.mk.inj (Except.ok.inj hmore)
  have hstart : Inflating spec file.header (filteredLines (pngGetBpp file.header).toNat none file.lines)
      (pieces file.body ++ []) ⟨(file.ending []).rest Z, calls, none, 0, none, none⟩ := by
    rw [List.append_nil]
    exact .inl ⟨rfl, rfl, hwf.stream⟩
  obtain ⟨-, hlines, hsize, -⟩ := hwf.sizes
  obtain ⟨st, hbody, hend, -⟩ := processChunks_body henv hstart hwf.body
    (Nat.le_of_eq ((length_filteredLines hlines).trans hsize)) rfl
  have hrun' := pngProcessChunks_more (q := q) rfl hrun
  rw [Reader.more, ← hrest, hbody] at hrun'
  have hst := congrArg Reader.file (Prod.mk.inj (Option.some.inj hrun')).2
  rw [hend] at hst
  exact (List.append_eq_nil_iff.mp hst.symm).2

/-- **A well-formed file**, or the first `n` bytes of one: it is read if and only if the type of `IEND` is
there, and then as the image of its lines. -/
theorem imgRead_take (henv : env.Allocates Z) (hwf : file.WellFormed spec) (img : Image) (n : Nat)
    (out : Image) :
    imgRead Z env (some ((file.render Z).take n)) img = some (imgSuccess, out) ↔
      (file.render Z).length - file.trailer.length ≤ n ∧ out = file.image := by
  have hsplit : file.render Z = (file.ending []).render Z ++ file.trailer :=
    render_ending file file.trailer
  have hlen : (file.render Z).length - file.trailer.length = ((file.ending []).render Z).length := by
    rw [hsplit, List.length_append]
    omega
  have hwhole : ((file.ending []).render Z).length ≤ n →
      imgRead Z env (some (((file.ending []).render Z ++ file.trailer).take n)) img =
        some (imgSuccess, file.image) := by
    intro hle
    rw [List.take_append, List.take_of_length_le hle, ← render_ending]
    exact imgRead_render henv (hwf.ending _) img
  rw [hlen, hsplit]
  constructor
  · intro hread
    have hle : ((file.ending []).render Z).length ≤ n := by
      by_contra hlt
      rw [List.take_append_of_le_length (by omega)] at hread
      have hnil := render_needed henv hwf hread (List.take_append_drop n _)
      rw [List.drop_eq_nil_iff] at hnil
      exact hlt hnil
    rw [hwhole hle] at hread
    exact ⟨hle, (Prod.mk.inj (Option.some.inj hread)).2.symm⟩
  · rintro ⟨hle, rfl⟩
    exact hwhole hle

theorem imgRead_take_sampleFile :
    imgRead literalZlib zeros (some ((sampleFile.render literalZlib).take 1000)) ⟨0, 0, []⟩ =
        some (imgSuccess, sampleFile.image) ↔
      (sampleFile.render literalZlib).length - sampleFile.trailer.length ≤ 1000 ∧
        sampleFile.image = sampleFile.image :=
  imgRead_take zeros_allocates sampleFile_wellFormed _ 1000 _

end CsfAssignments.Png
