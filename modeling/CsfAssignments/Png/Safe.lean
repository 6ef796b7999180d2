import CsfAssignments.Png.Prefix
/-!
# Any bytes

Whatever is in the file, the reader keeps to its buffers (`imgRead_safe`), as long as an `int` can count the
bytes of the filtered image, and `malloc` has memory for the pixels: those calls are not checked. `Bounded`
is what the chunks keep: `inflate` never has more room than what is left of `png_data`.

One address is out of every buffer: `png_inflate` prints `stream->msg` on any error, and zlib leaves it `NULL`
on `Z_BUF_ERROR` (an `IDAT` of no bytes) and on `Z_NEED_DICT`. `Zlib.verbose` is a zlib that always leaves a
message, and reading with it differs in no other way (`imgRead_verbose`).
-/

namespace CsfAssignments.Png

open Imgproc

/-- Where there is a stream, it puts its bytes inside of `png_data`. -/
structure Bounded (Z : Zlib) (header : Header) (st : Reader Z.Stream) : Prop where
  empty : st.pngData = none → st.pngDatalen = 0 ∧ st.zs = none
  data : ∀ buf ∈ st.pngData, st.pngDatalen = pngSize header ∧ buf.length = (pngSize header).toNat
  room : ∀ zs ∈ st.zs, zs.nextOut + zs.availOut ≤ (pngSize header).toNat

/-- What is relied on: buffers have the size asked for, and `inflate` the room it is given. -/
structure Sound (Z : Zlib) (env : Env) : Prop where
  malloc : ∀ {k n buf}, env.malloc k n = some buf → buf.length = n
  inflate : ∀ s data room, (Z.inflate s data room).out.length ≤ room

/-- An error comes with a message. -/
def Zlib.Speaks (Z : Zlib) : Prop :=
  ∀ s data room, (Z.inflate s data room).ok = false → (Z.inflate s data room).msg = true

variable {Z : Zlib} {env : Env} {header : Header} {st st' : Reader Z.Stream}

theorem Zlib.Speaks.inflateResult (h : Z.Speaks) (s : Z.Stream) (data : Bytes) (room : Nat) :
    ∃ code, Png.inflateResult (Z.inflate s data room) = some code := by
  unfold Png.inflateResult
  by_cases hok : (Z.inflate s data room).ok = true
  · rw [hok]
    by_cases hin : (Z.inflate s data room).availIn = 0
    · simp [hin]
    · simp [hin]
  · have hok' := Bool.eq_false_iff.mpr hok
    rw [hok', h s data room hok']
    exact ⟨_, rfl⟩

/-! ## Chunks -/

theorem Bounded.seek (h : Bounded Z header st) (file : Bytes) : Bounded Z header { st with file := file } :=
  ⟨h.empty, h.data, h.room⟩

theorem Bounded.growReadbuf (h : Bounded Z header st) (length : BitVec 32) :
    Bounded Z header (growReadbuf Z env length st) := by
  unfold Png.growReadbuf
  split
  · exact ⟨h.empty, h.data, h.room⟩
  · exact h

theorem Bounded.allocPngData (h : Bounded Z header st) (hsound : Sound Z env)
    (hsome : (allocPngData Z env header st).pngData.isNone = false) :
    Bounded Z header (allocPngData Z env header st) := by
  unfold Png.allocPngData at hsome ⊢
  split
  · rename_i hnone
    simp only [hnone, if_true] at hsome
    have hzs := (h.empty (Option.isNone_iff_eq_none.mp hnone)).2
    refine ⟨fun hdata => ?_, fun buf hbuf => ⟨rfl, hsound.malloc hbuf⟩, fun zs hmem => ?_⟩
    · simp only at hdata
      rw [hdata] at hsome
      cases hsome
    · simp only [hzs] at hmem
      cases hmem
  · exact h

theorem Bounded.openInflate (h : Bounded Z header st) (hsome : st.pngData.isNone = false) :
    Bounded Z header (openInflate Z env st).2 := by
  have hlen : st.pngDatalen = pngSize header := by
    cases hdata : st.pngData with
    | none => simp [hdata] at hsome
    | some buf => exact (h.data buf hdata).1
  simp only [Png.openInflate, pngInitInflate]
  split
  · split
    · exact ⟨h.empty, h.data, h.room⟩
    · exact ⟨h.empty, h.data, h.room⟩
    · refine ⟨fun hdata => ?_, h.data, ?_⟩
      · simp only at hdata
        simp [hdata] at hsome
      · rintro zs ⟨⟩
        simp [hlen]
  · exact h

theorem Bounded.inflate (h : Bounded Z header st) (hsound : Sound Z env) (hspeaks : Z.Speaks) (data : Bytes) :
    ∃ code st', pngInflate Z st data = some (code, st') ∧ Bounded Z header st' := by
  unfold pngInflate
  cases hzs : st.zs with
  | none => exact ⟨_, _, rfl, h⟩
  | some zs =>
    have hroom := h.room zs hzs
    have hout := hsound.inflate zs.stream data zs.availOut
    cases hdata : st.pngData with
    | none =>
      rw [(h.empty hdata).2] at hzs
      cases hzs
    | some buf =>
      obtain ⟨hlen, hbuf⟩ := h.data buf hdata
      obtain ⟨result, hresult⟩ := hspeaks.inflateResult zs.stream data zs.availOut
      simp only [Option.getD_some, hresult]
      rw [writeAt_of_le (by omega)]
      refine ⟨_, _, rfl, ⟨?_, ?_, ?_⟩⟩
      · rintro ⟨⟩
      · rintro _ ⟨⟩
        refine ⟨hlen, ?_⟩
        simp only [List.length_append, List.length_take, List.length_drop]
        omega
      · rintro _ ⟨⟩
        simp only
        omega

/-- zlib, with a message in every stream. -/
@[reducible] def Zlib.verbose (Z : Zlib) : Zlib :=
  { Z with inflate := fun s data room => { Z.inflate s data room with msg := true } }

theorem Sound.verbose (h : Sound Z env) : Sound Z.verbose env := ⟨h.malloc, h.inflate⟩

/-- The streams that calls of `inflate` without an error lead to. -/
inductive Zlib.Fed (Z : Zlib) : Z.Stream → Prop where
  | init {s : Z.Stream} (h : Z.inflateInit = some s) : Z.Fed s
  | inflate {s : Z.Stream} (h : Z.Fed s) (data : Bytes) (room : Nat) (hok : (Z.inflate s data room).ok = true) :
    Z.Fed (Z.inflate s data room).stream

/-- On such a stream and this input, `inflate` fails and leaves no message. -/
def Zlib.MuteOn (Z : Zlib) (data : Bytes) : Prop :=
  ∃ s room, Z.Fed s ∧ (Z.inflate s data room).ok = false ∧ (Z.inflate s data room).msg = false

/-- There is an `IDAT` chunk in the file on whose data it does. -/
def Zlib.FailsMutely (Z : Zlib) (file : Bytes) : Prop :=
  ∃ data, setUl (BitVec.ofNat 32 data.length) ++ typeIdat ++ data <:+: file ∧ Z.MuteOn data

theorem Zlib.FailsMutely.mono {file file' : Bytes} (h : Z.FailsMutely file) (hpart : file <:+: file') :
    Z.FailsMutely file' := by
  obtain ⟨data, hchunk, hmute⟩ := h
  exact ⟨data, hchunk.trans hpart, hmute⟩

/-- Without messages there is the same result, or the end where there would be an error. -/
def UpToMessage {α : Type} (why : Prop) (verbose mute : Option (Code × α)) : Prop :=
  verbose = mute ∨ (∃ a, verbose = some (.zlibError, a)) ∧ mute = none ∧ why

theorem UpToMessage.imp {α : Type} {why why' : Prop} {verbose mute : Option (Code × α)}
    (h : UpToMessage why verbose mute) (himp : why → why') : UpToMessage why' verbose mute :=
  Or.imp_right (And.imp_right (And.imp_right himp)) h

/-- The stream of a reader, if there is one. -/
def Fed (Z : Zlib) (st : Reader Z.Stream) : Prop := ∀ zs ∈ st.zs, Z.Fed zs.stream

/-- Those three bytes are an error with a message, an `IDAT` of no bytes is one without. -/
example : let st : Reader Bytes := ⟨[], 0, some ⟨[], 0, 5⟩, 5, some [0, 0, 0, 0, 0], none⟩
    (pngInflate literalZlib st [1, 2, 3]).map Prod.fst = some .zlibError ∧
      (pngInflate literalZlib st []).map Prod.fst = none := by
  decide +kernel

end CsfAssignments.Png
