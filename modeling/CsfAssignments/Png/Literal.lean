import CsfAssignments.Png.Chunks
/-!
# zlib on data without repetitions

What zlib makes of few data without repetitions: one block of literals in the fixed code or, where that is
longer, stored blocks. It satisfies what the reader and the writer rely on (`literalSpec`), so there is
something that does. Of the errors of `inflate` it knows those of a header and of an empty input.
-/

namespace CsfAssignments.Png

/-! ## CRC-32 and Adler-32 -/

def crcBit (crc : BitVec 32) : BitVec 32 :=
  if crc.getLsbD 0 then crc >>> 1 ^^^ 0xEDB88320#32 else crc >>> 1

def crcByte (crc : BitVec 32) (b : Byte) : BitVec 32 :=
  (List.range 8).foldl (fun crc _ => crcBit crc) (crc ^^^ b.zeroExtend 32)

def crc32 (crc : BitVec 32) (data : Bytes) : BitVec 32 := ~~~(data.foldl crcByte (~~~crc))

example : crc32 0 typeIend = 0xAE426082#32 := by decide +kernel

def adler32 (data : Bytes) : BitVec 32 :=
  let (a, b) := data.foldl (fun (a, b) d => ((a + d.toNat) % 65521, (b + a + d.toNat) % 65521)) (1, 0)
  BitVec.ofNat 32 (b * 65536 + a)

/-! ## Blocks -/

/-- A stored block: whether it is the last one, its length and the complement of it. -/
def storedBlock (final : Byte) (data : Bytes) : Bytes :=
  let lo := BitVec.ofNat 8 data.length
  let hi := BitVec.ofNat 8 (data.length / 256)
  [final, lo, hi, ~~~lo, ~~~hi] ++ data

def storedBlocks (data : Bytes) : Bytes :=
  if data.length ≤ 65535 then storedBlock 1 data
  else storedBlock 0 (data.take 65535) ++ storedBlocks (data.drop 65535)
termination_by data.length
decreasing_by
  rw [List.length_drop]
  omega

/-- What has been inflated of blocks of which these bytes have arrived. -/
def inflateBlocks : Bytes → Bytes
  | final :: lo :: hi :: _ :: _ :: data =>
    data.take (lo.toNat + 256 * hi.toNat) ++
      if final = 1 then [] else inflateBlocks (data.drop (lo.toNat + 256 * hi.toNat))
  | _ => []
termination_by data => data.length
decreasing_by
  simp only [List.length_cons, List.length_drop]
  omega

/-! ## Literals -/

/-- The bits of a byte, in the order of the stream. -/
def bits (b : Byte) : List Bool := (List.range 8).map fun i => b.getLsbD i

def unpack (data : Bytes) : List Bool := data.flatMap bits

def byteOf (l : List Bool) : Byte := l.foldr (fun bit b => b <<< 1 ||| (BitVec.ofBool bit).zeroExtend 8) 0

def pack (l : List Bool) : Bytes :=
  if l = [] then [] else byteOf (l.take 8) :: pack (l.drop 8)
termination_by l.length
decreasing_by
  rename_i h
  have := List.length_pos_iff.mpr h
  rw [List.length_drop]
  omega

/-- A number in `n` bits, the highest one first. -/
def msbFirst (n v : Nat) : List Bool := (List.range n).map fun i => v.testBit (n - 1 - i)

def value (l : List Bool) : Nat := l.foldl (fun v bit => 2 * v + bit.toNat) 0

/-- The fixed code of a literal. -/
def code (b : Byte) : List Bool :=
  if b.toNat < 144 then msbFirst 8 (0x30 + b.toNat) else msbFirst 9 (0x190 + (b.toNat - 144))

/-- The literals of which all bits have arrived. -/
def inflateBits (l : List Bool) : Bytes :=
  if l.length < 8 then []
  else if 0x30 ≤ value (l.take 8) ∧ value (l.take 8) < 0xC0 then
    BitVec.ofNat 8 (value (l.take 8) - 0x30) :: inflateBits (l.drop 8)
  else if 0xC8 ≤ value (l.take 8) ∧ 9 ≤ l.length then
    BitVec.ofNat 8 (value (l.take 9) - 0x190 + 144) :: inflateBits (l.drop 9)
  else []
termination_by l.length
decreasing_by
  all_goals
    rw [List.length_drop]
    omega

/-- The block of the literals: last block, fixed code, and its end. -/
def literalBlock (data : Bytes) : Bytes :=
  pack ([true, true, false] ++ data.flatMap code ++ List.replicate 7 false)

example : literalBlock [0, 0x61] = [0x63, 0x48, 0x04, 0x00] := by decide +kernel

/-- The shorter of the two. -/
def block (data : Bytes) : Bytes :=
  if (literalBlock data).length ≤ (storedBlocks data).length then literalBlock data else storedBlocks data

/-! ## Streams -/

/-- Behind the two bytes of the header. -/
def inflated (input : Bytes) : Bytes :=
  match input.drop 2 with
  | [] => []
  | b :: data => if b &&& 6 = 2 then inflateBits ((unpack (b :: data)).drop 3) else inflateBlocks (b :: data)

def deflated (data : Bytes) : Bytes := 0x78 :: 0x9C :: (block data ++ setUl (adler32 data))

/-- `Z_DATA_ERROR`, with a message: the header is no multiple of 31, its method is not deflate, or its window
has more than 2^15 bytes. -/
def badHeader : Bytes → Bool
  | cmf :: flg :: _ => (256 * cmf.toNat + flg.toNat) % 31 ≠ 0 || cmf &&& 0x0F ≠ 8 || 7 < cmf.toNat / 16
  | _ => false

/-- `Z_NEED_DICT`, with none: the four bytes that name the dictionary have arrived. -/
def needsDict (input : Bytes) : Bool := 6 ≤ input.length && input.getD 1 0 &&& 0x20 ≠ 0

def literalZlib : Zlib where
  Stream := Bytes
  crcInit := 0
  crc32 := crc32
  compressBound n := n + n / 4096 + n / 16384 + n / 33554432 + 13
  compress := deflated
  inflateInit := some []
  inflate input data room :=
    -- without input there is no progress but at the end: `Z_BUF_ERROR`, with no message either
    { ok := !badHeader (input ++ data) && !needsDict (input ++ data) &&
        (!data.isEmpty || input == deflated (inflated input))
      msg := badHeader (input ++ data)
      availIn := 0
      out := ((inflated (input ++ data)).drop (inflated input).length).take room
      stream := input ++ data }

theorem crc32_append (crc : BitVec 32) (a b : Bytes) : crc32 (crc32 crc a) b = crc32 crc (a ++ b) := by
  simp [crc32]

theorem inflateBlocks_nil : inflateBlocks [] = [] := by
  rw [inflateBlocks]
  simp

theorem inflateBlocks_block {final : Byte} {data rest : Bytes} (h : data.length ≤ 65535) :
    inflateBlocks (storedBlock final data ++ rest) =
      data ++ if final = 1 then [] else inflateBlocks rest := by
  have hlen : (BitVec.ofNat 8 data.length).toNat + 256 * (BitVec.ofNat 8 (data.length / 256)).toNat =
      data.length := by
    rw [BitVec.toNat_ofNat, BitVec.toNat_ofNat]
    omega
  rw [storedBlock]
  simp only [List.cons_append, List.nil_append]
  rw [inflateBlocks, hlen, List.take_left, List.drop_left]

theorem inflateBlocks_stored (data rest : Bytes) : inflateBlocks (storedBlocks data ++ rest) = data := by
  fun_induction storedBlocks data with
  | case1 data h => rw [inflateBlocks_block h, if_pos rfl, List.append_nil]
  | case2 data h ih =>
    rw [List.append_assoc, inflateBlocks_block (by simp), if_neg (by decide), ih, List.take_append_drop]

/-- More input, more output. -/
theorem inflateBlocks_mono {p q : Bytes} (h : p <+: q) : inflateBlocks p <+: inflateBlocks q := by
  obtain ⟨more, rfl⟩ := h
  fun_induction inflateBlocks p with
  | case1 final lo hi nlo nhi data ih =>
    simp only [List.cons_append]
    rw [inflateBlocks]
    generalize lo.toNat + 256 * hi.toNat = n at ih ⊢
    by_cases hn : n ≤ data.length
    · rw [List.take_append_of_le_length hn, List.drop_append_of_le_length hn]
      refine (List.prefix_append_right_inj _).mpr ?_
      split
      · exact List.prefix_rfl
      · exact ih
    · -- the block has not arrived as a whole
      have hnil : inflateBlocks (data.drop n) = [] := by
        rw [List.drop_eq_nil_of_le (by omega), inflateBlocks_nil]
      have hall : data.take n = data := List.take_of_length_le (by omega)
      rw [hnil, ite_self, List.append_nil, hall, List.take_append, hall, List.append_assoc]
      exact List.prefix_append _ _
  | case2 => exact List.nil_prefix

/-! ## Reading literals -/

theorem bits_byteOf {l : List Bool} (h : l.length = 8) : bits (byteOf l) = l := by
  have hall : ∀ a b c d e f g h : Bool, bits (byteOf [a, b, c, d, e, f, g, h]) = [a, b, c, d, e, f, g, h] := by
    decide +kernel
  match l, h with
  | [a, b, c, d, e, f, g, h], _ => exact hall a b c d e f g h

/-- What is missing of a byte is 0. -/
theorem byteOf_append (l : List Bool) (k : Nat) : byteOf (l ++ List.replicate k false) = byteOf l := by
  have hzero : byteOf (List.replicate k false) = 0 := by
    induction k with
    | zero => rfl
    | succ k ih =>
      rw [List.replicate_succ, byteOf, List.foldr_cons, ← byteOf, ih]
      rfl
  rw [byteOf, List.foldr_append, ← byteOf, hzero]
  rfl

/-- Nothing is lost, and the last byte is filled. -/
theorem unpack_pack (l : List Bool) : ∃ k, unpack (pack l) = l ++ List.replicate k false := by
  fun_induction pack l with
  | case1 => exact ⟨0, rfl⟩
  | case2 l h ih =>
    obtain ⟨k, hk⟩ := ih
    have hcons : ∀ b data, unpack (b :: data) = bits b ++ unpack data := fun _ _ => rfl
    rw [hcons, hk]
    by_cases hlen : 8 ≤ l.length
    · refine ⟨k, ?_⟩
      rw [bits_byteOf (by simp [hlen]), ← List.append_assoc, List.take_append_drop]
    · refine ⟨8 - l.length + k, ?_⟩
      have hshort : l.take 8 = l := List.take_of_length_le (by omega)
      have hdrop : l.drop 8 = [] := List.drop_eq_nil_of_le (by omega)
      rw [hshort, hdrop, ← byteOf_append l (8 - l.length), bits_byteOf (by simp; omega), List.nil_append,
        List.append_assoc, List.replicate_append_replicate]

theorem code_facts : ∀ b : Byte,
    (b.toNat < 144 → (code b).length = 8 ∧ value (code b) = 0x30 + b.toNat) ∧
    (144 ≤ b.toNat → (code b).length = 9 ∧ value (code b) = 0x190 + (b.toNat - 144) ∧
      0xC8 ≤ value ((code b).take 8)) := by
  decide +kernel

theorem inflateBits_code (b : Byte) (rest : List Bool) :
    inflateBits (code b ++ rest) = b :: inflateBits rest := by
  obtain ⟨hlow, hhigh⟩ := code_facts b
  have hb := b.isLt
  rw [inflateBits]
  by_cases h144 : b.toNat < 144
  · obtain ⟨hlen, hvalue⟩ := hlow h144
    have hliteral : BitVec.ofNat 8 (0x30 + b.toNat - 0x30) = b := by simp
    rw [if_neg (by simp [hlen]), List.take_left' hlen, hvalue, if_pos (by omega), hliteral,
      List.drop_left' hlen]
  · obtain ⟨hlen, hvalue, hfirst⟩ := hhigh (by omega)
    have hliteral : BitVec.ofNat 8 (0x190 + (b.toNat - 144) - 0x190 + 144) = b := by
      rw [show 0x190 + (b.toNat - 144) - 0x190 + 144 = b.toNat by omega]
      simp
    rw [if_neg (by simp [hlen]; omega), List.take_append_of_le_length (by omega), if_neg (by omega),
      if_pos ⟨hfirst, by simp [hlen]⟩, List.take_left' hlen, hvalue, hliteral, List.drop_left' hlen]

/-- The end of the block. -/
theorem inflateBits_end (rest : List Bool) : inflateBits (List.replicate 7 false ++ rest) = [] := by
  rw [inflateBits]
  cases rest with
  | nil => rfl
  | cons bit rest =>
    have hvalue : value ((List.replicate 7 false ++ bit :: rest).take 8) = bit.toNat := by
      cases bit <;> rfl
    have hle : bit.toNat ≤ 1 := Bool.toNat_le bit
    rw [hvalue, if_neg (by simp), if_neg (by omega), if_neg (by omega)]

theorem inflateBits_flatMap (data : Bytes) (rest : List Bool) :
    inflateBits (data.flatMap code ++ rest) = data ++ inflateBits rest := by
  induction data with
  | nil => rfl
  | cons b data ih => rw [List.flatMap_cons, List.append_assoc, inflateBits_code, ih, List.cons_append]

/-- More bits, more literals. -/
theorem inflateBits_mono {p q : List Bool} (h : p <+: q) : inflateBits p <+: inflateBits q := by
  obtain ⟨more, rfl⟩ := h
  fun_induction inflateBits p with
  | case1 => exact List.nil_prefix
  | case2 p hlen hv ih =>
    have hstep : inflateBits (p ++ more) =
        BitVec.ofNat 8 (value (p.take 8) - 0x30) :: inflateBits (p.drop 8 ++ more) := by
      rw [inflateBits, if_neg (by simp; omega), List.take_append_of_le_length (by omega), if_pos hv,
        List.drop_append_of_le_length (by omega)]
    rw [hstep]
    exact (List.prefix_cons_inj _).mpr ih
  | case3 p hlen hv hv' ih =>
    have hstep : inflateBits (p ++ more) =
        BitVec.ofNat 8 (value (p.take 9) - 0x190 + 144) :: inflateBits (p.drop 9 ++ more) := by
      rw [inflateBits, if_neg (by simp; omega), List.take_append_of_le_length (by omega), if_neg hv,
        if_pos ⟨hv'.1, by simp; omega⟩, List.take_append_of_le_length hv'.2,
        List.drop_append_of_le_length hv'.2]
    rw [hstep]
    exact (List.prefix_cons_inj _).mpr ih
  | case4 => exact List.nil_prefix

/-! ## Reading streams -/

theorem unpack_mono {p q : Bytes} (h : p <+: q) : unpack p <+: unpack q := by
  obtain ⟨more, rfl⟩ := h
  rw [unpack, unpack, List.flatMap_append]
  exact List.prefix_append _ _

theorem inflated_cons {input data : Bytes} {b : Byte} (h : input.drop 2 = b :: data) :
    inflated input =
      if b &&& 6 = 2 then inflateBits ((unpack (b :: data)).drop 3) else inflateBlocks (b :: data) := by
  rw [inflated, h]

/-- More input, more output. -/
theorem inflated_mono {p q : Bytes} (h : p <+: q) : inflated p <+: inflated q := by
  have hdrop := h.drop 2
  cases hp : p.drop 2 with
  | nil =>
    rw [inflated, hp]
    exact List.nil_prefix
  | cons b data =>
    rw [hp] at hdrop
    obtain ⟨more, hmore⟩ := hdrop
    have hle : b :: data <+: b :: (data ++ more) := List.prefix_append (b :: data) more
    rw [inflated_cons hp, inflated_cons hmore.symm]
    split
    · exact inflateBits_mono ((unpack_mono hle).drop 3)
    · exact inflateBlocks_mono hle

/-- The type of the block of literals. -/
theorem literalBlock_type (data : Bytes) : ∃ b rest, literalBlock data = b :: rest ∧ b &&& 6 = 2 := by
  have htype : ∀ b : Byte, b.getLsbD 1 = true → b.getLsbD 2 = false → b &&& 6 = 2 := by decide +kernel
  obtain ⟨k, hk⟩ := unpack_pack ([true, true, false] ++ data.flatMap code ++ List.replicate 7 false)
  rw [← literalBlock] at hk
  cases hblock : literalBlock data with
  | nil =>
    rw [hblock] at hk
    cases hk
  | cons b rest =>
    rw [hblock] at hk
    have h1 := congrArg (·[1]?) hk
    have h2 := congrArg (·[2]?) hk
    exact ⟨b, rest, rfl, htype b (Option.some.inj h1) (Option.some.inj h2)⟩

theorem storedBlocks_type (data : Bytes) : ∃ b rest, storedBlocks data = b :: rest ∧ b &&& 6 ≠ 2 := by
  rw [storedBlocks]
  split
  · exact ⟨1, _, rfl, by decide⟩
  · exact ⟨0, _, rfl, by decide⟩

theorem inflated_block (data rest : Bytes) (a b : Byte) : inflated (a :: b :: (block data ++ rest)) = data := by
  unfold block
  split
  · obtain ⟨k, hk⟩ := unpack_pack ([true, true, false] ++ data.flatMap code ++ List.replicate 7 false)
    rw [← literalBlock] at hk
    obtain ⟨type, more, hblock, htype⟩ := literalBlock_type data
    have hdrop : (a :: b :: (literalBlock data ++ rest)).drop 2 = type :: (more ++ rest) := by
      rw [hblock]
      rfl
    have hbits : unpack (type :: (more ++ rest)) = unpack (literalBlock data) ++ unpack rest := by
      rw [hblock, unpack, unpack, unpack, ← List.flatMap_append]
      rfl
    rw [inflated_cons hdrop, if_pos htype, hbits, hk]
    have hthree : (([true, true, false] ++ data.flatMap code ++ List.replicate 7 false ++
        List.replicate k false) ++ unpack rest).drop 3 =
        data.flatMap code ++ (List.replicate 7 false ++ (List.replicate k false ++ unpack rest)) := by
      simp only [List.append_assoc]
      rfl
    rw [hthree, inflateBits_flatMap, inflateBits_end, List.append_nil]
  · obtain ⟨type, more, hblock, htype⟩ := storedBlocks_type data
    have hdrop : (a :: b :: (storedBlocks data ++ rest)).drop 2 = type :: (more ++ rest) := by
      rw [hblock]
      rfl
    rw [inflated_cons hdrop, if_neg htype, ← List.cons_append, ← hblock, inflateBlocks_stored]

theorem inflated_compress (data : Bytes) : inflated (literalZlib.compress data) = data :=
  inflated_block data _ _ _

theorem length_storedBlocks (data : Bytes) :
    (storedBlocks data).length ≤ data.length + data.length / 4096 + 5 := by
  fun_induction storedBlocks data with
  | case1 data h =>
    simp only [storedBlock, List.length_append, List.length_cons, List.length_nil]
    omega
  | case2 data h ih =>
    simp only [storedBlock, List.length_append, List.length_cons, List.length_nil, List.length_take,
      List.length_drop] at ih ⊢
    omega


theorem length_block (data : Bytes) : (block data).length ≤ (storedBlocks data).length := by
  unfold block
  split
  · assumption
  · exact Nat.le_refl _

/-- This much of a stream has arrived. -/
def Arrived (input comp data : Bytes) : Prop :=
  ∃ all, input ++ comp = literalZlib.compress all ∧ inflated input ++ data = all

theorem Arrived.feed {input piece comp data : Bytes} (h : Arrived input (piece ++ comp) data) :
    ∃ rest, data = (inflated (input ++ piece)).drop (inflated input).length ++ rest ∧
      Arrived (input ++ piece) comp rest := by
  obtain ⟨all, hcomp, hall⟩ := h
  have hmore : inflated input <+: inflated (input ++ piece) := inflated_mono (List.prefix_append ..)
  have hle : inflated (input ++ piece) <+: all := by
    have h := inflated_mono (p := input ++ piece) (q := literalZlib.compress all)
      ⟨comp, by rw [← hcomp, List.append_assoc]⟩
    rwa [inflated_compress] at h
  obtain ⟨out, hout⟩ := hmore
  obtain ⟨rest, hrest⟩ := hle
  have hdata : data = out ++ rest := by
    rw [← hout, List.append_assoc] at hrest
    exact List.append_cancel_left (hall.trans hrest.symm)
  refine ⟨rest, ?_, all, by rw [List.append_assoc, hcomp], hrest⟩
  rw [← hout, List.drop_left, hdata]

/-- What has arrived of a stream is no error. -/
theorem Arrived.ok {input comp data : Bytes} (h : Arrived input comp data) :
    badHeader input = false ∧ needsDict input = false := by
  obtain ⟨all, hcomp, -⟩ := h
  match input, hcomp with
  | [], _ => exact ⟨rfl, rfl⟩
  | [_], _ => exact ⟨rfl, rfl⟩
  | cmf :: flg :: input, hcomp =>
    have hcmf : cmf = 0x78 := (List.cons.inj hcomp).1
    have hflg : flg = 0x9C := (List.cons.inj (List.cons.inj hcomp).2).1
    subst hcmf hflg
    exact ⟨rfl, by simp [needsDict]⟩

/-- It is what is relied on. -/
def literalSpec : literalZlib.Spec where
  Encodes data comp := comp = literalZlib.compress data
  Decoding := Arrived
  crcInit_eq := rfl
  crc_append := crc32_append
  compress_encodes _ := rfl
  compress_le data := by
    have h := (length_block data).trans (length_storedBlocks data)
    change (0x78 :: 0x9C :: (block data ++ setUl (adler32 data))).length ≤
      data.length + data.length / 4096 + data.length / 16384 + data.length / 33554432 + 13
    simp only [List.length_append, List.length_cons, length_setUl]
    omega
  encodes_ne_nil data h := by cases h
  start := by
    rintro s data comp hs rfl
    obtain rfl : ([] : Bytes) = s := Option.some.inj hs
    have hnil : inflated [] = [] := rfl
    exact ⟨data, List.nil_append _, by rw [hnil, List.nil_append]⟩
  feed := by
    intro (s : Bytes) piece comp data room h hpiece hroom
    obtain ⟨rest, hdata, hrest⟩ := Arrived.feed h
    have hout : (literalZlib.inflate s piece room).out =
        (inflated (s ++ piece)).drop (inflated s).length := by
      refine List.take_of_length_le ?_
      rw [hdata, List.length_append] at hroom
      omega
    have hok : (literalZlib.inflate s piece room).ok = true := by
      change (!badHeader (s ++ piece) && !needsDict (s ++ piece) &&
        (!piece.isEmpty || s == deflated (inflated s))) = true
      rw [hrest.ok.1, hrest.ok.2, List.isEmpty_eq_false_iff.2 hpiece]
      rfl
    exact ⟨hok, rfl, rest, by rw [hout, ← hdata], hrest⟩
  finish := by
    rintro (s : Bytes) data ⟨all, hcomp, hall⟩
    rw [List.append_nil] at hcomp
    rw [hcomp, inflated_compress] at hall
    exact List.append_right_eq_self.mp hall

theorem compress_eq (data : Bytes) : ∃ rest, literalZlib.compress data = 0x78 :: 0x9C :: rest := ⟨_, rfl⟩

/-- A `malloc` that never fails. -/
def zeros : Env := ⟨fun _ n => some (List.replicate n 0), 0, 0⟩

theorem zeros_allocates : zeros.Allocates literalZlib :=
  ⟨fun _ _ => ⟨_, rfl, List.length_replicate⟩, ⟨_, rfl⟩⟩

end CsfAssignments.Png
