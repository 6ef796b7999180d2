import CsfAssignments.Imgproc.AsmHelpers
/-!
# The entry points

| | |
| --- | --- |
| `Entry`      | the four transformations, with their labels and the sizes of their images |
| `Called`     | the state right after a call of one |
| `Convention` | what the System V convention asks of the state right after the return |
| `Inside`     | no access outside the pixels |
-/

namespace CsfAssignments.Imgproc

open Memory X86 Asm

/-- The transformations of `imgproc.h`. -/
inductive Entry where
  | rgb | grayscale | fade | kaleidoscope
deriving DecidableEq, Repr

def Entry.label : Entry → Label
  | .rgb => .imgprocRgb
  | .grayscale => .imgprocGrayscale
  | .fade => .imgprocFade
  | .kaleidoscope => .imgprocKaleidoscope

/-- The size that `create_output_img` (`c_imgproc_main.c:38`) gives the output image. -/
def Entry.Fits (e : Entry) (L : Layout) : Prop :=
  match e with
  | .rgb => L.out.width = 2 * L.inp.width ∧ L.out.height = 2 * L.inp.height
  | _ => L.out.width = L.inp.width ∧ L.out.height = L.inp.height

/-- What is in memory at the layout. -/
def Layout.contents (L : Layout) (m : Mem) : Contents where
  stack k := read64 m (L.slot k)
  inPix i := read32 m (L.inp.data + BitVec.ofNat 64 (4 * i))
  outPix i := read32 m (L.out.data + BitVec.ofNat 64 (4 * i))

structure Called (L : Layout) (s : State) : Prop where
  valid : L.Valid
  rsp : s.regs.rsp = L.sp
  rdi : s.regs.rdi = L.inp.ptr
  rsi : s.regs.rsi = L.out.ptr
  inp : L.inp.Fields s.mem
  out : L.out.Fields s.mem

theorem Called.holds {L : Layout} {s : State} (h : Called L s) (k : Nat) :
    Holds L s.mem k (L.contents s.mem) :=
  ⟨fun _ _ => rfl, ⟨h.inp, fun _ _ => rfl⟩, ⟨h.out, fun _ _ => rfl⟩⟩

theorem Called.top {L : Layout} {s : State} (h : Called L s) :
    s.top = (L.contents s.mem).stack 0 := by
  rw [State.top, h.rsp, ← Layout.slot_zero]
  rfl

/-- The routine called in `s` has returned to `ra` in `s'`. -/
structure Convention (s : State) (ra : Addr) (s' : State) : Prop where
  rbx : s'.regs.rbx = s.regs.rbx
  rbp : s'.regs.rbp = s.regs.rbp
  r12 : s'.regs.r12 = s.regs.r12
  r13 : s'.regs.r13 = s.regs.r13
  r14 : s'.regs.r14 = s.regs.r14
  r15 : s'.regs.r15 = s.regs.r15
  rsp : s'.regs.rsp = s.regs.rsp + 8#64
  returnAddress : ra = s.top

theorem Convention.of_get {s s' : State} {ra : Addr}
    (h : ∀ x ∈ [Reg.rbx, .rbp, .r12, .r13, .r14, .r15], s'.regs.get x = s.regs.get x)
    (hrsp : s'.regs.rsp = s.regs.rsp + 8#64) (hra : ra = s.top) : Convention s ra s' :=
  ⟨h .rbx (by simp), h .rbp (by simp), h .r12 (by simp), h .r13 (by simp), h .r14 (by simp),
    h .r15 (by simp), hrsp, hra⟩

/-- The `ret` of an entry point. -/
theorem wp_return {text : List (Instr Label) → Addr} {L : Layout} {A : Contents} {r : Regs}
    {fl : Option Flags} {m : Mem} {acc : List Access} {I : Addr → State → Prop}
    (h : Holds L m 0 A) (hsp : r.rsp = L.slot 0)
    (hI : I (A.stack 0) ⟨r.set .rsp (L.sp + 8#64), fl, m, acc⟩) :
    WP (program text) [.ret] ⟨r, fl, m, acc⟩ (Ends I) := by
  have htop : State.top ⟨r, fl, m, acc⟩ = A.stack 0 := by
    rw [State.top, hsp, h.stack 0 (Nat.le_refl 0)]
  refine wp_ret ?_
  rw [htop, State.drop, hsp, Layout.slot_zero]
  exact hI

/-! ## Accesses -/

def Layout.InBounds (L : Layout) (a : Access) : Prop :=
  if a.store then a.base = L.out.data ∧ a.index.toNat < L.out.size
  else a.base = L.inp.data ∧ a.index.toNat < L.inp.size

/-- From one log to another, all accesses are in bounds. -/
def Inside (L : Layout) (acc acc' : List Access) : Prop :=
  ∃ new, acc' = acc ++ new ∧ ∀ a ∈ new, L.InBounds a

variable {text : List (Instr Label) → Addr} {L : Layout} {k : Nat} {A : Contents} {r : Regs}
  {fl : Option Flags} {m : Mem} {acc : List Access}

theorem inside_append {new : List Access} :
    Inside L acc (acc ++ new) ↔ ∀ a ∈ new, L.InBounds a := by
  constructor
  · rintro ⟨new', he, h⟩
    rwa [List.append_cancel_left he]
  · exact fun h => ⟨new, rfl, h⟩

/-! ## Indices -/

/-- A 32-bit number in a register. -/
abbrev word (n : Nat) : BitVec 64 := zext (BitVec.ofNat 32 n)

theorem toNat_word {n : Nat} (h : n < 2 ^ 32) : (word n).toNat = n := by
  rw [toNat_zext, BitVec.toNat_ofNat, Nat.mod_eq_of_lt h]

theorem toInt_ofNat {n : Nat} (h : n < 2 ^ 31) : (BitVec.ofNat 32 n).toInt = n := by
  rw [BitVec.toInt_ofNat', Int.bmod_def]
  omega

/-- `row * width + col`. -/
theorem ofNat_index (i w j : Nat) :
    BitVec.ofNat 32 i * BitVec.ofNat 32 w + BitVec.ofNat 32 j = BitVec.ofNat 32 (i * w + j) := by
  rw [BitVec.ofNat_add, BitVec.ofNat_mul]

theorem ofNat_succ (n : Nat) : BitVec.ofNat 32 n + 1#32 = BitVec.ofNat 32 (n + 1) := by
  rw [BitVec.ofNat_add]

/-- The pixel in row `i` and column `j`. -/
theorem index_lt {i j w h : Nat} (hi : i < h) (hj : j < w) : i * w + j < w * h := by
  have : (i + 1) * w ≤ h * w := Nat.mul_le_mul_right w hi
  rw [Nat.succ_mul, Nat.mul_comm h] at this
  omega

theorem index_div {w j : Nat} (i : Nat) (hj : j < w) : (i * w + j) / w = i := by
  rw [Nat.add_comm, Nat.add_mul_div_right _ _ (Nat.zero_lt_of_lt hj), Nat.div_eq_of_lt hj,
    Nat.zero_add]

theorem index_mod {w j : Nat} (i : Nat) (hj : j < w) : (i * w + j) % w = j := by
  rw [Nat.mul_add_mod', Nat.mod_eq_of_lt hj]

theorem index_inj {n a b r c : Nat} (hb : b < n) (hc : c < n) (h : n * a + b = n * r + c) :
    a = r ∧ b = c := by
  have hdiv := congrArg (· / n) h
  have hmod := congrArg (· % n) h
  simp only [Nat.mul_comm n, index_div _ hb, index_div _ hc] at hdiv
  simp only [Nat.mul_comm n, index_mod _ hb, index_mod _ hc] at hmod
  exact ⟨hdiv, hmod⟩

theorem Holds.load_word (h : Holds L m k A) (hv : L.Valid) {n : Nat} (hn : n < L.inp.size) :
    read32 m (L.inp.data + 4#64 * word n) = A.inPix n := by
  have hlt : n < 2 ^ 32 := Nat.lt_trans hn (Nat.lt_trans hv.inp.size (by decide))
  rw [h.load_inp (by rwa [toNat_word hlt]), toNat_word hlt]

theorem inBounds_load (hv : L.Valid) {n : Nat} (hn : n < L.inp.size) :
    L.InBounds ⟨false, L.inp.data, word n⟩ := by
  have hlt : n < 2 ^ 32 := Nat.lt_trans hn (Nat.lt_trans hv.inp.size (by decide))
  exact ⟨rfl, by rwa [toNat_word hlt]⟩

theorem inBounds_store (hv : L.Valid) {n : Nat} (hn : n < L.out.size) :
    L.InBounds ⟨true, L.out.data, word n⟩ := by
  have hlt : n < 2 ^ 32 := Nat.lt_trans hn (Nat.lt_trans hv.out.size (by decide))
  exact ⟨rfl, by rwa [toNat_word hlt]⟩

/-- A store of a pixel, or right behind the last one. -/
theorem wp_store {is : List (Instr Label)} {Q : Outcome Label → Prop} {b x v : Reg} {n : Nat}
    (hv : L.Valid) (h : Holds L m k A) (hk : k ≤ Layout.depth) (hb : r.get b = L.out.data)
    (hx : r.get x = word n) (hn : 4 * n + 4 ≤ L.out.bytes)
    (hnext : ∀ m, Holds L m k (A.store n (low (r.get v))) →
      WP (program text) is ⟨r, fl, m, acc ++ [⟨true, L.out.data, word n⟩]⟩ Q) :
    WP (program text) (.mov .l (.reg v) (.sib b x 4) :: is) ⟨r, fl, m, acc⟩ Q := by
  have hsize := hv.out.size
  have hlt : n < 2 ^ 32 := by
    unfold Img.bytes at hn
    omega
  have hm := h.store_out hv (x := word n) (low (r.get v)) (by rwa [toNat_word hlt]) hk
  rw [toNat_word hlt] at hm
  rw [wp_movl_store]
  simpa only [State.log, State.addr, hb, hx] using hnext _ hm

/-! ## Calls exist -/

/-- Writes the `struct Image`. -/
def Img.putStruct (I : Img) (m : Mem) : Mem :=
  write32 (write32 (write64 m (I.ptr + 8#64) I.data) (I.ptr + 4#64) (BitVec.ofNat 32 I.height))
    I.ptr (BitVec.ofNat 32 I.width)

theorem Img.putStruct_fields (I : Img) (m : Mem) : I.Fields (I.putStruct m) := by
  have hapart {i k : Nat} (h : 4 ≤ i) (hi : i + k ≤ 16) : Apart (I.ptr + BitVec.ofNat 64 i) k I.ptr 4 := by
    simpa using apart_of_offset (a := I.ptr) (i := i) (n := k) (j := 0) (k := 4) (by omega) (by omega)
      (by omega)
  refine ⟨?_, ?_, ?_⟩
  · rw [putStruct, read32_write32]
  · rw [putStruct, read32_write32_apart (hapart (by omega) (by omega)), read32_write32]
  · rw [putStruct, read64_write32_apart (hapart (by omega) (by omega)),
      read64_write32_apart (apart_of_offset (i := 8) (j := 4) (by omega) (by omega) (by omega)),
      read64_write64]

theorem Img.Fields.putStruct {I J : Img} {m : Mem} (h : I.Fields m) (ha : Apart I.ptr 16 J.ptr 16) :
    I.Fields (J.putStruct m) := by
  have h0 : Apart I.ptr 16 J.ptr 4 := (ha.symm.start (by omega)).symm
  have h4 := ha.right (i := 4) (l := 4) (by omega)
  have h8 := ha.right (i := 8) (l := 8) (by omega)
  refine ⟨?_, ?_, ?_⟩
  · rw [Img.putStruct, read32_write32_apart (h0.start (by omega)),
      read32_write32_apart (h4.start (by omega)), read32_write64_apart (h8.start (by omega)), h.width]
  · rw [Img.putStruct, read32_write32_apart (h0.left (by omega)),
      read32_write32_apart (h4.left (by omega)), read32_write64_apart (h8.left (by omega)), h.height]
  · rw [Img.putStruct, read64_write32_apart (h0.left (by omega)),
      read64_write32_apart (h4.left (by omega)), read64_write64_apart (h8.left (by omega)), h.data]

/-- Images of the given sizes, in memory that is zero elsewhere. -/
def sampleLayout (w h w' h' : Nat) : Layout where
  inp := ⟨0x1000#64, 0x100000#64, w, h⟩
  out := ⟨0x2000#64, 0x200000#64, w', h'⟩
  sp := 0x8000#64

def sampleState (r : Regs) (L : Layout) : State where
  regs := { r with rdi := L.inp.ptr, rsi := L.out.ptr, rsp := L.sp }
  flags := none
  mem := L.out.putStruct (L.inp.putStruct fun _ => 0#8)
  accesses := []

theorem sample_called (r : Regs) {w h w' h' : Nat} (hin : w * h < 2 ^ 16) (hout : w' * h' < 2 ^ 16)
    (hw : w < 2 ^ 31) (hh : h < 2 ^ 31) (hw' : w' < 2 ^ 31) (hh' : h' < 2 ^ 31) :
    Called (sampleLayout w h w' h') (sampleState r (sampleLayout w h w' h')) := by
  have hapart (i j : Nat) {n k : Nat} (h : i + n ≤ j ∨ j + k ≤ i) (hi : i + n ≤ 2 ^ 64)
      (hj : j + k ≤ 2 ^ 64) : Apart (BitVec.ofNat 64 i) n (BitVec.ofNat 64 j) k := by
    simpa using apart_of_offset (a := 0#64) h hi hj
  have hib : (sampleLayout w h w' h').inp.bytes ≤ 0x80000 := by
    simp [sampleLayout, Img.bytes, Img.size]
    omega
  have hob : (sampleLayout w h w' h').out.bytes ≤ 0x80000 := by
    simp [sampleLayout, Img.bytes, Img.size]
    omega
  have hdepth : 8 * (Layout.depth + 1) = 136 := rfl
  have hstack : (sampleLayout w h w' h').slot Layout.depth = BitVec.ofNat 64 0x7f80 := by
    have hsub : 0x8000#64 - BitVec.ofNat 64 (8 * Layout.depth) = BitVec.ofNat 64 0x7f80 := by decide
    exact hsub
  have hvalid : (sampleLayout w h w' h').Valid := by
    refine ⟨⟨hw, hh, ?_⟩, ⟨hw', hh', ?_⟩, ?_, ?_, ?_, ?_⟩
    · simp only [Img.size, sampleLayout]
      omega
    · simp only [Img.size, sampleLayout]
      omega
    · rw [hstack]
      exact ⟨hapart 0x1000 _ (by omega) (by omega) (by omega),
        hapart 0x100000 _ (by omega) (by omega) (by omega)⟩
    · rw [hstack]
      exact ⟨hapart 0x2000 _ (by omega) (by omega) (by omega),
        hapart 0x200000 _ (by omega) (by omega) (by omega)⟩
    · exact ⟨hapart 0x1000 0x200000 (by omega) (by omega) (by omega),
        hapart 0x100000 0x200000 (by omega) (by omega) (by omega)⟩
    · exact hapart 0x2000 0x200000 (by omega) (by omega) (by omega)
  refine ⟨hvalid, rfl, rfl, rfl, ?_, ?_⟩
  · exact (Img.putStruct_fields _ _).putStruct (hapart 0x1000 0x2000 (by omega) (by omega) (by omega))
  · exact Img.putStruct_fields _ _

end CsfAssignments.Imgproc
