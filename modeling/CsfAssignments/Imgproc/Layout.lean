import CsfAssignments.Imgproc.AsmCode
/-!
# Images and the stack in memory

`Img` is where a `struct Image` (`image.h:14-18`) and its pixels are. `Layout` is what a routine is
called with: two images and a stack. `Valid` says what the caller provides: sizes that fit, and
memory that does not overlap. `Holds` is the memory seen through the layout, and one lemma for each
kind of write says what it does to that view:

| write | lemma |
| --- | --- |
| a stack slot in use | `Holds.write_slot` |
| an output pixel     | `Holds.store` |

`malloc` rounds a request up to a multiple of eight bytes, so the buffer of an odd number of pixels
has room for one more (`Img.bytes`).
-/

namespace CsfAssignments.Imgproc

open Memory X86

/-- A `struct Image`: its address, its fields. -/
structure Img where
  ptr : Addr
  data : Addr
  width : Nat
  height : Nat

namespace Img

/-- The number of pixels. -/
def size (I : Img) : Nat := I.width * I.height

/-- The bytes behind `data`. -/
def bytes (I : Img) : Nat := 8 * ((I.size + 1) / 2)

/-- Width, height and their product are `int32_t` values. -/
structure Sized (I : Img) : Prop where
  width : I.width < 2 ^ 31
  height : I.height < 2 ^ 31
  size : I.size < 2 ^ 31

/-- `m` has the fields of the `struct Image`. -/
structure Fields (I : Img) (m : Mem) : Prop where
  width : read32 m I.ptr = BitVec.ofNat 32 I.width
  height : read32 m (I.ptr + 4#64) = BitVec.ofNat 32 I.height
  data : read64 m (I.ptr + 8#64) = I.data

/-- `m` has the image with these pixels. -/
structure At (I : Img) (m : Mem) (pix : Nat → BitVec 32) : Prop extends I.Fields m where
  pixels : ∀ i < I.size, read32 m (I.data + BitVec.ofNat 64 (4 * i)) = pix i

theorem size_le_bytes (I : Img) : 4 * I.size ≤ I.bytes := by
  unfold bytes; omega

theorem room {I : Img} {n : Nat} (h : n < I.size) : 4 * n + 4 ≤ I.bytes := by
  have := I.size_le_bytes
  omega

/-- A range apart from the image. -/
structure Clear (I : Img) (b : Addr) (k : Nat) : Prop where
  struct : Apart I.ptr 16 b k
  pixels : Apart I.data I.bytes b k

theorem Clear.sub {I : Img} {b : Addr} {k : Nat} (h : I.Clear b k) {j l : Nat}
    (hj : j + l ≤ k) : I.Clear (b + BitVec.ofNat 64 j) l :=
  ⟨h.struct.right hj, h.pixels.right hj⟩

/-- Writes elsewhere leave an image alone. -/
theorem At.write {I : Img} {m : Mem} {pix : Nat → BitVec 32} (h : I.At m pix) {b : Addr} {k v : Nat}
    (hc : I.Clear b k) : I.At (Memory.write m b k v) pix := by
  refine ⟨⟨?_, ?_, ?_⟩, ?_⟩
  · rw [read32, read_write_apart (hc.struct.start (by omega))]
    exact h.width
  · rw [read32, read_write_apart (hc.struct.left (by omega))]
    exact h.height
  · rw [read64, read_write_apart (hc.struct.left (by omega))]
    exact h.data
  · intro i hi
    have hb := I.size_le_bytes
    rw [read32, read_write_apart (hc.pixels.left (by omega))]
    exact h.pixels i hi

/-- Storing a pixel, or the one past the end that still has room. -/
theorem At.store {I : Img} {m : Mem} {pix : Nat → BitVec 32} (h : I.At m pix)
    (hapart : Apart I.ptr 16 I.data I.bytes) (hsize : I.size < 2 ^ 31) {x : Nat} (v : BitVec 32)
    (hx : 4 * x + 4 ≤ I.bytes) :
    I.At (write32 m (I.data + BitVec.ofNat 64 (4 * x)) v) (Function.update pix x v) := by
  have hstruct := hapart.right hx
  refine ⟨⟨?_, ?_, ?_⟩, ?_⟩
  · rw [read32_write32_apart (hstruct.start (by omega))]
    exact h.width
  · rw [read32_write32_apart (hstruct.left (by omega))]
    exact h.height
  · rw [read64_write32_apart (hstruct.left (by omega))]
    exact h.data
  · intro i hi
    by_cases hix : i = x
    · rw [hix, read32_write32, Function.update_self]
    · have hb : I.bytes < 2 ^ 34 := by unfold bytes; omega
      rw [read32_write32_apart (apart_of_offset (by omega) (by omega) (by omega)),
        Function.update_of_ne hix]
      exact h.pixels i hi

end Img

/-- The two images and the stack of a call. -/
structure Layout where
  inp : Img
  out : Img
  /-- `rsp` on entry, at the return address. -/
  sp : Addr

namespace Layout

/-- The `k`-th word that a push reaches. -/
def slot (L : Layout) (k : Nat) : Addr := L.sp - BitVec.ofNat 64 (8 * k)

/-- The words a routine may push. -/
def depth : Nat := 16

/-- What the caller provides. -/
structure Valid (L : Layout) : Prop where
  inp : L.inp.Sized
  out : L.out.Sized
  inpStack : L.inp.Clear (L.slot depth) (8 * (depth + 1))
  outStack : L.out.Clear (L.slot depth) (8 * (depth + 1))
  inpPixels : L.inp.Clear L.out.data L.out.bytes
  outPixels : Apart L.out.ptr 16 L.out.data L.out.bytes

variable {L : Layout}

@[simp] theorem slot_zero (L : Layout) : L.slot 0 = L.sp := by simp [slot]

/-- A push moves to the next slot. -/
@[simp] theorem slot_sub (L : Layout) (k : Nat) : L.slot k - 8#64 = L.slot (k + 1) := by
  unfold slot
  rw [Nat.mul_add, BitVec.ofNat_add, BitVec.sub_sub]

/-- A pop moves back. -/
@[simp] theorem slot_add (L : Layout) (k : Nat) : L.slot (k + 1) + 8#64 = L.slot k := by
  rw [← slot_sub, BitVec.sub_add_cancel]

/-- The slots as offsets from the deepest one. -/
theorem slot_eq {k : Nat} (hk : k ≤ depth) :
    L.slot k = L.slot depth + BitVec.ofNat 64 (8 * (depth - k)) := by
  have h : BitVec.ofNat 64 (8 * depth) = BitVec.ofNat 64 (8 * (depth - k)) + BitVec.ofNat 64 (8 * k) := by
    rw [← BitVec.ofNat_add]; congr 1; omega
  unfold slot
  rw [h]
  ring

theorem slot_apart {j k : Nat} (hj : j ≤ depth) (hk : k ≤ depth) (hne : j ≠ k) :
    Apart (L.slot j) 8 (L.slot k) 8 := by
  have hd : depth = 16 := rfl
  rw [slot_eq hj, slot_eq hk]
  exact apart_of_offset (by omega) (by omega) (by omega)

theorem clear_slot {I : Img} (h : I.Clear (L.slot depth) (8 * (depth + 1))) {k : Nat}
    (hk : k ≤ depth) : I.Clear (L.slot k) 8 := by
  rw [slot_eq hk]
  exact h.sub (by omega)

end Layout

/-- What the layout shows of a memory. -/
structure Contents where
  stack : Nat → BitVec 64
  inPix : Nat → BitVec 32
  outPix : Nat → BitVec 32

namespace Contents

def put (A : Contents) (k : Nat) (v : BitVec 64) : Contents :=
  { A with stack := Function.update A.stack k v }

def paint (A : Contents) (pix : Nat → BitVec 32) : Contents := { A with outPix := pix }

def store (A : Contents) (x : Nat) (v : BitVec 32) : Contents :=
  A.paint (Function.update A.outPix x v)

section
variable (A : Contents) (k x : Nat) (w : BitVec 64) (v : BitVec 32) (pix : Nat → BitVec 32)

@[simp] theorem put_stack : (A.put k w).stack = Function.update A.stack k w := rfl
@[simp] theorem put_inPix : (A.put k w).inPix = A.inPix := rfl
@[simp] theorem put_outPix : (A.put k w).outPix = A.outPix := rfl
@[simp] theorem paint_stack : (A.paint pix).stack = A.stack := rfl
@[simp] theorem paint_inPix : (A.paint pix).inPix = A.inPix := rfl
@[simp] theorem paint_outPix : (A.paint pix).outPix = pix := rfl
@[simp] theorem put_paint : (A.put k w).paint pix = (A.paint pix).put k w := rfl
@[simp] theorem put_store : (A.put k w).store x v = (A.store x v).put k w := rfl
@[simp] theorem paint_store : (A.paint pix).store x v = A.paint (Function.update pix x v) := rfl
@[simp] theorem store_inPix : (A.store x v).inPix = A.inPix := rfl
@[simp] theorem store_stack : (A.store x v).stack = A.stack := rfl
@[simp] theorem store_outPix : (A.store x v).outPix = Function.update A.outPix x v := rfl

end

/-- Words in the slots behind `k`. -/
def putAll (A : Contents) (k : Nat) : List (BitVec 64) → Contents
  | [] => A
  | w :: ws => (A.put (k + 1) w).putAll (k + 1) ws

@[simp] theorem putAll_inPix (A : Contents) (k : Nat) (ws : List (BitVec 64)) :
    (A.putAll k ws).inPix = A.inPix := by
  induction ws generalizing A k with
  | nil => rfl
  | cons w ws ih => exact ih (A.put (k + 1) w) (k + 1)

theorem putAll_paint (A : Contents) (k : Nat) (ws : List (BitVec 64)) (pix : Nat → BitVec 32) :
    (A.putAll k ws).paint pix = (A.paint pix).putAll k ws := by
  induction ws generalizing A k with
  | nil => rfl
  | cons w ws ih => exact ih (A.put (k + 1) w) (k + 1)

end Contents

/-- `m` shows `A`, of the stack only the slots up to `k`. -/
structure Holds (L : Layout) (m : Mem) (k : Nat) (A : Contents) : Prop where
  stack : ∀ j ≤ k, read64 m (L.slot j) = A.stack j
  inp : L.inp.At m A.inPix
  out : L.out.At m A.outPix

namespace Holds

variable {L : Layout} {m : Mem} {k : Nat} {A : Contents}

theorem mono {k' : Nat} (h : Holds L m k A) (hk : k' ≤ k) : Holds L m k' A :=
  ⟨fun j hj => h.stack j (Nat.le_trans hj hk), h.inp, h.out⟩

/-- A slot in use takes the new word. -/
theorem write_slot (hv : L.Valid) (h : Holds L m k A) {j : Nat} (v : BitVec 64) (hj : j ≤ k)
    (hk : k ≤ Layout.depth) : Holds L (write64 m (L.slot j) v) k (A.put j v) := by
  refine ⟨?_, h.inp.write (Layout.clear_slot hv.inpStack (Nat.le_trans hj hk)),
    h.out.write (Layout.clear_slot hv.outStack (Nat.le_trans hj hk))⟩
  intro i hi
  by_cases hij : i = j
  · simp [hij, read64_write64]
  · rw [read64_write64_apart (Layout.slot_apart (by omega) (by omega) hij), h.stack i hi]
    simp [hij]

/-- A push: the next slot comes into use. -/
theorem push (hv : L.Valid) (h : Holds L m k A) (v : BitVec 64) (hk : k < Layout.depth) :
    Holds L (write64 m (L.slot (k + 1)) v) (k + 1) (A.put (k + 1) v) := by
  refine ⟨?_, h.inp.write (Layout.clear_slot hv.inpStack hk),
    h.out.write (Layout.clear_slot hv.outStack hk)⟩
  intro i hi
  by_cases hik : i = k + 1
  · simp [hik, read64_write64]
  · rw [read64_write64_apart (Layout.slot_apart (by omega) (by omega) hik), h.stack i (by omega)]
    simp [hik]

/-- The newest word goes out of use. -/
theorem forget {v : BitVec 64} (h : Holds L m (k + 1) (A.put (k + 1) v)) : Holds L m k A := by
  refine ⟨?_, h.inp, h.out⟩
  intro j hj
  rw [h.stack j (by omega)]
  simp [show j ≠ k + 1 by omega]

theorem newest {v : BitVec 64} (h : Holds L m k (A.put k v)) : read64 m (L.slot k) = v := by
  rw [h.stack k (Nat.le_refl k)]
  simp

/-- An output pixel. -/
theorem store (hv : L.Valid) (h : Holds L m k A) {x : Nat} (v : BitVec 32)
    (hx : 4 * x + 4 ≤ L.out.bytes) (hk : k ≤ Layout.depth) :
    Holds L (write32 m (L.out.data + BitVec.ofNat 64 (4 * x)) v) k (A.store x v) := by
  refine ⟨?_, h.inp.write (hv.inpPixels.sub hx), h.out.store hv.outPixels hv.out.size v hx⟩
  intro i hi
  have hapart : Apart (L.slot i) 8 (L.out.data + BitVec.ofNat 64 (4 * x)) 4 :=
    ((Layout.clear_slot hv.outStack (Nat.le_trans hi hk)).pixels.left hx).symm
  rw [read64_write32_apart hapart, h.stack i hi]
  rfl

/-- The address of an array element. -/
theorem scaled (x : BitVec 64) : 4#64 * x = BitVec.ofNat 64 (4 * x.toNat) := by
  apply BitVec.eq_of_toNat_eq
  simp [BitVec.toNat_mul]

theorem load_inp (h : Holds L m k A) {x : BitVec 64} (hx : x.toNat < L.inp.size) :
    read32 m (L.inp.data + 4#64 * x) = A.inPix x.toNat := by
  rw [scaled]
  exact h.inp.pixels _ hx

theorem store_out (hv : L.Valid) (h : Holds L m k A) {x : BitVec 64} (v : BitVec 32)
    (hx : 4 * x.toNat + 4 ≤ L.out.bytes) (hk : k ≤ Layout.depth) :
    Holds L (write32 m (L.out.data + 4#64 * x) v) k (A.store x.toNat v) := by
  rw [scaled]
  exact h.store hv v hx hk

end Holds

end CsfAssignments.Imgproc
