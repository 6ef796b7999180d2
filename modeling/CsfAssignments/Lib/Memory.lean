import Mathlib.Algebra.Order.Ring.Nat
import Mathlib.Data.BitVec
import Mathlib.Tactic.Ring
/-!
# Byte memory

A flat 64-bit address space. `read`/`write` move little-endian numbers of any width; the two widths
in use are `read32`, `read64`. Addresses wrap, so two ranges are `Apart` when no byte of one is a
byte of the other; everything about aliasing is `read_write_apart`.
-/

namespace Memory

abbrev Addr := BitVec 64

abbrev Mem := Addr → BitVec 8

/-- `n` bytes at `a`, as a number. -/
def read (m : Mem) (a : Addr) : Nat → Nat
  | 0 => 0
  | n + 1 => read m a n + 256 ^ n * (m (a + BitVec.ofNat 64 n)).toNat

/-- The low `n` bytes of `v` at `a`. -/
def write (m : Mem) (a : Addr) (n v : Nat) : Mem := fun x =>
  if (x - a).toNat < n then BitVec.ofNat 8 (v / 256 ^ (x - a).toNat) else m x

def read32 (m : Mem) (a : Addr) : BitVec 32 := BitVec.ofNat 32 (read m a 4)
def read64 (m : Mem) (a : Addr) : BitVec 64 := BitVec.ofNat 64 (read m a 8)
def write32 (m : Mem) (a : Addr) (v : BitVec 32) : Mem := write m a 4 v.toNat
def write64 (m : Mem) (a : Addr) (v : BitVec 64) : Mem := write m a 8 v.toNat

theorem read_congr {m m' : Mem} {a : Addr} {n : Nat}
    (h : ∀ i < n, m' (a + BitVec.ofNat 64 i) = m (a + BitVec.ofNat 64 i)) :
    read m' a n = read m a n := by
  induction n with
  | zero => rfl
  | succ n ih =>
    simp only [read, h n (Nat.lt_succ_self n), ih fun i hi => h i (Nat.lt_succ_of_lt hi)]

theorem add_sub_toNat {a : Addr} {i : Nat} (hi : i < 2 ^ 64) :
    (a + BitVec.ofNat 64 i - a).toNat = i := by
  rw [BitVec.add_comm, BitVec.add_sub_cancel, BitVec.toNat_ofNat, Nat.mod_eq_of_lt hi]

theorem read_write_self (m : Mem) (a : Addr) {n : Nat} (v : Nat) (hn : n ≤ 2 ^ 64) :
    read (write m a n v) a n = v % 256 ^ n := by
  have hbytes : ∀ k ≤ n, read (write m a n v) a k = v % 256 ^ k := by
    intro k hk
    induction k with
    | zero => simp [read, Nat.mod_one]
    | succ k ih =>
      have hbyte : (write m a n v (a + BitVec.ofNat 64 k)).toNat = v / 256 ^ k % 256 := by
        rw [write, add_sub_toNat (by omega), if_pos (by omega), BitVec.toNat_ofNat]
      rw [read, ih (by omega), hbyte, Nat.pow_succ, Nat.mod_mul]
  exact hbytes n (Nat.le_refl n)

theorem read32_write32 (m : Mem) (a : Addr) (v : BitVec 32) : read32 (write32 m a v) a = v := by
  have hlt := v.isLt
  rw [read32, write32, read_write_self _ _ _ (by decide)]
  apply BitVec.eq_of_toNat_eq
  rw [BitVec.toNat_ofNat]
  omega

theorem read64_write64 (m : Mem) (a : Addr) (v : BitVec 64) : read64 (write64 m a v) a = v := by
  have hlt := v.isLt
  rw [read64, write64, read_write_self _ _ _ (by decide)]
  apply BitVec.eq_of_toNat_eq
  rw [BitVec.toNat_ofNat]
  omega

/-! ## Ranges -/

/-- No byte of `[a, a + n)` is a byte of `[b, b + k)`. -/
def Apart (a : Addr) (n : Nat) (b : Addr) (k : Nat) : Prop :=
  ∀ i < n, ∀ j < k, a + BitVec.ofNat 64 i ≠ b + BitVec.ofNat 64 j

variable {a b : Addr} {n k : Nat}

theorem Apart.symm (h : Apart a n b k) : Apart b k a n := fun i hi j hj e => h j hj i hi e.symm

/-- A part of a range is apart from what the range is apart from. -/
theorem Apart.left (h : Apart a n b k) {i l : Nat} (hi : i + l ≤ n) :
    Apart (a + BitVec.ofNat 64 i) l b k := by
  intro x hx y hy
  rw [BitVec.add_assoc, ← BitVec.ofNat_add]
  exact h (i + x) (by omega) y hy

theorem Apart.right (h : Apart a n b k) {i l : Nat} (hi : i + l ≤ k) :
    Apart a n (b + BitVec.ofNat 64 i) l := (h.symm.left hi).symm

theorem Apart.start (h : Apart a n b k) {l : Nat} (hl : l ≤ n) : Apart a l b k :=
  fun x hx y hy => h x (by omega) y hy

/-- Two ranges at distances `i`, `j` from one base. -/
theorem apart_of_offset {i j : Nat} (h : i + n ≤ j ∨ j + k ≤ i) (hi : i + n ≤ 2 ^ 64)
    (hj : j + k ≤ 2 ^ 64) : Apart (a + BitVec.ofNat 64 i) n (a + BitVec.ofNat 64 j) k := by
  intro x hx y hy he
  rw [BitVec.add_assoc, BitVec.add_assoc, ← BitVec.ofNat_add, ← BitVec.ofNat_add] at he
  have hdist : (a + BitVec.ofNat 64 (i + x) - a).toNat = (a + BitVec.ofNat 64 (j + y) - a).toNat := by
    rw [he]
  rw [add_sub_toNat (by omega), add_sub_toNat (by omega)] at hdist
  omega

/-- **Frame**: a write leaves a range alone that it is apart from. -/
theorem read_write_apart {m : Mem} {v : Nat} (h : Apart a n b k) :
    read (write m b k v) a n = read m a n := by
  refine read_congr fun i hi => ?_
  unfold write
  rw [if_neg]
  intro hlt
  refine h i hi _ hlt ?_
  rw [BitVec.ofNat_toNat, BitVec.setWidth_eq, BitVec.add_comm b, BitVec.sub_add_cancel]

variable {m : Mem}

theorem read32_write32_apart {v : BitVec 32} (h : Apart a 4 b 4) :
    read32 (write32 m b v) a = read32 m a := by
  rw [read32, write32, read_write_apart h, read32]

theorem read32_write64_apart {v : BitVec 64} (h : Apart a 4 b 8) :
    read32 (write64 m b v) a = read32 m a := by
  rw [read32, write64, read_write_apart h, read32]

theorem read64_write32_apart {v : BitVec 32} (h : Apart a 8 b 4) :
    read64 (write32 m b v) a = read64 m a := by
  rw [read64, write32, read_write_apart h, read64]

theorem read64_write64_apart {v : BitVec 64} (h : Apart a 8 b 8) :
    read64 (write64 m b v) a = read64 m a := by
  rw [read64, write64, read_write_apart h, read64]

end Memory
