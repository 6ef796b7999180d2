import Mathlib.Data.BitVec
import Mathlib.Data.Nat.Digits.Lemmas
/-!
# Numbers in several words

`value d` is the number of the words `d`, the least significant first; `low d k` that of the first `k` of
them. Ripple-carry arithmetic goes by `low_succ`, shifts by `testBit_value`.
-/

namespace Words

open Nat (ofDigits)

variable {w n k i : Nat} (d : Fin n → BitVec w)

def digits : List Nat := List.ofFn fun i => (d i).toNat

def value : Nat := ofDigits (2 ^ w) (digits d)

/-- The value of the first `k` words. -/
def low (k : Nat) : Nat := ofDigits (2 ^ w) ((digits d).take k)

@[simp] theorem length_digits : (digits d).length = n := by simp [digits]

@[simp] theorem low_zero : low d 0 = 0 := rfl

theorem low_all : low d n = value d := by
  rw [low, List.take_of_length_le (Nat.le_of_eq (length_digits d)), value]

theorem low_succ (hk : k < n) : low d (k + 1) = low d k + 2 ^ (w * k) * (d ⟨k, hk⟩).toNat := by
  have hlen : k < (digits d).length := by rwa [length_digits]
  have hget : (digits d)[k] = (d ⟨k, hk⟩).toNat := by simp [digits]
  have htake : ((digits d).take k).length = k := by
    rw [List.length_take, Nat.min_eq_left (Nat.le_of_lt hlen)]
  rw [low, List.take_add_one, List.getElem?_eq_getElem hlen, Option.toList_some, Nat.ofDigits_append,
    htake, Nat.ofDigits_singleton, hget, ← Nat.pow_mul, low]

theorem low_lt (hk : k ≤ n) : low d k < 2 ^ (w * k) := by
  induction k with
  | zero => simp
  | succ k ih =>
    have hword := (d ⟨k, hk⟩).isLt
    have hmul : 2 ^ (w * k) * ((d ⟨k, hk⟩).toNat + 1) ≤ 2 ^ (w * k) * 2 ^ w :=
      Nat.mul_le_mul_left _ hword
    have hlow := ih (Nat.le_of_lt hk)
    rw [low_succ d hk, Nat.mul_succ w, Nat.pow_add]
    rw [Nat.mul_succ] at hmul
    omega

theorem value_lt : value d < 2 ^ (w * n) := by
  rw [← low_all]
  exact low_lt d (Nat.le_refl n)

/-- Words from `k` on do not count for the first `k`. -/
theorem low_update (hk : k ≤ i) (hi : i < n) (v : BitVec w) :
    low (Function.update d ⟨i, hi⟩ v) k = low d k := by
  induction k with
  | zero => rfl
  | succ k ih =>
    have hne : (⟨k, by omega⟩ : Fin n) ≠ ⟨i, hi⟩ := by
      intro h
      have := congrArg Fin.val h
      simp only at this
      omega
    rw [low_succ _ (by omega), low_succ d (by omega), ih (by omega), Function.update_of_ne hne]

/-- The words from `k` on count in multiples of `2 ^ (w * k)`. -/
theorem low_mod {m : Nat} (hkm : k ≤ m) (hm : m ≤ n) : low d m % 2 ^ (w * k) = low d k := by
  induction m, hkm using Nat.le_induction with
  | base => exact Nat.mod_eq_of_lt (low_lt d hm)
  | succ m hkm ih =>
    have hpow : 2 ^ (w * m) = 2 ^ (w * k) * 2 ^ (w * (m - k)) := by
      rw [← Nat.pow_add, ← Nat.mul_add, Nat.add_sub_cancel' hkm]
    rw [low_succ d hm, hpow, Nat.mul_assoc, Nat.add_mul_mod_self_left]
    exact ih (Nat.le_of_lt hm)

theorem value_mod (hk : k ≤ n) : value d % 2 ^ (w * k) = low d k := by
  rw [← low_all]
  exact low_mod d hk (Nat.le_refl n)

/-! ## Bits -/

theorem testBit_value {j : Nat} (hi : i < n) (hj : j < w) :
    (value d).testBit (w * i + j) = (d ⟨i, hi⟩).getLsbD j := by
  have hbelow : w * i + j < w * (i + 1) := by
    rw [Nat.mul_succ]
    omega
  have hmod : ((value d) % 2 ^ (w * (i + 1))).testBit (w * i + j) = (value d).testBit (w * i + j) := by
    simp [hbelow]
  rw [← hmod, value_mod d hi, low_succ d hi, Nat.add_comm, Nat.testBit_two_pow_mul_add _
    (low_lt d (Nat.le_of_lt hi)), if_neg (by omega), Nat.add_sub_cancel_left]
  rfl

theorem testBit_beyond {x : Nat} (hx : w * n ≤ x) : (value d).testBit x = false :=
  Nat.testBit_lt_two_pow (Nat.lt_of_lt_of_le (value_lt d) (Nat.pow_le_pow_right (by omega) hx))

/-- The words of a number are its bits. -/
theorem value_injective {d e : Fin n → BitVec w} (h : value d = value e) : d = e := by
  funext i
  apply BitVec.eq_of_getLsbD_eq
  intro j hj
  rw [← testBit_value d i.isLt hj, ← testBit_value e i.isLt hj, h]

/-- **A number is shifted by `s`** when each bit is the one `s` places below. -/
theorem value_shiftLeft {d r : Fin n → BitVec w} (s : Nat)
    (h : ∀ i (hi : i < n), ∀ j < w,
      (r ⟨i, hi⟩).getLsbD j = (decide (s ≤ w * i + j) && (value d).testBit (w * i + j - s))) :
    value r = value d * 2 ^ s % 2 ^ (w * n) := by
  apply Nat.eq_of_testBit_eq
  intro x
  rw [Nat.testBit_mod_two_pow, Nat.testBit_mul_two_pow]
  by_cases hx : x < w * n
  · have hw : 0 < w := Nat.pos_of_ne_zero fun h0 => by simp [h0] at hx
    have hi : x / w < n := Nat.div_lt_of_lt_mul hx
    have hj : x % w < w := Nat.mod_lt x hw
    have hx' : w * (x / w) + x % w = x := Nat.div_add_mod x w
    have hbit := (testBit_value r hi hj).trans (h _ hi _ hj)
    rw [hx'] at hbit
    simpa [hx] using hbit
  · rw [testBit_beyond r (Nat.le_of_not_lt hx)]
    simp [hx]

/-- Whole words up by `q` places. -/
theorem value_moveWords {d r : Fin n → BitVec w} (q : Nat)
    (h : ∀ i (hi : i < n), r ⟨i, hi⟩ = if q ≤ i then d ⟨i - q, by omega⟩ else 0#w) :
    value r = value d * 2 ^ (w * q) % 2 ^ (w * n) := by
  refine value_shiftLeft _ fun i hi j hj => ?_
  rw [h i hi]
  by_cases hq : q ≤ i
  · have hmul : w * i = w * (i - q) + w * q := by rw [← Nat.mul_add, Nat.sub_add_cancel hq]
    have hle : w * q ≤ w * i + j := by omega
    have hplace : w * i + j - w * q = w * (i - q) + j := by omega
    rw [if_pos hq, hplace, testBit_value d (by omega) hj]
    simp [hle]
  · have hmul : w * (i + 1) ≤ w * q := Nat.mul_le_mul_left w (by omega)
    rw [Nat.mul_succ] at hmul
    have hlt : ¬w * q ≤ w * i + j := by omega
    simp [hq, hlt]

/-- Less than a word: the high bits of each word go into the next one. -/
theorem value_moveBits {d r : Fin n → BitVec w} {b : Nat} (hb : b < w)
    (h : ∀ i (hi : i < n), r ⟨i, hi⟩ =
      if i = 0 then d ⟨i, hi⟩ <<< b else d ⟨i, hi⟩ <<< b ||| d ⟨i - 1, by omega⟩ >>> (w - b)) :
    value r = value d * 2 ^ b % 2 ^ (w * n) := by
  refine value_shiftLeft _ fun i hi j hj => ?_
  have hshl : (d ⟨i, hi⟩ <<< b).getLsbD j = (!decide (j < b) && (d ⟨i, hi⟩).getLsbD (j - b)) := by
    rw [BitVec.getLsbD_shiftLeft, decide_eq_true hj, Bool.true_and]
  rw [h i hi]
  by_cases hbj : b ≤ j
  -- the bit comes from the same word
  · have hplace : w * i + j - b = w * i + (j - b) := by omega
    have hbeyond : w ≤ w - b + j := by omega
    have hle : b ≤ w * i + j := by omega
    rw [hplace, testBit_value d hi (by omega)]
    split
    · simp [hshl, hle, hbj]
    · rw [BitVec.getLsbD_or, BitVec.getLsbD_ushiftRight, BitVec.getLsbD_of_ge _ _ hbeyond, hshl]
      simp [hle, hbj]
  -- and here from the one below
  · split
    · rename_i h0
      rw [hshl]
      simp [h0, hbj, Nat.lt_of_not_le hbj]
    · have hmul : w * i = w * (i - 1) + w := by
        rw [← Nat.mul_succ, Nat.succ_eq_add_one, Nat.sub_add_cancel (by omega)]
      have hplace : w * i + j - b = w * (i - 1) + (w - b + j) := by omega
      have hle : b ≤ w * i + j := by omega
      rw [hplace, testBit_value d (by omega) (by omega), BitVec.getLsbD_or, BitVec.getLsbD_ushiftRight, hshl]
      simp [hle, Nat.lt_of_not_le hbj]

/-! ## Ripple-carry addition -/

/-- One word of an addition: what is carried out of the first `k` words goes into word `k`. -/
theorem low_add {a b s : Fin n → BitVec w} {carry carry' : Nat} (hk : k < n)
    (hlow : low s k + 2 ^ (w * k) * carry = low a k + low b k)
    (hword : (s ⟨k, hk⟩).toNat + 2 ^ w * carry' = (a ⟨k, hk⟩).toNat + (b ⟨k, hk⟩).toNat + carry) :
    low s (k + 1) + 2 ^ (w * (k + 1)) * carry' = low a (k + 1) + low b (k + 1) := by
  have hmul := congrArg (2 ^ (w * k) * ·) hword
  simp only [Nat.mul_add, ← Nat.mul_assoc, ← Nat.pow_add] at hmul
  rw [low_succ _ hk, low_succ _ hk, low_succ _ hk, Nat.mul_succ]
  omega

/-! ## Complement -/

/-- The words with all bits flipped. -/
theorem low_not (hk : k ≤ n) : low (fun i => ~~~d i) k + low d k + 1 = 2 ^ (w * k) := by
  induction k with
  | zero => simp
  | succ k ih =>
    have hword : (~~~d ⟨k, hk⟩).toNat + (d ⟨k, hk⟩).toNat + 1 = 2 ^ w := by
      have := (d ⟨k, hk⟩).isLt
      rw [BitVec.toNat_not]
      omega
    have hlow := ih (Nat.le_of_lt hk)
    rw [low_succ _ hk, low_succ d hk, Nat.mul_succ, Nat.pow_add, ← hword, Nat.mul_add, Nat.mul_add]
    omega

theorem value_not : value (fun i => ~~~d i) + value d + 1 = 2 ^ (w * n) := by
  rw [← low_all, ← low_all]
  exact low_not d (Nat.le_refl n)

end Words
