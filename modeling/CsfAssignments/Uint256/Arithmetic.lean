import CsfAssignments.Lib.Words
import CsfAssignments.Uint256.Model
/-!
# Arithmetic modulo `2 ^ 256`

Addition goes word by word: after `k` rounds, the low words of the sum and the carry make the sum of the
low words (`Added`). A shift is a statement about bits (`lshift_spec`), a product the sum of the shifts
that the bits of one factor ask for (`mulRounds_spec`).
-/

namespace CsfAssignments.Uint256

open Words

variable {left right val : UInt256} {s : UInt256 × BitVec 32} {k : Nat}

theorem toNat_eq_value (val : UInt256) : val.toNat = value val.data := rfl

/-! ## Addition -/

/-- The invariant of the loop in `uint256_add`. -/
structure Added (left right : UInt256) (k : Nat) (s : UInt256 × BitVec 32) : Prop where
  sum : low s.1.data k + 2 ^ (32 * k) * s.2.toNat = low left.data k + low right.data k
  carry : s.2.toNat ≤ 1

/-- A 64-bit word has room for the sum. -/
theorem unitSum_toNat (left right : UInt256) {carry : BitVec 32} (h : carry.toNat ≤ 1) (i : Fin 8) :
    (unitSum left right carry i).toNat =
      (left.data i).toNat + (right.data i).toNat + carry.toNat := by
  have hl := (left.data i).isLt
  have hr := (right.data i).isLt
  simp only [unitSum, BitVec.toNat_add, BitVec.toNat_setWidth]
  omega

theorem Added.unit (h : Added left right k s) (hk : k < 8) :
    Added left right (k + 1) (addUnit left right s ⟨k, hk⟩) := by
  have hsum := unitSum_toNat left right h.carry ⟨k, hk⟩
  have hl := (left.data ⟨k, hk⟩).isLt
  have hr := (right.data ⟨k, hk⟩).isLt
  have hcarry := h.carry
  have hlow : ((unitSum left right s.2 ⟨k, hk⟩ &&& 0xFFFFFFFF#64).setWidth 32).toNat =
      (unitSum left right s.2 ⟨k, hk⟩).toNat % 2 ^ 32 := by
    have hmask : (0xFFFFFFFF#64).toNat = 2 ^ 32 - 1 := rfl
    rw [BitVec.toNat_setWidth, BitVec.toNat_and, hmask, Nat.and_two_pow_sub_one_eq_mod, Nat.mod_mod]
  have hhigh : ((unitSum left right s.2 ⟨k, hk⟩ >>> 32).setWidth 32).toNat =
      (unitSum left right s.2 ⟨k, hk⟩).toNat / 2 ^ 32 := by
    rw [BitVec.toNat_setWidth, BitVec.toNat_ushiftRight, Nat.shiftRight_eq_div_pow]
    omega
  refine ⟨low_add hk (?_ : _ + _ * s.2.toNat = _) ?_, ?_⟩
  · rw [← h.sum]
    simp only [addUnit]
    rw [low_update _ (Nat.le_refl k) hk]
  · simp only [addUnit, Function.update_self]
    rw [hlow, hhigh, ← hsum]
    exact Nat.mod_add_div _ _
  · simp only [addUnit]
    rw [hhigh]
    omega

theorem addRounds_succ (hk : k < 8) :
    addRounds left right (k + 1) = addUnit left right (addRounds left right k) ⟨k, hk⟩ := by
  have hget : (List.finRange 8)[k]? = some ⟨k, hk⟩ := by simp [hk]
  simp only [addRounds, List.take_add_one, hget, Option.toList_some, List.foldl_append, List.foldl_cons,
    List.foldl_nil]

theorem addRounds_spec (left right : UInt256) (hk : k ≤ 8) :
    Added left right k (addRounds left right k) := by
  induction k with
  | zero => exact ⟨rfl, Nat.zero_le 1⟩
  | succ k ih =>
    rw [addRounds_succ hk]
    exact (ih (Nat.le_of_lt hk)).unit hk

/-- **`uint256_add`** -/
theorem add_toNat (left right : UInt256) : (add left right).toNat = (left.toNat + right.toNat) % 2 ^ 256 := by
  have hsum := (addRounds_spec left right (Nat.le_refl 8)).sum
  have hlt := (add left right).toNat_lt
  rw [low_all, low_all, low_all] at hsum
  rw [toNat_eq_value left, toNat_eq_value right, ← hsum, Nat.add_mul_mod_self_left]
  exact (Nat.mod_eq_of_lt hlt).symm

theorem createFromU32_toNat (val : BitVec 32) : (createFromU32 val).toNat = val.toNat := by
  simp [UInt256.toNat, createFromU32, List.ofFn_succ, Nat.ofDigits_cons]

/-- **`uint256_negate`** -/
theorem negate_toNat (val : UInt256) : (negate val).toNat = (2 ^ 256 - val.toNat) % 2 ^ 256 := by
  have hnot := value_not val.data
  have hone : (1 : BitVec 32).toNat = 1 := rfl
  have hval : value (fun i => ~~~val.data i) + 1 = 2 ^ 256 - value val.data := by omega
  rw [negate, add_toNat, createFromU32_toNat, hone]
  exact congrArg (· % 2 ^ 256) hval

/-- **`uint256_sub`** -/
theorem sub_toNat (left right : UInt256) :
    ((sub left right).toNat : Int) = ((left.toNat : Int) - right.toNat) % 2 ^ 256 := by
  have hl := left.toNat_lt
  have hr := right.toNat_lt
  rw [sub, add_toNat, negate_toNat]
  omega

/-! ## Shifting -/

theorem getBits_eq (val : UInt256) {i : Nat} (hi : i < 8) : getBits val i = some (val.data ⟨i, hi⟩) :=
  dif_pos hi

theorem setWord_eq (val : UInt256) {i : Nat} (hi : i < 8) (v : BitVec 32) :
    setWord val i v = some ⟨Function.update val.data ⟨i, hi⟩ v⟩ := dif_pos hi

/-- A loop that goes down to `lo`. A round reads no word that an earlier one has written. -/
theorem loop_down (val : UInt256) (step : UInt256 → Nat → Option UInt256) (new : Nat → BitVec 32)
    (lo : Nat) (hlo : lo ≤ 8)
    (hstep : ∀ r i (hi : i < 8), lo ≤ i →
      (∀ j (hj : j < 8), j ≤ i → r.data ⟨j, hj⟩ = val.data ⟨j, hj⟩) →
      step r i = some ⟨Function.update r.data ⟨i, hi⟩ (new i)⟩) :
    ∃ r, ((List.range' lo (8 - lo)).reverse).foldlM step val = some r ∧
      ∀ i (hi : i < 8), r.data ⟨i, hi⟩ = if lo ≤ i then new i else val.data ⟨i, hi⟩ := by
  obtain ⟨n, hn⟩ : ∃ n, 8 - lo = n := ⟨_, rfl⟩
  rw [hn]
  induction n generalizing lo with
  | zero =>
    refine ⟨val, rfl, fun i hi => ?_⟩
    rw [if_neg (by omega)]
  | succ n ih =>
    obtain ⟨r, hr, hwords⟩ := ih (lo + 1) (by omega) (fun r i hi hle => hstep r i hi (by omega))
      (by omega)
    have hbelow : ∀ j (hj : j < 8), j ≤ lo → r.data ⟨j, hj⟩ = val.data ⟨j, hj⟩ := by
      intro j hj hle
      rw [hwords j hj, if_neg (by omega)]
    refine ⟨⟨Function.update r.data ⟨lo, by omega⟩ (new lo)⟩, ?_, ?_⟩
    · rw [List.range'_succ, List.reverse_cons, List.foldlM_append, hr]
      simp only [Option.bind_eq_bind, Option.bind_some, List.foldlM_cons, List.foldlM_nil,
        hstep r lo (by omega) (Nat.le_refl lo) hbelow]
      rfl
    · intro i hi
      simp only [Function.update_apply, Fin.mk.injEq]
      by_cases hilo : i = lo
      · subst hilo
        simp
      · rw [if_neg hilo, hwords i hi]
        simp only [show lo + 1 ≤ i ↔ lo ≤ i by omega]

/-- Whole words. -/
theorem moveWords_spec (val : UInt256) {q : Nat} (hq : q < 8) :
    ∃ r, moveWords val q ⟨fun _ => 0#32⟩ = some r ∧ r.toNat = val.toNat * 2 ^ (32 * q) % 2 ^ 256 := by
  obtain ⟨r, hr, hwords⟩ := loop_down ⟨fun _ => 0#32⟩
    (fun result i => do setWord result i (← getBits val (i - q)))
    (fun i => if h : i - q < 8 then val.data ⟨i - q, h⟩ else 0#32) q (Nat.le_of_lt hq) (by
      intro r i hi hle _
      rw [getBits_eq val (by omega), Option.bind_eq_bind, Option.bind_some, setWord_eq r hi,
        dif_pos (by omega)])
  refine ⟨r, hr, value_moveWords q fun i hi => ?_⟩
  rw [hwords i hi, dif_pos (by omega)]

/-- Bits from word to word. -/
theorem moveBits_spec (val : UInt256) {b : Nat} (hb : b < 32) (h0 : b ≠ 0) :
    ∃ r r', ((List.range' 1 7).reverse).foldlM (moveBits b) val = some r ∧
      (do setWord r 0 (← shl (← getBits r 0) b)) = some r' ∧ r'.toNat = val.toNat * 2 ^ b % 2 ^ 256 := by
  obtain ⟨r, hr, hwords⟩ := loop_down val (moveBits b)
    (fun i => if h : i < 8 then
      val.data ⟨i, h⟩ <<< b ||| val.data ⟨i - 1, by omega⟩ >>> (32 - b) else 0#32) 1 (by omega) (by
      intro r i hi hle hsame
      have hshl (x : BitVec 32) : shl x b = some (x <<< b) := if_pos hb
      have hshr (x : BitVec 32) : shr x (32 - b) = some (x >>> (32 - b)) := if_pos (by omega)
      rw [moveBits, getBits_eq r hi, getBits_eq r (by omega), hsame i hi (Nat.le_refl i),
        hsame (i - 1) (by omega) (by omega), dif_pos hi]
      simp only [Option.bind_eq_bind, Option.bind_some, hshl, hshr]
      exact setWord_eq r hi _)
  have hfirst : (do setWord r 0 (← shl (← getBits r 0) b)) =
      some ⟨Function.update r.data ⟨0, by omega⟩ (val.data ⟨0, by omega⟩ <<< b)⟩ := by
    have hsame := hwords 0 (by omega)
    rw [if_neg (by omega)] at hsame
    rw [getBits_eq r (by omega), hsame]
    simp only [Option.bind_eq_bind, Option.bind_some, shl, if_pos hb]
    exact setWord_eq r (by omega) _
  refine ⟨r, _, hr, hfirst, value_moveBits hb fun i hi => ?_⟩
  simp only [Function.update_apply, Fin.mk.injEq]
  by_cases hi0 : i = 0
  · subst hi0
    simp
  · rw [if_neg hi0, if_neg hi0, hwords i hi, if_pos (by omega), dif_pos hi]

/-- **`uint256_lshift`** -/
theorem lshift_spec (val : UInt256) {shift : Nat} (h : shift < 256) :
    ∃ r, lshift val shift = some r ∧ r.toNat = val.toNat * 2 ^ shift % 2 ^ 256 := by
  have hq : shift >>> 5 = shift / 32 := Nat.shiftRight_eq_div_pow shift 5
  have hb : shift &&& 31 = shift % 32 := Nat.and_two_pow_sub_one_eq_mod shift 5
  obtain ⟨r, hmove, hr⟩ := moveWords_spec val (show shift / 32 < 8 by omega)
  rw [lshift, if_pos h]
  simp only [hq, hb, hmove, Option.bind_eq_bind, Option.bind_some]
  by_cases h0 : shift % 32 = 0
  · refine ⟨r, by simp [h0], ?_⟩
    rw [hr, show 32 * (shift / 32) = shift by omega]
  · obtain ⟨r₁, r₂, hloop, hlast, hr₂⟩ := moveBits_spec r (show shift % 32 < 32 by omega) h0
    refine ⟨r₂, ?_, ?_⟩
    · rw [if_pos h0, hloop]
      exact hlast
    · rw [hr₂, hr, Nat.mod_mul_mod, Nat.mul_assoc, ← Nat.pow_add, Nat.div_add_mod]

/-- Shifts add up. -/
theorem lshift_lshift (val : UInt256) {s t : Nat} (h : s + t < 256) :
    (lshift val s).bind (lshift · t) = lshift val (s + t) := by
  obtain ⟨once, honce, hvalue⟩ := lshift_spec val (show s < 256 by omega)
  obtain ⟨twice, htwice, hvalue'⟩ := lshift_spec once (show t < 256 by omega)
  obtain ⟨sum, hsum, hvalue''⟩ := lshift_spec val h
  have hsame : twice = sum := by
    apply UInt256.toNat_injective
    rw [hvalue', hvalue'', hvalue, Nat.mod_mul_mod, Nat.mul_assoc, ← Nat.pow_add]
  rw [honce, Option.bind_some, htwice, hsum, hsame]

/-! ## Multiplication -/

theorem isBitSet_eq (val : UInt256) {i : Nat} (hi : i < 256) :
    isBitSet val i = some (val.toNat.testBit i) := by
  have hword : i / 32 < 8 := by omega
  have hplace : 32 * (i / 32) + (i - i / 32 * 32) = i := by omega
  have hbit := testBit_value val.data hword (show i - i / 32 * 32 < 32 by omega)
  rw [hplace] at hbit
  have hmask : 1#32 <<< (i - i / 32 * 32) = BitVec.twoPow 32 (i - i / 32 * 32) := rfl
  have hne : BitVec.twoPow 32 (i - i / 32 * 32) ≠ 0#32 := by
    intro h
    have := congrArg BitVec.toNat h
    rw [BitVec.toNat_twoPow_of_lt (by omega)] at this
    exact absurd this (Nat.ne_of_gt (Nat.two_pow_pos _))
  rw [isBitSet, getBits_eq val hword, toNat_eq_value, hbit]
  simp only [Option.bind_eq_bind, Option.bind_some, Option.pure_def, hmask, BitVec.and_twoPow]
  cases (val.data ⟨i / 32, hword⟩).getLsbD (i - i / 32 * 32) <;> simp [hne]

/-- One round: bit `i` of the left factor adds the right one, shifted. -/
theorem mulRound_spec {product : UInt256} {i : Nat} (hi : i < 256)
    (h : product.toNat = left.toNat % 2 ^ i * right.toNat % 2 ^ 256) :
    ∃ p, mulRound left right product i = some p ∧
      p.toNat = left.toNat % 2 ^ (i + 1) * right.toNat % 2 ^ 256 := by
  have hbits : left.toNat % 2 ^ (i + 1) = left.toNat % 2 ^ i + 2 ^ i * (left.toNat.testBit i).toNat := by
    rw [Nat.mod_pow_succ, Nat.toNat_testBit]
  rw [mulRound, isBitSet_eq left hi, hbits]
  cases left.toNat.testBit i with
  | false => exact ⟨product, rfl, by simpa using h⟩
  | true =>
    obtain ⟨term, hshift, hterm⟩ := lshift_spec right hi
    refine ⟨add product term, by simp [hshift], ?_⟩
    rw [add_toNat, h, hterm, ← Nat.add_mod, Bool.toNat_true, Nat.mul_one, Nat.add_mul,
      Nat.mul_comm right.toNat]

/-- The invariant of the loop. -/
theorem mulRounds_spec (left right : UInt256) {k : Nat} (hk : k ≤ 256) :
    ∃ p, mulRounds left right k = some p ∧ p.toNat = left.toNat % 2 ^ k * right.toNat % 2 ^ 256 := by
  induction k with
  | zero =>
    refine ⟨⟨fun _ => 0#32⟩, rfl, ?_⟩
    simp [UInt256.toNat, List.ofFn_succ, Nat.ofDigits_cons, Nat.mod_one]
  | succ k ih =>
    obtain ⟨product, hrun, hproduct⟩ := ih (Nat.le_of_lt hk)
    obtain ⟨p, hround, hp⟩ := mulRound_spec hk hproduct
    refine ⟨p, ?_, hp⟩
    rw [mulRounds, List.range_succ, List.foldlM_append, ← mulRounds, hrun]
    simp [hround]

/-! ## The functions -/

/-- **Addition, negation and subtraction** are arithmetic modulo `2 ^ 256`; the carry is a bit, and no
64-bit sum wraps. -/
theorem add_sub_negate (a b : UInt256) :
    (add a b).toNat = (a.toNat + b.toNat) % 2 ^ 256 ∧
      (negate a).toNat = (2 ^ 256 - a.toNat) % 2 ^ 256 ∧
      ((sub a b).toNat : Int) = ((a.toNat : Int) - b.toNat) % 2 ^ 256 ∧
      (∀ k ≤ 8, (addRounds a b k).2.toNat ≤ 1) ∧
      ∀ i : Fin 8, (unitSum a b (addRounds a b i).2 i).toNat =
        (a.data i).toNat + (b.data i).toNat + (addRounds a b i).2.toNat := by
  refine ⟨add_toNat a b, negate_toNat a, sub_toNat a b, ?_, ?_⟩
  · intro k hk
    exact (addRounds_spec a b hk).carry
  · intro i
    exact unitSum_toNat a b (addRounds_spec a b (Nat.le_of_lt i.isLt)).carry i

/-- **Multiplication** is exact modulo `2 ^ 256`. Every bit test and every shift that the loop asks for
is defined. -/
theorem mul_exact (a b : UInt256) :
    (∃ p, mul a b = some p ∧ p.toNat = a.toNat * b.toNat % 2 ^ 256) ∧
      (∀ i ≤ 256, ∃ p, mulRounds a b i = some p ∧ p.toNat = a.toNat % 2 ^ i * b.toNat % 2 ^ 256) ∧
      ∀ i < 256, isBitSet a i = some (a.toNat.testBit i) ∧ (lshift b i).isSome := by
  refine ⟨?_, fun i hi => mulRounds_spec a b hi, fun i hi => ⟨isBitSet_eq a hi, ?_⟩⟩
  · obtain ⟨p, hrun, hp⟩ := mulRounds_spec a b (Nat.le_refl 256)
    refine ⟨p, hrun, ?_⟩
    rw [hp, Nat.mod_eq_of_lt a.toNat_lt]
  · obtain ⟨r, hr, -⟩ := lshift_spec b hi
    rw [hr]
    rfl

/-- **A left shift** multiplies by a power of two modulo `2 ^ 256`, and two shifts are the shift by the
sum. The model traps at an index above 7 and at a word shifted by 32 bits or more; neither happens. -/
theorem lshift_exact (v : UInt256) {shift : Nat} (h : shift < 256) :
    (∃ r, lshift v shift = some r ∧ r.toNat = v.toNat * 2 ^ shift % 2 ^ 256) ∧
      ∀ t, shift + t < 256 → (lshift v shift).bind (lshift · t) = lshift v (shift + t) :=
  ⟨lshift_spec v h, fun _ ht => lshift_lshift v ht⟩

/-- By a word and a bit, then by two words. -/
theorem lshift_exact_33 :
    (∃ r, lshift ⟨fun _ => 0x80000001#32⟩ 33 = some r ∧
      r.toNat = (⟨fun _ => 0x80000001#32⟩ : UInt256).toNat * 2 ^ 33 % 2 ^ 256) ∧
      (lshift ⟨fun _ => 0x80000001#32⟩ 33).bind (lshift · 64) = lshift ⟨fun _ => 0x80000001#32⟩ 97 := by
  obtain ⟨hvalue, hsum⟩ := lshift_exact ⟨fun _ => 0x80000001#32⟩ (show 33 < 256 by decide)
  exact ⟨hvalue, hsum 64 (by decide)⟩

end CsfAssignments.Uint256
