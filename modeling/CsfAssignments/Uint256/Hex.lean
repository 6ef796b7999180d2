import CsfAssignments.Lib.Digits
import CsfAssignments.Uint256.Model
import Mathlib.Tactic.Ring
/-!
# Hexadecimal form and back

`hexValue` is the number that a string of digits denotes, `Numeral s n` says that `s` is the numeral of
`n`: lower case, no leading zero. The parser reads words of eight digits from the end
(`createFromHex_toNat`); the formatter writes them from the front (`hexBuf_spec`) and strips zeros
(`stripped`).
-/

namespace CsfAssignments.Uint256

open Nat (ofDigits)
open Digits

variable {c : Char} {s t : CString} {n : Nat}

/-! ## Digits -/

def IsHexDigit (c : Char) : Prop := (digitValue c).isSome

instance (c : Char) : Decidable (IsHexDigit c) := inferInstanceAs (Decidable ((digitValue c).isSome = true))

def value (c : Char) : Nat := (digitValue c).getD 0

theorem value_lt (c : Char) : value c < 16 := by
  unfold value digitValue
  split_ifs with h1 h2 h3
  all_goals
    simp only [Char.le_def, UInt32.le_iff_toNat_le] at *
    simp at *
  all_goals omega

/-- The digits, the least significant first. -/
def digits (hex : CString) : List Nat := hex.reverse.map value

theorem digits_lt (hex : CString) : ∀ v ∈ digits hex, v < 16 := by
  intro v hv
  obtain ⟨c, -, rfl⟩ := List.mem_map.mp hv
  exact value_lt c

def hexValue (s : CString) : Nat := ofDigits 16 (digits s)

theorem digitValue_eq (h : IsHexDigit c) : digitValue c = some (value c) := by
  obtain ⟨v, hv⟩ := Option.isSome_iff_exists.mp h
  rw [value, hv]
  rfl

theorem IsHexDigit.not_space (h : IsHexDigit c) : isSpace c = false := by
  by_contra hs
  simp only [isSpace, Bool.not_eq_false, decide_eq_true_eq] at hs
  have hnone : digitValue c = none := by
    rcases hs with rfl | ⟨hlo, hhi⟩
    · decide
    · unfold digitValue
      simp only [Char.le_def, UInt32.le_iff_toNat_le] at *
      simp at *
      rw [if_neg (by omega), if_neg (by omega), if_neg (by omega)]
  rw [IsHexDigit, hnone] at h
  cases h

theorem leadingDigits_eq (h : ∀ c ∈ s, IsHexDigit c) : leadingDigits s = s.map value := by
  induction s with
  | nil => rfl
  | cons c s ih =>
    rw [leadingDigits, digitValue_eq (h c (by simp))]
    simp only [List.map_cons]
    rw [ih fun c' hc' => h c' (by simp [hc'])]

theorem skipBase_eq (h : ∀ c ∈ s, IsHexDigit c) : skipBase s = s := by
  unfold skipBase
  split
  · rename_i x c t
    have hx : ¬((x = 'x' ∨ x = 'X') ∧ (digitValue c).isSome) := by
      rintro ⟨hx, -⟩
      have hdigit := h x (by simp)
      rcases hx with rfl | rfl <;> exact absurd hdigit (by decide)
    rw [if_neg hx]
  · rfl

theorem hexValue_append (s t : CString) : hexValue (s ++ t) = hexValue t + 16 ^ t.length * hexValue s := by
  rw [hexValue, digits, List.reverse_append, List.map_append, Nat.ofDigits_append]
  simp [hexValue, digits]

theorem hexValue_lt (s : CString) : hexValue s < 16 ^ s.length := by
  have h := Nat.ofDigits_lt_base_pow_length (by omega) (digits_lt s)
  simpa [digits, hexValue] using h

theorem strtoul_eq (h : ∀ c ∈ s, IsHexDigit c) (hlen : s.length ≤ 8) :
    (strtoul s).setWidth 32 = BitVec.ofNat 32 (hexValue s) := by
  have hspace : s.dropWhile isSpace = s := by
    cases s with
    | nil => rfl
    | cons c s => simp [(h c (by simp)).not_space]
  have hvalue : ofDigits 16 (leadingDigits (skipBase s)).reverse = hexValue s := by
    rw [skipBase_eq h, leadingDigits_eq h, hexValue, digits, List.map_reverse]
  have hlt : ¬2 ^ 64 ≤ hexValue s := by
    have := hexValue_lt s
    have := Nat.pow_le_pow_right (n := 16) (by omega) hlen
    omega
  have hstr : strtoul s = BitVec.ofNat 64 (hexValue s) := by
    unfold strtoul
    rw [hspace]
    split
    · exact absurd (h '-' (by simp)) (by decide)
    · exact absurd (h '+' (by simp)) (by decide)
    · simp only [hvalue, if_neg hlt]
  rw [hstr, BitVec.setWidth_ofNat_of_le (by omega)]

/-! ## Parsing -/

/-- Word `k` of the result. -/
def word (hex : CString) (k : Nat) : BitVec 32 := BitVec.ofNat 32 (ofDigits 16 (group 8 (digits hex) k))

/-- The part of the string that the loop copies. -/
theorem hexValue_unit {hex : CString} {k : Nat} (hk : 8 * k < hex.length) :
    hexValue ((hex.drop (hex.length - 8 * k - 8)).take (hex.length - 8 * k - (hex.length - 8 * k - 8))) =
      ofDigits 16 (group 8 (digits hex) k) := by
  rw [hexValue, group, digits, digits, ← List.map_drop, ← List.map_take, List.drop_reverse, List.take_reverse,
    List.length_take, List.drop_take]
  congr 5
  all_goals omega

theorem word_of_le {hex : CString} {k : Nat} (hk : hex.length ≤ 8 * k) : word hex k = 0#32 := by
  have hnil : group 8 (digits hex) k = [] := by
    rw [group, List.drop_eq_nil_of_le (by simpa [digits] using hk), List.take_nil]
  rw [word, hnil]
  rfl

theorem hexLoop_spec {hex : CString} (hhex : ∀ c ∈ hex, IsHexDigit c) {i : Int} {cnt : Nat}
    {units : Fin 8 → BitVec 32} (hi : i = hex.length - 1 - 8 * cnt) (hcnt : cnt ≤ 8)
    (hunits : ∀ k : Fin 8, units k = if k < cnt then word hex k else 0#32) :
    hexLoop hex i cnt units = fun k : Fin 8 => word hex k := by
  induction hm : 8 - cnt generalizing i cnt units with
  | zero =>
    rw [hexLoop, dif_neg (by omega)]
    funext k
    rw [hunits, if_pos (by omega)]
  | succ m ih =>
    by_cases hpos : 0 ≤ i
    · have hguard : 0 ≤ i ∧ cnt < 8 := ⟨hpos, by omega⟩
      rw [hexLoop, dif_pos hguard]
      refine ih (by omega) (by omega) (fun k => ?_) (by omega)
      have hstart : (if i - 7 < 0 then 0 else i - 7).toNat = hex.length - 8 * cnt - 8 := by
        split <;> omega
      have hlen : (i - (if i - 7 < 0 then 0 else i - 7) + 1).toNat =
          hex.length - 8 * cnt - (hex.length - 8 * cnt - 8) := by
        split <;> omega
      by_cases hk : k = ⟨cnt, hguard.2⟩
      · subst hk
        rw [Function.update_self, hstart, hlen, strncpy, if_pos (Nat.lt_succ_self cnt), word,
          ← hexValue_unit (show 8 * cnt < hex.length by omega)]
        refine strtoul_eq (fun c hc => hhex c ?_) ?_
        · exact List.mem_of_mem_drop (List.mem_of_mem_take hc)
        · rw [List.length_take]
          omega
      · have hne : k.val ≠ cnt := fun h => hk (Fin.ext h)
        rw [Function.update_of_ne hk, hunits]
        split_ifs <;> first | rfl | omega
    · rw [hexLoop, dif_neg (by omega)]
      funext k
      rw [hunits]
      split
      · rfl
      · exact (word_of_le (by omega)).symm

theorem createFromHex_eq {hex : CString} (hhex : ∀ c ∈ hex, IsHexDigit c) (hlen : hex.length < 2 ^ 31) :
    createFromHex hex = ⟨fun k => word hex k⟩ := by
  have hint : (BitVec.ofNat 32 hex.length).toInt = hex.length := by
    rw [BitVec.toInt_ofNat', Int.bmod_def]
    omega
  rw [createFromHex, hint]
  exact congrArg UInt256.mk (hexLoop_spec hhex (by omega) (by omega) fun k => by simp)

/-- The number is the one that the last 64 digits denote. -/
theorem createFromHex_toNat {hex : CString} (hhex : ∀ c ∈ hex, IsHexDigit c)
    (hlen : hex.length < 2 ^ 31) : (createFromHex hex).toNat = hexValue hex % 2 ^ 256 := by
  have hgroup (k : Nat) : (word hex k).toNat = ofDigits 16 (group 8 (digits hex) k) := by
    have hlt := Nat.ofDigits_lt_base_pow_length (b := 16) (l := group 8 (digits hex) k) (by omega) (by
      intro v hv
      exact digits_lt hex v (List.mem_of_mem_drop (List.mem_of_mem_take hv)))
    have hpow : 16 ^ (group 8 (digits hex) k).length ≤ 16 ^ 8 :=
      Nat.pow_le_pow_right (by omega) (by simp [group])
    rw [word, BitVec.toNat_ofNat, Nat.mod_eq_of_lt (by omega)]
  have hwords : (List.ofFn fun k : Fin 8 => (word hex k).toNat) =
      (List.range 8).map fun k => ofDigits 16 (group 8 (digits hex) k) := by
    apply List.ext_getElem (by simp)
    intro k h1 h2
    simp only [List.getElem_ofFn, List.getElem_map, List.getElem_range, hgroup]
  have hmod := Nat.ofDigits_mod_pow_eq_ofDigits_take 64 (by omega : 0 < 16) (digits hex)
    (digits_lt hex)
  rw [createFromHex_eq hhex hlen, UInt256.toNat, hwords, hexValue]
  have hbase : (2 : Nat) ^ 32 = 16 ^ 8 := by norm_num
  have hsize : (2 : Nat) ^ 256 = 16 ^ 64 := by norm_num
  rw [hbase, ofDigits_groups, hsize]
  exact hmod.symm

/-! ## Formatting -/

def lowerHex : List Char := "0123456789abcdef".toList

/-- The numeral of `n`: lower case, without leading zeros. -/
structure Numeral (s : CString) (n : Nat) : Prop where
  lower : ∀ c ∈ s, c ∈ lowerHex
  denotes : hexValue s = n
  leading : s.head? = some '0' → s = ['0']
  nonempty : s ≠ []

theorem isHexDigit_of_lower (h : c ∈ lowerHex) : IsHexDigit c := by
  have hall : lowerHex.all (fun c => decide (IsHexDigit c)) = true := by decide
  exact of_decide_eq_true (List.all_eq_true.mp hall c h)

theorem ne_nul_of_lower (h : c ∈ lowerHex) : c ≠ nul := by
  have hall : lowerHex.all (fun c => decide (c ≠ nul)) = true := by decide
  exact of_decide_eq_true (List.all_eq_true.mp hall c h)

theorem digitChar_spec (hn : n < 16) : Nat.digitChar n ∈ lowerHex ∧ value (Nat.digitChar n) = n := by
  revert n
  decide

theorem hexValue_singleton (c : Char) : hexValue [c] = value c := by
  simp [hexValue, digits]

/-- `%x`. -/
theorem toDigits_spec (n : Nat) :
    (∀ c ∈ Nat.toDigits 16 n, c ∈ lowerHex) ∧ hexValue (Nat.toDigits 16 n) = n := by
  induction n using Nat.strongRecOn with
  | ind n ih =>
    by_cases hn : n < 16
    · obtain ⟨hlower, hval⟩ := digitChar_spec hn
      rw [Nat.toDigits_of_lt_base hn]
      exact ⟨by simpa using hlower, by rw [hexValue_singleton, hval]⟩
    · obtain ⟨hlower, hval⟩ := ih (n / 16) (by omega)
      obtain ⟨hlower', hval'⟩ := digitChar_spec (Nat.mod_lt n (by omega : 0 < 16))
      rw [Nat.toDigits_of_base_le (by omega) (by omega)]
      constructor
      · intro c hc
        rcases List.mem_append.mp hc with hc | hc
        · exact hlower c hc
        · rwa [List.mem_singleton.mp hc]
      · rw [hexValue_append, hexValue_singleton, hval, hval', List.length_singleton]
        omega

theorem hexValue_zeros (k : Nat) : hexValue (List.replicate k '0') = 0 := by
  have hzero : value '0' = 0 := rfl
  rw [hexValue, digits, List.reverse_replicate, List.map_replicate, hzero, Nat.ofDigits_replicate_zero]

/-- `%08x`. -/
theorem sprintf_spec (unit : BitVec 32) : (sprintf unit).length = 8 ∧
    (∀ c ∈ sprintf unit, c ∈ lowerHex) ∧ hexValue (sprintf unit) = unit.toNat := by
  obtain ⟨hlower, hval⟩ := toDigits_spec unit.toNat
  have hlen : (Nat.toDigits 16 unit.toNat).length ≤ 8 :=
    (Nat.length_toDigits_le_iff (by omega) (by omega)).mpr unit.isLt
  unfold sprintf
  refine ⟨by simp [hlen], ?_, ?_⟩
  · intro c hc
    rcases List.mem_append.mp hc with hc | hc
    · obtain ⟨-, rfl⟩ := List.mem_replicate.mp hc
      decide
    · exact hlower c hc
  · rw [hexValue_append, hexValue_zeros, hval, Nat.mul_zero, Nat.add_zero]

/-- The first `k` words in the buffer, the most significant first. -/
def front (val : UInt256) (k : Nat) : CString :=
  (List.range k).flatMap fun i => sprintf (val.data ⟨7 - i, by omega⟩)

theorem front_succ (val : UInt256) (k : Nat) :
    front val (k + 1) = front val k ++ sprintf (val.data ⟨7 - k, by omega⟩) := by
  simp [front, List.range_succ]

theorem length_front (val : UInt256) (k : Nat) : (front val k).length = 8 * k := by
  induction k with
  | zero => rfl
  | succ k ih =>
    rw [front_succ, List.length_append, ih, (sprintf_spec _).1]
    omega

theorem lower_front (val : UInt256) (k : Nat) : ∀ c ∈ front val k, c ∈ lowerHex := by
  intro c hc
  obtain ⟨i, -, hc⟩ := List.mem_flatMap.mp hc
  exact (sprintf_spec _).2.1 c hc

theorem hexValue_front (val : UInt256) : hexValue (front val 8) = val.toNat := by
  have hnil : hexValue (front val 0) = 0 := rfl
  simp only [front_succ, hexValue_append, (sprintf_spec _).1, (sprintf_spec _).2.2, hnil]
  simp [UInt256.toNat, List.ofFn_succ, Nat.ofDigits_cons]

theorem writeAt_append {a b : List Char} (hfit : s.length ≤ b.length) :
    writeAt (a ++ b) a.length s = some (a ++ s ++ b.drop s.length) := by
  rw [writeAt, if_pos (by simpa using hfit), List.take_left, ← List.drop_drop, List.drop_left]

/-- The loop over the words, after `k` rounds. -/
theorem hexBuf_spec (val : UInt256) {k : Nat} (hk : k ≤ 8) :
    (List.range k).foldlM (fun buf i => do
      let unit ← getBits val (7 - i)
      writeAt buf (i * 8) (sprintf unit ++ [nul])) (List.replicate 65 nul) =
      some (front val k ++ List.replicate (65 - 8 * k) nul) := by
  induction k with
  | zero => rfl
  | succ k ih =>
    have hbits : getBits val (7 - k) = some (val.data ⟨7 - k, by omega⟩) := dif_pos (by omega)
    rw [List.range_succ, List.foldlM_append, ih (by omega)]
    simp only [List.foldlM_cons, List.foldlM_nil, hbits, Option.bind_eq_bind, Option.bind_some]
    have hlen : (sprintf (val.data ⟨7 - k, by omega⟩) ++ [nul]).length = 9 := by
      simp [(sprintf_spec _).1]
    have hpos : k * 8 = (front val k).length := by
      rw [length_front, Nat.mul_comm]
    have hrest : 65 - 8 * k - 9 + 1 = 65 - 8 * (k + 1) := by omega
    rw [hpos, writeAt_append (by rw [hlen, List.length_replicate]; omega), hlen, List.drop_replicate,
      Option.bind_some, front_succ, ← hrest, List.replicate_succ]
    simp

/-! ## Stripping -/

theorem skipZeros_spec (buf : List Char) {start : Nat} (hs : start ≤ 63) :
    skipZeros buf start ≤ 63 ∧ (∀ k, start ≤ k → k < skipZeros buf start → buf[k]? = some '0') ∧
      (skipZeros buf start = 63 ∨ buf[skipZeros buf start]? ≠ some '0') := by
  fun_induction skipZeros buf start with
  | case1 start h ih =>
    obtain ⟨h1, h2, h3⟩ := ih (by omega)
    refine ⟨h1, ?_, h3⟩
    intro k hk hlt
    rcases Nat.eq_or_lt_of_le hk with rfl | hne
    · exact h.1
    · exact h2 k hne hlt
  | case2 start h =>
    refine ⟨hs, fun k hk hlt => absurd hlt (by omega), ?_⟩
    by_cases h63 : start = 63
    · exact .inl h63
    · exact .inr fun h0 => h ⟨h0, by omega⟩

/-- What is left of 64 digits is a numeral. -/
theorem stripped (hlen : s.length = 64) (hlower : ∀ c ∈ s, c ∈ lowerHex) :
    skipZeros (s ++ [nul]) 0 ≤ 63 ∧ Numeral (s.drop (skipZeros (s ++ [nul]) 0)) (hexValue s) := by
  obtain ⟨hle, hzeros, hstop⟩ := skipZeros_spec (s ++ [nul]) (Nat.zero_le 63)
  generalize skipZeros (s ++ [nul]) 0 = r at hle hzeros hstop ⊢
  have hget {k : Nat} (hk : k < 64) : (s ++ [nul])[k]? = s[k]? :=
    List.getElem?_append_left (by omega)
  refine ⟨hle, fun c hc => hlower c (List.mem_of_mem_drop hc), ?_, ?_, ?_⟩
  · have htake : s.take r = List.replicate r '0' := by
      apply List.ext_getElem
      · simp [hlen]
        omega
      · intro k h1 h2
        have hk : k < r := by simpa using h2
        have hz := hzeros k (Nat.zero_le k) hk
        rw [hget (by omega), List.getElem?_eq_some_iff] at hz
        obtain ⟨_, hz⟩ := hz
        simp [hz]
    conv_rhs => rw [← List.take_append_drop r s, htake]
    rw [hexValue_append, hexValue_zeros, Nat.mul_zero, Nat.add_zero]
  · intro h
    rw [List.head?_drop] at h
    rw [hget (by omega)] at hstop
    obtain rfl : r = 63 := by
      rcases hstop with hstop | hstop
      · exact hstop
      · exact absurd h hstop
    have hone : (s.drop 63).length = 1 := by rw [List.length_drop, hlen]
    obtain ⟨c, hc⟩ := List.length_eq_one_iff.mp hone
    rw [← List.head?_drop, hc] at h
    rw [hc, Option.some.inj h]
  · intro h
    have := congrArg List.length h
    rw [List.length_drop, hlen, List.length_nil] at this
    omega

theorem takeWhile_lower (hlower : ∀ c ∈ s, c ∈ lowerHex) :
    (s ++ [nul]).takeWhile (· ≠ nul) = s := by
  rw [List.takeWhile_append_of_pos fun c hc => by simpa using ne_nul_of_lower (hlower c hc)]
  simp

/-- The formatter returns the numeral, if `malloc` does. -/
theorem formatAsHex_spec (malloc : Nat → Bool) (val : UInt256) :
    ∃ s, Numeral s val.toNat ∧ s.length ≤ 64 ∧
      formatAsHex malloc val = some (if malloc (s.length + 1) then some s else none) := by
  have hlen : (front val 8).length = 64 := length_front val 8
  obtain ⟨hle, hnum⟩ := stripped hlen (lower_front val 8)
  have hbuf := hexBuf_spec val (Nat.le_refl 8)
  rw [hexValue_front] at hnum
  have hnul : List.replicate (65 - 8 * 8) nul = [nul] := rfl
  rw [hnul] at hbuf
  unfold formatAsHex
  rw [hbuf]
  simp only [Option.bind_eq_bind, Option.bind_some]
  generalize skipZeros (front val 8 ++ [nul]) 0 = r at hle hnum ⊢
  have hslen : ((front val 8).drop r).length = 64 - r := by rw [List.length_drop, hlen]
  refine ⟨_, hnum, by omega, ?_⟩
  have hsrc : ((front val 8 ++ [nul]).drop r).takeWhile (· ≠ nul) = (front val 8).drop r := by
    rw [List.drop_append_of_le_length (by omega), takeWhile_lower hnum.lower]
  have hcopy : writeAt (List.replicate (64 - r + 1) nul) 0 ((front val 8).drop r ++ [nul]) =
      some ((front val 8).drop r ++ [nul]) := by
    have h := writeAt_append (a := []) (b := List.replicate (64 - r + 1) nul)
      (s := (front val 8).drop r ++ [nul]) (by simp [hslen])
    simpa [hslen] using h
  have hset : ((front val 8).drop r ++ [nul]).set (64 - r) nul = (front val 8).drop r ++ [nul] := by
    rw [← hslen, List.set_append_right _ _ (Nat.le_refl _), Nat.sub_self]
    rfl
  simp only [hsrc, hcopy, hset, takeWhile_lower hnum.lower, hslen, Option.pure_def, Option.bind_some]
  split <;> rfl

/-! ## Formatting and parsing are inverse -/

theorem Numeral.isHexDigit (h : Numeral s n) : ∀ c ∈ s, IsHexDigit c := fun c hc =>
  isHexDigit_of_lower (h.lower c hc)

/-- The last 64 digits. -/
theorem hexValue_last (s : CString) : hexValue (s.drop (s.length - 64)) = hexValue s % 2 ^ 256 := by
  have hsize : (2 : Nat) ^ 256 = 16 ^ 64 := by norm_num
  have hlast : digits (s.drop (s.length - 64)) = (digits s).take 64 := by
    rw [digits, digits, ← List.map_take, List.take_reverse]
  rw [hexValue, hexValue, hlast, hsize]
  exact (Nat.ofDigits_mod_pow_eq_ofDigits_take 64 (by omega) (digits s) (digits_lt s)).symm

/-- **Formatting and parsing are inverse.** The formatter returns the numeral of the number, or `NULL`
when `malloc` has no room for it. -/
theorem hex_inverse (malloc : Nat → Bool) :
    (∀ val, ∃ s, formatAsHex malloc val = some (if malloc (s.length + 1) then some s else none) ∧
      Numeral s val.toNat ∧ createFromHex s = val) ∧
    ∀ s : CString, (∀ c ∈ s, IsHexDigit c) → s.length ≤ 2147483647 →
      (createFromHex s).toNat = hexValue s % 2 ^ 256 ∧
      ∃ t, formatAsHex malloc (createFromHex s) =
          some (if malloc (t.length + 1) then some t else none) ∧
        Numeral t (hexValue (s.drop (s.length - 64))) := by
  constructor
  · intro val
    obtain ⟨s, hnum, hlen, hformat⟩ := formatAsHex_spec malloc val
    refine ⟨s, hformat, hnum, UInt256.toNat_injective ?_⟩
    rw [createFromHex_toNat hnum.isHexDigit (by omega), hnum.denotes, Nat.mod_eq_of_lt val.toNat_lt]
  · intro s hhex hlen
    have hvalue := createFromHex_toNat hhex (by omega)
    obtain ⟨t, hnum, -, hformat⟩ := formatAsHex_spec malloc (createFromHex s)
    rw [hvalue, ← hexValue_last] at hnum
    exact ⟨hvalue, t, hformat, hnum⟩

theorem hex_inverse_mixed_case :
    (createFromHex "00aB".toList).toNat = hexValue "00aB".toList % 2 ^ 256 ∧
      ∃ t, formatAsHex (fun _ => true) (createFromHex "00aB".toList) = some (some t) ∧
        Numeral t (hexValue "00aB".toList) :=
  (hex_inverse fun _ => true).2 "00aB".toList
    (fun c h => of_decide_eq_true (List.all_eq_true.mp
      (show "00aB".toList.all (fun c => decide (IsHexDigit c)) = true by decide) c h)) (by decide)

end CsfAssignments.Uint256
