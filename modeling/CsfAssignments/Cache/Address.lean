import Mathlib.Data.Nat.Log
import CsfAssignments.Cache.Model
/-!
# Accepted geometries and the address decomposition (`args.cpp:6-35`, `cache.h:66-71`)

`parse_args` checks each parameter alone; `get_tag` divides by a 32-bit product of two of them.
`Accepted` is what an accepted command line promises, `Geometry` adds that the product fits, and
under `Geometry` an address is its block and its offset, the block its tag and its index.
-/

namespace CsfAssignments.CacheSim

/-! ## What `parse_args` promises -/

/-- A configuration `parse_args` accepts. -/
structure Accepted (config : CacheConfig) : Prop where
  sets : ∃ k, k ≤ 30 ∧ config.numSets.toNat = 2 ^ k
  blocks : ∃ k, k ≤ 30 ∧ config.numBlocks.toNat = 2 ^ k
  size : ∃ k, 2 ≤ k ∧ k ≤ 30 ∧ config.blockSize.toNat = 2 ^ k
  write : config.writeAllocate = true ∨ config.writeThrough = true

/-- An accepted configuration whose `num_sets * block_size` does not wrap. -/
structure Geometry (config : CacheConfig) : Prop extends Accepted config where
  fits : config.numSets.toNat * config.blockSize.toNat < 2 ^ 32

theorem isPowerOf2_spec {n : UInt32} (h : isPowerOf2 n.toInt32 = true) :
    ∃ k, k ≤ 30 ∧ n.toNat = 2 ^ k := by
  simp only [isPowerOf2, Bool.and_eq_true, decide_eq_true_eq, beq_iff_eq] at h
  obtain ⟨hpos, hand⟩ := h
  have hlt : 0 < n.toNat ∧ n.toNat < 2 ^ 31 := by
    have h1 : (0 : Int) < n.toBitVec.toInt := by
      have := Int32.lt_iff_toInt_lt.1 hpos
      exact this
    rw [BitVec.toInt_eq_toNat_cond] at h1
    have h2 := n.toBitVec.isLt
    have h3 : n.toBitVec.toNat = n.toNat := rfl
    split at h1 <;> omega
  have hbv : n.toBitVec &&& (n.toBitVec - 1) = 0 := by
    have := congrArg Int32.toBitVec hand
    simpa using this
  have hnat : n.toNat &&& (n.toNat - 1) = 0 := by
    have h1 := congrArg BitVec.toNat hbv
    rw [BitVec.toNat_and, BitVec.toNat_sub_of_le] at h1
    · simpa using h1
    · rw [BitVec.le_def]
      exact hlt.1
  obtain ⟨k, hk⟩ := (Nat.and_sub_one_eq_zero_iff_isPowerOfTwo (by omega)).1 hnat
  refine ⟨k, ?_, hk⟩
  have : 2 ^ k < 2 ^ 31 := by omega
  have := (Nat.pow_lt_pow_iff_right (by decide : 1 < 2)).1 this
  omega

theorem bind_eq_ok {ε α β : Type} {x : Except ε α} {f : α → Except ε β} {b : β} :
    (x >>= f) = .ok b ↔ ∃ a, x = .ok a ∧ f a = .ok b := by
  cases x <;> simp [bind, Except.bind]

/-- `parse_args` accepts a configuration only after all of its checks. -/
theorem parseArgs_accepted {argv : List String} {config : CacheConfig}
    (h : parseArgs argv = .ok config) : Accepted config := by
  unfold parseArgs at h
  split at h
  · rename_i sets blocks blocksize alloc write replacement
    simp only at h
    split at h
    · cases h
    rename_i hpow
    simp only [Bool.or_eq_true, Bool.not_eq_true', not_or, Bool.not_eq_false] at hpow
    obtain ⟨⟨hs, hb⟩, hz⟩ := hpow
    split at h
    · cases h
    rename_i hfour
    obtain ⟨writeAllocate, -, h⟩ := bind_eq_ok.1 h
    obtain ⟨writeThrough, -, h⟩ := bind_eq_ok.1 h
    split at h
    · cases h
    rename_i hwrite
    obtain ⟨isLru, -, h⟩ := bind_eq_ok.1 h
    cases h
    obtain ⟨k, hk, hsize⟩ := isPowerOf2_spec hz
    refine ⟨isPowerOf2_spec hs, isPowerOf2_spec hb, ⟨k, ?_, hk, hsize⟩, ?_⟩
    · by_contra hlt
      have hle : 2 ^ k ≤ 2 ^ 1 := Nat.pow_le_pow_right (by decide) (by omega)
      refine hfour (UInt32.lt_iff_toNat_lt.2 ?_)
      have h4 : (4 : UInt32).toNat = 4 := rfl
      omega
    · cases writeAllocate <;> simp_all
  · cases h

theorem Accepted.sets_pos {config : CacheConfig} (h : Accepted config) :
    0 < config.numSets.toNat := by
  obtain ⟨k, -, hk⟩ := h.sets
  rw [hk]; exact Nat.two_pow_pos k

theorem Accepted.blocks_pos {config : CacheConfig} (h : Accepted config) :
    0 < config.numBlocks.toNat := by
  obtain ⟨k, -, hk⟩ := h.blocks
  rw [hk]; exact Nat.two_pow_pos k

theorem Accepted.size_pos {config : CacheConfig} (h : Accepted config) :
    0 < config.blockSize.toNat := by
  obtain ⟨k, -, -, hk⟩ := h.size
  rw [hk]; exact Nat.two_pow_pos k

/-! ## Tag and index of an address -/

/-- The block number of an address, and the set it maps to. -/
def CacheConfig.block (config : CacheConfig) (address : UInt32) : Nat :=
  address.toNat / config.blockSize.toNat

def CacheConfig.home (config : CacheConfig) (address : UInt32) : Nat :=
  config.block address % config.numSets.toNat

theorem divU32_of_pos {a b : UInt32} (hb : 0 < b.toNat) : divU32 a b = some (a / b) := by
  have : b ≠ 0 := by rintro rfl; exact absurd hb (by decide)
  simp [divU32, this]

/-- The index needs no more than the parameters' own checks. -/
theorem getIndex_eq {config : CacheConfig} (h : Accepted config) (a : UInt32) :
    config.getIndex a = some (config.home a) := by
  have hs : config.numSets ≠ 0 := by
    intro e; have := h.sets_pos; rw [e] at this; exact absurd this (by decide)
  simp [CacheConfig.getIndex, divU32_of_pos h.size_pos, hs, CacheConfig.home, CacheConfig.block]

theorem home_lt {config : CacheConfig} (h : Accepted config) (a : UInt32) :
    config.home a < config.numSets.toNat := Nat.mod_lt _ h.sets_pos

theorem Geometry.toNat_product {config : CacheConfig} (g : Geometry config) :
    (config.numSets * config.blockSize).toNat = config.numSets.toNat * config.blockSize.toNat := by
  rw [UInt32.toNat_mul, Nat.mod_eq_of_lt g.fits]

theorem getTag_eq {config : CacheConfig} (g : Geometry config) (a : UInt32) :
    ∃ t, config.getTag a = some t ∧ t.toNat = config.block a / config.numSets.toNat := by
  have hp := g.toNat_product
  have hpos : 0 < (config.numSets * config.blockSize).toNat := by
    rw [hp]; exact Nat.mul_pos g.sets_pos g.size_pos
  refine ⟨_, divU32_of_pos hpos, ?_⟩
  rw [UInt32.toNat_div, hp, CacheConfig.block, Nat.div_div_eq_div_mul, Nat.mul_comm]

/-- Two positive powers of two whose product leaves 32 bits have the 32-bit product 0. -/
theorem getTag_traps {config : CacheConfig} (h : Accepted config)
    (hwrap : 2 ^ 32 ≤ config.numSets.toNat * config.blockSize.toNat) (a : UInt32) :
    config.getTag a = none := by
  obtain ⟨k, -, hk⟩ := h.sets
  obtain ⟨m, -, -, hm⟩ := h.size
  rw [hk, hm, ← Nat.pow_add] at hwrap
  have hle : 32 ≤ k + m := (Nat.pow_le_pow_iff_right (by decide : 1 < 2)).1 hwrap
  have hzero : config.numSets * config.blockSize = 0 := by
    apply UInt32.toNat_inj.1
    rw [UInt32.toNat_mul, hk, hm, ← Nat.pow_add]
    exact Nat.mod_eq_zero_of_dvd (Nat.pow_dvd_pow 2 hle)
  simp [CacheConfig.getTag, divU32, hzero]

/-- Safe and exact decomposition: no division traps, the index is in range, and tag and index
determine the block and are determined by it. -/
def DecomposesExactly (config : CacheConfig) : Prop :=
  ∀ a b : UInt32, ∃ ta tb ia ib,
    config.getTag a = some ta ∧ config.getTag b = some tb ∧
    config.getIndex a = some ia ∧ config.getIndex b = some ib ∧
    ia < config.numSets.toNat ∧
    ((ta, ia) = (tb, ib) ↔ a / config.blockSize = b / config.blockSize)

theorem block_inj {config : CacheConfig} {a b : UInt32} :
    a / config.blockSize = b / config.blockSize ↔ config.block a = config.block b := by
  rw [← UInt32.toNat_inj, UInt32.toNat_div, UInt32.toNat_div]; rfl

/-- Quotient and remainder by `n` determine a number. -/
theorem div_mod_inj {n x y : Nat} : x / n = y / n ∧ x % n = y % n ↔ x = y := by
  constructor
  · rintro ⟨hd, hm⟩
    rw [← Nat.div_add_mod x n, ← Nat.div_add_mod y n, hd, hm]
  · rintro rfl; exact ⟨rfl, rfl⟩

/-- **Address decomposition.** An accepted configuration decomposes every address safely and
exactly if and only if `num_sets * block_size` does not wrap around. -/
theorem decomposesExactly_iff {argv : List String} {config : CacheConfig}
    (h : parseArgs argv = .ok config) :
    DecomposesExactly config ↔ config.numSets.toNat * config.blockSize.toNat < 2 ^ 32 := by
  have hacc := parseArgs_accepted h
  constructor
  · intro hd
    by_contra hwrap
    obtain ⟨ta, _, _, _, hta, _⟩ := hd 0 0
    rw [getTag_traps hacc (by omega)] at hta
    cases hta
  · intro hfit a b
    have g : Geometry config := ⟨hacc, hfit⟩
    obtain ⟨ta, hta, ea⟩ := getTag_eq g a
    obtain ⟨tb, htb, eb⟩ := getTag_eq g b
    refine ⟨ta, tb, _, _, hta, htb, getIndex_eq hacc a, getIndex_eq hacc b, home_lt hacc a, ?_⟩
    rw [block_inj, Prod.mk.injEq, ← UInt32.toNat_inj, ea, eb]
    exact div_mod_inj

theorem decomposesExactly_256_4_16 :
    DecomposesExactly ⟨256, 4, 16, true, false, true⟩ :=
  (decomposesExactly_iff
    (show parseArgs ["csim", "256", "4", "16", "write-allocate", "write-back", "lru"] = .ok _
      from rfl)).2 (by decide)

/-- 65536 sets of 65536-byte blocks are accepted, and the very first `get_tag` divides by zero. -/
theorem decomposition_traps_65536 :
    ∃ argv config, parseArgs argv = .ok config ∧ config.getTag 0 = none ∧
      ¬ DecomposesExactly config := by
  refine ⟨["csim", "65536", "1", "65536", "write-allocate", "write-back", "lru"],
    ⟨65536, 1, 65536, true, false, true⟩, rfl, by decide, fun hd => ?_⟩
  obtain ⟨ta, _, _, _, hta, _⟩ := hd 0 0
  exact nomatch (hta : none = some ta)

end CsfAssignments.CacheSim
