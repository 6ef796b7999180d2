import CsfAssignments.Cache.Cycles
/-!
# The memory cost of a miss (`cache.cpp:64-85`, `:127-153`)

`load` computes `100ULL * block_size / 4`, 64 bits wide; `save` computes `100 * block_size / 4` in the
32 bits of `block_size` and widens the quotient. `parse_args` admits block sizes up to `2^30`, and from
`2^26` on the second product wraps, so a store pays less for the same block.
-/

namespace CsfAssignments.CacheSim

/-- A fill evicts a dirty block. -/
def CacheSet.evictsDirty (set : CacheSet) (isLru : Bool) : Bool := (set.evictee isLru).any Prod.snd

/-- 25 cycles for each byte of the block, as much again for a dirty block under write-back, and the
cycles of the access itself. -/
def CacheSet.missCycles (set : CacheSet) (config : CacheConfig) (store : Bool) : Nat :=
  25 * config.blockSize.toNat +
    (if set.evictsDirty config.isLru && !config.writeThrough then 25 * config.blockSize.toNat else 0) +
    if store && config.writeThrough then 101 else 1

/-- Whatever the run so far and whatever the address, a miss that fills charges its `missCycles`. -/
def MissesChargeExactly (config : CacheConfig) : Prop :=
  ∀ fifo past c a tag set, (Cache.new config fifo).run past = some c → c.Fills a tag set →
    ∃ c', c.access a = some c' ∧
      c'.stats.totalCycles = c.stats.totalCycles + UInt64.ofNat (set.missCycles config a.store)

/-! ## One miss -/

section
variable {config : CacheConfig} {set : CacheSet} {tag : UInt32}

/-- The charge for the bytes of a block is 25 cycles a byte on a load, and on a store of a block below
64 MiB. -/
theorem memory_exact_iff (h : Accepted config) (store : Bool) :
    (if store then 100 * config.blockSize.toNat % 2 ^ 32 / 4 else 25 * config.blockSize.toNat) =
      25 * config.blockSize.toNat ↔ store = false ∨ config.blockSize.toNat < 2 ^ 26 := by
  obtain ⟨k, -, -, hk⟩ := h.size
  cases store
  · simp
  · have hpower : config.blockSize.toNat < 2 ^ 26 → config.blockSize.toNat ≤ 2 ^ 25 := by
      intro hlt
      rw [hk] at hlt ⊢
      have hexp := (Nat.pow_lt_pow_iff_right (by decide : 1 < 2)).1 hlt
      exact Nat.pow_le_pow_right (by decide) (by omega)
    simp only [if_true, Bool.true_eq_false, false_or]
    constructor
    · intro hexact
      by_contra hge
      omega
    · intro hlt
      have := hpower hlt
      omega

theorem size_le (h : Accepted config) : config.blockSize.toNat ≤ 2 ^ 30 := by
  obtain ⟨k, -, hle, hk⟩ := h.size
  rw [hk]
  exact Nat.pow_le_pow_right (by decide) hle

/-- **One miss** charges exactly when it is a load or the product of `save` does not wrap. -/
theorem Kept.cost_iff (h : Kept config set) (hacc : Accepted config) {store : Bool}
    (hmiss : set.findHit tag = none) (halloc : (!store || config.writeAllocate) = true) :
    set.cost config store tag = UInt64.ofNat (set.missCycles config store) ↔
      store = false ∨ config.blockSize.toNat < 2 ^ 26 := by
  rw [← memory_exact_iff hacc store]
  have hsize := size_le hacc
  have hmem := memory_toNat config store
  have hle : (if store then 100 * config.blockSize.toNat % 2 ^ 32 / 4
      else 25 * config.blockSize.toNat) ≤ 25 * config.blockSize.toNat := by
    split <;> omega
  rw [← hmem] at hle ⊢
  unfold CacheSet.cost CacheSet.missCycles CacheSet.evictsDirty
  simp only [hmiss, halloc, if_true, h.victim_dirty]
  generalize (if store then (100 * config.blockSize / 4).toUInt64
    else 100 * config.blockSize.toUInt64 / 4) = m at hle ⊢
  have hbase : (if (store && config.writeThrough) = true then (101 : UInt64) else 1).toNat =
      if (store && config.writeThrough) = true then 101 else 1 := by
    split <;> rfl
  have hsmall : (if (store && config.writeThrough) = true then 101 else 1) ≤ 101 := by
    split <;> omega
  generalize (if (store && config.writeThrough) = true then (101 : UInt64) else 1) = u at hbase ⊢
  generalize (if (store && config.writeThrough) = true then 101 else 1) = n at hbase hsmall ⊢
  -- no sum of two blocks and a constant wraps in 64 bits
  rw [← UInt64.toNat_inj, UInt64.toNat_add, UInt64.toNat_add, hbase]
  cases ((set.evictee config.isLru).any Prod.snd && !config.writeThrough)
  · simp only [Bool.false_eq_true, if_false, UInt64.toNat_zero]
    rw [UInt64.toNat_ofNat_of_lt' (show _ < 2 ^ 64 by omega)]
    omega
  · simp only [if_true]
    rw [UInt64.toNat_ofNat_of_lt' (show _ < 2 ^ 64 by omega)]
    omega

end

/-! ## Every run -/

/-- **A miss of a reachable cache** charges exactly when it is a load or the block is below 64 MiB. -/
theorem fill_charge_iff {config : CacheConfig} (hacc : Accepted config) {fifo : UInt64}
    {past : List Access} {c : Cache} (hrun : (Cache.new config fifo).run past = some c) {a : Access}
    {tag : UInt32} {set : CacheSet} (hfill : c.Fills a tag set) :
    (∃ c', c.access a = some c' ∧
      c'.stats.totalCycles = c.stats.totalCycles + UInt64.ofNat (set.missCycles config a.store)) ↔
      a.store = false ∨ config.blockSize.toNat < 2 ^ 26 := by
  have hcfg : c.config = config := run_config past hrun
  have g := hfill.fits hacc hcfg
  have hsets := Kept.run g hrun
  obtain ⟨index, hindex, hset⟩ := hfill.located
  have hcycles : ∀ s : CacheStats, ∀ store hit n,
      ((s.count store hit).charge n).totalCycles = s.totalCycles + n := by
    intro s store hit n
    cases store <;> cases hit <;> rfl
  subst hcfg
  rw [← (hsets set (List.mem_of_getElem? hset)).cost_iff hacc hfill.miss hfill.allocates,
    access_eq hfill.tag_eq hindex hset]
  simp only [Option.some.injEq, exists_eq_left', hcycles, UInt64.add_right_inj]

/-- The first store of a run misses. -/
theorem new_fills {config : CacheConfig} (g : Geometry config) (halloc : config.writeAllocate = true)
    (fifo : UInt64) (address : UInt32) :
    ∃ tag, (Cache.new config fifo).Fills ⟨true, address⟩ tag
      (CacheSet.new config.numBlocks.toNat fifo) := by
  obtain ⟨tag, set, htag, hindex, hset, -⟩ := (Sized.new g fifo).locate address
  rw [mem_new (List.mem_of_getElem? hset)] at hset
  exact ⟨tag, htag, ⟨_, hindex, hset⟩, rfl, halloc⟩

/-- **Exact memory cost**: an accepted configuration charges every miss exactly, unless a store can bring
in a block of 64 MiB or more. With a product that does not fit no access gets as far as a miss. -/
theorem missesChargeExactly_iff {argv : List String} {config : CacheConfig}
    (h : parseArgs argv = .ok config) :
    MissesChargeExactly config ↔ config.writeAllocate = false ∨ config.blockSize.toNat < 2 ^ 26 ∨
      2 ^ 32 ≤ config.numSets.toNat * config.blockSize.toNat := by
  have hacc := parseArgs_accepted h
  constructor
  · intro hexact
    by_contra hcond
    simp only [not_or, Bool.not_eq_false, Nat.not_lt, Nat.not_le] at hcond
    obtain ⟨halloc, hbig, hfit⟩ := hcond
    obtain ⟨tag, hfill⟩ := new_fills ⟨hacc, hfit⟩ halloc 0 0
    have hcharge := hexact 0 [] _ _ _ _ rfl hfill
    rcases (fill_charge_iff hacc (show (Cache.new config 0).run [] = some _ from rfl) hfill).1
        hcharge with hload | hsmall
    · cases hload
    · omega
  · intro hcond fifo past c a tag set hrun hfill
    have hcfg : c.config = config := run_config past hrun
    have hfit := (hfill.fits hacc hcfg).fits
    refine (fill_charge_iff hacc hrun hfill).2 ?_
    rcases hcond with hwa | hsmall | hwrap
    · have halloc := hfill.allocates
      rw [hcfg, hwa, Bool.or_false, Bool.not_eq_true'] at halloc
      exact .inl halloc
    · exact .inr hsmall
    · omega

theorem missesChargeExactly_16 : MissesChargeExactly ⟨256, 4, 16, true, false, true⟩ :=
  (missesChargeExactly_iff
    (show parseArgs ["csim", "256", "4", "16", "write-allocate", "write-back", "lru"] = .ok _
      from rfl)).2 (.inr (.inl (by decide)))

/-- A block of 64 MiB costs a load `25 * 2^26` cycles and the cycle of the access. The same block costs a
store only `25 * 2^26 - 2^30` more than that cycle. -/
theorem store_miss_wraps :
    ∃ argv config, parseArgs argv = .ok config ∧
      ((Cache.new config 0).access ⟨false, 0⟩).map (·.stats.totalCycles) = some 1677721601 ∧
      ((Cache.new config 0).access ⟨true, 0⟩).map (·.stats.totalCycles) = some 603979777 ∧
      ¬ MissesChargeExactly config := by
  refine ⟨["csim", "1", "1", "67108864", "write-allocate", "write-back", "lru"],
    ⟨1, 1, 67108864, true, false, true⟩, rfl, rfl, rfl, fun hexact => ?_⟩
  obtain ⟨c', hacc, hcycles⟩ :=
    hexact 0 [] _ ⟨true, 0⟩ 0 _ rfl ⟨rfl, ⟨0, rfl, rfl⟩, rfl, rfl⟩
  cases hacc
  exact absurd hcycles (by decide)

end CsfAssignments.CacheSim
