import CsfAssignments.Cache.Access
/-!
# What every reachable set satisfies

`Kept` is what an access keeps of its set, in the form the induction needs: under LRU some order of the
slots agrees with their ages. `SetInvariant` is what follows for a reader of the fields. Under FIFO the
32-bit stamps may wrap, so nothing is said of their order.
-/

namespace CsfAssignments.CacheSim

/-- The invariant of the accesses to one set. -/
structure Kept (config : CacheConfig) (set : CacheSet) : Prop where
  len : set.slots.length = config.numBlocks.toNat
  le : set.validCount ≤ set.slots.length
  distinct : ∀ i < set.validCount, ∀ j < set.validCount, (set.slot i).tag = (set.slot j).tag → i = j
  clean : ∀ i, set.validCount ≤ i → (set.slot i).dirty = false
  writeThrough : config.writeThrough = true → ∀ i, (set.slot i).dirty = false
  order : config.isLru = true → ∃ p, Ordered true set p

theorem Kept.new (config : CacheConfig) (fifo : UInt64) :
    Kept config (CacheSet.new config.numBlocks.toNat fifo) where
  len := by simp [CacheSet.new]
  le := Nat.zero_le _
  distinct := fun i hi => absurd hi (Nat.not_lt_zero i)
  clean := fun i _ => by rw [slot_new]; rfl
  writeThrough := fun _ i => by rw [slot_new]; rfl
  order := fun _ => ⟨[], List.Perm.refl _, Nat.zero_le _, List.Pairwise.nil, by simp⟩

section
variable {config : CacheConfig} {set : CacheSet} {tag : UInt32}

/-- **Hit**: the hit slot becomes the youngest one, and dirty after a store under write-back. -/
theorem Kept.hit (h : Kept config set) {i : Nat} (hi : set.findHit tag = some i) (store : Bool) :
    Kept config (set.hit config store i) := by
  obtain ⟨hlt, -⟩ := findHit_some hi
  have hentry := entry_hit config h.le hlt store
  refine ⟨?_, ?_, ?_, ?_, ?_, ?_⟩
  · rw [length_hit]
    exact h.len
  · rw [length_hit, validCount_hit]
    exact h.le
  · intro j hj k hk htag
    rw [validCount_hit] at hj hk
    rw [(hentry j).1, (hentry k).1] at htag
    exact h.distinct j hj k hk htag
  · intro j hj
    rw [validCount_hit] at hj
    rw [(hentry j).2, if_neg fun e => by omega]
    exact h.clean j hj
  · intro hwt j
    rw [(hentry j).2, if_neg fun e => by simp [hwt] at e]
    exact h.writeThrough hwt j
  · intro hlru
    obtain ⟨p, hp⟩ := h.order hlru
    have hmark : Ordered true (if store && !config.writeThrough then
        set.modifySlot i fun s => { s with dirty := true } else set) p := by
      split
      · refine hp.congr (fun j => age_modifySlot ?_ set i j) rfl (length_modifySlot ..) rfl
        exact fun _ => rfl
      · exact hp
    refine ⟨p.erase i ++ [i], ?_⟩
    unfold CacheSet.hit
    rw [if_pos hlru]
    exact hmark.touch (hp.mem_iff.2 hlt)

/-- **Fill**: the victim takes a tag that no other valid slot holds, and becomes the youngest one. -/
theorem Kept.fill (h : Kept config set) (hblocks : 0 < config.numBlocks.toNat)
    (hi : set.findHit tag = none) {store : Bool} {set' : CacheSet}
    (hf : Filled config set tag (store && !config.writeThrough) set') : Kept config set' := by
  have hpos : 0 < set.slots.length := by rw [h.len]; exact hblocks
  obtain ⟨hlt, hfit, hgrow, hold⟩ := victim_lt config.isLru h.le hpos
  refine ⟨?_, ?_, ?_, ?_, ?_, ?_⟩
  · rw [hf.len, slots_victim]
    exact h.len
  · rw [hf.count, hf.len, slots_victim]
    exact hfit
  · intro j hj k hk htag
    rw [hf.count] at hj hk
    rw [hf.tags, hf.tags, slot_victim, slot_victim] at htag
    split at htag
    · rename_i hjv
      split at htag
      · rename_i hkv
        rw [hjv, hkv]
      · rename_i hkv
        exact absurd htag.symm (findHit_none hi (hold k hk hkv))
    · rename_i hjv
      split at htag
      · exact absurd htag (findHit_none hi (hold j hj hjv))
      · rename_i hkv
        exact h.distinct j (hold j hj hjv) k (hold k hk hkv) htag
  · intro j hj
    rw [hf.count] at hj
    rw [hf.flags, if_neg (by omega), slot_victim]
    exact h.clean j (by omega)
  · intro hwt j
    rw [hf.flags, slot_victim, hwt, Bool.not_true, Bool.and_false]
    split
    · rfl
    · exact h.writeThrough hwt j
  · intro hlru
    obtain ⟨p, hp⟩ := h.order hlru
    have hvac := hp.vacated hpos
    rw [← hlru] at hvac
    have hlen : (set.findVictimSlot config.isLru).2.slots.length = config.numBlocks.toNat := by
      rw [slots_victim]
      exact h.len
    have hord := hvac.install hlen (by simp [hlru]) tag
    rw [hlru] at hord
    refine ⟨_, hord.congr ?_ ?_ ?_ ?_⟩
    · intro j
      rw [hf.age, hlru]
    · rw [validCount_install, hf.count, hlru]
    · rw [length_install, hf.len, hlru]
    · rw [hf.fifo, hlru]

/-- **Step**: every access keeps the invariant of its set. -/
theorem Kept.access (h : Kept config set) (hblocks : 0 < config.numBlocks.toNat) (store : Bool)
    (tag : UInt32) (stats : CacheStats) : Kept config (accessSet config store tag set stats).1 := by
  have hpos : 0 < set.slots.length := by rw [h.len]; exact hblocks
  rcases accessSet_cases config tag h.le hpos store stats with
    ⟨i, hhit, hset⟩ | ⟨-, -, hset⟩ | ⟨hmiss, -, hfill⟩
  · rw [hset]
    exact h.hit hhit store
  · rw [hset]
    exact h
  · exact h.fill hblocks hmiss hfill

end

/-- **Run**: every set of a cache that a run reaches. -/
theorem Kept.run {config : CacheConfig} (g : Geometry config) {fifo : UInt64} {trace : List Access}
    {c : Cache} (h : (Cache.new config fifo).run trace = some c) : ∀ set ∈ c.sets, Kept config set := by
  obtain ⟨d, hd, -, -, hsets⟩ := run_sets g fifo (Kept.new config fifo)
    (fun store tag _ stats hset => hset.access g.blocks_pos store tag stats) trace
  cases h.symm.trans hd
  exact hsets

/-! ## The fields of a set -/

/-- Under LRU the ages of the valid slots are the numbers below their count. -/
theorem Ordered.ages {set : CacheSet} {p : List Nat} (h : Ordered true set p) :
    ((List.range set.validCount).map set.age).Perm (List.range set.validCount) := by
  have hbound : ∀ i < set.validCount, set.age i < set.validCount := fun i hi =>
    h.bound i (h.mem_iff.2 hi)
  have hnodup : ((List.range set.validCount).map set.age).Nodup := by
    refine List.Nodup.map_on (fun i hi j hj hage => ?_) List.nodup_range
    by_contra hne
    exact h.age_ne (h.mem_iff.2 (List.mem_range.1 hi)) (h.mem_iff.2 (List.mem_range.1 hj)) hne hage
  refine (List.subperm_of_subset hnodup fun a ha => ?_).perm_of_length_le (by simp)
  obtain ⟨i, hi, rfl⟩ := List.mem_map.1 ha
  exact List.mem_range.2 (hbound i (List.mem_range.1 hi))

/-- The first slot of the order has the highest age. -/
theorem Ordered.age_head {set : CacheSet} {v : Nat} {q : List Nat} (h : Ordered true set (v :: q)) :
    set.age v + 1 = set.validCount := by
  have hv := h.bound v (by simp)
  simp only [if_true] at hv
  have htop : set.validCount - 1 ∈ (List.range set.validCount).map set.age :=
    h.ages.mem_iff.2 (List.mem_range.2 (by omega))
  obtain ⟨j, hj, hage⟩ := List.mem_map.1 htop
  rcases List.mem_cons.1 (h.mem_iff.2 (List.mem_range.1 hj)) with rfl | hq
  · omega
  · have hold := (List.pairwise_cons.1 h.order).1 j hq
    simp only [CacheSet.older, if_true] at hold
    omega

/-- The invariant of a reachable set. -/
structure SetInvariant (config : CacheConfig) (set : CacheSet) : Prop where
  /-- `slots` never grows or shrinks. -/
  len : set.slots.length = config.numBlocks.toNat
  count : set.validCount ≤ config.numBlocks.toNat
  distinct : ((List.range set.validCount).map fun i => (set.slot i).tag).Nodup
  clean : ∀ i, set.validCount ≤ i → (set.slot i).dirty = false
  ages : config.isLru = true →
    ((List.range set.validCount).map set.age).Perm (List.range set.validCount)
  writeThrough : config.writeThrough = true → ∀ i, (set.slot i).dirty = false
  victim : (set.findVictimSlot config.isLru).1 < (set.findVictimSlot config.isLru).2.validCount ∧
    (set.findVictimSlot config.isLru).1 < config.numBlocks.toNat
  oldest : config.isLru = true → set.validCount = config.numBlocks.toNat →
    set.age (set.findVictimSlot config.isLru).1 = config.numBlocks.toNat - 1

theorem Kept.invariant {config : CacheConfig} {set : CacheSet} (h : Kept config set)
    (hblocks : 0 < config.numBlocks.toNat) : SetInvariant config set := by
  have hpos : 0 < set.slots.length := by rw [h.len]; exact hblocks
  obtain ⟨hlt, hfit, -⟩ := victim_lt config.isLru h.le hpos
  have hlen := h.len
  refine ⟨hlen, by rw [← hlen]; exact h.le, ?_, h.clean, ?_, h.writeThrough,
    ⟨hlt, by omega⟩, ?_⟩
  · exact List.Nodup.map_on (fun i hi j hj => h.distinct i (List.mem_range.1 hi) j (List.mem_range.1 hj))
      List.nodup_range
  · intro hlru
    obtain ⟨p, hp⟩ := h.order hlru
    exact hp.ages
  · intro hlru hfull
    obtain ⟨p, hp⟩ := h.order hlru
    cases p with
    | nil =>
      have := hp.length
      rw [List.length_nil] at this
      omega
    | cons v q =>
      have hage := hp.age_head
      rw [hlru, findVictimSlot_full hp (by omega)]
      show set.age v = _
      omega

/-- **Every reachable set satisfies the invariant**, for every accepted configuration whose
`num_sets * block_size` fits and every trace. -/
theorem set_invariant {argv : List String} {config : CacheConfig} (h : parseArgs argv = .ok config)
    (hfit : config.numSets.toNat * config.blockSize.toNat < 2 ^ 32) (fifo : UInt64)
    (trace : List Access) :
    ∃ c, (Cache.new config fifo).run trace = some c ∧ c.sets.length = config.numSets.toNat ∧
      ∀ set ∈ c.sets, SetInvariant config set := by
  have g : Geometry config := ⟨parseArgs_accepted h, hfit⟩
  obtain ⟨c, hrun, hcfg, hsized, hsets⟩ := run_sets g fifo (Kept.new config fifo)
    (fun store tag _ stats hset => hset.access g.blocks_pos store tag stats) trace
  refine ⟨c, hrun, ?_, fun set hset => (hsets set hset).invariant g.blocks_pos⟩
  rw [hsized.len, hcfg]

theorem set_invariant_lru :
    ∃ c, (Cache.new ⟨2, 2, 4, true, false, true⟩ 0).run
        [⟨true, 0⟩, ⟨false, 8⟩, ⟨false, 4⟩, ⟨true, 16⟩] = some c ∧
      c.sets.length = 2 ∧ ∀ set ∈ c.sets, SetInvariant ⟨2, 2, 4, true, false, true⟩ set :=
  set_invariant
    (show parseArgs ["csim", "2", "2", "4", "write-allocate", "write-back", "lru"] = .ok _ from rfl)
    (by decide) 0 _

end CsfAssignments.CacheSim
