import CsfAssignments.Cache.Address
import CsfAssignments.Cache.SetOrder
/-!
# One access

What `Cache::load` and `Cache::save` do to the located set (`accessSet_cases`) and to the counters
(`access_eq`): a hit, a store that goes past the cache, or a fill of the victim. `Sized` is what every
run keeps, and all that an access needs to be located.
-/

namespace CsfAssignments.CacheSim

/-! ## The located set -/

theorem slot_new (size : Nat) (fifo : UInt64) (j : Nat) :
    (CacheSet.new size fifo).slot j = Slot.zero := by
  simp only [CacheSet.slot, CacheSet.new, List.getD_eq_getElem?_getD, List.getElem?_replicate]
  split <;> rfl

section
variable {config : CacheConfig} {set : CacheSet} {tag : UInt32}

theorem findHit_some {i : Nat} (hi : set.findHit tag = some i) :
    i < set.validCount ∧ (set.slot i).tag = tag := by
  have h1 := List.mem_of_find?_eq_some hi
  have h2 := List.find?_some hi
  exact ⟨List.mem_range.1 h1, by simpa using h2⟩

theorem findHit_none (hi : set.findHit tag = none) {i : Nat} (hlt : i < set.validCount) :
    (set.slot i).tag ≠ tag := by
  have := List.find?_eq_none.1 hi i (List.mem_range.2 hlt)
  simpa using this

/-- `set'` is `set` after a fill of the victim with `(tag, dirty)`; ages and counters are those
`install` leaves. -/
structure Filled (config : CacheConfig) (set : CacheSet) (tag : UInt32) (dirty : Bool)
    (set' : CacheSet) : Prop where
  age : ∀ j, set'.age j =
    ((set.findVictimSlot config.isLru).2.install config (set.findVictimSlot config.isLru).1 tag).age j
  count : set'.validCount = (set.findVictimSlot config.isLru).2.validCount
  len : set'.slots.length = (set.findVictimSlot config.isLru).2.slots.length
  fifo : set'.fifoCounter =
    ((set.findVictimSlot config.isLru).2.install config (set.findVictimSlot config.isLru).1
      tag).fifoCounter
  tags : ∀ j, (set'.slot j).tag =
    if j = (set.findVictimSlot config.isLru).1 then tag
    else ((set.findVictimSlot config.isLru).2.slot j).tag
  flags : ∀ j, (set'.slot j).dirty =
    if j = (set.findVictimSlot config.isLru).1 then dirty
    else ((set.findVictimSlot config.isLru).2.slot j).dirty

theorem loadSet_set (config : CacheConfig) (tag : UInt32) (set : CacheSet) (stats : CacheStats) :
    (loadSet config tag set stats).1 =
      match set.findHit tag with
      | some i => if config.isLru then set.touch i else set
      | none => (set.findVictimSlot config.isLru).2.install config
          (set.findVictimSlot config.isLru).1 tag := by
  unfold loadSet
  cases set.findHit tag <;> rfl

/-- The writes `Cache::save` makes to a filled slot after `install` (`cache.cpp:142-152`). -/
def writeSlot (set : CacheSet) (i : Nat) (tag : UInt32) (dirty : Bool) : CacheSet :=
  (set.modifySlot i fun s => { s with tag := tag, dirty := false }).modifySlot i
    fun s => { s with dirty := dirty }

theorem slot_writeSlot {set : CacheSet} {i : Nat} (hi : i < set.slots.length) (tag : UInt32)
    (dirty : Bool) (j : Nat) :
    (writeSlot set i tag dirty).slot j =
      if j = i then { set.slot j with tag := tag, dirty := dirty } else set.slot j := by
  unfold writeSlot
  rw [slot_modifySlot, slot_modifySlot, length_modifySlot]
  by_cases hj : j = i
  · subst hj; simp [hi]
  · rw [if_neg hj, if_neg fun e => hj e.1.symm, if_neg fun e => hj e.1.symm]

theorem saveSet_set (config : CacheConfig) (tag : UInt32) (set : CacheSet) (stats : CacheStats) :
    (saveSet config tag set stats).1 =
      match set.findHit tag with
      | some i =>
        let set := if config.writeThrough then set
          else set.modifySlot i fun s => { s with dirty := true }
        if config.isLru then set.touch i else set
      | none =>
        if config.writeAllocate then
          writeSlot ((set.findVictimSlot config.isLru).2.install config
            (set.findVictimSlot config.isLru).1 tag) (set.findVictimSlot config.isLru).1 tag
            (!config.writeThrough)
        else set := by
  unfold saveSet
  cases set.findHit tag with
  | some i => cases config.writeThrough <;> rfl
  | none =>
    cases config.writeAllocate
    · rfl
    · cases config.writeThrough <;> rfl

/-- A fill through `install`, then the writes of `Cache::save` to the slot. -/
theorem filled_install (hle : set.validCount ≤ set.slots.length) (hpos : 0 < set.slots.length) :
    Filled config set tag false ((set.findVictimSlot config.isLru).2.install config
      (set.findVictimSlot config.isLru).1 tag) := by
  obtain ⟨hlt, hfit, -⟩ := victim_lt config.isLru hle hpos
  rw [← slots_victim config.isLru] at hfit
  have he := entry_install config tag hfit (Nat.lt_of_lt_of_le hlt hfit)
  exact ⟨fun _ => rfl, validCount_install .., length_install .., rfl, fun j => (he j).1,
    fun j => (he j).2⟩

theorem filled_writeSlot (hle : set.validCount ≤ set.slots.length) (hpos : 0 < set.slots.length)
    (dirty : Bool) :
    Filled config set tag dirty (writeSlot ((set.findVictimSlot config.isLru).2.install config
      (set.findVictimSlot config.isLru).1 tag) (set.findVictimSlot config.isLru).1 tag dirty) := by
  obtain ⟨hlt, hfit, -⟩ := victim_lt config.isLru hle hpos
  have hinstall : Filled config set tag false _ := filled_install hle hpos
  obtain ⟨hage, hcount, hlen, hfifo, htags, hflags⟩ := hinstall
  have hlt : (set.findVictimSlot config.isLru).1 <
      ((set.findVictimSlot config.isLru).2.install config (set.findVictimSlot config.isLru).1
        tag).slots.length := by
    rw [hlen, slots_victim]
    exact Nat.lt_of_lt_of_le hlt hfit
  refine ⟨?_, hcount, ?_, hfifo, ?_, ?_⟩
  · intro j
    unfold CacheSet.age
    rw [slot_writeSlot hlt]; split <;> rfl
  · simp [writeSlot]
  · intro j
    rw [slot_writeSlot hlt]
    split
    · rfl
    · rename_i hj; rw [htags, if_neg hj]
  · intro j
    rw [slot_writeSlot hlt]
    split
    · rfl
    · rename_i hj; rw [hflags, if_neg hj]

/-- The body of `Cache::load` / `Cache::save` for one kind of access. -/
def accessSet (config : CacheConfig) (store : Bool) (tag : UInt32) (set : CacheSet)
    (stats : CacheStats) : CacheSet × CacheStats :=
  if store then saveSet config tag set stats else loadSet config tag set stats

/-- The set after a hit on slot `i`. -/
def CacheSet.hit (set : CacheSet) (config : CacheConfig) (store : Bool) (i : Nat) : CacheSet :=
  let set := if store && !config.writeThrough then set.modifySlot i fun s => { s with dirty := true }
    else set
  if config.isLru then set.touch i else set

theorem length_hit (config : CacheConfig) (store : Bool) (i : Nat) :
    (set.hit config store i).slots.length = set.slots.length := by
  unfold CacheSet.hit
  split <;> split <;> simp

theorem validCount_hit (config : CacheConfig) (store : Bool) (i : Nat) :
    (set.hit config store i).validCount = set.validCount := by
  unfold CacheSet.hit
  split <;> split <;> rfl

/-- A hit keeps the tags; it dirties its slot when it stores without writing through. -/
theorem entry_hit (config : CacheConfig) (hle : set.validCount ≤ set.slots.length) {i : Nat}
    (hi : i < set.validCount) (store : Bool) (j : Nat) :
    ((set.hit config store i).slot j).tag = (set.slot j).tag ∧
      ((set.hit config store i).slot j).dirty =
        if j = i ∧ (store && !config.writeThrough) = true then true else (set.slot j).dirty := by
  have hmark : ((set.modifySlot i fun s => { s with dirty := true }).slot j).tag = (set.slot j).tag ∧
      ((set.modifySlot i fun s => { s with dirty := true }).slot j).dirty =
        if j = i then true else (set.slot j).dirty := by
    rw [slot_modifySlot]
    by_cases hj : j = i
    · subst hj
      rw [if_pos ⟨rfl, Nat.lt_of_lt_of_le hi hle⟩, if_pos rfl]
      exact ⟨rfl, rfl⟩
    · rw [if_neg fun e => hj e.1.symm, if_neg hj]
      exact ⟨rfl, rfl⟩
  unfold CacheSet.hit
  by_cases hdirty : (store && !config.writeThrough) = true
  · have hle' : (set.modifySlot i fun s => { s with dirty := true }).validCount ≤
        (set.modifySlot i fun s => { s with dirty := true }).slots.length := by simpa using hle
    have htouch := entry_touch hle' i j
    simp only [hdirty, if_true, and_true]
    split
    · exact ⟨htouch.1.trans hmark.1, htouch.2.trans hmark.2⟩
    · exact hmark
  · have htouch := entry_touch hle i j
    simp only [hdirty, and_false, if_false, Bool.false_eq_true]
    split
    · exact htouch
    · exact ⟨rfl, rfl⟩

/-- **What an access does to its set**: a hit, nothing, or a fill. -/
theorem accessSet_cases (config : CacheConfig) (tag : UInt32) (hle : set.validCount ≤ set.slots.length)
    (hpos : 0 < set.slots.length) (store : Bool) (stats : CacheStats) :
    (∃ i, set.findHit tag = some i ∧
      (accessSet config store tag set stats).1 = set.hit config store i) ∨
    (set.findHit tag = none ∧ (!store || config.writeAllocate) = false ∧
      (accessSet config store tag set stats).1 = set) ∨
    (set.findHit tag = none ∧ (!store || config.writeAllocate) = true ∧
      Filled config set tag (store && !config.writeThrough)
        (accessSet config store tag set stats).1) := by
  unfold accessSet
  cases hhit : set.findHit tag with
  | some i =>
    refine .inl ⟨i, rfl, ?_⟩
    cases store
    · rw [if_neg Bool.false_ne_true, loadSet_set, hhit]
      rfl
    · rw [if_pos rfl, saveSet_set, hhit, CacheSet.hit]
      cases config.writeThrough <;> rfl
  | none =>
    cases store
    · refine .inr (.inr ⟨rfl, rfl, ?_⟩)
      rw [if_neg Bool.false_ne_true, loadSet_set, hhit]
      exact filled_install hle hpos
    · rw [if_pos rfl, saveSet_set, hhit]
      cases hwa : config.writeAllocate
      · exact .inr (.inl ⟨rfl, rfl, rfl⟩)
      · exact .inr (.inr ⟨rfl, rfl, filled_writeSlot hle hpos (!config.writeThrough)⟩)

end

/-! ## The counters of `CacheStats` -/

/-- The six access counters after one access; the cycles are left out. -/
def CacheStats.count (s : CacheStats) (store hit : Bool) : CacheStats :=
  let s := if store then { s with totalStores := s.totalStores + 1 }
    else { s with totalLoads := s.totalLoads + 1 }
  match store, hit with
  | false, true => { s with loadHits := s.loadHits + 1 }
  | false, false => { s with loadMisses := s.loadMisses + 1 }
  | true, true => { s with storeHits := s.storeHits + 1 }
  | true, false => { s with storeMisses := s.storeMisses + 1 }

theorem charge_charge (s : CacheStats) (m n : UInt64) :
    (s.charge m).charge n = s.charge (m + n) := by
  simp [CacheStats.charge, UInt64.add_assoc]

/-- Charging under a condition is charging some amount. -/
theorem charge_ite (s : CacheStats) (b : Prop) [Decidable b] (n : UInt64) :
    (if b then s.charge n else s) = s.charge (if b then n else 0) := by
  split <;> simp [CacheStats.charge]

/-- The cycles an access charges. -/
def CacheSet.cost (set : CacheSet) (config : CacheConfig) (store : Bool) (tag : UInt32) : UInt64 :=
  match set.findHit tag with
  | some _ => if store && config.writeThrough then (if config.writeAllocate then 101 else 100) else 1
  | none =>
    if !store || config.writeAllocate then
      let victim := set.findVictimSlot config.isLru
      let memory := if store then (100 * config.blockSize / 4).toUInt64
        else 100 * config.blockSize.toUInt64 / 4
      (if (victim.2.slot victim.1).dirty && !config.writeThrough then memory else 0) +
        (memory + if store && config.writeThrough then 101 else 1)
    else 100

/-- What an access costs is read off its hit or miss and the dirty flag of the victim. -/
theorem cost_congr {config config' : CacheConfig} {set set' : CacheSet} {tag : UInt32}
    (hdiff : config' = { config with isLru := config'.isLru })
    (hhit : (set.findHit tag).isSome = (set'.findHit tag).isSome)
    (hvictim : (set.slot (set.findVictimSlot config.isLru).1).dirty =
      (set'.slot (set'.findVictimSlot config'.isLru).1).dirty) (store : Bool) :
    set.cost config store tag = set'.cost config' store tag := by
  unfold CacheSet.cost
  simp only [slot_victim, hvictim]
  cases hi : set.findHit tag with
  | some i =>
    obtain ⟨i', hi'⟩ := Option.isSome_iff_exists.1 (hhit.symm.trans (by rw [hi]; rfl))
    rw [hi', hdiff]
  | none =>
    have hi' : set'.findHit tag = none := by simpa [hi] using hhit
    rw [hi', hdiff]

theorem loadSet_stats (config : CacheConfig) (tag : UInt32) (set : CacheSet) (s : CacheStats) :
    (loadSet config tag set { s with totalLoads := s.totalLoads + 1 }).2 =
      (s.count false (set.findHit tag).isSome).charge (set.cost config false tag) := by
  unfold loadSet CacheSet.cost
  cases set.findHit tag with
  | some i => rfl
  | none =>
    simp only [charge_ite, charge_charge]
    rw [UInt64.add_comm 1]
    rfl

theorem saveSet_stats (config : CacheConfig) (tag : UInt32) (set : CacheSet) (s : CacheStats) :
    (saveSet config tag set { s with totalStores := s.totalStores + 1 }).2 =
      (s.count true (set.findHit tag).isSome).charge (set.cost config true tag) := by
  unfold saveSet CacheSet.cost
  cases set.findHit tag with
  | some i =>
    cases config.writeThrough
    · rfl
    · cases config.writeAllocate
      · rfl
      · simp only [if_true, charge_charge]
        rfl
  | none =>
    cases config.writeAllocate
    · rfl
    · simp only [charge_ite, charge_charge]
      cases config.writeThrough
      · simp only [UInt64.add_assoc]
        rfl
      · simp only [UInt64.add_assoc]
        rfl

/-- `Cache::load` and `Cache::save` are one body on the located set. -/
theorem access_eq {c : Cache} {a : Access} {tag : UInt32} {i : Nat} {set : CacheSet}
    (htag : c.config.getTag a.address = some tag) (hi : c.config.getIndex a.address = some i)
    (hset : c.sets[i]? = some set) :
    c.access a = some ⟨c.sets.set i (accessSet c.config a.store tag set c.stats).1,
      (c.stats.count a.store (set.findHit tag).isSome).charge (set.cost c.config a.store tag),
      c.config⟩ := by
  unfold Cache.access accessSet
  cases a.store
  · have hstats := loadSet_stats c.config tag set c.stats
    simp only [Cache.load, htag, hi, hset, Option.bind_eq_bind, Option.bind_some, hstats,
      Bool.false_eq_true, if_false, loadSet_set]
  · have hstats := saveSet_stats c.config tag set c.stats
    simp only [Cache.save, htag, hi, hset, Option.bind_eq_bind, Option.bind_some, hstats, if_true,
      saveSet_set]

/-- An access that does not trap is located, and changes only the set it goes to. -/
theorem access_some {c c' : Cache} {a : Access} (h : c.access a = some c') :
    ∃ tag i set, c.config.getTag a.address = some tag ∧ c.config.getIndex a.address = some i ∧
      c.sets[i]? = some set ∧ c'.config = c.config ∧
      c'.sets = c.sets.set i (accessSet c.config a.store tag set c.stats).1 := by
  have hlocated : ∃ tag i set, c.config.getTag a.address = some tag ∧
      c.config.getIndex a.address = some i ∧ c.sets[i]? = some set := by
    unfold Cache.access Cache.load Cache.save at h
    simp only [Option.bind_eq_bind] at h
    split at h <;>
    · simp only [Option.bind_eq_some_iff] at h
      obtain ⟨tag, htag, i, hi, set, hset, -⟩ := h
      exact ⟨tag, i, set, htag, hi, hset⟩
  obtain ⟨tag, i, set, htag, hi, hset⟩ := hlocated
  rw [access_eq htag hi hset] at h
  cases h
  exact ⟨tag, i, set, htag, hi, hset, rfl, rfl⟩

/-- The access misses in `set` and brings its block in under `tag`. -/
structure Cache.Fills (c : Cache) (a : Access) (tag : UInt32) (set : CacheSet) : Prop where
  tag_eq : c.config.getTag a.address = some tag
  located : ∃ index, c.config.getIndex a.address = some index ∧ c.sets[index]? = some set
  miss : set.findHit tag = none
  allocates : (!a.store || c.config.writeAllocate) = true

/-! ## Runs -/

/-- A cache with one set for each index. -/
structure Sized (c : Cache) : Prop where
  geom : Geometry c.config
  len : c.sets.length = c.config.numSets.toNat

/-- At first every set is empty. -/
theorem mem_new {config : CacheConfig} {fifo : UInt64} {set : CacheSet}
    (h : set ∈ (Cache.new config fifo).sets) : set = CacheSet.new config.numBlocks.toNat fifo := by
  simp only [Cache.new, List.mem_replicate] at h
  exact h.2

theorem Sized.new {config : CacheConfig} (g : Geometry config) (fifo : UInt64) :
    Sized (Cache.new config fifo) := ⟨g, by simp [Cache.new]⟩

/-- The set an access goes to, with the tag that restores its block number. -/
theorem Sized.locate {c : Cache} (h : Sized c) (a : UInt32) :
    ∃ tag set, c.config.getTag a = some tag ∧ c.config.getIndex a = some (c.config.home a) ∧
      c.sets[c.config.home a]? = some set ∧
      tag.toNat * c.config.numSets.toNat + c.config.home a = c.config.block a := by
  obtain ⟨tag, htag, ht⟩ := getTag_eq h.geom a
  have hlt := home_lt h.geom.toAccepted a
  rw [← h.len] at hlt
  refine ⟨tag, _, htag, getIndex_eq h.geom.toAccepted a, List.getElem?_eq_getElem hlt, ?_⟩
  rw [ht, CacheConfig.home, Nat.mul_comm]
  exact Nat.div_add_mod _ _

theorem run_cons {c c' : Cache} {a : Access} {trace : List Access} (h : c.access a = some c') :
    c.run (a :: trace) = c'.run trace := by
  simp [Cache.run, List.foldlM_cons, h]

theorem access_config {c c' : Cache} {a : Access} (h : c.access a = some c') :
    c'.config = c.config := by
  obtain ⟨_, _, _, _, _, _, hcfg, _⟩ := access_some h
  exact hcfg

theorem run_config (trace : List Access) {c c' : Cache} (h : c.run trace = some c') :
    c'.config = c.config := by
  induction trace generalizing c with
  | nil =>
    cases h
    rfl
  | cons a trace ih =>
    unfold Cache.run at h
    rw [List.foldlM_cons, Option.bind_eq_bind, Option.bind_eq_some_iff] at h
    obtain ⟨d, hd, hrun⟩ := h
    exact (ih hrun).trans (access_config hd)

theorem run_append {c c' : Cache} {trace rest : List Access} (h : c.run trace = some c') :
    c.run (trace ++ rest) = c'.run rest := by
  unfold Cache.run at *
  rw [List.foldlM_append, h]
  rfl

/-- The cache after an access that goes to `set` under `tag`. -/
def Cache.put (c : Cache) (a : Access) (tag : UInt32) (set : CacheSet) : Cache :=
  ⟨c.sets.set (c.config.home a.address) (accessSet c.config a.store tag set c.stats).1,
    (c.stats.count a.store (set.findHit tag).isSome).charge (set.cost c.config a.store tag),
    c.config⟩

/-- An access changes only the set it goes to. -/
theorem put_sets {c : Cache} {a : Access} {tag : UInt32} {set s : CacheSet} {j : Nat}
    (hj : (c.put a tag set).sets[j]? = some s) :
    (j = c.config.home a.address ∧ s = (accessSet c.config a.store tag set c.stats).1) ∨
      (j ≠ c.config.home a.address ∧ c.sets[j]? = some s) := by
  rw [Cache.put, List.getElem?_set] at hj
  by_cases hji : j = c.config.home a.address
  · rw [if_pos hji.symm] at hj
    split at hj
    · exact .inl ⟨hji, (Option.some.inj hj).symm⟩
    · cases hj
  · rw [if_neg (Ne.symm hji)] at hj
    exact .inr ⟨hji, hj⟩

/-- What `parse_args` accepts, a run reaches and an access fills has a product that fits. -/
theorem Cache.Fills.fits {config : CacheConfig} {c : Cache} {a : Access} {tag : UInt32} {set : CacheSet}
    (h : c.Fills a tag set) (hacc : Accepted config) (hcfg : c.config = config) :
    Geometry config := by
  refine ⟨hacc, ?_⟩
  by_contra hwrap
  have htag := h.tag_eq
  rw [hcfg, getTag_traps hacc (by omega)] at htag
  cases htag

theorem Sized.put {c : Cache} (h : Sized c) (a : Access) (tag : UInt32) (set : CacheSet) :
    Sized (c.put a tag set) := ⟨h.geom, by simpa [Cache.put] using h.len⟩

/-- **An access never traps.** -/
theorem Sized.access {c : Cache} (h : Sized c) (a : Access) :
    ∃ tag set, c.sets[c.config.home a.address]? = some set ∧
      tag.toNat * c.config.numSets.toNat + c.config.home a.address = c.config.block a.address ∧
      c.access a = some (c.put a tag set) ∧ Sized (c.put a tag set) := by
  obtain ⟨tag, set, htag, hi, hset, hblock⟩ := h.locate a.address
  exact ⟨tag, set, hset, hblock, access_eq htag hi hset, h.put a tag set⟩

/-- **Runs never trap.** What the sets have at first and every access keeps, they have after any
trace. -/
theorem run_sets {config : CacheConfig} (g : Geometry config) (fifo : UInt64) {P : CacheSet → Prop}
    (hnew : P (CacheSet.new config.numBlocks.toNat fifo))
    (hstep : ∀ store tag set stats, P set → P (accessSet config store tag set stats).1)
    (trace : List Access) :
    ∃ c, (Cache.new config fifo).run trace = some c ∧ c.config = config ∧ Sized c ∧
      ∀ set ∈ c.sets, P set := by
  induction trace using List.reverseRecOn with
  | nil =>
    refine ⟨_, rfl, rfl, Sized.new g fifo, ?_⟩
    intro set hset
    rw [mem_new hset]
    exact hnew
  | append_singleton trace a ih =>
    obtain ⟨c, hrun, hcfg, hsized, hsets⟩ := ih
    obtain ⟨tag, set, hset, -, hacc, hsized'⟩ := hsized.access a
    refine ⟨c.put a tag set, ?_, hcfg, hsized', ?_⟩
    · rw [run_append hrun, run_cons hacc]
      rfl
    · intro set' hset'
      rcases List.mem_or_eq_of_mem_set hset' with hmem | rfl
      · exact hsets set' hmem
      · rw [hcfg]
        exact hstep _ _ _ _ (hsets set (List.mem_of_getElem? hset))

end CsfAssignments.CacheSim
