import CsfAssignments.Cache.Invariant
import CsfAssignments.Cache.Refine
import Mathlib.Tactic.Ring
/-!
# Where the cycles come from

A history notes the blocks stored to since they were filled (`Cache.stored`), from what a run shows and
not from the dirty flags. Under write-back the flags agree with it (`Tracks`), so every charge of `load`
and `save` is known from the kind of the access and whether it evicts such a block (`cost_eq`), and the
charges of a run add up to a closed form in its counters (`Tally.cycles`).
-/

namespace CsfAssignments.CacheSim

/-! ## Blocks stored to since they were filled -/

/-- `written` after an access: a store that finds its block or brings it in adds it, a load that brings
it in takes it away. -/
def Cache.stored (c : Cache) (written : Nat → Bool) (a : Access) : Nat → Bool :=
  let block := c.config.block a.address
  match c.event a with
  | some e =>
    if e.hit then Function.update written block (written block || a.store)
    else if !a.store || c.config.writeAllocate then Function.update written block a.store
    else written
  | none => written

/-- The access evicts a block stored to since it was filled. -/
def Cache.evictsStored (c : Cache) (written : Nat → Bool) (a : Access) : Bool :=
  match c.event a with
  | some e => e.evicted.any fun line => written (c.config.line (c.config.home a.address) line).1
  | none => false

/-- How many accesses of the trace do. -/
def Cache.storedEvictions : Cache → (Nat → Bool) → List Access → Nat
  | _, _, [] => 0
  | c, written, a :: trace =>
    (if c.evictsStored written a then 1 else 0) +
      match c.access a with
      | some c' => c'.storedEvictions (c.stored written a) trace
      | none => 0

/-! ## The counters of a run, unbounded -/

structure Tally where
  loadHits : Nat
  loadMisses : Nat
  storeHits : Nat
  storeMisses : Nat
  /-- Evictions of a block stored to since it was filled. -/
  evictions : Nat

def Tally.add (t : Tally) (store hit evicts : Bool) : Tally :=
  let t := { t with evictions := t.evictions + if evicts then 1 else 0 }
  match store, hit with
  | false, true => { t with loadHits := t.loadHits + 1 }
  | false, false => { t with loadMisses := t.loadMisses + 1 }
  | true, true => { t with storeHits := t.storeHits + 1 }
  | true, false => { t with storeMisses := t.storeMisses + 1 }

def Tally.accesses (t : Tally) : Nat := t.loadHits + t.loadMisses + t.storeHits + t.storeMisses

/-- What the stores cost, write misses and write-backs included. -/
def CacheConfig.storeCycles (config : CacheConfig) (stores storeMisses evictions : Nat) : Nat :=
  let B := config.blockSize.toNat
  if config.writeThrough then
    if config.writeAllocate then 101 * stores + 25 * B * storeMisses else 100 * stores
  else stores + 25 * B * storeMisses + 25 * B * evictions

def Tally.cycles (t : Tally) (config : CacheConfig) : Nat :=
  t.loadHits + t.loadMisses * (1 + 25 * config.blockSize.toNat) +
    config.storeCycles (t.storeHits + t.storeMisses) t.storeMisses t.evictions

/-- The cycles of one access. -/
def CacheConfig.accessCycles (config : CacheConfig) (store hit evicts : Bool) : Nat :=
  let fetch := 25 * config.blockSize.toNat
  let writeBack := if evicts && !config.writeThrough then fetch else 0
  match store, hit with
  | false, true => 1
  | false, false => writeBack + (fetch + 1)
  | true, true => if config.writeThrough then if config.writeAllocate then 101 else 100 else 1
  | true, false =>
    if config.writeAllocate then writeBack + (fetch + if config.writeThrough then 101 else 1) else 100

/-- The counters of the code are these, wrapped around. -/
def Tally.stats (t : Tally) (config : CacheConfig) : CacheStats where
  totalLoads := UInt32.ofNat (t.loadHits + t.loadMisses)
  totalStores := UInt32.ofNat (t.storeHits + t.storeMisses)
  loadHits := UInt32.ofNat t.loadHits
  loadMisses := UInt32.ofNat t.loadMisses
  storeHits := UInt32.ofNat t.storeHits
  storeMisses := UInt32.ofNat t.storeMisses
  totalCycles := UInt64.ofNat (t.cycles config)

theorem accesses_add (t : Tally) (store hit evicts : Bool) :
    (t.add store hit evicts).accesses = t.accesses + 1 := by
  cases store <;> cases hit <;> simp only [Tally.add, Tally.accesses] <;> omega

theorem evictions_add (t : Tally) (store hit evicts : Bool) :
    (t.add store hit evicts).evictions = t.evictions + if evicts then 1 else 0 := by
  cases store <;> cases hit <;> rfl

/-- The closed form grows by the cycles of each access. A store that does not allocate under write-back
would be the exception, and is not accepted. -/
theorem cycles_add {config : CacheConfig} (h : Accepted config) (t : Tally) (store hit evicts : Bool)
    (hhit : hit = true → evicts = false) :
    (t.add store hit evicts).cycles config =
      t.cycles config + config.accessCycles store hit evicts := by
  unfold Tally.cycles CacheConfig.storeCycles CacheConfig.accessCycles
  have hwrite := h.write
  cases hwt : config.writeThrough <;> cases hwa : config.writeAllocate
  · simp [hwt, hwa] at hwrite
  · cases store <;> cases hit <;> cases evicts <;> simp [Tally.add] at hhit ⊢ <;> ring
  · cases store <;> cases hit <;> simp [Tally.add] <;> ring
  · cases store <;> cases hit <;> simp [Tally.add] <;> ring

theorem stats_add {config : CacheConfig} (h : Accepted config) (t : Tally) (store hit evicts : Bool)
    (hhit : hit = true → evicts = false) :
    ((t.stats config).count store hit).charge (UInt64.ofNat (config.accessCycles store hit evicts)) =
      (t.add store hit evicts).stats config := by
  have hcycles := cycles_add h t store hit evicts hhit
  unfold Tally.stats
  rw [hcycles, UInt64.ofNat_add]
  have hone : ∀ n, UInt32.ofNat n + 1 = UInt32.ofNat (n + 1) := fun n => (UInt32.ofNat_add n 1).symm
  have hleft : ∀ m n, UInt32.ofNat (m + n) + 1 = UInt32.ofNat (m + 1 + n) := by
    intro m n
    rw [hone, Nat.add_right_comm]
  cases store <;> cases hit <;>
    simp only [CacheStats.count, CacheStats.charge, Tally.add, Bool.false_eq_true, if_false, if_true,
      CacheStats.mk.injEq, and_true, true_and]
  · exact ⟨hone _, hone _⟩
  · exact ⟨hleft _ _, hone _⟩
  · exact ⟨hone _, hone _⟩
  · exact ⟨hleft _ _, hone _⟩

/-! ## The charges of the code -/

/-- What `save` and `load` charge for the bytes of a block: 25 cycles a byte, but `save` multiplies in
32 bits. -/
theorem memory_toNat (config : CacheConfig) (store : Bool) :
    (if store then (100 * config.blockSize / 4).toUInt64
      else 100 * config.blockSize.toUInt64 / 4).toNat =
      if store then 100 * config.blockSize.toNat % 2 ^ 32 / 4 else 25 * config.blockSize.toNat := by
  cases store
  · have hsize := config.blockSize.toNat_lt
    rw [if_neg Bool.false_ne_true, if_neg Bool.false_ne_true, UInt64.toNat_div, UInt64.toNat_mul,
      UInt32.toNat_toUInt64]
    show 100 * config.blockSize.toNat % 2 ^ 64 / 4 = _
    omega
  · rw [if_pos rfl, if_pos rfl, UInt32.toNat_toUInt64, UInt32.toNat_div, UInt32.toNat_mul]
    rfl

/-- The two agree as long as the 32-bit product does not wrap. -/
theorem memory_cycles {config : CacheConfig}
    (hcost : 100 * config.blockSize.toNat < 2 ^ 32) (store : Bool) :
    (if store then (100 * config.blockSize / 4).toUInt64 else 100 * config.blockSize.toUInt64 / 4) =
      UInt64.ofNat (25 * config.blockSize.toNat) := by
  apply UInt64.toNat_inj.1
  rw [memory_toNat, UInt64.toNat_ofNat_of_lt' (show _ < 2 ^ 64 by omega)]
  split
  · omega
  · rfl

section
variable {config : CacheConfig} {index : Nat} {set : CacheSet} {tag : UInt32} {written : Nat → Bool}

/-- Under write-back a valid slot is dirty when its block was stored to since it was filled. -/
structure Tracks (config : CacheConfig) (index : Nat) (set : CacheSet) (written : Nat → Bool) :
    Prop where
  kept : Kept config set
  dirty : config.writeThrough = false → ∀ j < set.validCount,
    (set.slot j).dirty = written (set.lineAt config index j).1

/-- The victim is dirty when it is valid and holds a dirty block. -/
theorem Kept.victim_dirty (h : Kept config set) :
    ((set.findVictimSlot config.isLru).2.slot (set.findVictimSlot config.isLru).1).dirty =
      (set.evictee config.isLru).any Prod.snd := by
  rw [slot_victim]
  unfold CacheSet.evictee
  by_cases hfull : set.validCount = set.slots.length
  · rw [if_pos hfull]
    rfl
  · have hfree : (set.findVictimSlot config.isLru).1 = set.validCount := by
      unfold CacheSet.findVictimSlot
      rw [if_neg hfull]
    rw [if_neg hfull, hfree]
    exact h.clean _ (Nat.le_refl _)

/-- The flag of the block that goes out agrees with the history. -/
theorem Tracks.evictee_dirty (h : Tracks config index set written) (hblocks : 0 < config.numBlocks.toNat)
    (hwb : config.writeThrough = false) :
    (set.evictee config.isLru).any Prod.snd =
      (set.evictee config.isLru).any fun line => written (config.line index line).1 := by
  have hpos : 0 < set.slots.length := by rw [h.kept.len]; exact hblocks
  unfold CacheSet.evictee
  by_cases hfull : set.validCount = set.slots.length
  · have hvalid : (set.findVictimSlot config.isLru).1 < set.validCount := by
      refine Nat.lt_of_lt_of_eq (victim_lt config.isLru h.kept.le hpos).1 ?_
      unfold CacheSet.findVictimSlot
      rw [if_pos hfull]
      split <;> rfl
    rw [if_pos hfull]
    exact h.dirty hwb _ hvalid
  · rw [if_neg hfull]
    rfl

/-- The write-back of a fill. -/
theorem Tracks.write_back (h : Tracks config index set written) (hblocks : 0 < config.numBlocks.toNat)
    (fetch : Nat) :
    (if ((set.findVictimSlot config.isLru).2.slot (set.findVictimSlot config.isLru).1).dirty &&
        !config.writeThrough then UInt64.ofNat fetch else 0) =
      UInt64.ofNat (if ((set.evictee config.isLru).any fun line =>
        written (config.line index line).1) && !config.writeThrough then fetch else 0) := by
  cases hwt : config.writeThrough
  · rw [h.kept.victim_dirty, h.evictee_dirty hblocks hwt]
    split <;> rfl
  · rw [Bool.not_true, Bool.and_false, Bool.and_false]
    rfl

/-- **The charge** of an access depends on its kind, and on whether it evicts a block stored to. -/
theorem Tracks.cost_eq (h : Tracks config index set written) (hacc : Accepted config)
    (hcost : 100 * config.blockSize.toNat < 2 ^ 32) (store : Bool) (tag : UInt32) :
    set.cost config store tag = UInt64.ofNat (config.accessCycles store (set.findHit tag).isSome
      ((set.event config store tag).evicted.any fun line => written (config.line index line).1)) := by
  have hmem := memory_cycles hcost store
  have hback := h.write_back hacc.blocks_pos (25 * config.blockSize.toNat)
  unfold CacheSet.cost CacheSet.event CacheConfig.accessCycles
  cases set.findHit tag with
  | some i =>
    cases store
    · rfl
    · cases config.writeThrough
      · rfl
      · cases config.writeAllocate <;> rfl
  | none =>
    simp only [hmem, hback]
    cases store
    · simp only [Bool.not_false, Bool.true_or, if_true, Bool.false_and, Bool.false_eq_true, if_false,
        Option.isSome_none, UInt64.ofNat_add]
      rfl
    · cases hwa : config.writeAllocate
      · rfl
      · simp only [Bool.or_true, if_true, Bool.true_and, Option.isSome_none, UInt64.ofNat_add]
        cases config.writeThrough <;> rfl

/-! ## What a run keeps -/

/-- `Cache.stored`, of the located set. -/
def CacheSet.stored (set : CacheSet) (config : CacheConfig) (index : Nat) (store : Bool) (tag : UInt32)
    (written : Nat → Bool) : Nat → Bool :=
  let block := tag.toNat * config.numSets.toNat + index
  let e := set.event config store tag
  if e.hit then Function.update written block (written block || store)
  else if !store || config.writeAllocate then Function.update written block store
  else written

/-- **Step**: the flags of the located set follow the history. -/
theorem Tracks.access (h : Tracks config index set written) (hacc : Accepted config) (store : Bool)
    (tag : UInt32) (stats : CacheStats) :
    Tracks config index (accessSet config store tag set stats).1
      (set.stored config index store tag written) := by
  refine ⟨h.kept.access hacc.blocks_pos store tag stats, ?_⟩
  intro hwb j hj
  have hpos : 0 < set.slots.length := by rw [h.kept.len]; exact hacc.blocks_pos
  have hother : ∀ j, (set.slot j).tag ≠ tag →
      (set.lineAt config index j).1 ≠ tag.toNat * config.numSets.toNat + index :=
    fun j hne he => hne (line_inj hacc.sets_pos he)
  unfold CacheSet.stored
  rw [event_hit]
  rcases accessSet_cases config tag h.kept.le hpos store stats with
    ⟨i, hhit, hset⟩ | ⟨hmiss, hpast, hset⟩ | ⟨hmiss, halloc, hfill⟩
  · obtain ⟨hlt, htag⟩ := findHit_some hhit
    obtain ⟨htags, hflags⟩ := entry_hit config h.kept.le hlt store j
    rw [hset, validCount_hit] at hj
    have hline : ((set.hit config store i).lineAt config index j).1 =
        (set.lineAt config index j).1 := by
      simp only [CacheSet.lineAt, CacheConfig.line, htags]
    rw [hset, hflags, hline, hhit, hwb, Bool.not_false, Bool.and_true, Option.isSome_some,
      if_pos (show true = true from rfl)]
    by_cases hji : j = i
    · subst hji
      have hblock : (set.lineAt config index j).1 = tag.toNat * config.numSets.toNat + index := by
        rw [← htag]
        rfl
      rw [h.dirty hwb j hj, hblock, Function.update_self]
      cases store <;> simp
    · have htag' : (set.slot j).tag ≠ tag := fun e =>
        hji (h.kept.distinct j hj i hlt (e.trans htag.symm))
      rw [if_neg fun e => hji e.1, Function.update_of_ne (hother j htag')]
      exact h.dirty hwb j hj
  · rw [hset] at hj
    rw [hset, hmiss, hpast]
    exact h.dirty hwb j hj
  · obtain ⟨-, -, -, hold⟩ := victim_lt config.isLru h.kept.le hpos
    rw [hfill.count] at hj
    rw [hfill.flags, hmiss, halloc, hwb, Bool.not_false, Bool.and_true, slot_victim]
    simp only [CacheSet.lineAt, CacheConfig.line, hfill.tags, slot_victim]
    by_cases hjv : j = (set.findVictimSlot config.isLru).1
    · rw [if_pos hjv, if_pos hjv]
      simp
    · rw [if_neg hjv, if_neg hjv]
      have hj' := hold j hj hjv
      have hne := hother j (findHit_none hmiss hj')
      simp only [Option.isSome_none, Bool.false_eq_true, if_false, if_true]
      exact (h.dirty hwb j hj').trans (Function.update_of_ne hne ..).symm

/-- The history of the other sets stays. -/
theorem stored_other {j : Nat} {store : Bool} (hne : j ≠ index) (hj : j < config.numSets.toNat)
    (hi : index < config.numSets.toNat) (u : UInt32) :
    set.stored config index store tag written (u.toNat * config.numSets.toNat + j) =
      written (u.toNat * config.numSets.toNat + j) := by
  have hblock : u.toNat * config.numSets.toNat + j ≠ tag.toNat * config.numSets.toNat + index := by
    intro he
    have hmod := congrArg (· % config.numSets.toNat) he
    simp only [Nat.mul_add_mod_self_right, Nat.mod_eq_of_lt hj, Nat.mod_eq_of_lt hi] at hmod
    exact hne hmod
  unfold CacheSet.stored
  split
  · exact Function.update_of_ne hblock ..
  · split
    · exact Function.update_of_ne hblock ..
    · rfl

/-- An access to another set leaves the history of this one. -/
theorem Tracks.frame (h : Tracks config index set written) {written' : Nat → Bool}
    (hsame : ∀ t : UInt32, written' (t.toNat * config.numSets.toNat + index) =
      written (t.toNat * config.numSets.toNat + index)) : Tracks config index set written' :=
  ⟨h.kept, fun hwb j hj => (h.dirty hwb j hj).trans (hsame _).symm⟩

end

/-- What a run keeps of the cache, its tally and its history. -/
structure Accounted (config : CacheConfig) (c : Cache) (t : Tally) (written : Nat → Bool) : Prop where
  config_eq : c.config = config
  sized : Sized c
  tracks : ∀ (i : Nat) (set : CacheSet), c.sets[i]? = some set → Tracks config i set written
  stats : c.stats = t.stats config

theorem Accounted.new {config : CacheConfig} (g : Geometry config) (fifo : UInt64) :
    Accounted config (Cache.new config fifo) ⟨0, 0, 0, 0, 0⟩ fun _ => false := by
  refine ⟨rfl, Sized.new g fifo, ?_, ?_⟩
  · intro i set hset
    rw [mem_new (List.mem_of_getElem? hset)]
    exact ⟨Kept.new config fifo, fun _ j hj => absurd hj (Nat.not_lt_zero j)⟩
  · simp [Cache.new, Tally.stats, Tally.cycles, CacheConfig.storeCycles]

/-- **Step**: an access adds itself to the tally. -/
theorem Accounted.access {config : CacheConfig} {c : Cache} {t : Tally} {written : Nat → Bool}
    (h : Accounted config c t written) (hcost : 100 * config.blockSize.toNat < 2 ^ 32) (a : Access) :
    ∃ c' hit, c.access a = some c' ∧
      Accounted config c' (t.add a.store hit (c.evictsStored written a)) (c.stored written a) := by
  obtain ⟨rfl, hsized, htracks, hstats⟩ := h
  have hacc := hsized.geom.toAccepted
  obtain ⟨tag, set, htag, hi, hset, hblock⟩ := hsized.locate a.address
  have hevent : c.event a = some (set.event c.config a.store tag) := by
    simp only [Cache.event, htag, hi, hset, Option.bind_eq_bind, Option.bind_some]
  have hevicts : c.evictsStored written a = (set.event c.config a.store tag).evicted.any fun line =>
      written (c.config.line (c.config.home a.address) line).1 := by
    simp only [Cache.evictsStored, hevent]
  have hstored : c.stored written a =
      set.stored c.config (c.config.home a.address) a.store tag written := by
    simp only [Cache.stored, CacheSet.stored, hevent, hblock]
  have hset' := htracks _ _ hset
  refine ⟨c.put a tag set, (set.findHit tag).isSome, access_eq htag hi hset, rfl,
    hsized.put a tag set, ?_, ?_⟩
  · intro j s hj
    rw [hstored]
    rcases put_sets hj with ⟨rfl, rfl⟩ | ⟨hne, hj⟩
    · exact hset'.access hacc a.store tag c.stats
    · refine (htracks j s hj).frame fun u => ?_
      refine stored_other hne ?_ (home_lt hacc a.address) u
      rw [← hsized.len]
      exact (List.getElem?_eq_some_iff.1 hj).1
  · have hhit : (set.findHit tag).isSome = true → c.evictsStored written a = false := by
      rw [hevicts]
      unfold CacheSet.event
      cases set.findHit tag with
      | some i => exact fun _ => rfl
      | none => exact fun h => absurd h (by simp)
    rw [Cache.put, hset'.cost_eq hacc hcost, hstats, ← hevicts]
    exact stats_add hacc t a.store _ _ hhit

/-- **Run**: the tally grows by one for each access, and its evictions are those of the history. -/
theorem Accounted.run {config : CacheConfig} {c : Cache} {t : Tally} {written : Nat → Bool}
    (h : Accounted config c t written) (hcost : 100 * config.blockSize.toNat < 2 ^ 32)
    (trace : List Access) :
    ∃ c' t' written', c.run trace = some c' ∧ Accounted config c' t' written' ∧
      t'.accesses = t.accesses + trace.length ∧
      t'.evictions = t.evictions + c.storedEvictions written trace := by
  induction trace generalizing c t written with
  | nil => exact ⟨c, t, written, rfl, h, rfl, rfl⟩
  | cons a trace ih =>
    obtain ⟨c', hit, hacc, h'⟩ := h.access hcost a
    obtain ⟨d, t', written', hrun, hd, haccesses, hevictions⟩ := ih h'
    refine ⟨d, t', written', by rw [run_cons hacc, hrun], hd, ?_, ?_⟩
    · rw [haccesses, accesses_add, List.length_cons]
      omega
    · rw [hevictions, evictions_add, Cache.storedEvictions, hacc, Nat.add_assoc]

theorem storedEvictions_le (trace : List Access) (c : Cache) (written : Nat → Bool) :
    c.storedEvictions written trace ≤ trace.length := by
  induction trace generalizing c written with
  | nil => exact Nat.le_refl _
  | cons a trace ih =>
    unfold Cache.storedEvictions
    rw [List.length_cons, Nat.add_comm trace.length]
    refine Nat.add_le_add ?_ ?_
    · split <;> omega
    · cases c.access a with
      | none => exact Nat.zero_le _
      | some c' => exact ih c' _

/-- Fewer than `2^32` accesses do not wrap the cycles either. -/
theorem cycles_lt {config : CacheConfig} {t : Tally} (hcost : 100 * config.blockSize.toNat < 2 ^ 32)
    (ht : t.accesses < 2 ^ 32) (he : t.evictions < 2 ^ 32) : t.cycles config < 2 ^ 64 := by
  have hfetch : 25 * config.blockSize.toNat < 2 ^ 30 := by omega
  have hloads := Nat.mul_le_mul_left t.loadMisses (show 1 + 25 * config.blockSize.toNat ≤ 2 ^ 30 by omega)
  have hstores := Nat.mul_le_mul_right t.storeMisses hfetch.le
  have hevictions := Nat.mul_le_mul_right t.evictions hfetch.le
  unfold Tally.accesses at ht
  unfold Tally.cycles CacheConfig.storeCycles
  dsimp only
  split
  · split <;> omega
  · omega

/-- **Cycle accounting.** For every accepted configuration whose products fit in 32 bits and every trace
of fewer than `2^32` accesses, the final counters account for every access and every cycle. -/
theorem cycle_accounting {argv : List String} {config : CacheConfig} (h : parseArgs argv = .ok config)
    (hfit : config.numSets.toNat * config.blockSize.toNat < 2 ^ 32)
    (hcost : 100 * config.blockSize.toNat < 2 ^ 32) (fifo : UInt64) (trace : List Access)
    (hlen : trace.length < 2 ^ 32) :
    ∃ c, (Cache.new config fifo).run trace = some c ∧
      c.stats.totalLoads.toNat = c.stats.loadHits.toNat + c.stats.loadMisses.toNat ∧
      c.stats.totalStores.toNat = c.stats.storeHits.toNat + c.stats.storeMisses.toNat ∧
      c.stats.totalCycles.toNat = c.stats.loadHits.toNat +
        c.stats.loadMisses.toNat * (1 + 25 * config.blockSize.toNat) +
        config.storeCycles c.stats.totalStores.toNat c.stats.storeMisses.toNat
          ((Cache.new config fifo).storedEvictions (fun _ => false) trace) := by
  have g : Geometry config := ⟨parseArgs_accepted h, hfit⟩
  obtain ⟨c, t, written, hrun, hc, haccesses, hevictions⟩ := (Accounted.new g fifo).run hcost trace
  have hn : t.accesses < 2 ^ 32 := by
    rw [haccesses]
    show 0 + trace.length < 2 ^ 32
    omega
  have hevictions : t.evictions = (Cache.new config fifo).storedEvictions (fun _ => false) trace :=
    hevictions.trans (Nat.zero_add _)
  have he : t.evictions < 2 ^ 32 := by
    rw [hevictions]
    exact Nat.lt_of_le_of_lt (storedEvictions_le ..) hlen
  have hcycles := cycles_lt hcost hn he
  have hword : ∀ n, n ≤ t.accesses → (UInt32.ofNat n).toNat = n := fun n hle =>
    UInt32.toNat_ofNat_of_lt' (show n < 2 ^ 32 by omega)
  have hlong : (UInt64.ofNat (t.cycles config)).toNat = t.cycles config :=
    UInt64.toNat_ofNat_of_lt' (show _ < 2 ^ 64 from hcycles)
  unfold Tally.accesses at hword
  refine ⟨c, hrun, ?_, ?_, ?_⟩
  · rw [hc.stats, Tally.stats, hword _ (by omega), hword _ (by omega), hword _ (by omega)]
  · rw [hc.stats, Tally.stats, hword _ (by omega), hword _ (by omega), hword _ (by omega)]
  · rw [hc.stats, Tally.stats, hword _ (by omega), hword _ (by omega), hword _ (by omega),
      hword _ (by omega), hlong, ← hevictions]
    rfl

/-- A dirty block of 4 bytes goes out: a store miss, then a load miss that writes it back. -/
theorem cycle_accounting_write_back :
    ∃ c, (Cache.new ⟨1, 1, 4, true, false, true⟩ 0).run [⟨true, 0⟩, ⟨false, 4⟩] = some c ∧
      c.stats.totalLoads.toNat = c.stats.loadHits.toNat + c.stats.loadMisses.toNat ∧
      c.stats.totalStores.toNat = c.stats.storeHits.toNat + c.stats.storeMisses.toNat ∧
      c.stats.totalCycles.toNat = c.stats.loadHits.toNat + c.stats.loadMisses.toNat * (1 + 25 * 4) +
        CacheConfig.storeCycles ⟨1, 1, 4, true, false, true⟩ c.stats.totalStores.toNat
          c.stats.storeMisses.toNat
          ((Cache.new ⟨1, 1, 4, true, false, true⟩ 0).storedEvictions (fun _ => false)
            [⟨true, 0⟩, ⟨false, 4⟩]) :=
  cycle_accounting
    (show parseArgs ["csim", "1", "1", "4", "write-allocate", "write-back", "lru"] = .ok _ from rfl)
    (by decide) (by decide) 0 [⟨true, 0⟩, ⟨false, 4⟩] (by decide)

end CsfAssignments.CacheSim
