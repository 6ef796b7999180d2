import Mathlib.Data.List.Forall2
import CsfAssignments.Cache.Access
/-!
# `Cache::load` / `Cache::save` refine the textbook cache

The textbook cache (`Textbook`) keeps for every set index the lines of `Eviction.step`, keyed by
block number, oldest first. `Encodes` relates one set of the code to its lines: the slots, read in
the order of their ages, are the lines. `Sim` is that relation on every set of a cache.

| here | there |
| --- | --- |
| `CacheSet.event`, `Cache.event` | what an access shows: `find_hit`, and the valid slot `find_victim_slot` hands out |
| `Cache.stamps`                  | the values `mark_insertion_fifo` stores along a run (`cache.h:26`) |
| `Textbook.run`                  | the reference, over natural numbers, with no slot, age or counter |
-/

namespace CsfAssignments.CacheSim

open Eviction (Line Event keys)

/-! ## What a run shows -/

/-- The valid slot that a fill overwrites. -/
def CacheSet.evictee (set : CacheSet) (isLru : Bool) : Option (Line UInt32) :=
  if set.validCount = set.slots.length then
    let s := set.slot (set.findVictimSlot isLru).1
    some (s.tag, s.dirty)
  else none

def CacheSet.event (set : CacheSet) (config : CacheConfig) (store : Bool) (tag : UInt32) :
    Event UInt32 :=
  match set.findHit tag with
  | some _ => ⟨true, none⟩
  | none => ⟨false, if !store || config.writeAllocate then set.evictee config.isLru else none⟩

/-- The resident `(tag, dirty)` pairs of a set, in slot order. -/
def CacheSet.residents (set : CacheSet) : List (Line UInt32) :=
  (List.range set.validCount).map fun i => ((set.slot i).tag, (set.slot i).dirty)

def Cache.event (c : Cache) (a : Access) : Option (Event UInt32) := do
  let tag ← c.config.getTag a.address
  let index ← c.config.getIndex a.address
  let set ← c.sets[index]?
  some (set.event c.config a.store tag)

def Cache.residents (c : Cache) (i : Nat) : List (Line UInt32) :=
  (c.sets[i]?.map CacheSet.residents).getD []

/-- The stamp an access hands out: `fifo_counter` of its set when it fills a slot under FIFO. -/
def Cache.stamp (c : Cache) (a : Access) : Option UInt64 := do
  let tag ← c.config.getTag a.address
  let index ← c.config.getIndex a.address
  let set ← c.sets[index]?
  if !c.config.isLru && (set.findHit tag).isNone && (!a.store || c.config.writeAllocate) then
    some set.fifoCounter
  else none

def Cache.stamps : Cache → List Access → List UInt64
  | _, [] => []
  | c, a :: trace =>
    (c.stamp a).toList ++ match c.access a with
      | some c' => c'.stamps trace
      | none => []

/-! ## The textbook cache -/

/-- Lines of each set index, keyed by block number. -/
abbrev Textbook := Nat → List (Line Nat)

def CacheConfig.policy (config : CacheConfig) : Eviction.Policy :=
  ⟨config.numBlocks.toNat, config.isLru, config.writeAllocate, !config.writeThrough⟩

def Textbook.access (config : CacheConfig) (m : Textbook) (a : Access) : Textbook := fun i =>
  if i = config.home a.address then
    Eviction.step config.policy a.store (config.block a.address) (m i)
  else m i

def Textbook.event (config : CacheConfig) (m : Textbook) (a : Access) : Event Nat :=
  Eviction.event config.policy a.store (config.block a.address) (m (config.home a.address))

def Textbook.empty : Textbook := fun _ => []

def Textbook.run (config : CacheConfig) (trace : List Access) : Textbook :=
  trace.foldl (Textbook.access config) Textbook.empty

/-- The line of a `(tag, dirty)` pair of set `index`: the block number is restored from the tag. -/
def CacheConfig.line (config : CacheConfig) (index : Nat) (e : Line UInt32) : Line Nat :=
  (e.1.toNat * config.numSets.toNat + index, e.2)

def CacheConfig.event (config : CacheConfig) (index : Nat) (e : Event UInt32) : Event Nat :=
  ⟨e.hit, e.evicted.map (config.line index)⟩

/-! ## One set -/

/-- The line held in slot `j` of set `index`. -/
def CacheSet.lineAt (set : CacheSet) (config : CacheConfig) (index j : Nat) : Line Nat :=
  config.line index ((set.slot j).tag, (set.slot j).dirty)

/-- A set of the code encodes the lines `l`, oldest first. -/
structure Encodes (config : CacheConfig) (index : Nat) (set : CacheSet) (l : List (Line Nat)) :
    Prop where
  len : set.slots.length = config.numBlocks.toNat
  clean : ∀ j, set.validCount ≤ j → (set.slot j).dirty = false
  nodup : (keys l).Nodup
  slots : ∃ p, Ordered config.isLru set p ∧ l = p.map (set.lineAt config index)

theorem Encodes.new (config : CacheConfig) (index : Nat) (fifo : UInt64) :
    Encodes config index (CacheSet.new config.numBlocks.toNat fifo) [] := by
  refine ⟨by simp [CacheSet.new], fun j _ => by rw [slot_new]; rfl, List.nodup_nil, [], ?_, rfl⟩
  exact ⟨List.Perm.refl _, Nat.zero_le _, List.Pairwise.nil, by simp⟩

section
variable {config : CacheConfig} {index : Nat} {set : CacheSet} {l : List (Line Nat)}
  {tag : UInt32}

theorem line_inj (hpos : 0 < config.numSets.toNat) {t t' : UInt32}
    (h : t.toNat * config.numSets.toNat + index = t'.toNat * config.numSets.toNat + index) :
    t = t' :=
  UInt32.toNat_inj.1 (Nat.eq_of_mul_eq_mul_right hpos (by omega))

theorem Encodes.hit_mem (h : Encodes config index set l) {i : Nat}
    (hi : set.findHit tag = some i) : tag.toNat * config.numSets.toNat + index ∈ keys l := by
  obtain ⟨hlt, htag⟩ := findHit_some hi
  obtain ⟨p, hp, rfl⟩ := h.slots
  rw [Eviction.keys_map, List.mem_map]
  exact ⟨i, hp.mem_iff.2 hlt, by simp [CacheSet.lineAt, CacheConfig.line, htag]⟩

theorem Encodes.miss_not_mem (h : Encodes config index set l) (hpos : 0 < config.numSets.toNat)
    (hi : set.findHit tag = none) : tag.toNat * config.numSets.toNat + index ∉ keys l := by
  obtain ⟨p, hp, rfl⟩ := h.slots
  rw [Eviction.keys_map, List.mem_map]
  rintro ⟨j, hj, he⟩
  have hj' := hp.mem_iff.1 hj
  have := List.find?_eq_none.1 hi j (List.mem_range.2 hj')
  exact this (by simpa using line_inj hpos he)

/-- **LRU hit**: `touch` on the slots is `touch` on the lines. -/
theorem Encodes.touch (hlru : config.isLru = true) (h : Encodes config index set l) {i : Nat}
    (hi : set.findHit tag = some i) :
    Encodes config index (set.touch i)
      (Eviction.touch (tag.toNat * config.numSets.toNat + index) l) := by
  obtain ⟨hlt, htag⟩ := findHit_some hi
  obtain ⟨p, hp, rfl⟩ := h.slots
  have hmem := hp.mem_iff.2 hlt
  have hentry := entry_touch hp.le i
  have hline : (set.touch i).lineAt config index = set.lineAt config index := by
    funext j; simp only [CacheSet.lineAt, (hentry j).1, (hentry j).2]
  have hkey : tag.toNat * config.numSets.toNat + index = (set.lineAt config index i).1 := by
    simp [CacheSet.lineAt, CacheConfig.line, htag]
  have htouch := Eviction.touch_map h.nodup hmem
  rw [hkey, htouch]
  refine ⟨by rw [length_touch]; exact h.len, ?_, ?_, p.erase i ++ [i], ?_, by rw [hline]⟩
  · intro j hj
    rw [(hentry j).2]; exact h.clean j hj
  · have hk : (set.lineAt config index i).1 ∈ keys (p.map (set.lineAt config index)) := by
      rw [Eviction.keys_map]; exact List.mem_map_of_mem hmem
    rw [← htouch, Eviction.keys_touch_of_mem h.nodup hk]
    exact Eviction.nodup_erase_snoc h.nodup
  · rw [hlru] at hp ⊢
    exact hp.touch hmem

/-- **Store hit under write-back**: the dirty flag of the slot is the mark of the line. -/
theorem Encodes.mark (h : Encodes config index set l) {i : Nat} (hi : set.findHit tag = some i) :
    Encodes config index (set.modifySlot i fun s => { s with dirty := true })
      (Eviction.mark (tag.toNat * config.numSets.toNat + index) l) := by
  obtain ⟨hlt, htag⟩ := findHit_some hi
  obtain ⟨p, hp, rfl⟩ := h.slots
  have hmem := hp.mem_iff.2 hlt
  have hlen : i < set.slots.length := Nat.lt_of_lt_of_le hlt hp.le
  have hkey : tag.toNat * config.numSets.toNat + index = (set.lineAt config index i).1 := by
    simp [CacheSet.lineAt, CacheConfig.line, htag]
  have hne : ∀ j, j ≠ i → (set.modifySlot i fun s => { s with dirty := true }).slot j = set.slot j :=
    fun j hj => by rw [slot_modifySlot, if_neg fun e => hj e.1.symm]
  have hmark := Eviction.mark_map (g := (set.modifySlot i fun s => { s with dirty := true }).lineAt
    config index) h.nodup hmem (by simp [CacheSet.lineAt, CacheConfig.line, hlen])
    (fun j hj => by simp only [CacheSet.lineAt, hne j hj])
  rw [hkey]
  refine ⟨by rw [length_modifySlot]; exact h.len, ?_, ?_, p, ?_, hmark⟩
  · intro j hj
    have : j ≠ i := by
      rintro rfl; exact absurd hj (by simpa using hlt)
    rw [hne j this]; exact h.clean j hj
  · rw [Eviction.keys_mark]; exact h.nodup
  · refine hp.congr (fun j => age_modifySlot ?_ set i j) rfl (length_modifySlot ..) rfl
    exact fun _ => rfl

/-- **Fill**: overwriting the victim appends a line and drops the oldest one of a full set. -/
theorem Encodes.fill (h : Encodes config index set l) (hsets : 0 < config.numSets.toNat)
    (hblocks : 0 < config.numBlocks.toNat) (hi : set.findHit tag = none)
    (hstamp : config.isLru = false → set.fifoCounter.toNat < 2 ^ 32) {dirty : Bool}
    {set' : CacheSet} (hf : Filled config set tag dirty set') :
    Encodes config index set' (Eviction.fill config.numBlocks.toNat l
      (tag.toNat * config.numSets.toNat + index, dirty)) := by
  have hmiss := h.miss_not_mem hsets hi
  obtain ⟨p, hp, rfl⟩ := h.slots
  have hpos : 0 < set.slots.length := by rw [h.len]; exact hblocks
  obtain ⟨i, hvi, -, -, hvac⟩ := victim_spec hp hpos
  obtain ⟨-, -, hvc, -⟩ := victim_lt config.isLru hp.le hpos
  obtain ⟨hage, hcount, hlen, hfc, htags, hflags⟩ := hf
  rw [hvi] at hage hfc htags hflags
  have hlen' : (set.findVictimSlot config.isLru).2.slots.length = config.numBlocks.toNat := by
    rw [slots_victim]; exact h.len
  have hord := (hvac.install hlen' (by rw [fifoCounter_victim]; exact hstamp) tag).congr hage
    (by rw [validCount_install]; exact hcount) (by rw [length_install]; exact hlen) hfc
  have hlines : ∀ q : List Nat, i ∉ q →
      q.map (set'.lineAt config index) = q.map (set.lineAt config index) := by
    intro q hq
    refine List.map_congr_left fun j hj => ?_
    have : j ≠ i := fun e => hq (e ▸ hj)
    simp only [CacheSet.lineAt, htags, hflags, this, if_false, slot_victim]
  refine ⟨by rw [hlen, hlen'], ?_, Eviction.nodup_fill h.nodup hmiss _, _, hord, ?_⟩
  · intro j hj
    -- slots beyond the valid ones were not touched
    have hji : j ≠ i := by
      have := hvac.lt; omega
    rw [hflags, if_neg hji, slot_victim]
    exact h.clean j (by omega)
  · have hfull : (p.map (set.lineAt config index)).length < config.numBlocks.toNat ↔
        set.validCount < set.slots.length := by rw [List.length_map, hp.length, h.len]
    unfold Eviction.fill
    rw [List.map_append, hlines _ hvac.not_mem]
    congr 1
    · simp only [hfull]
      split <;> simp [List.map_tail]
    · simp [CacheSet.lineAt, CacheConfig.line, htags, hflags]

/-- The slot a full set gives up holds the oldest line. -/
theorem Encodes.evictee (h : Encodes config index set l) (hblocks : 0 < config.numBlocks.toNat) :
    (set.evictee config.isLru).map (config.line index) =
      Eviction.evictee config.numBlocks.toNat l := by
  obtain ⟨p, hp, rfl⟩ := h.slots
  obtain ⟨i, hvi, -, hhead, -⟩ := victim_spec hp (by rw [h.len]; exact hblocks)
  unfold CacheSet.evictee Eviction.evictee
  rw [List.length_map, hp.length, ← h.len]
  have hle := hp.le
  by_cases hroom : set.validCount < set.slots.length
  · rw [if_neg (by omega), if_pos hroom]; rfl
  · rw [if_pos (by omega), if_neg hroom, hhead hroom, hvi]
    rfl

/-- **One set**: an access to the slots is the textbook step on the lines. -/
theorem Encodes.access (tag : UInt32) (h : Encodes config index set l) (hsets : 0 < config.numSets.toNat)
    (hblocks : 0 < config.numBlocks.toNat) (store : Bool) (stats : CacheStats)
    (hstamp : config.isLru = false → set.findHit tag = none →
      (!store || config.writeAllocate) = true → set.fifoCounter.toNat < 2 ^ 32) :
    Encodes config index (accessSet config store tag set stats).1
      (Eviction.step config.policy store (tag.toNat * config.numSets.toNat + index) l) := by
  obtain ⟨p, hp, -⟩ := h.slots
  have hpos : 0 < set.slots.length := by rw [h.len]; exact hblocks
  unfold Eviction.step
  rcases accessSet_cases config tag hp.le hpos store stats with
    ⟨i, hhit, hset⟩ | ⟨hmiss, hpast, hset⟩ | ⟨hmiss, halloc, hfill⟩
  · rw [if_pos (h.hit_mem hhit), hset]
    -- a store that does not write through marks the line first
    have hmark : ∃ set' l', (set.hit config store i = if config.isLru then set'.touch i else set') ∧
        (if store && config.policy.writeBack then
          Eviction.mark (tag.toNat * config.numSets.toNat + index) l else l) = l' ∧
        set'.findHit tag = some i ∧ Encodes config index set' l' := by
      refine ⟨_, _, rfl, rfl, ?_⟩
      by_cases hdirty : (store && !config.writeThrough) = true
      · rw [if_pos hdirty, if_pos (show (store && config.policy.writeBack) = true from hdirty)]
        refine ⟨?_, h.mark hhit⟩
        rw [← hhit]
        unfold CacheSet.findHit
        have htags : ∀ j, ((set.modifySlot i fun s => { s with dirty := true }).slot j).tag =
            (set.slot j).tag := fun j => by rw [slot_modifySlot]; split <;> rfl
        simp only [htags]
        rfl
      · rw [if_neg hdirty, if_neg (show ¬(store && config.policy.writeBack) = true from hdirty)]
        exact ⟨hhit, h⟩
    obtain ⟨set', l', hset', hl', hhit', henc⟩ := hmark
    rw [hset', hl']
    by_cases hlru : config.isLru = true
    · rw [if_pos hlru, if_pos (show config.policy.recency = true from hlru)]
      exact henc.touch hlru hhit'
    · rw [if_neg hlru, if_neg (show ¬config.policy.recency = true from hlru)]
      exact henc
  · rw [if_neg (h.miss_not_mem hsets hmiss), hset]
    simpa [CacheConfig.policy, Eviction.Policy.allocates, hpast] using h
  · rw [if_neg (h.miss_not_mem hsets hmiss)]
    have hstep := h.fill hsets hblocks hmiss (fun hl => hstamp hl hmiss halloc) hfill
    simpa [CacheConfig.policy, Eviction.Policy.allocates, halloc] using hstep

/-- One access shows the same hit or miss and the same evicted line on both sides. -/
theorem Encodes.event (tag : UInt32) (h : Encodes config index set l) (hsets : 0 < config.numSets.toNat)
    (hblocks : 0 < config.numBlocks.toNat) (store : Bool) :
    config.event index (set.event config store tag) =
      Eviction.event config.policy store (tag.toNat * config.numSets.toNat + index) l := by
  unfold CacheSet.event Eviction.event CacheConfig.event
  cases hhit : set.findHit tag with
  | some i => rw [if_pos (h.hit_mem hhit)]; rfl
  | none =>
    rw [if_neg (h.miss_not_mem hsets hhit)]
    have he := h.evictee hblocks
    have hal : config.policy.allocates store = (!store || config.writeAllocate) := rfl
    simp only [hal]
    by_cases ha : (!store || config.writeAllocate) = true
    · simp only [ha, if_true, he]; rfl
    · simp only [ha]; rfl

/-- The residents of a set are its lines, in another order. -/
theorem Encodes.residents (h : Encodes config index set l) :
    (set.residents.map (config.line index)).Perm l := by
  obtain ⟨p, hp, rfl⟩ := h.slots
  unfold CacheSet.residents
  rw [List.map_map]
  exact (hp.perm.map _).symm

end

/-! ## The whole cache -/

/-- Every set of `c` encodes the textbook lines of its index. -/
structure Sim (c : Cache) (m : Textbook) : Prop where
  geom : Geometry c.config
  len : c.sets.length = c.config.numSets.toNat
  sets : ∀ (i : Nat) (set : CacheSet), c.sets[i]? = some set → Encodes c.config i set (m i)

theorem Sim.sized {c : Cache} {m : Textbook} (h : Sim c m) : Sized c := ⟨h.geom, h.len⟩

theorem Sim.new {config : CacheConfig} (g : Geometry config) (fifo : UInt64) :
    Sim (Cache.new config fifo) Textbook.empty := by
  refine ⟨g, by simp [Cache.new], ?_⟩
  intro i set hset
  rw [mem_new (List.mem_of_getElem? hset)]
  exact Encodes.new _ _ _

theorem event_hit (config : CacheConfig) (store : Bool) (tag : UInt32) (set : CacheSet) :
    (set.event config store tag).hit = (set.findHit tag).isSome := by
  unfold CacheSet.event; cases set.findHit tag <;> rfl

/-- What one access does to a simulated cache. -/
structure Simulated (c : Cache) (m : Textbook) (a : Access) (c' : Cache) : Prop where
  access : c.access a = some c'
  config : c'.config = c.config
  /-- The two sides see the same event. -/
  event : (c.event a).map (c.config.event (c.config.home a.address)) =
    some (m.event c.config a)
  sim : Sim c' (m.access c.config a)
  stats : ∃ n, c'.stats = (c.stats.count a.store (m.event c.config a).hit).charge n

/-- **Step**: every access is the textbook access. -/
theorem Sim.access {c : Cache} {m : Textbook} (h : Sim c m) (a : Access)
    (hstamp : ∀ s, c.stamp a = some s → s.toNat < 2 ^ 32) : ∃ c', Simulated c m a c' := by
  obtain ⟨tag, set, htag, hi, hset, hblock⟩ := h.sized.locate a.address
  have hsets := h.geom.sets_pos
  have hblocks := h.geom.blocks_pos
  have henc := h.sets _ _ hset
  have hev := henc.event tag hsets hblocks a.store
  rw [hblock] at hev
  have hacc := henc.access tag hsets hblocks a.store c.stats fun hf hn ha => by
    refine hstamp _ ?_
    simp only [Cache.stamp, htag, hi, hset, Option.bind_eq_bind, Option.bind_some, hf, hn, ha]
    rfl
  rw [hblock] at hacc
  have hhit : (m.event c.config a).hit = (set.findHit tag).isSome := by
    rw [← event_hit c.config a.store tag set, Textbook.event, ← hev]; rfl
  refine ⟨c.put a tag set, access_eq htag hi hset, rfl, ?_,
    ⟨h.geom, (h.sized.put a tag set).len, ?_⟩, _, by rw [hhit]; rfl⟩
  · simp only [Cache.event, htag, hi, hset, Option.bind_eq_bind, Option.bind_some, Option.map_some]
    rw [hev]; rfl
  · intro j s hj
    unfold Textbook.access
    rcases put_sets hj with ⟨rfl, rfl⟩ | ⟨hne, hj⟩
    · rw [if_pos rfl]
      exact hacc
    · rw [if_neg hne]
      exact h.sets j s hj

theorem stamps_cons {c c' : Cache} {a : Access} {trace : List Access} (h : c.access a = some c') :
    c.stamps (a :: trace) = (c.stamp a).toList ++ c'.stamps trace := by
  simp only [Cache.stamps, h]

/-- **Run**: along a whole trace the cache simulates the textbook, and what is left of the trace
hands out only stamps that fit. -/
theorem Sim.run : ∀ {trace rest : List Access} {c : Cache} {m : Textbook}, Sim c m →
    (∀ s ∈ c.stamps (trace ++ rest), s.toNat < 2 ^ 32) →
    ∃ c', c.run trace = some c' ∧ c'.config = c.config ∧
      Sim c' (trace.foldl (Textbook.access c.config) m) ∧
      ∀ s ∈ c'.stamps rest, s.toNat < 2 ^ 32
  | [], rest, c, m, h, hs => ⟨c, rfl, rfl, h, hs⟩
  | a :: trace, rest, c, m, h, hs => by
    obtain ⟨c₁, h₁⟩ := h.access a fun s hst => by
      refine hs s ?_
      rw [List.cons_append, Cache.stamps, hst]
      simp
    have hs₁ : ∀ s ∈ c₁.stamps (trace ++ rest), s.toNat < 2 ^ 32 := by
      intro s hst
      refine hs s ?_
      rw [List.cons_append, stamps_cons h₁.access]
      exact List.mem_append_right _ hst
    obtain ⟨c₂, hrun, hcfg, hsim, hrest⟩ := h₁.sim.run hs₁
    rw [h₁.config] at hcfg hsim
    exact ⟨c₂, by rw [run_cons h₁.access, hrun], hcfg, hsim, hrest⟩

/-- Under LRU no stamp is handed out. -/
theorem stamp_lru {c : Cache} (h : c.config.isLru = true) (a : Access) : c.stamp a = none := by
  unfold Cache.stamp
  cases c.config.getTag a.address with
  | none => rfl
  | some tag =>
    cases c.config.getIndex a.address with
    | none => rfl
    | some i =>
      cases hset : c.sets[i]? with
      | none => simp [hset]
      | some set => simp [h]

theorem stamps_lru : ∀ (trace : List Access) {c : Cache}, c.config.isLru = true →
    c.stamps trace = []
  | [], _, _ => rfl
  | a :: trace, c, h => by
    unfold Cache.stamps
    rw [stamp_lru h]
    cases hacc : c.access a with
    | none => rfl
    | some c' => simpa using stamps_lru trace (by rw [access_config hacc, h])

theorem Sim.residents {c : Cache} {m : Textbook} (h : Sim c m) {i : Nat}
    (hi : i < c.config.numSets.toNat) :
    ((c.residents i).map (c.config.line i)).Perm (m i) := by
  have hset := List.getElem?_eq_getElem (l := c.sets) (i := i) (by rw [h.len]; exact hi)
  unfold Cache.residents
  rw [hset]
  exact (h.sets i _ hset).residents

/-- Every reference set is a list of at most `num_blocks` lines, each block at most once. -/
theorem textbook_wf {config : CacheConfig} (h : Accepted config) (trace : List Access) (i : Nat) :
    (Textbook.run config trace i).length ≤ config.numBlocks.toNat ∧
      (keys (Textbook.run config trace i)).Nodup := by
  suffices hstep : ∀ (trace : List Access) (m : Textbook),
      (∀ i, (m i).length ≤ config.numBlocks.toNat ∧ (keys (m i)).Nodup) →
      ∀ i, (trace.foldl (Textbook.access config) m i).length ≤ config.numBlocks.toNat ∧
        (keys (trace.foldl (Textbook.access config) m i)).Nodup from
    hstep trace Textbook.empty (fun _ => ⟨Nat.zero_le _, List.nodup_nil⟩) i
  intro trace
  induction trace with
  | nil => exact fun m hm => hm
  | cons a trace ih =>
    intro m hm
    refine ih _ fun i => ?_
    unfold Textbook.access
    split
    · exact ⟨Eviction.length_step_le h.blocks_pos (hm i).2 (hm i).1,
        Eviction.keys_nodup_step (hm i).2⟩
    · exact hm i

/-- Access by access, the run of `trace` and the textbook agree on hit or miss (which the code
counts), on the evicted block and its dirty flag, and on the residents of every set. -/
def RefinesTextbook (config : CacheConfig) (fifo : UInt64) (trace : List Access) : Prop :=
  ∀ (past : List Access) (a : Access) (future : List Access), trace = past ++ a :: future →
    ∃ c c', (Cache.new config fifo).run past = some c ∧ c.access a = some c' ∧
      (c.event a).map (config.event (config.home a.address)) =
        some (Textbook.event config (Textbook.run config past) a) ∧
      (∃ n, c'.stats =
        (c.stats.count a.store (Textbook.event config (Textbook.run config past) a).hit).charge n) ∧
      (∀ i < config.numSets.toNat,
        ((c.residents i).map (config.line i)).Perm (Textbook.run config past i)) ∧
      ∀ i < config.numSets.toNat,
        ((c'.residents i).map (config.line i)).Perm (Textbook.run config (past ++ [a]) i)

/-- **The simulator is the textbook cache**, for every accepted geometry whose product fits, and
under FIFO as long as the stamps fit their 32-bit field. -/
theorem run_refines_textbook {argv : List String} {config : CacheConfig}
    (h : parseArgs argv = .ok config)
    (hfit : config.numSets.toNat * config.blockSize.toNat < 2 ^ 32) (fifo : UInt64)
    (trace : List Access)
    (hstamps : config.isLru = false →
      ∀ s ∈ (Cache.new config fifo).stamps trace, s.toNat < 2 ^ 32) :
    RefinesTextbook config fifo trace := by
  intro past a future htrace
  have hst : ∀ s ∈ (Cache.new config fifo).stamps (past ++ a :: future), s.toNat < 2 ^ 32 := by
    rw [← htrace]
    cases hlru : config.isLru
    · exact hstamps hlru
    · rw [stamps_lru _ hlru]; simp
  have hsim := Sim.new ⟨parseArgs_accepted h, hfit⟩ fifo
  obtain ⟨c, hrun, hcfg, hc, hrest⟩ := hsim.run hst
  have hcfg : c.config = config := hcfg
  obtain ⟨c', hs⟩ := hc.access a fun s hs => hrest s (by
    rw [Cache.stamps, hs]; simp)
  obtain ⟨hacc, hcfg', hev, hsim', hstats⟩ := hs
  rw [hcfg] at hcfg' hev hsim' hstats
  refine ⟨c, c', hrun, hacc, hev, hstats, ?_, ?_⟩
  · intro i hi
    have := hc.residents (i := i) (by rw [hcfg]; exact hi)
    rwa [hcfg] at this
  · intro i hi
    have := hsim'.residents (i := i) (by rw [hcfg']; exact hi)
    rw [hcfg'] at this
    rw [Textbook.run, List.foldl_append]
    exact this

/-- A full two-block FIFO set that has to evict a dirty block, its stamps starting at 5. -/
theorem run_refines_textbook_fifo :
    RefinesTextbook ⟨1, 2, 4, true, false, false⟩ 5
      [⟨true, 0⟩, ⟨false, 4⟩, ⟨false, 0⟩, ⟨false, 8⟩] :=
  run_refines_textbook
    (show parseArgs ["csim", "1", "2", "4", "write-allocate", "write-back", "fifo"] = .ok _ from rfl)
    (by decide) 5 _ fun _ s hs => of_decide_eq_true <|
      List.all_eq_true.mp (show List.all _ (fun s => decide (s.toNat < 2 ^ 32)) = true from rfl) s hs

end CsfAssignments.CacheSim
