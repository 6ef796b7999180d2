import Mathlib.Data.List.GetD
import CsfAssignments.Cache.Refine
/-!
# A direct-mapped cache has no replacement policy (`README.txt:205-225`)

A set of one slot holds at most one line, and an access to it is `Eviction.step` on that line
(`Single.access`), whatever LRU or FIFO put into `access_order`. One line has no order, so two caches
that differ in the policy, and in where their counters start, keep the same lines (`Paired.access`).
-/

namespace CsfAssignments.CacheSim

open Eviction (Line keys)

/-! ## One slot -/

/-- A set of one slot. As long as it is not valid, the slot is what `slots(size)` made of it. -/
structure Single (set : CacheSet) : Prop where
  len : set.slots.length = 1
  le : set.validCount ≤ 1
  empty : set.validCount = 0 → (set.slot 0).tag = 0 ∧ (set.slot 0).dirty = false

theorem Single.new (fifo : UInt64) : Single (CacheSet.new 1 fifo) :=
  ⟨rfl, Nat.zero_le 1, fun _ => ⟨rfl, rfl⟩⟩

section
variable {config config' : CacheConfig} {set set' : CacheSet} {tag : UInt32}

theorem residents_zero (h : set.validCount = 0) : set.residents = [] := by
  simp [CacheSet.residents, h]

theorem residents_one (h : set.validCount = 1) :
    set.residents = [((set.slot 0).tag, (set.slot 0).dirty)] := by
  simp [CacheSet.residents, h, List.range_succ]

namespace Single

variable (h : Single set)
include h

theorem valid_cases : set.validCount = 0 ∨ set.validCount = 1 := by
  have := h.le
  omega

theorem length_residents_le : set.residents.length ≤ 1 := by
  rw [CacheSet.residents, List.length_map, List.length_range]
  exact h.le

/-- The slot is the line it holds. -/
theorem entry : set.validCount = set.residents.length ∧
    ((set.slot 0).tag, (set.slot 0).dirty) = set.residents.headD (0, false) := by
  rcases h.valid_cases with h0 | h1
  · obtain ⟨htag, hdirty⟩ := h.empty h0
    rw [residents_zero h0, h0, htag, hdirty]
    exact ⟨rfl, rfl⟩
  · rw [residents_one h1, h1]
    exact ⟨rfl, rfl⟩

theorem line_of_hit {i : Nat} (hi : set.findHit tag = some i) :
    i = 0 ∧ set.residents = [(tag, (set.slot 0).dirty)] := by
  obtain ⟨hlt, htag⟩ := findHit_some hi
  have hle := h.le
  obtain rfl : i = 0 := by omega
  refine ⟨rfl, ?_⟩
  rw [residents_one (show set.validCount = 1 by omega), htag]

omit h in
theorem not_mem_of_miss (hi : set.findHit tag = none) : tag ∉ keys set.residents := by
  intro hmem
  obtain ⟨e, he, rfl⟩ := List.mem_map.1 hmem
  obtain ⟨i, hlt, rfl⟩ := List.mem_map.1 he
  exact findHit_none hi (List.mem_range.1 hlt) rfl

theorem isSome_findHit (tag : UInt32) : (set.findHit tag).isSome = decide (tag ∈ keys set.residents) := by
  cases hi : set.findHit tag with
  | some i =>
    rw [(h.line_of_hit hi).2]
    simp [keys]
  | none => simp [not_mem_of_miss hi]

/-- There is only one slot to hand out. -/
theorem victim_eq (isLru : Bool) :
    (set.findVictimSlot isLru).1 = 0 ∧ (set.findVictimSlot isLru).2.validCount = 1 := by
  have hlen := h.len
  obtain ⟨hlt, hfit, -, -⟩ := victim_lt isLru (hlen.symm ▸ h.le) (by omega)
  omega

/-- **Hit**: the line stays, dirty after a store under write-back. -/
theorem hit (store : Bool) {i : Nat} (hi : set.findHit tag = some i) :
    Single (set.hit config store i) ∧
      (set.hit config store i).residents = Eviction.step config.policy store tag set.residents := by
  have hle := h.le
  obtain ⟨hlt, htag⟩ := findHit_some hi
  obtain ⟨rfl, hline⟩ := h.line_of_hit hi
  have hone : (set.hit config store 0).validCount = 1 := by
    rw [validCount_hit]
    omega
  have hentry := entry_hit config (h.len.symm ▸ hle) hlt store 0
  refine ⟨⟨?_, Nat.le_of_eq hone, fun h0 => absurd (hone.symm.trans h0) (by decide)⟩, ?_⟩
  · rw [length_hit]
    exact h.len
  · have hmark : (if store && config.policy.writeBack then Eviction.mark tag set.residents
        else set.residents) =
          [(tag, if store && !config.writeThrough then true else (set.slot 0).dirty)] := by
      rw [hline]
      cases hdirty : (store && !config.writeThrough) <;>
        simp [CacheConfig.policy, hdirty, Eviction.mark]
    have hmem : tag ∈ keys set.residents := by
      rw [hline]
      exact List.mem_singleton_self tag
    rw [residents_one hone, hentry.1, hentry.2, htag, Eviction.step, if_pos hmem]
    have htouch : ∀ d, Eviction.touch tag [(tag, d)] = [(tag, d)] := fun d =>
      Eviction.touch_of_length_le (Nat.le_refl 1)
    simp only [hmark, htouch, ite_self, true_and]

/-- **Fill**: the new line takes the place of the old one. -/
theorem fill {dirty : Bool} (hf : Filled config set tag dirty set') :
    Single set' ∧ set'.residents = [(tag, dirty)] := by
  obtain ⟨hvictim, hcount⟩ := h.victim_eq config.isLru
  have hone : set'.validCount = 1 := hf.count.trans hcount
  refine ⟨⟨?_, Nat.le_of_eq hone, fun h0 => absurd (hone.symm.trans h0) (by decide)⟩, ?_⟩
  · rw [hf.len, slots_victim]
    exact h.len
  · rw [residents_one hone, hf.tags, hf.flags, hvictim]
    rfl

/-- **One set**: an access is the textbook step on the line. -/
theorem access (hone : config.numBlocks = 1) (store : Bool) (tag : UInt32) (stats : CacheStats) :
    Single (accessSet config store tag set stats).1 ∧
      (accessSet config store tag set stats).1.residents =
        Eviction.step config.policy store tag set.residents := by
  have hlen := h.len
  rcases accessSet_cases config tag (hlen.symm ▸ h.le) (by omega) store stats with
    ⟨i, hhit, hset⟩ | ⟨hmiss, hpast, hset⟩ | ⟨hmiss, halloc, hfill⟩
  · rw [hset]
    exact h.hit store hhit
  · rw [hset, Eviction.step, if_neg (not_mem_of_miss hmiss)]
    exact ⟨h, (if_neg (by simpa [Eviction.Policy.allocates, CacheConfig.policy] using hpast)).symm⟩
  · have hcapacity : config.policy.capacity = 1 := by rw [CacheConfig.policy, hone]; rfl
    obtain ⟨hsingle, hline⟩ := h.fill hfill
    refine ⟨hsingle, ?_⟩
    rw [hline, Eviction.step, if_neg (not_mem_of_miss hmiss), hcapacity,
      Eviction.fill_of_length_le h.length_residents_le]
    exact (if_pos halloc).symm

/-- The cycles of an access depend on the line alone. -/
theorem cost_eq (h' : Single set') (hline : set.residents = set'.residents)
    (hdiff : config' = { config with isLru := config'.isLru }) (store : Bool) (tag : UInt32) :
    set.cost config store tag = set'.cost config' store tag := by
  refine cost_congr hdiff ?_ ?_ store
  · rw [h.isSome_findHit, h'.isSome_findHit, hline]
  · have hentry := h.entry.2
    rw [hline, ← h'.entry.2, Prod.mk.injEq] at hentry
    rw [(h.victim_eq _).1, (h'.victim_eq _).1]
    exact hentry.2

end Single
end

/-! ## Two caches -/

/-- Direct-mapped caches of one geometry, with the same statistics and the same lines. -/
structure Paired (config config' : CacheConfig) (c c' : Cache) : Prop where
  sized : Sized c
  sized' : Sized c'
  config_eq : c.config = config
  config_eq' : c'.config = config'
  stats : c.stats = c'.stats
  sets : ∀ (i : Nat) (set set' : CacheSet), c.sets[i]? = some set → c'.sets[i]? = some set' →
    Single set ∧ Single set' ∧ set.residents = set'.residents

/-- The two configurations have one block a set and agree on everything but the replacement policy. -/
structure PolicyPair (config config' : CacheConfig) : Prop where
  one : config.numBlocks = 1
  same : config' = { config with isLru := config'.isLru }

section
variable {config config' : CacheConfig} (w : PolicyPair config config')
include w

theorem PolicyPair.one' : config'.numBlocks = 1 := by
  rw [w.same]
  exact w.one

theorem PolicyPair.step_eq (store : Bool) (tag : UInt32) {l : List (Line UInt32)}
    (hl : l.length ≤ 1) :
    Eviction.step config.policy store tag l = Eviction.step config'.policy store tag l := by
  refine Eviction.step_of_length_le ?_ ?_ ?_ store tag hl
  all_goals
    rw [w.same]
    rfl

theorem Paired.new (g : Geometry config) (g' : Geometry config') (fifo fifo' : UInt64) :
    Paired config config' (Cache.new config fifo) (Cache.new config' fifo') := by
  refine ⟨Sized.new g fifo, Sized.new g' fifo', rfl, rfl, rfl, ?_⟩
  intro i set set' hset hset'
  rw [mem_new (List.mem_of_getElem? hset), mem_new (List.mem_of_getElem? hset'), w.one, w.one']
  exact ⟨Single.new fifo, Single.new fifo', rfl⟩

/-- **Step**: one access keeps the lines the same. -/
theorem Paired.access {c c' : Cache} (h : Paired config config' c c') (a : Access) :
    ∃ d d', c.access a = some d ∧ c'.access a = some d' ∧ Paired config config' d d' := by
  obtain ⟨hsized, hsized', rfl, rfl, hstats, hsets⟩ := h
  have hhome : c'.config.home a.address = c.config.home a.address := by rw [w.same]; rfl
  obtain ⟨tag, set, htag, hi, hset, -⟩ := hsized.locate a.address
  obtain ⟨tag', set', htag', hi', hset', -⟩ := hsized'.locate a.address
  obtain rfl : tag' = tag := by
    rw [w.same] at htag'
    exact Option.some.inj (htag'.symm.trans htag)
  obtain ⟨hsingle, hsingle', hline⟩ := hsets _ _ _ hset (hhome ▸ hset')
  refine ⟨c.put a tag' set, c'.put a tag' set', access_eq htag hi hset, access_eq htag' hi' hset',
    hsized.put a tag' set, hsized'.put a tag' set', rfl, rfl, ?_, ?_⟩
  · have hhit : (set.findHit tag').isSome = (set'.findHit tag').isSome := by
      rw [hsingle.isSome_findHit, hsingle'.isSome_findHit, hline]
    simp only [Cache.put]
    rw [hstats, hhit, hsingle.cost_eq hsingle' hline w.same]
  · intro j s s' hj hj'
    rcases put_sets hj with ⟨rfl, rfl⟩ | ⟨hne, hj⟩
    · rcases put_sets hj' with ⟨-, rfl⟩ | ⟨hne, -⟩
      · obtain ⟨hs, hres⟩ := hsingle.access w.one a.store tag' c.stats
        obtain ⟨hs', hres'⟩ := hsingle'.access w.one' a.store tag' c'.stats
        refine ⟨hs, hs', ?_⟩
        rw [hres, hres', ← hline]
        exact w.step_eq a.store tag' hsingle.length_residents_le
      · exact absurd hhome.symm hne
    · rcases put_sets hj' with ⟨heq, -⟩ | ⟨-, hj'⟩
      · exact absurd (heq.trans hhome) hne
      · exact hsets j s s' hj hj'

/-- **Run**: the lines stay the same along any trace. -/
theorem Paired.run {c c' : Cache} (h : Paired config config' c c') (trace : List Access) :
    ∃ d d', c.run trace = some d ∧ c'.run trace = some d' ∧ Paired config config' d d' := by
  induction trace generalizing c c' with
  | nil => exact ⟨c, c', rfl, rfl, h⟩
  | cons a trace ih =>
    obtain ⟨d, d', hacc, hacc', hd⟩ := h.access w a
    rw [run_cons hacc, run_cons hacc']
    exact ih hd

end

/-- Two caches agree on the statistics, and on the tag, the dirty flag and the validity of every slot. -/
structure SameLines (c c' : Cache) : Prop where
  stats : c.stats = c'.stats
  length : c.sets.length = c'.sets.length
  sets : ∀ (i : Nat) (set set' : CacheSet), c.sets[i]? = some set → c'.sets[i]? = some set' →
    set.validCount = set'.validCount ∧ set.slots.length = set'.slots.length ∧
      ∀ j, (set.slot j).tag = (set'.slot j).tag ∧ (set.slot j).dirty = (set'.slot j).dirty

theorem Paired.sameLines {config config' : CacheConfig} {c c' : Cache} (w : PolicyPair config config')
    (h : Paired config config' c c') : SameLines c c' := by
  refine ⟨h.stats, ?_, ?_⟩
  · have hsets : c'.config.numSets = c.config.numSets := by
      rw [h.config_eq, h.config_eq', w.same]
    rw [h.sized.len, h.sized'.len, hsets]
  · intro i set set' hset hset'
    obtain ⟨hsingle, hsingle', hline⟩ := h.sets i set set' hset hset'
    obtain ⟨hcount, hentry⟩ := hsingle.entry
    obtain ⟨hcount', hentry'⟩ := hsingle'.entry
    rw [hline, ← hentry', Prod.mk.injEq] at hentry
    refine ⟨by rw [hcount, hcount', hline], hsingle.len.trans hsingle'.len.symm, ?_⟩
    intro j
    cases j with
    | zero => exact hentry
    | succ j =>
      -- there is no such slot
      have hout : ∀ s : CacheSet, Single s → s.slot (j + 1) = Slot.zero := by
        intro s hs
        have hlen := hs.len
        exact List.getD_eq_default _ _ (by omega)
      rw [hout set hsingle, hout set' hsingle']
      exact ⟨rfl, rfl⟩

/-- **A direct-mapped cache has no replacement policy.** Two accepted configurations of one block a set
that differ in LRU or FIFO only agree after every prefix of every trace, wherever their counters start. -/
theorem replacement_policy_invisible {argv argv' : List String} {config config' : CacheConfig}
    (h : parseArgs argv = .ok config) (h' : parseArgs argv' = .ok config')
    (w : PolicyPair config config')
    (hfit : config.numSets.toNat * config.blockSize.toNat < 2 ^ 32) (fifo fifo' : UInt64)
    (trace : List Access) : ∀ past future, trace = past ++ future →
      ∃ c c', (Cache.new config fifo).run past = some c ∧
        (Cache.new config' fifo').run past = some c' ∧ SameLines c c' := by
  rintro past future -
  have g : Geometry config := ⟨parseArgs_accepted h, hfit⟩
  have g' : Geometry config' := ⟨parseArgs_accepted h', by rw [w.same]; exact hfit⟩
  obtain ⟨c, c', hrun, hrun', hpair⟩ := (Paired.new w g g' fifo fifo').run w past
  exact ⟨c, c', hrun, hrun', hpair.sameLines w⟩

/-- Two sets; a load evicts the dirty block of the first one, and a stamp wraps. -/
theorem replacement_policy_invisible_2 :
    ∃ c c', (Cache.new ⟨2, 1, 4, true, false, true⟩ 0).run [⟨true, 0⟩, ⟨true, 4⟩, ⟨false, 8⟩] =
        some c ∧
      (Cache.new ⟨2, 1, 4, true, false, false⟩ 4294967295).run
        [⟨true, 0⟩, ⟨true, 4⟩, ⟨false, 8⟩] = some c' ∧ SameLines c c' :=
  replacement_policy_invisible
    (show parseArgs ["csim", "2", "1", "4", "write-allocate", "write-back", "lru"] = .ok _ from rfl)
    (show parseArgs ["csim", "2", "1", "4", "write-allocate", "write-back", "fifo"] = .ok _ from rfl)
    ⟨rfl, rfl⟩ (by decide) 0 4294967295 [⟨true, 0⟩, ⟨true, 4⟩, ⟨false, 8⟩]
    [⟨true, 0⟩, ⟨true, 4⟩, ⟨false, 8⟩] [] rfl

end CsfAssignments.CacheSim
