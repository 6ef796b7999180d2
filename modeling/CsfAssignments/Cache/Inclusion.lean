import CsfAssignments.Cache.Refine
/-!
# A larger LRU cache includes a smaller one

Two runs of the same trace under configurations that differ in `num_blocks` only. `Larger` relates
the two states: set by set the smaller cache's blocks are a sublist, in recency order, of the
larger one's (`Eviction.Included`), and its miss counters are at least as high.
-/

namespace CsfAssignments.CacheSim

open Eviction (keys Included)

/-- The cache `c'` holds, in every set, all that `c` holds in the same recency order. -/
structure Larger (c c' : Cache) (n : Nat) (m m' : Textbook) : Prop where
  sim : Sim c m
  sim' : Sim c' m'
  included : ∀ i, Included c.config.numBlocks.toNat (m i) (m' i)
  loadMisses : c'.stats.loadMisses.toNat ≤ c.stats.loadMisses.toNat
  storeMisses : c'.stats.storeMisses.toNat ≤ c.stats.storeMisses.toNat
  loadBound : c.stats.loadMisses.toNat ≤ n
  storeBound : c.stats.storeMisses.toNat ≤ n

/-- The two configurations agree on everything but `num_blocks`. -/
structure Widened (config config' : CacheConfig) : Prop where
  lru : config.isLru = true
  same : config' = { config with numBlocks := config'.numBlocks }
  le : config.numBlocks.toNat ≤ config'.numBlocks.toNat

section
variable {config config' : CacheConfig} (w : Widened config config')
include w

theorem Widened.lru' : config'.isLru = true := by rw [w.same]; exact w.lru

theorem Widened.home (a : UInt32) : config'.home a = config.home a := by rw [w.same]; rfl

theorem Widened.block (a : UInt32) : config'.block a = config.block a := by rw [w.same]; rfl

theorem Widened.step {store : Bool} {k : Nat} {l m : List (Eviction.Line Nat)}
    (hpos : 0 < config.numBlocks.toNat) (hl : (keys l).Nodup) (hm : (keys m).Nodup)
    (hlen : l.length ≤ config.numBlocks.toNat) (h : Included config.numBlocks.toNat l m) :
    Included config.numBlocks.toNat (Eviction.step config.policy store k l)
      (Eviction.step config'.policy store k m) := by
  have halloc : config.writeAllocate = config'.writeAllocate := by rw [w.same]
  exact Included.step (P := config.policy) (Q := config'.policy) w.lru w.lru' halloc w.le hpos
    hl hm hlen h

end

/-- Counting one access keeps an order of counters when every hit of the first side is a hit of
the second. -/
theorem count_misses_le {s s' : CacheStats} {n : Nat} (store : Bool) {hit hit' : Bool}
    (hn : n + 1 < 2 ^ 32) (hhit : hit = true → hit' = true)
    (hl : s'.loadMisses.toNat ≤ s.loadMisses.toNat)
    (hs : s'.storeMisses.toNat ≤ s.storeMisses.toNat)
    (hlb : s.loadMisses.toNat ≤ n) (hsb : s.storeMisses.toNat ≤ n) :
    (s'.count store hit').loadMisses.toNat ≤ (s.count store hit).loadMisses.toNat ∧
    (s'.count store hit').storeMisses.toNat ≤ (s.count store hit).storeMisses.toNat ∧
    (s.count store hit).loadMisses.toNat ≤ n + 1 ∧
    (s.count store hit).storeMisses.toNat ≤ n + 1 := by
  have hone : ∀ x : UInt32, x.toNat ≤ n → (x + 1).toNat = x.toNat + 1 := by
    intro x hx
    rw [UInt32.toNat_add, UInt32.toNat_one, Nat.mod_eq_of_lt (by omega)]
  have h1 := hone _ hlb
  have h2 := hone _ hsb
  have h3 := hone _ (Nat.le_trans hl hlb)
  have h4 := hone _ (Nat.le_trans hs hsb)
  cases store <;> cases hit <;> cases hit' <;> simp_all [CacheStats.count] <;> omega

theorem Sim.access_lru {c : Cache} {m : Textbook} (h : Sim c m) (hlru : c.config.isLru = true)
    (a : Access) : ∃ c', Simulated c m a c' :=
  h.access a fun s hs => by rw [stamp_lru hlru] at hs; cases hs

/-- What hits in the smaller cache hits in the larger one. -/
theorem Larger.hit {c c' : Cache} {n : Nat} {m m' : Textbook} (h : Larger c c' n m m')
    (w : Widened c.config c'.config) (a : Access) (hk : (m.event c.config a).hit = true) :
    (m'.event c'.config a).hit = true := by
  unfold Textbook.event Eviction.event at *
  rw [w.home, w.block]
  by_cases hmem : c.config.block a.address ∈ keys (m (c.config.home a.address))
  · rw [if_pos ((h.included _).mem hmem)]
  · rw [if_neg hmem] at hk; cases hk

/-- **Step**: one access keeps the larger cache larger. -/
theorem Larger.access {c c' : Cache} {n : Nat} {m m' : Textbook} (h : Larger c c' n m m')
    (w : Widened c.config c'.config) (hwf : ∀ i, (m i).length ≤ c.config.numBlocks.toNat)
    (hn : n + 1 < 2 ^ 32) (a : Access) :
    ∃ d d', Simulated c m a d ∧ Simulated c' m' a d' ∧
      Larger d d' (n + 1) (m.access c.config a) (m'.access c'.config a) := by
  obtain ⟨d, hd⟩ := h.sim.access_lru w.lru a
  obtain ⟨d', hd'⟩ := h.sim'.access_lru w.lru' a
  have hhit := h.hit w a
  obtain ⟨k, hstats⟩ := hd.stats
  obtain ⟨k', hstats'⟩ := hd'.stats
  have hcount := count_misses_le a.store hn hhit h.loadMisses h.storeMisses h.loadBound
    h.storeBound
  refine ⟨d, d', hd, hd', ⟨hd.sim, hd'.sim, fun i => ?_, ?_, ?_, ?_, ?_⟩⟩
  · rw [hd.config]
    unfold Textbook.access
    rw [w.home, w.block]
    split
    · rename_i hi
      have hlt : i < c.config.numSets.toNat := by rw [hi]; exact home_lt h.sim.geom.toAccepted _
      have hnd : (keys (m i)).Nodup := by
        have hset := List.getElem?_eq_getElem (l := c.sets) (i := i) (by rw [h.sim.len]; exact hlt)
        exact (h.sim.sets i _ hset).nodup
      have hnd' : (keys (m' i)).Nodup := by
        have hlt' : i < c'.sets.length := by
          rw [h.sim'.len, w.same]; exact hlt
        exact (h.sim'.sets i _ (List.getElem?_eq_getElem hlt')).nodup
      exact w.step h.sim.geom.blocks_pos hnd hnd' (hwf i) (h.included i)
    · exact h.included i
  · rw [hstats, hstats']; exact hcount.1
  · rw [hstats, hstats']; exact hcount.2.1
  · rw [hstats]; exact hcount.2.2.1
  · rw [hstats]; exact hcount.2.2.2

/-- **Run**: the larger cache stays larger along any trace too short to wrap a counter. -/
theorem Larger.run {config config' : CacheConfig} (w : Widened config config')
    (g : Geometry config) (g' : Geometry config') (fifo fifo' : UInt64) :
    ∀ (trace : List Access), trace.length < 2 ^ 32 → ∃ c c',
      (Cache.new config fifo).run trace = some c ∧ (Cache.new config' fifo').run trace = some c' ∧
      c.config = config ∧ c'.config = config' ∧
      Larger c c' trace.length (Textbook.run config trace) (Textbook.run config' trace) := by
  intro trace
  induction trace using List.reverseRecOn with
  | nil =>
    intro _
    exact ⟨_, _, rfl, rfl, rfl, rfl, Sim.new g fifo, Sim.new g' fifo',
      fun _ => Included.nil _, Nat.le_refl _, Nat.le_refl _, Nat.le_refl _, Nat.le_refl _⟩
  | append_singleton trace a ih =>
    intro hlen
    rw [List.length_append, List.length_singleton] at hlen
    obtain ⟨c, c', hrun, hrun', hc, hc', hL⟩ := ih (by omega)
    obtain ⟨d, d', hd, hd', hL'⟩ := hL.access (by rw [hc, hc']; exact w)
      (by rw [hc]; exact fun i => (textbook_wf g.toAccepted trace i).1) hlen a
    refine ⟨d, d', ?_, ?_, by rw [hd.config, hc], by rw [hd'.config, hc'], ?_⟩
    · unfold Cache.run at *; rw [List.foldlM_append, hrun]; simpa using hd.access
    · unfold Cache.run at *; rw [List.foldlM_append, hrun']; simpa using hd'.access
    · rw [hc, hc'] at hL'
      simpa [Textbook.run, List.foldl_append] using hL'

/-- What includes what at one moment of the two runs. -/
structure Includes (c c' : Cache) : Prop where
  /-- Every resident block is resident in the same set of the larger cache. -/
  residents : ∀ i < c.config.numSets.toNat, ∀ t d, (t, d) ∈ c.residents i →
    ∃ d', (t, d') ∈ c'.residents i
  /-- Every access that would hit now would hit in the larger cache. -/
  hits : ∀ a, (c.event a).map Eviction.Event.hit = some true →
    (c'.event a).map Eviction.Event.hit = some true
  loadMisses : c'.stats.loadMisses ≤ c.stats.loadMisses
  storeMisses : c'.stats.storeMisses ≤ c.stats.storeMisses

theorem mem_residents {c : Cache} {m : Textbook} (h : Sim c m) {i : Nat}
    (hi : i < c.config.numSets.toNat) (t : UInt32) :
    (∃ d, (t, d) ∈ c.residents i) ↔ t.toNat * c.config.numSets.toNat + i ∈ keys (m i) := by
  have hperm := h.residents hi
  constructor
  · rintro ⟨d, hd⟩
    have := hperm.mem_iff.1 (List.mem_map_of_mem (f := c.config.line i) hd)
    exact List.mem_map_of_mem (f := Prod.fst) this
  · intro hk
    obtain ⟨e, he, hkey⟩ := List.mem_map.1 hk
    obtain ⟨⟨t', d'⟩, hmem, rfl⟩ := List.mem_map.1 (hperm.mem_iff.2 he)
    have : t' = t := line_inj h.geom.sets_pos hkey
    exact ⟨d', this ▸ hmem⟩

theorem Simulated.hit {c c' : Cache} {m : Textbook} {a : Access} (h : Simulated c m a c') :
    (c.event a).map Eviction.Event.hit = some (m.event c.config a).hit := by
  have := congrArg (Option.map Eviction.Event.hit) h.event
  rw [Option.map_map] at this
  exact this

/-- **LRU inclusion.** Of two accepted LRU configurations that differ in `num_blocks` only, the
larger one includes the smaller one after every prefix of every trace. -/
theorem lru_inclusion {argv argv' : List String} {config config' : CacheConfig}
    (h : parseArgs argv = .ok config) (h' : parseArgs argv' = .ok config')
    (w : Widened config config')
    (hfit : config.numSets.toNat * config.blockSize.toNat < 2 ^ 32) (fifo fifo' : UInt64)
    (trace : List Access) (hlen : trace.length < 2 ^ 32) (past future : List Access)
    (hpast : trace = past ++ future) :
    ∃ c c', (Cache.new config fifo).run past = some c ∧
      (Cache.new config' fifo').run past = some c' ∧ Includes c c' := by
  have g : Geometry config := ⟨parseArgs_accepted h, hfit⟩
  have g' : Geometry config' := ⟨parseArgs_accepted h', by rw [w.same]; exact hfit⟩
  have hlen' : past.length < 2 ^ 32 := by
    rw [hpast, List.length_append] at hlen; omega
  obtain ⟨c, c', hrun, hrun', hc, hc', hL⟩ := Larger.run w g g' fifo fifo' past hlen'
  refine ⟨c, c', hrun, hrun', fun i hi t d hd => ?_, fun a ha => ?_,
    UInt32.le_iff_toNat_le.2 hL.loadMisses, UInt32.le_iff_toNat_le.2 hL.storeMisses⟩
  · have hsets : c'.config.numSets = c.config.numSets := by rw [hc, hc', w.same]
    refine (mem_residents hL.sim' (by rw [hsets]; exact hi) t).2 ?_
    rw [hsets]
    exact (hL.included i).mem ((mem_residents hL.sim hi t).1 ⟨d, hd⟩)
  · have w' : Widened c.config c'.config := by rw [hc, hc']; exact w
    obtain ⟨d, hd⟩ := hL.sim.access_lru w'.lru a
    obtain ⟨d', hd'⟩ := hL.sim'.access_lru w'.lru' a
    rw [hd.hit, Option.some_inj] at ha
    rw [hd'.hit, hL.hit w' a ha]

/-- One set, one block against two: the store of address 0 hits in the larger cache only. -/
theorem lru_inclusion_1_2 :
    ∃ c c', (Cache.new ⟨1, 1, 4, false, true, true⟩ 0).run [⟨false, 0⟩, ⟨false, 4⟩, ⟨true, 0⟩] =
        some c ∧
      (Cache.new ⟨1, 2, 4, false, true, true⟩ 0).run [⟨false, 0⟩, ⟨false, 4⟩, ⟨true, 0⟩] =
        some c' ∧ Includes c c' :=
  lru_inclusion
    (show parseArgs ["csim", "1", "1", "4", "no-write-allocate", "write-through", "lru"] = .ok _
      from rfl)
    (show parseArgs ["csim", "1", "2", "4", "no-write-allocate", "write-through", "lru"] = .ok _
      from rfl) ⟨rfl, rfl, by decide⟩ (by decide) 0 0 [⟨false, 0⟩, ⟨false, 4⟩, ⟨true, 0⟩] (by decide)
    [⟨false, 0⟩, ⟨false, 4⟩, ⟨true, 0⟩] [] rfl

end CsfAssignments.CacheSim
