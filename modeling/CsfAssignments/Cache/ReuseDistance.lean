import Mathlib.Data.Finset.Dedup
import CsfAssignments.Cache.Inclusion
import CsfAssignments.Lib.Recency
/-!
# Which accesses hit

Under LRU with write-allocate every access leaves its block the most recent one of its set. What an access finds
can therefore be read off the trace: it hits if and only if its block has been accessed before, and fewer than
`num_blocks` other blocks of its set since (`distance`). The counters of a whole run follow, with no cache left
in their description.
-/

namespace CsfAssignments.CacheSim

open Eviction (keys runs)

/-- The accesses of a trace that go to set `index`, as the textbook sees them. -/
def CacheConfig.visits (config : CacheConfig) (index : Nat) (trace : List Access) : List (Bool × Nat) :=
  (trace.filter fun a => config.home a.address = index).map fun a => (a.store, config.block a.address)

/-- How many other blocks of its set have been accessed since the last access to this block. -/
def CacheConfig.distance (config : CacheConfig) (past : List Access) (address : UInt32) : Option Nat :=
  let block := config.block address
  let blocks := (config.visits (config.home address) past).map Prod.snd
  if block ∈ blocks then some (blocks.rtakeWhile (· ≠ block)).toFinset.card else none

def CacheConfig.near (config : CacheConfig) (past : List Access) (address : UInt32) : Bool :=
  (config.distance past address).any (· < config.numBlocks.toNat)

/-- Store or not, near or not, for every access behind `past`. -/
def CacheConfig.nears (config : CacheConfig) : List Access → List Access → List (Bool × Bool)
  | _, [] => []
  | past, a :: trace => (a.store, config.near past a.address) :: config.nears (past ++ [a]) trace

theorem nears_append (config : CacheConfig) (trace : List Access) (a : Access) (past : List Access) :
    config.nears past (trace ++ [a]) = config.nears past trace ++ [(a.store, config.near (past ++ trace) a.address)] := by
  induction trace generalizing past with
  | nil => simp [CacheConfig.nears]
  | cons b trace ih =>
    rw [List.cons_append, CacheConfig.nears, ih, CacheConfig.nears]
    simp

/-- A set of the textbook sees its own accesses only. -/
theorem textbook_runs (config : CacheConfig) (trace : List Access) (index : Nat) :
    Textbook.run config trace index = runs config.policy (config.visits index trace) := by
  induction trace using List.reverseRecOn with
  | nil => rfl
  | append_singleton trace a ih =>
    have hrun : Textbook.run config (trace ++ [a]) = (Textbook.run config trace).access config a := by
      simp [Textbook.run]
    rw [hrun, Textbook.access, CacheConfig.visits, List.filter_append, List.map_append]
    by_cases hhome : index = config.home a.address
    · have hvisit : [a].filter (fun a => config.home a.address = index) = [a] := by simp [hhome]
      rw [if_pos hhome, hvisit, List.map_singleton, Eviction.runs_concat, ih]
      rfl
    · have hvisit : [a].filter (fun a => config.home a.address = index) = [] := by simp [Ne.symm hhome]
      rw [if_neg hhome, hvisit, List.map_nil, List.append_nil, ih]
      rfl

/-- **The textbook's hits** under LRU with write-allocate. -/
theorem textbook_hit {config : CacheConfig} (hacc : Accepted config) (hlru : config.isLru = true)
    (halloc : config.writeAllocate = true) (past : List Access) (a : Access) :
    (Textbook.event config (Textbook.run config past) a).hit = config.near past a.address := by
  have hmem := Eviction.mem_runs_iff (P := config.policy) hlru halloc hacc.blocks_pos
    (config.visits (config.home a.address) past) (config.block a.address)
  rw [Textbook.event, textbook_runs, Eviction.event]
  unfold CacheConfig.near CacheConfig.distance
  by_cases hk : config.block a.address ∈ keys (runs config.policy (config.visits (config.home a.address) past))
  · obtain ⟨hvisited, hcard⟩ := hmem.1 hk
    rw [if_pos hk, if_pos hvisited]
    exact (decide_eq_true hcard).symm
  · rw [if_neg hk]
    by_cases hvisited : config.block a.address ∈ (config.visits (config.home a.address) past).map Prod.snd
    · rw [if_pos hvisited]
      exact (decide_eq_false fun hcard => hk (hmem.2 ⟨hvisited, hcard⟩)).symm
    · rw [if_neg hvisited]
      rfl

/-- The counters of a run, given what each access of it found. -/
structure Counts (stats : CacheStats) (found : List (Bool × Bool)) : Prop where
  loadHits : stats.loadHits = UInt32.ofNat (found.count (false, true))
  loadMisses : stats.loadMisses = UInt32.ofNat (found.count (false, false))
  storeHits : stats.storeHits = UInt32.ofNat (found.count (true, true))
  storeMisses : stats.storeMisses = UInt32.ofNat (found.count (true, false))

theorem Counts.count {stats : CacheStats} {found : List (Bool × Bool)} (h : Counts stats found) (store hit : Bool)
    (n : UInt64) : Counts ((stats.count store hit).charge n) (found ++ [(store, hit)]) := by
  obtain ⟨hlh, hlm, hsh, hsm⟩ := h
  cases store <;> cases hit <;> constructor <;>
    simp [CacheStats.count, CacheStats.charge, List.count_append, UInt32.ofNat_add, hlh, hlm, hsh, hsm]

/-- **Run** of an LRU cache with write-allocate: the textbook, and what each access found. -/
theorem Sim.nears {config : CacheConfig} (g : Geometry config) (hlru : config.isLru = true)
    (halloc : config.writeAllocate = true) (fifo : UInt64) (trace : List Access) :
    ∃ c, (Cache.new config fifo).run trace = some c ∧ c.config = config ∧ Sim c (Textbook.run config trace) ∧
      Counts c.stats (config.nears [] trace) := by
  induction trace using List.reverseRecOn with
  | nil => exact ⟨_, rfl, rfl, Sim.new g fifo, rfl, rfl, rfl, rfl⟩
  | append_singleton trace a ih =>
    obtain ⟨c, hrun, hcfg, hsim, hcounts⟩ := ih
    obtain ⟨c', hs⟩ := hsim.access_lru (by rw [hcfg]; exact hlru) a
    obtain ⟨n, hstats⟩ := hs.stats
    have hstep : (Textbook.run config trace).access config a = Textbook.run config (trace ++ [a]) := by
      simp [Textbook.run]
    refine ⟨c', ?_, by rw [hs.config, hcfg], ?_, ?_⟩
    · rw [run_append hrun, run_cons hs.access]
      rfl
    · rw [← hstep, ← hcfg]
      rw [← hcfg] at hs
      exact hs.sim
    · rw [hstats, hcfg, textbook_hit g.toAccepted hlru halloc, nears_append]
      exact hcounts.count _ _ n

/-- **Reuse distance**: in every run of an accepted LRU cache with write-allocate an access hits if and only if its
block has been accessed before, and fewer than `num_blocks` other blocks of its set since. -/
theorem hit_iff_near {argv : List String} {config : CacheConfig} (h : parseArgs argv = .ok config)
    (hlru : config.isLru = true) (halloc : config.writeAllocate = true)
    (hfit : config.numSets.toNat * config.blockSize.toNat < 2 ^ 32) (fifo : UInt64) (trace : List Access) :
    ∃ c, (Cache.new config fifo).run trace = some c ∧ Counts c.stats (config.nears [] trace) ∧
      ∀ a, (c.event a).map Eviction.Event.hit = some (config.near trace a.address) := by
  have g : Geometry config := ⟨parseArgs_accepted h, hfit⟩
  obtain ⟨c, hrun, hcfg, hsim, hcounts⟩ := Sim.nears g hlru halloc fifo trace
  refine ⟨c, hrun, hcounts, fun a => ?_⟩
  obtain ⟨c', hs⟩ := hsim.access_lru (by rw [hcfg]; exact hlru) a
  rw [hs.hit, hcfg, textbook_hit g.toAccepted hlru halloc]

/-- One set of two blocks: address 0 and 4 come back in time, and behind the last access address 0 would not. -/
theorem hit_iff_near_two :
    let config : CacheConfig := ⟨1, 2, 4, true, false, true⟩
    ∃ c, (Cache.new config 0).run [⟨true, 0⟩, ⟨false, 4⟩, ⟨false, 0⟩, ⟨false, 4⟩, ⟨false, 8⟩] = some c ∧
      Counts c.stats (config.nears [] [⟨true, 0⟩, ⟨false, 4⟩, ⟨false, 0⟩, ⟨false, 4⟩, ⟨false, 8⟩]) ∧
      ∀ a, (c.event a).map Eviction.Event.hit =
        some (config.near [⟨true, 0⟩, ⟨false, 4⟩, ⟨false, 0⟩, ⟨false, 4⟩, ⟨false, 8⟩] a.address) :=
  hit_iff_near
    (show parseArgs ["csim", "1", "2", "4", "write-allocate", "write-back", "lru"] = .ok _ from rfl)
    rfl rfl (by decide) 0 _

/-- What the accesses of that run find: the two blocks once each. -/
example : CacheConfig.nears ⟨1, 2, 4, true, false, true⟩ [] [⟨true, 0⟩, ⟨false, 4⟩, ⟨false, 0⟩, ⟨false, 4⟩, ⟨false, 8⟩] =
    [(true, false), (false, false), (false, true), (false, true), (false, false)] := by decide

end CsfAssignments.CacheSim
