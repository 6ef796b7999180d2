import CsfAssignments.Cache.Cycles
/-!
# The statistics of a run, from the textbook

What the textbook cache shows along a trace is counted by `Textbook.count`: the kind of each access, whether it
hits, and whether it pushes out a dirty line. The statistics of the code are this tally (`Tallied.run`), the
cycles by the closed form of `Tally.cycles`.
-/

namespace CsfAssignments.CacheSim

open Eviction (Line Event keys)

/-- A textbook run adds itself to a tally. -/
def Textbook.count (config : CacheConfig) : Textbook → Tally → List Access → Tally
  | _, t, [] => t
  | m, t, a :: trace =>
    let e := m.event config a
    Textbook.count config (m.access config a) (t.add a.store e.hit (e.evicted.any Prod.snd)) trace

def CacheConfig.tally (config : CacheConfig) (trace : List Access) : Tally :=
  Textbook.count config Textbook.empty ⟨0, 0, 0, 0, 0⟩ trace

section
variable {config : CacheConfig} {index : Nat} {set : CacheSet} {l : List (Line Nat)}

/-- The blocks whose lines are dirty. -/
def dirtyIn (l : List (Line Nat)) (block : Nat) : Bool := decide ((block, true) ∈ l)

theorem dirtyIn_of_mem (hn : (keys l).Nodup) {e : Line Nat} (he : e ∈ l) : dirtyIn l e.1 = e.2 := by
  unfold dirtyIn
  cases hdirty : e.2
  · refine decide_eq_false fun hmem => ?_
    have heq := List.inj_on_of_nodup_map hn hmem he rfl
    rw [← heq] at hdirty
    cases hdirty
  · have heq : (e.1, true) = e := by rw [← hdirty]
    exact decide_eq_true (heq ▸ he)

/-- A set that encodes the lines `l` has the flags of `l`. -/
theorem Encodes.tracks (h : Encodes config index set l) (hkept : Kept config set) :
    Tracks config index set (dirtyIn l) := by
  refine ⟨hkept, fun _ j hj => ?_⟩
  obtain ⟨p, hp, rfl⟩ := h.slots
  have hmem : set.lineAt config index j ∈ p.map (set.lineAt config index) :=
    List.mem_map_of_mem (hp.mem_iff.2 hj)
  exact (dirtyIn_of_mem h.nodup hmem).symm

theorem event_findHit {store : Bool} {tag : UInt32} {e : Event Nat}
    (he : config.event index (set.event config store tag) = e) : e.hit = (set.findHit tag).isSome := by
  rw [← event_hit config store tag set, ← he]
  rfl

/-- **The charge** of an access, from what the textbook shows. -/
theorem Encodes.cost_eq (h : Encodes config index set l) (hkept : Kept config set) (hacc : Accepted config)
    (hcost : 100 * config.blockSize.toNat < 2 ^ 32) (store : Bool) (tag : UInt32) {e : Event Nat}
    (he : config.event index (set.event config store tag) = e)
    (hevent : e = Eviction.event config.policy store (tag.toNat * config.numSets.toNat + index) l) :
    set.cost config store tag = UInt64.ofNat (config.accessCycles store e.hit (e.evicted.any Prod.snd)) := by
  have hany : ((set.event config store tag).evicted.any fun line => dirtyIn l (config.line index line).1) =
      e.evicted.any Prod.snd := by
    have hmap : e.evicted = (set.event config store tag).evicted.map (config.line index) := by
      rw [← he]
      rfl
    cases hevicted : (set.event config store tag).evicted with
    | none => simp [hmap, hevicted]
    | some line =>
      have hmem : config.line index line ∈ l := by
        rw [hevicted, hevent] at hmap
        exact Eviction.mem_of_evicted hmap
      rw [hmap, hevicted]
      exact dirtyIn_of_mem h.nodup hmem
  rw [(h.tracks hkept).cost_eq hacc hcost, hany, event_findHit he]

end

/-- What a run keeps of the cache, the textbook and the tally. -/
structure Tallied (c : Cache) (m : Textbook) (t : Tally) : Prop where
  sim : Sim c m
  kept : ∀ set ∈ c.sets, Kept c.config set
  stats : c.stats = t.stats c.config

theorem Tallied.new {config : CacheConfig} (g : Geometry config) (fifo : UInt64) :
    Tallied (Cache.new config fifo) Textbook.empty ⟨0, 0, 0, 0, 0⟩ := by
  refine ⟨Sim.new g fifo, fun set hset => ?_, (Accounted.new g fifo).stats⟩
  rw [mem_new hset]
  exact Kept.new config fifo

/-- **Step**: an access adds itself to the tally. -/
theorem Tallied.access {c : Cache} {m : Textbook} {t : Tally} (h : Tallied c m t)
    (hcost : 100 * c.config.blockSize.toNat < 2 ^ 32) (a : Access)
    (hstamp : ∀ s, c.stamp a = some s → s.toNat < 2 ^ 32) :
    ∃ c', c.access a = some c' ∧ c'.config = c.config ∧ Tallied c' (m.access c.config a)
      (t.add a.store (m.event c.config a).hit ((m.event c.config a).evicted.any Prod.snd)) := by
  obtain ⟨hsim, hkept, hstats⟩ := h
  have hacc := hsim.geom.toAccepted
  obtain ⟨tag, set, htag, hi, hset, hblock⟩ := hsim.sized.locate a.address
  obtain ⟨c', haccess, -, -, hsim', -⟩ := hsim.access a hstamp
  obtain rfl : c' = c.put a tag set := Option.some.inj (haccess.symm.trans (access_eq htag hi hset))
  have henc := hsim.sets _ _ hset
  have hset' := hkept set (List.mem_of_getElem? hset)
  have hevent := henc.event tag hsim.geom.sets_pos hsim.geom.blocks_pos a.store
  rw [hblock] at hevent
  refine ⟨_, haccess, rfl, hsim', fun s hs => ?_, ?_⟩
  · obtain ⟨j, hj⟩ := List.mem_iff_getElem?.1 hs
    rcases put_sets hj with ⟨-, rfl⟩ | ⟨-, hj⟩
    · exact hset'.access hacc.blocks_pos a.store tag c.stats
    · exact hkept s (List.mem_of_getElem? hj)
  · have hhit : (m.event c.config a).hit = (set.findHit tag).isSome := event_findHit hevent
    have hevicts (h : (m.event c.config a).hit = true) : (m.event c.config a).evicted.any Prod.snd = false := by
      rw [Textbook.event, Eviction.evicted_of_hit h]
      rfl
    have hcharge : set.cost c.config a.store tag = UInt64.ofNat (c.config.accessCycles a.store
        (m.event c.config a).hit ((m.event c.config a).evicted.any Prod.snd)) :=
      henc.cost_eq hset' hacc hcost a.store tag hevent (by rw [hblock]; rfl)
    show (c.stats.count a.store (set.findHit tag).isSome).charge (set.cost c.config a.store tag) = _
    rw [hcharge, ← hhit, hstats]
    exact stats_add hacc t a.store _ _ hevicts

/-- **Run**: the statistics are the tally of the textbook. -/
theorem Tallied.run {c : Cache} {m : Textbook} {t : Tally} (h : Tallied c m t)
    (hcost : 100 * c.config.blockSize.toNat < 2 ^ 32) {trace : List Access}
    (hstamps : ∀ s ∈ c.stamps trace, s.toNat < 2 ^ 32) :
    ∃ c', c.run trace = some c' ∧ c'.stats = (Textbook.count c.config m t trace).stats c.config := by
  induction trace generalizing c m t with
  | nil => exact ⟨c, rfl, h.stats⟩
  | cons a trace ih =>
    obtain ⟨c₁, haccess, hcfg, h₁⟩ := h.access hcost a fun s hs => hstamps s (by
      rw [Cache.stamps, hs]
      simp)
    obtain ⟨c', hrun, hstats⟩ := ih h₁ (by rw [hcfg]; exact hcost) fun s hs => hstamps s (by
      rw [stamps_cons haccess]
      exact List.mem_append_right _ hs)
    rw [hcfg] at hstats
    exact ⟨c', by rw [run_cons haccess, hrun], hstats⟩

/-- A whole run, from an empty cache. -/
theorem run_tally {config : CacheConfig} (g : Geometry config) (hcost : 100 * config.blockSize.toNat < 2 ^ 32)
    (fifo : UInt64) {trace : List Access}
    (hstamps : config.isLru = false → ∀ s ∈ (Cache.new config fifo).stamps trace, s.toNat < 2 ^ 32) :
    ∃ c, (Cache.new config fifo).run trace = some c ∧ c.stats = (config.tally trace).stats config := by
  refine (Tallied.new g fifo).run hcost ?_
  cases hlru : config.isLru
  · exact hstamps hlru
  · rw [stamps_lru trace (c := Cache.new config fifo) hlru]
    simp

end CsfAssignments.CacheSim
