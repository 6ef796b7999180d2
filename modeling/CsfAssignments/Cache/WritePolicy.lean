import CsfAssignments.Cache.Access
/-!
# The write policy does not influence hits

`erase` forgets the dirty flags of a cache, its cycles and, under LRU, its `fifo_counter`s, and turns its
policy into write-through. An access of the erased cache is the erased access (`access_erase`), so two runs
whose caches differ in what `erase` forgets differ in nothing else afterwards.
-/

namespace CsfAssignments.CacheSim

def Slot.erase (s : Slot) : Slot := { s with dirty := false }

def CacheSet.erase (isLru : Bool) (set : CacheSet) : CacheSet :=
  ⟨set.slots.map Slot.erase, set.validCount, if isLru then 0 else set.fifoCounter⟩

def CacheConfig.erase (config : CacheConfig) : CacheConfig := { config with writeThrough := true }

def CacheStats.erase (s : CacheStats) : CacheStats := { s with totalCycles := 0 }

def Cache.erase (c : Cache) : Cache :=
  ⟨c.sets.map (CacheSet.erase c.config.isLru), c.stats.erase, c.config.erase⟩

/-! ## `class Set` under erasure -/

section
variable (lru : Bool) (set : CacheSet)

@[simp] theorem slot_erase (i : Nat) : (set.erase lru).slot i = (set.slot i).erase := by
  unfold CacheSet.slot CacheSet.erase
  rw [List.getD_eq_getElem?_getD, List.getD_eq_getElem?_getD, List.getElem?_map]
  cases set.slots[i]? <;> rfl

@[simp] theorem validCount_erase : (set.erase lru).validCount = set.validCount := rfl

theorem findHit_erase (tag : UInt32) : (set.erase lru).findHit tag = set.findHit tag := by
  simp only [CacheSet.findHit, slot_erase, validCount_erase]
  rfl

theorem scan_erase (beats : UInt32 → UInt32 → Bool) : (set.erase lru).scan beats = set.scan beats := by
  simp only [CacheSet.scan, slot_erase, validCount_erase]
  rfl

theorem findVictimSlot_erase (isLru : Bool) :
    (set.erase lru).findVictimSlot isLru =
      ((set.findVictimSlot isLru).1, (set.findVictimSlot isLru).2.erase lru) := by
  have hlen : (set.erase lru).slots.length = set.slots.length := List.length_map ..
  unfold CacheSet.findVictimSlot
  rw [hlen, scan_erase, scan_erase, validCount_erase]
  by_cases hfull : set.validCount = set.slots.length
  · rw [if_pos hfull, if_pos hfull]
    cases isLru <;> rfl
  · rw [if_neg hfull, if_neg hfull]
    rfl

theorem updateLru_erase (reference : UInt32) :
    (set.updateLru reference).erase lru = (set.erase lru).updateLru reference := by
  simp only [CacheSet.updateLru, CacheSet.erase, CacheSet.mk.injEq, and_true]
  apply List.ext_getElem (by simp)
  intro i h1 h2
  simp only [List.getElem_map, List.getElem_mapIdx, Slot.erase]
  split <;> rfl

/-- Erasure passes a change of a slot, as the change that is left of it. -/
theorem modifySlot_erase {f g : Slot → Slot} (hfg : ∀ s, (f s).erase = g s.erase) (i : Nat) :
    (set.modifySlot i f).erase lru = (set.erase lru).modifySlot i g := by
  simp only [CacheSet.modifySlot, CacheSet.erase, CacheSet.mk.injEq, and_true]
  apply List.ext_getElem (by simp)
  intro j h1 h2
  simp only [List.getElem_map, List.getElem_modify]
  split
  · exact hfg _
  · rfl

theorem markDirty_erase (i : Nat) :
    (set.modifySlot i fun s => { s with dirty := true }).erase lru = set.erase lru := by
  rw [modifySlot_erase lru set (f := fun s => { s with dirty := true }) (g := id) (fun _ => rfl)]
  rw [CacheSet.modifySlot, List.modify_id]

theorem touch_erase (i : Nat) : (set.touch i).erase lru = (set.erase lru).touch i := by
  unfold CacheSet.touch
  rw [modifySlot_erase _ _ (g := fun s => { s with accessOrder := 0 }) (fun _ => rfl), updateLru_erase,
    slot_erase]
  rfl

/-- Under LRU a fill does not look at the counter; under FIFO erasure has kept it. -/
theorem install_erase (config : CacheConfig) (i : Nat) (tag : UInt32) :
    (set.install config i tag).erase config.isLru = (set.erase config.isLru).install config.erase i tag := by
  unfold CacheSet.install
  cases hlru : config.isLru with
  | true =>
    rw [if_pos rfl, if_pos (show config.erase.isLru = true from hlru),
      modifySlot_erase _ _ (g := fun _ => ⟨tag, false, 0, 0⟩) (fun _ => rfl), updateLru_erase]
    rfl
  | false =>
    rw [if_neg Bool.false_ne_true, if_neg (show ¬config.erase.isLru = true from ne_true_of_eq_false hlru),
      modifySlot_erase _ _ (g := fun s => { s with tag := tag, dirty := false }) (fun _ => rfl)]
    have hmark := modifySlot_erase false set
      (f := fun s => { s with accessOrder := set.fifoCounter.toUInt32 })
      (g := fun s => { s with accessOrder := set.fifoCounter.toUInt32 }) (fun _ => rfl) i
    exact congrArg (fun s : CacheSet => CacheSet.modifySlot { s with fifoCounter := set.fifoCounter + 1 }
      i fun s => { s with tag := tag, dirty := false }) hmark

theorem writeSlot_erase (i : Nat) (tag : UInt32) (dirty : Bool) :
    (writeSlot set i tag dirty).erase lru = writeSlot (set.erase lru) i tag false := by
  unfold writeSlot
  rw [modifySlot_erase _ _ (f := fun s => { s with dirty := dirty })
      (g := fun s => { s with dirty := false }) (fun _ => rfl),
    modifySlot_erase _ _ (f := fun s => { s with tag := tag, dirty := false })
      (g := fun s => { s with tag := tag, dirty := false }) (fun _ => rfl)]

/-- **One set**: the erased access is the write-through access of the erased set. -/
theorem accessSet_erase (config : CacheConfig) (store : Bool) (tag : UInt32) (stats stats' : CacheStats) :
    (accessSet config store tag set stats).1.erase config.isLru =
      (accessSet config.erase store tag (set.erase config.isLru) stats').1 := by
  unfold accessSet
  cases store
  · rw [if_neg Bool.false_ne_true, if_neg Bool.false_ne_true, loadSet_set, loadSet_set, findHit_erase]
    cases set.findHit tag with
    | some i =>
      show (if config.isLru then set.touch i else set).erase config.isLru =
        if config.isLru then (set.erase config.isLru).touch i else set.erase config.isLru
      rw [← touch_erase]
      split <;> rfl
    | none =>
      show (CacheSet.install _ config _ tag).erase config.isLru =
        ((set.erase config.isLru).findVictimSlot config.isLru).2.install config.erase
          ((set.erase config.isLru).findVictimSlot config.isLru).1 tag
      rw [install_erase, findVictimSlot_erase]
  · rw [if_pos rfl, if_pos rfl, saveSet_set, saveSet_set, findHit_erase]
    cases set.findHit tag with
    | some i =>
      have hmark : (if config.writeThrough then set
          else set.modifySlot i fun s => { s with dirty := true }).erase config.isLru =
            set.erase config.isLru := by
        split
        · rfl
        · exact markDirty_erase config.isLru set i
      show (if config.isLru then CacheSet.touch _ i else _).erase config.isLru =
        if config.isLru then (set.erase config.isLru).touch i else set.erase config.isLru
      rw [← hmark]
      split
      · rw [touch_erase]
      · rfl
    | none =>
      show (if config.writeAllocate then writeSlot (CacheSet.install _ config _ tag) _ tag _
          else set).erase config.isLru =
        if config.writeAllocate then
          writeSlot (((set.erase config.isLru).findVictimSlot config.isLru).2.install config.erase
            ((set.erase config.isLru).findVictimSlot config.isLru).1 tag)
            ((set.erase config.isLru).findVictimSlot config.isLru).1 tag false
        else set.erase config.isLru
      rw [findVictimSlot_erase, ← install_erase]
      split
      · exact writeSlot_erase ..
      · rfl

end

/-! ## Accesses and runs under erasure -/

theorem erase_charge (s : CacheStats) (n : UInt64) : (s.charge n).erase = s.erase := rfl

theorem count_erase (s : CacheStats) (store hit : Bool) :
    (s.count store hit).erase = s.erase.count store hit := by
  cases store <;> cases hit <;> rfl

theorem Sized.erase {c : Cache} (h : Sized c) : Sized c.erase :=
  ⟨⟨⟨h.geom.sets, h.geom.blocks, h.geom.size, .inr rfl⟩, h.geom.fits⟩, by
    rw [Cache.erase, List.length_map]
    exact h.len⟩

/-- **Step**: erasing and then accessing is accessing and then erasing. -/
theorem Sized.access_erase {c : Cache} (h : Sized c) (a : Access) :
    ∃ c' d, c.access a = some c' ∧ Sized c' ∧ c.erase.access a = some d ∧ d.erase = c'.erase := by
  obtain ⟨tag, set, htag, hi, hset, -⟩ := h.locate a.address
  have hset' : c.erase.sets[c.config.home a.address]? = some (set.erase c.config.isLru) := by
    rw [Cache.erase, List.getElem?_map, hset, Option.map_some]
  have hacc : c.access a = some (c.put a tag set) := access_eq htag hi hset
  refine ⟨_, _, hacc, h.put a tag set, access_eq htag hi hset', ?_⟩
  have hfixed : ∀ s : CacheSet, (s.erase c.config.isLru).erase c.config.isLru = s.erase c.config.isLru := by
    intro s
    simp only [CacheSet.erase, List.map_map, CacheSet.mk.injEq, true_and]
    exact ⟨rfl, by split <;> rfl⟩
  simp only [Cache.erase, Cache.put, Cache.mk.injEq, List.map_set, List.map_map, erase_charge,
    count_erase, findHit_erase]
  refine ⟨?_, rfl, rfl⟩
  rw [← accessSet_erase set c.config a.store tag c.stats]
  change (List.map (CacheSet.erase c.config.isLru ∘ CacheSet.erase c.config.isLru) c.sets).set _
    (CacheSet.erase c.config.isLru (CacheSet.erase c.config.isLru _)) = _
  rw [hfixed]
  congr 1
  exact List.map_congr_left fun s _ => hfixed s

/-- **Run**: caches with one erasure have one erasure after any trace. -/
theorem Sized.run_erase {c c' : Cache} (h : Sized c) (h' : Sized c') (he : c.erase = c'.erase)
    (trace : List Access) :
    ∃ d d', c.run trace = some d ∧ c'.run trace = some d' ∧ d.erase = d'.erase := by
  induction trace generalizing c c' with
  | nil => exact ⟨c, c', rfl, rfl, he⟩
  | cons a trace ih =>
    obtain ⟨d, e, hacc, hd, hera, hde⟩ := h.access_erase a
    obtain ⟨d', e', hacc', hd', hera', hde'⟩ := h'.access_erase a
    rw [he, hera', Option.some.injEq] at hera
    rw [run_cons hacc, run_cons hacc']
    exact ih hd hd' (by rw [← hde, ← hde', hera])

/-- Two caches agree on everything but dirty flags and cycles. -/
structure SameHits (c c' : Cache) : Prop where
  loadHits : c.stats.loadHits = c'.stats.loadHits
  loadMisses : c.stats.loadMisses = c'.stats.loadMisses
  storeHits : c.stats.storeHits = c'.stats.storeHits
  storeMisses : c.stats.storeMisses = c'.stats.storeMisses
  length : c.sets.length = c'.sets.length
  sets : ∀ (i : Nat) (set set' : CacheSet), c.sets[i]? = some set → c'.sets[i]? = some set' →
    set.validCount = set'.validCount ∧ set.slots.length = set'.slots.length ∧
      ∀ j, (set.slot j).tag = (set'.slot j).tag ∧
        (set.slot j).accessOrder = (set'.slot j).accessOrder

theorem SameHits.of_erase {c c' : Cache} (h : c.erase = c'.erase) : SameHits c c' := by
  simp only [Cache.erase, CacheStats.erase, Cache.mk.injEq, CacheStats.mk.injEq] at h
  obtain ⟨hsets, ⟨-, -, hlh, hlm, hsh, hsm, -⟩, -⟩ := h
  refine ⟨hlh, hlm, hsh, hsm, ?_, ?_⟩
  · simpa using congrArg List.length hsets
  · intro i set set' hset hset'
    have hi := congrArg (·[i]?) hsets
    simp only [List.getElem?_map, hset, hset', Option.map_some, Option.some.injEq] at hi
    refine ⟨by simpa [CacheSet.erase] using congrArg (·.validCount) hi, ?_, ?_⟩
    · simpa [CacheSet.erase] using congrArg (fun s => s.slots.length) hi
    · intro j
      have hj := congrArg (·.slot j) hi
      simp only [slot_erase, Slot.erase, Slot.mk.injEq] at hj
      exact ⟨hj.1, hj.2.2.1⟩

/-- **Write-through and write-back hit alike.** Two accepted configurations that differ in the write
policy only agree after every prefix of every trace; under FIFO their counters are to start alike. -/
theorem write_policy_invisible {argv argv' : List String} {config config' : CacheConfig}
    (h : parseArgs argv = .ok config) (h' : parseArgs argv' = .ok config')
    (hdiff : config' = { config with writeThrough := config'.writeThrough })
    (hfit : config.numSets.toNat * config.blockSize.toNat < 2 ^ 32) (fifo fifo' : UInt64)
    (hfifo : config.isLru = false → fifo = fifo') (trace : List Access) :
    ∀ past future, trace = past ++ future →
      ∃ c c', (Cache.new config fifo).run past = some c ∧
        (Cache.new config' fifo').run past = some c' ∧ SameHits c c' := by
  rintro past future -
  have g : Geometry config := ⟨parseArgs_accepted h, hfit⟩
  have g' : Geometry config' := ⟨parseArgs_accepted h', by rw [hdiff]; exact hfit⟩
  have hcounter : (if config.isLru then 0 else fifo) = if config.isLru then 0 else fifo' := by
    cases hlru : config.isLru with
    | true => rfl
    | false => exact hfifo hlru
  have hnew : (Cache.new config fifo).erase = (Cache.new config' fifo').erase := by
    rw [hdiff]
    simp only [Cache.erase, Cache.new, CacheSet.new, CacheSet.erase, List.map_replicate, hcounter]
    rfl
  obtain ⟨c, c', hrun, hrun', he⟩ := (Sized.new g fifo).run_erase (Sized.new g' fifo') hnew past
  exact ⟨c, c', hrun, hrun', SameHits.of_erase he⟩

/-- A dirty block evicted by a load, under FIFO. -/
theorem write_policy_invisible_fifo :
    ∃ c c', (Cache.new ⟨1, 1, 4, true, false, false⟩ 9).run [⟨true, 0⟩, ⟨false, 4⟩] = some c ∧
      (Cache.new ⟨1, 1, 4, true, true, false⟩ 9).run [⟨true, 0⟩, ⟨false, 4⟩] = some c' ∧
      SameHits c c' :=
  write_policy_invisible
    (show parseArgs ["csim", "1", "1", "4", "write-allocate", "write-back", "fifo"] = .ok _ from rfl)
    (show parseArgs ["csim", "1", "1", "4", "write-allocate", "write-through", "fifo"] = .ok _ from rfl)
    rfl (by decide) 9 9 (fun _ => rfl) [⟨true, 0⟩, ⟨false, 4⟩] [⟨true, 0⟩, ⟨false, 4⟩] [] rfl

end CsfAssignments.CacheSim
