import Mathlib.Data.List.Dedup
import Mathlib.Data.List.Infix
import CsfAssignments.Cache.Invariant
import CsfAssignments.Lib.Recency
/-!
# FIFO stamps and the order of the fills (`cache.h:9-36`, `cache.cpp:9-30`)

`mark_insertion_fifo` stores the 64-bit `fifo_counter` into the 32-bit `access_order`, and
`find_victim_slot` compares these as plain numbers. The order itself is read off the run: `Cache.fills`
logs which slot of which set every access fills, whatever the stamps are. The two agree until a slot gets
the stamp 0 while its set holds another block.
-/

namespace CsfAssignments.CacheSim

/-! ## The order of the fills -/

/-- The slot an access fills: the victim of a miss that brings its block in. -/
def CacheSet.fill (set : CacheSet) (config : CacheConfig) (store : Bool) (tag : UInt32) : Option Nat :=
  if (set.findHit tag).isNone && (!store || config.writeAllocate) then
    some (set.findVictimSlot config.isLru).1
  else none

/-- The set and the slot an access fills. -/
def Cache.fill (c : Cache) (a : Access) : Option (Nat × Nat) := do
  let tag ← c.config.getTag a.address
  let index ← c.config.getIndex a.address
  let set ← c.sets[index]?
  let slot ← set.fill c.config a.store tag
  some (index, slot)

/-- The fills of a run, first to last. -/
def Cache.fills : Cache → List Access → List (Nat × Nat)
  | _, [] => []
  | c, a :: trace =>
    (c.fill a).toList ++ match c.access a with
      | some c' => c'.fills trace
      | none => []

/-- The slots of set `index` in the order of their last fills: `dedup` keeps the last of each. -/
def fillOrder (fills : List (Nat × Nat)) (index : Nat) : List Nat :=
  ((fills.filter fun f => f.1 == index).map Prod.snd).dedup

/-- The stamps of a set agree with the order its slots were filled in. -/
structure InsertionOrder (set : CacheSet) (order : List Nat) : Prop where
  slots : order.Perm (List.range set.validCount)
  /-- Strictly, so no two valid slots share a stamp. -/
  rising : order.Pairwise fun i j => (set.slot i).accessOrder < (set.slot j).accessOrder
  oldest : set.validCount = set.slots.length → order.head? = some (set.findVictimSlot false).1

/-- In every state the run reaches. -/
def KeepsInsertionOrder (config : CacheConfig) (fifo : UInt64) (trace : List Access) : Prop :=
  ∀ past future, trace = past ++ future → ∀ c, (Cache.new config fifo).run past = some c →
    ∀ (i : Nat) (set : CacheSet), c.sets[i]? = some set →
      InsertionOrder set (fillOrder ((Cache.new config fifo).fills past) i)

/-- No access of the run fills a slot with the stamp 0 next to another block. -/
def NoStampWraps (config : CacheConfig) (fifo : UInt64) (trace : List Access) : Prop :=
  ∀ past a future, trace = past ++ a :: future → ∀ c, (Cache.new config fifo).run past = some c →
    ∀ tag set, c.Fills a tag set → 0 < set.validCount → 1 < config.numBlocks.toNat →
      set.fifoCounter.toUInt32 ≠ 0

/-- A fill moves its slot to the end of the order of its set. -/
def refill (order : List Nat) : Option Nat → List Nat
  | some slot => order.erase slot ++ [slot]
  | none => order

theorem fillOrder_append (fills : List (Nat × Nat)) (index j : Nat) (slot : Option Nat) :
    fillOrder (fills ++ (slot.map fun s => (index, s)).toList) j =
      if j = index then refill (fillOrder fills j) slot else fillOrder fills j := by
  cases slot with
  | none => simp [refill]
  | some s =>
    unfold fillOrder refill
    by_cases hj : j = index
    · subst hj
      rw [if_pos rfl]
      simpa using Eviction.dedup_concat _ s
    · have hne : ¬ index = j := fun e => hj e.symm
      simp [hj, hne]

/-! ## One set -/

/-- A counter read modulo `2^32`, as a number from 1 to `2^32`: the stamps handed out so far are below it
as long as none of them wrapped. -/
def narrowCounter (fifo : UInt64) : UInt64 := (fifo - 1) % 4294967296 + 1

theorem toNat_narrowCounter (fifo : UInt64) :
    (narrowCounter fifo).toNat = (fifo.toNat + (2 ^ 32 - 1)) % 2 ^ 32 + 1 := by
  have hfifo := fifo.toNat_lt
  have hmod : ((fifo - 1) % 4294967296).toNat = (2 ^ 64 - 1 + fifo.toNat) % 2 ^ 64 % 2 ^ 32 := by
    rw [UInt64.toNat_mod, UInt64.toNat_sub]
    rfl
  unfold narrowCounter
  rw [UInt64.toNat_add, UInt64.toNat_one, hmod]
  omega

def CacheSet.narrow (set : CacheSet) : CacheSet :=
  { set with fifoCounter := narrowCounter set.fifoCounter }

theorem narrow_victim (isLru : Bool) (set : CacheSet) :
    set.narrow.findVictimSlot isLru =
      ((set.findVictimSlot isLru).1, (set.findVictimSlot isLru).2.narrow) := by
  unfold CacheSet.findVictimSlot
  by_cases hfull : set.validCount = set.slots.length
  · rw [if_pos hfull, if_pos (show set.narrow.validCount = set.narrow.slots.length from hfull)]
    cases isLru <;> rfl
  · rw [if_neg hfull, if_neg (show ¬ set.narrow.validCount = set.narrow.slots.length from hfull)]
    rfl

/-- `order` lists the valid slots, their stamps rise along it, and the next stamp is above them all
unless it wraps. -/
def Stamped (set : CacheSet) (order : List Nat) : Prop := Ordered false set.narrow order

section
variable {config : CacheConfig} {set : CacheSet} {order : List Nat} {tag : UInt32}

theorem Stamped.new (size : Nat) (fifo : UInt64) : Stamped (CacheSet.new size fifo) [] :=
  ⟨List.Perm.refl _, Nat.zero_le _, List.Pairwise.nil, by simp⟩

theorem Stamped.insertionOrder (h : Stamped set order) (hpos : 0 < set.slots.length) :
    InsertionOrder set order := by
  refine ⟨h.perm, h.order, ?_⟩
  intro hfull
  cases order with
  | nil =>
    have hlen : 0 = set.validCount := h.length
    omega
  | cons v q =>
    have hvictim := findVictimSlot_full h hfull
    rw [narrow_victim] at hvictim
    exact congrArg some (congrArg Prod.fst hvictim).symm

/-- A hit keeps the stamps. -/
theorem Stamped.hit (h : Stamped set order) (hfifo : config.isLru = false) (store : Bool) (i : Nat) :
    Stamped (set.hit config store i) order := by
  unfold CacheSet.hit
  simp only [hfifo, Bool.false_eq_true, if_false]
  split
  · refine Ordered.congr h ?_ rfl (length_modifySlot ..) rfl
    intro j
    show CacheSet.age (set.modifySlot i _) j = set.age j
    exact age_modifySlot (fun s => by rfl) set i j
  · exact h

/-- The stamp of a filled slot is the low half of the counter; the others keep theirs. -/
theorem Filled.age_fifo (hfifo : config.isLru = false) (hle : set.validCount ≤ set.slots.length)
    (hpos : 0 < set.slots.length) {dirty : Bool} {set' : CacheSet}
    (hf : Filled config set tag dirty set') (j : Nat) :
    set'.age j =
      if j = (set.findVictimSlot false).1 then set.fifoCounter.toNat % 2 ^ 32 else set.age j := by
  obtain ⟨hlt, hfit, -⟩ := victim_lt config.isLru hle hpos
  have hslot : (set.findVictimSlot config.isLru).1 <
      (set.findVictimSlot config.isLru).2.slots.length := by
    rw [slots_victim]
    exact Nat.lt_of_lt_of_le hlt hfit
  rw [hf.age, age_install_fifo tag hfifo hslot, fifoCounter_victim, age_victim, hfifo]

/-- The counter after a fill is above the stamp it handed out. -/
theorem Filled.narrow_fifo (hfifo : config.isLru = false) {dirty : Bool} {set' : CacheSet}
    (hf : Filled config set tag dirty set') :
    set'.narrow.fifoCounter.toNat = set.fifoCounter.toNat % 2 ^ 32 + 1 := by
  have hnext : set'.fifoCounter = set.fifoCounter + 1 := by
    rw [hf.fifo, CacheSet.install, hfifo, if_neg Bool.false_ne_true]
    show (set.findVictimSlot false).2.fifoCounter + 1 = _
    rw [fifoCounter_victim]
  rw [CacheSet.narrow, toNat_narrowCounter, hnext, UInt64.toNat_add, UInt64.toNat_one]
  omega

theorem Stamped.vacated (h : Stamped set order) (hpos : 0 < set.slots.length) :
    Vacated false (set.findVictimSlot false).2.narrow (set.findVictimSlot false).1
      (order.erase (set.findVictimSlot false).1) := by
  have hvac := Ordered.vacated h hpos
  rwa [narrow_victim] at hvac

/-- The stamps that a fill keeps are below the one it hands out. -/
theorem Stamped.below (h : Stamped set order) (hpos : 0 < set.slots.length)
    (hstamp : 0 < set.validCount → 1 < set.slots.length → set.fifoCounter.toUInt32 ≠ 0) :
    ∀ j ∈ order.erase (set.findVictimSlot false).1, set.age j < set.fifoCounter.toNat % 2 ^ 32 := by
  intro j hj
  have hvac := h.vacated hpos
  have hvalid : j < set.validCount := h.mem_iff.1 (List.mem_of_mem_erase hj)
  have hslots : (set.findVictimSlot false).2.validCount ≤ set.slots.length := by
    have hle := hvac.le
    simpa [CacheSet.narrow, slots_victim] using hle
  have hslot : j < (set.findVictimSlot false).2.validCount := hvac.lt_of_mem hj
  have hvictim : (set.findVictimSlot false).1 < (set.findVictimSlot false).2.validCount := hvac.lt
  have hne : j ≠ (set.findVictimSlot false).1 := fun e => hvac.not_mem (e ▸ hj)
  -- the victim and slot `j` are two, so the stamp did not wrap
  have hlow : set.fifoCounter.toNat % 2 ^ 32 ≠ 0 := by
    intro hzero
    refine hstamp (by omega) (by omega) ?_
    rw [← UInt32.toNat_inj, UInt64.toNat_toUInt32, hzero]
    rfl
  have hbound : set.age j < set.narrow.fifoCounter.toNat := by
    have hage := h.bound j (List.mem_of_mem_erase hj)
    rwa [if_neg Bool.false_ne_true] at hage
  rw [CacheSet.narrow, toNat_narrowCounter] at hbound
  omega

/-- **Fill**: the victim becomes the youngest slot, unless its stamp wraps to 0 and another slot is
valid. -/
theorem Stamped.fill (h : Stamped set order) (hfifo : config.isLru = false)
    (hpos : 0 < set.slots.length) {dirty : Bool} {set' : CacheSet}
    (hf : Filled config set tag dirty set')
    (hstamp : 0 < set.validCount → 1 < set.slots.length → set.fifoCounter.toUInt32 ≠ 0) :
    Stamped set' (order.erase (set.findVictimSlot false).1 ++ [(set.findVictimSlot false).1]) := by
  have hle : set.validCount ≤ set.slots.length := h.le
  have hage := hf.age_fifo hfifo hle hpos
  have hcounter := hf.narrow_fifo hfifo
  have hvac := h.vacated hpos
  have hbelow := h.below hpos hstamp
  have hcount : set'.validCount = (set.findVictimSlot false).2.validCount := by rw [hf.count, hfifo]
  have hlen : set'.slots.length = set.slots.length := by rw [hf.len, slots_victim]
  have hsame : ∀ j, (set.findVictimSlot false).2.narrow.age j = set.age j := by
    intro j
    show (set.findVictimSlot false).2.age j = _
    rw [age_victim]
  generalize (set.findVictimSlot false).1 = i at hage hvac hbelow ⊢
  have hnew : set'.narrow.age i = set.fifoCounter.toNat % 2 ^ 32 := by
    show set'.age i = _
    rw [hage, if_pos rfl]
  have hkept : ∀ j ∈ order.erase i, set'.narrow.age j = set.age j := by
    intro j hj
    have hne : j ≠ i := fun e => hvac.not_mem (e ▸ hj)
    show set'.age j = _
    rw [hage, if_neg hne]
  refine Ordered.snoc ?_ ?_ ?_ ?_ ?_ ?_
  · show (order.erase i ++ [i]).Perm (List.range set'.validCount)
    rw [hcount]
    exact hvac.perm
  · show set'.validCount ≤ set'.slots.length
    rw [hcount, hlen, ← slots_victim false]
    exact hvac.le
  · refine hvac.order.imp_of_mem ?_
    intro j k hj hk hjk
    simp only [CacheSet.older, Bool.false_eq_true, if_false, hsame] at hjk
    simp only [CacheSet.older, Bool.false_eq_true, if_false, hkept j hj, hkept k hk]
    exact hjk
  · intro j hj
    have hlt := hbelow j hj
    rw [if_neg Bool.false_ne_true, hcounter, hkept j hj]
    omega
  · intro j hj
    simp only [CacheSet.older, Bool.false_eq_true, if_false, hkept j hj, hnew]
    exact hbelow j hj
  · rw [if_neg Bool.false_ne_true, hcounter, hnew]
    omega

/-- **Step**: the order follows the fills, whatever the access. -/
theorem Stamped.access (h : Stamped set order) (hfifo : config.isLru = false)
    (hpos : 0 < set.slots.length) (store : Bool) (stats : CacheStats)
    (hstamp : set.findHit tag = none → (!store || config.writeAllocate) = true →
      0 < set.validCount → 1 < set.slots.length → set.fifoCounter.toUInt32 ≠ 0) :
    Stamped (accessSet config store tag set stats).1
      (refill order (set.fill config store tag)) := by
  unfold CacheSet.fill
  have hle : set.validCount ≤ set.slots.length := h.le
  rcases accessSet_cases config tag hle hpos store stats with
    ⟨i, hhit, hset⟩ | ⟨hmiss, hpast, hset⟩ | ⟨hmiss, halloc, hfill⟩
  · rw [hset, hhit]
    exact h.hit hfifo store i
  · rw [hset, hpast, Bool.and_false, if_neg Bool.false_ne_true]
    exact h
  · rw [hmiss, halloc, Option.isNone_none, Bool.and_true, if_pos rfl, hfifo]
    exact h.fill hfifo hpos hfill (hstamp hmiss halloc)

end

/-- The slots of a set are never added to or removed. -/
theorem length_accessSet (config : CacheConfig) (store : Bool) (tag : UInt32) {set : CacheSet}
    (hle : set.validCount ≤ set.slots.length) (hpos : 0 < set.slots.length) (stats : CacheStats) :
    (accessSet config store tag set stats).1.slots.length = set.slots.length := by
  rcases accessSet_cases config tag hle hpos store stats with
    ⟨i, -, hset⟩ | ⟨-, -, hset⟩ | ⟨-, -, hfill⟩
  · rw [hset, length_hit]
  · rw [hset]
  · rw [hfill.len, slots_victim]

/-! ## Every run -/

theorem fills_append {c c' : Cache} {trace rest : List Access} (h : c.run trace = some c') :
    c.fills (trace ++ rest) = c.fills trace ++ c'.fills rest := by
  induction trace generalizing c with
  | nil =>
    cases h
    rfl
  | cons a trace ih =>
    unfold Cache.run at h
    rw [List.foldlM_cons, Option.bind_eq_bind, Option.bind_eq_some_iff] at h
    obtain ⟨d, hd, hrun⟩ := h
    rw [List.cons_append, Cache.fills, Cache.fills, hd]
    simp only [ih hrun, List.append_assoc]

/-- The log of a run with one more access. -/
theorem fills_snoc {c d d' : Cache} {past : List Access} {a : Access} (hrun : c.run past = some d)
    (hacc : d.access a = some d') : c.fills (past ++ [a]) = c.fills past ++ (d.fill a).toList := by
  rw [fills_append hrun, Cache.fills, hacc]
  simp only [Cache.fills, List.append_nil]

theorem fill_eq {c : Cache} {a : Access} {tag : UInt32} {i : Nat} {set : CacheSet}
    (htag : c.config.getTag a.address = some tag) (hi : c.config.getIndex a.address = some i)
    (hset : c.sets[i]? = some set) :
    c.fill a = (set.fill c.config a.store tag).map fun s => (i, s) := by
  simp only [Cache.fill, htag, hi, hset, Option.bind_eq_bind, Option.bind_some]
  cases set.fill c.config a.store tag <;> rfl

theorem run_snoc {c c' : Cache} {past : List Access} {a : Access} :
    c.run (past ++ [a]) = some c' ↔ ∃ d, c.run past = some d ∧ d.access a = some c' := by
  unfold Cache.run
  rw [List.foldlM_append, Option.bind_eq_bind, Option.bind_eq_some_iff]
  simp only [List.foldlM_cons, List.foldlM_nil, Option.bind_eq_bind, Option.pure_def,
    Option.bind_fun_some]

/-- What a run keeps of every set, with the log of its fills. -/
structure AllStamped (config : CacheConfig) (c : Cache) (fills : List (Nat × Nat)) : Prop where
  config_eq : c.config = config
  len : ∀ set ∈ c.sets, set.slots.length = config.numBlocks.toNat
  sets : ∀ (i : Nat) (set : CacheSet), c.sets[i]? = some set → Stamped set (fillOrder fills i)

theorem AllStamped.new (config : CacheConfig) (fifo : UInt64) :
    AllStamped config (Cache.new config fifo) [] := by
  refine ⟨rfl, ?_, ?_⟩
  · intro set hset
    rw [mem_new hset]
    exact List.length_replicate
  · intro i set hset
    rw [mem_new (List.mem_of_getElem? hset)]
    exact Stamped.new _ fifo

/-- **Step**: an access whose stamp does not wrap keeps every set in order. -/
theorem AllStamped.access {config : CacheConfig} {c c' : Cache} {fills : List (Nat × Nat)}
    (h : AllStamped config c fills) (hacc : Accepted config) (hfifo : config.isLru = false) {a : Access}
    (hstamp : ∀ tag set, c.Fills a tag set → 0 < set.validCount → 1 < config.numBlocks.toNat →
      set.fifoCounter.toUInt32 ≠ 0) (ha : c.access a = some c') :
    AllStamped config c' (fills ++ (c.fill a).toList) := by
  obtain ⟨hcfg, hlen, hsets⟩ := h
  obtain ⟨tag, index, set, htag, hi, hset, hcfg', hsets'⟩ := access_some ha
  have hslots := hlen set (List.mem_of_getElem? hset)
  have hpos : 0 < set.slots.length := by rw [hslots]; exact hacc.blocks_pos
  have hordered := hsets index set hset
  have hle : set.validCount ≤ set.slots.length := hordered.le
  refine ⟨hcfg'.trans hcfg, ?_, ?_⟩
  · intro s hs
    rw [hsets'] at hs
    rcases List.mem_or_eq_of_mem_set hs with hmem | rfl
    · exact hlen s hmem
    · exact (length_accessSet c.config a.store tag hle hpos c.stats).trans hslots
  · intro j s hs
    rw [fill_eq htag hi hset, fillOrder_append]
    rw [hsets', List.getElem?_set] at hs
    by_cases hj : j = index
    · subst hj
      rw [if_pos rfl] at hs ⊢
      split at hs
      · cases hs
        refine hordered.access (hcfg.symm ▸ hfifo) hpos a.store c.stats ?_
        intro hmiss halloc hvalid hroom
        exact hstamp tag set ⟨htag, ⟨_, hi, hset⟩, hmiss, halloc⟩ hvalid (hslots ▸ hroom)
      · cases hs
    · rw [if_neg (Ne.symm hj)] at hs
      rw [if_neg hj]
      exact hsets j s hs

/-- **Run**: without a wrapped stamp every state reached is in order. -/
theorem AllStamped.run {config : CacheConfig} (hacc : Accepted config) (hfifo : config.isLru = false)
    {fifo : UInt64} {trace : List Access} (hstamps : NoStampWraps config fifo trace)
    (past : List Access) : ∀ future, trace = past ++ future → ∀ c,
      (Cache.new config fifo).run past = some c →
      AllStamped config c ((Cache.new config fifo).fills past) := by
  induction past using List.reverseRecOn with
  | nil =>
    intro future _ c hrun
    cases hrun
    exact AllStamped.new config fifo
  | append_singleton past a ih =>
    intro future htrace c hrun
    obtain ⟨d, hd, ha⟩ := run_snoc.1 hrun
    have htrace : trace = past ++ a :: future := by simpa using htrace
    rw [fills_snoc hd ha]
    exact (ih (a :: future) htrace d hd).access hacc hfifo (hstamps past a future htrace d hd) ha

/-- A set of two slots or more that holds a block holds two after a fill. -/
theorem two_valid {set : CacheSet} (hvalid : 0 < set.validCount) (hroom : 1 < set.slots.length) :
    2 ≤ (set.findVictimSlot false).2.validCount := by
  unfold CacheSet.findVictimSlot
  by_cases hfull : set.validCount = set.slots.length
  · rw [if_pos hfull, if_neg Bool.false_ne_true]
    show 2 ≤ set.validCount
    omega
  · rw [if_neg hfull]
    show 2 ≤ set.validCount + 1
    omega

/-- A stamp that wraps next to another block breaks the order at once: the slot filled last has the
lowest stamp there is. -/
theorem wrapped_not_ordered {config : CacheConfig} {c c' : Cache} {a : Access} {tag : UInt32}
    {set : CacheSet} (fills : List (Nat × Nat)) (hfifo : config.isLru = false) (hcfg : c.config = config)
    (hfill : c.Fills a tag set) (hle : set.validCount ≤ set.slots.length) (hvalid : 0 < set.validCount)
    (hroom : 1 < set.slots.length) (hzero : set.fifoCounter.toUInt32 = 0) (ha : c.access a = some c')
    (horder : ∀ (i : Nat) (s : CacheSet), c'.sets[i]? = some s →
      InsertionOrder s (fillOrder (fills ++ (c.fill a).toList) i)) : False := by
  subst hcfg
  obtain ⟨htag, ⟨index, hi, hset⟩, hmiss, halloc⟩ := hfill
  have hpos : 0 < set.slots.length := by omega
  obtain ⟨hlt, hfit, hgrow, -⟩ := victim_lt false hle hpos
  rw [access_eq htag hi hset] at ha
  cases ha
  have hindex : index < c.sets.length := (List.getElem?_eq_some_iff.1 hset).1
  have hins := horder index _ (List.getElem?_set_self hindex)
  have hslot : set.fill c.config a.store tag = some (set.findVictimSlot false).1 := by
    rw [CacheSet.fill, hmiss, halloc, hfifo]
    rfl
  rw [fill_eq htag hi hset, fillOrder_append, if_pos rfl, hslot, refill] at hins
  rcases accessSet_cases c.config tag hle hpos a.store c.stats with
    ⟨i, hhit, -⟩ | ⟨-, hpast, -⟩ | ⟨-, -, hf⟩
  · rw [hmiss] at hhit
    cases hhit
  · rw [halloc] at hpast
    cases hpast
  · have hage := hf.age_fifo hfifo hle hpos (set.findVictimSlot false).1
    rw [if_pos rfl, ← UInt64.toNat_toUInt32, hzero] at hage
    -- at least two slots are valid, so one comes before the slot filled last
    have htwo := two_valid hvalid hroom
    have hlength := hins.slots.length_eq
    rw [List.length_append, List.length_singleton, List.length_range, hf.count, hfifo] at hlength
    obtain ⟨j, hj⟩ := List.exists_mem_of_length_pos (show 0 <
      ((fillOrder fills index).erase (set.findVictimSlot false).1).length by omega)
    have hrise := (List.pairwise_append.1 hins.rising).2.2 j hj _ (List.mem_singleton_self _)
    have hrise := UInt32.lt_iff_toNat_lt.1 hrise
    rw [show ((accessSet c.config a.store tag set c.stats).1.slot
      (set.findVictimSlot false).1).accessOrder.toNat = 0 from hage] at hrise
    exact Nat.not_lt_zero _ hrise

/-- **Insertion order.** A FIFO run keeps the order of its fills in every state, whatever the counters
hold at first, if and only if no slot gets the stamp 0 while its set holds another block. -/
theorem keepsInsertionOrder_iff {argv : List String} {config : CacheConfig}
    (h : parseArgs argv = .ok config) (hfifo : config.isLru = false) (fifo : UInt64)
    (trace : List Access) :
    KeepsInsertionOrder config fifo trace ↔ NoStampWraps config fifo trace := by
  have hacc := parseArgs_accepted h
  constructor
  · intro hkeeps past a future htrace c hrun tag set hfill hvalid hroom hzero
    have hcfg : c.config = config := run_config past hrun
    have g := hfill.fits hacc hcfg
    obtain ⟨index, hi, hset⟩ := hfill.located
    have hkept := Kept.run g hrun set (List.mem_of_getElem? hset)
    have ha := access_eq hfill.tag_eq hi hset
    refine wrapped_not_ordered ((Cache.new config fifo).fills past) hfifo hcfg hfill hkept.le hvalid
      (hkept.len ▸ hroom) hzero ha ?_
    rw [← fills_snoc hrun ha]
    exact hkeeps (past ++ [a]) future (by simp [htrace]) _ (run_snoc.2 ⟨c, hrun, ha⟩)
  · intro hstamps past future htrace c hrun i set hset
    have hstamped := AllStamped.run hacc hfifo hstamps past future htrace c hrun
    refine (hstamped.sets i set hset).insertionOrder ?_
    rw [hstamped.len set (List.mem_of_getElem? hset)]
    exact hacc.blocks_pos

/-- Three loads through a set of two blocks, its stamps starting at 5. -/
theorem keepsInsertionOrder_5 :
    KeepsInsertionOrder ⟨1, 2, 4, true, false, false⟩ 5 [⟨false, 0⟩, ⟨false, 4⟩, ⟨false, 8⟩] := by
  have hall : ∀ past ∈ List.inits [⟨false, 0⟩, ⟨false, 4⟩, ⟨false, 8⟩],
      ((Cache.new ⟨1, 2, 4, true, false, false⟩ 5).run past).all (fun c =>
        c.sets.all fun s => decide (s.fifoCounter.toUInt32 ≠ 0)) = true := by decide
  have hstamps : NoStampWraps ⟨1, 2, 4, true, false, false⟩ 5
      [⟨false, 0⟩, ⟨false, 4⟩, ⟨false, 8⟩] := by
    intro past a future htrace c hrun tag set hfill _ _
    have hpast := hall past ((List.mem_inits _ _).2 ⟨_, htrace.symm⟩)
    rw [hrun, Option.all_some] at hpast
    obtain ⟨index, -, hset⟩ := hfill.located
    exact of_decide_eq_true (List.all_eq_true.1 hpast set (List.mem_of_getElem? hset))
  exact (keepsInsertionOrder_iff
    (show parseArgs ["csim", "1", "2", "4", "write-allocate", "write-back", "fifo"] = .ok _ from rfl)
    rfl 5 _).2 hstamps

/-- Counters that happen to start at `2^32 - 1`: the second of two loads gets the stamp 0, and the full
set gives it up instead of the first. -/
theorem insertion_order_wraps :
    ∃ argv config c set, parseArgs argv = .ok config ∧ config.isLru = false ∧
      (Cache.new config 4294967295).run [⟨false, 0⟩, ⟨false, 4⟩] = some c ∧ c.sets[0]? = some set ∧
      fillOrder ((Cache.new config 4294967295).fills [⟨false, 0⟩, ⟨false, 4⟩]) 0 = [0, 1] ∧
      set.findVictimSlot false = (1, set) ∧
      ¬ KeepsInsertionOrder config 4294967295 [⟨false, 0⟩, ⟨false, 4⟩] := by
  refine ⟨["csim", "1", "2", "4", "write-allocate", "write-back", "fifo"],
    ⟨1, 2, 4, true, false, false⟩, _, _, rfl, rfl, rfl, rfl, by decide, by decide, fun hkeeps => ?_⟩
  have hordered := hkeeps [⟨false, 0⟩, ⟨false, 4⟩] [] rfl _ rfl 0 _ rfl
  exact absurd (hordered.oldest rfl) (by decide)

end CsfAssignments.CacheSim
