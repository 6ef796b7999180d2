import Mathlib.Data.List.Perm.Basic
import Mathlib.Data.List.Range
import CsfAssignments.Lib.Eviction
import CsfAssignments.Cache.Model
/-!
# The ages of a set encode an order of its slots

`Ordered isLru set p`: `p` lists the valid slots, oldest first, and the `access_order` fields agree
with it: strictly falling under LRU, strictly rising under FIFO. One lemma for each operation of
`class Set`: what `find_victim_slot` returns is the head of the order (`victim_spec`), overwriting
it puts it last (`Vacated.install`), an LRU hit moves the hit slot last (`Ordered.touch`).
-/

namespace CsfAssignments.CacheSim

def CacheSet.age (set : CacheSet) (i : Nat) : Nat := (set.slot i).accessOrder.toNat

/-- Slot `i` was used (LRU) or filled (FIFO) before slot `j`. -/
def CacheSet.older (isLru : Bool) (set : CacheSet) (i j : Nat) : Prop :=
  if isLru then set.age j < set.age i else set.age i < set.age j

/-- `p` lists the valid slots oldest first, and every age is below the next one to be handed out. -/
structure Ordered (isLru : Bool) (set : CacheSet) (p : List Nat) : Prop where
  perm : p.Perm (List.range set.validCount)
  le : set.validCount ≤ set.slots.length
  order : p.Pairwise (set.older isLru)
  bound : ∀ i ∈ p, if isLru then set.age i < set.validCount else set.age i < set.fifoCounter.toNat

/-- As `Ordered`, with slot `i` about to be overwritten and `q` the others. -/
structure Vacated (isLru : Bool) (set : CacheSet) (i : Nat) (q : List Nat) : Prop where
  perm : (q ++ [i]).Perm (List.range set.validCount)
  le : set.validCount ≤ set.slots.length
  order : q.Pairwise (set.older isLru)
  bound : ∀ j ∈ q,
    if isLru then set.age j + 1 < set.validCount else set.age j < set.fifoCounter.toNat

namespace Ordered

variable {isLru : Bool} {set : CacheSet} {p : List Nat} (h : Ordered isLru set p)
include h

theorem nodup : p.Nodup := h.perm.nodup_iff.2 List.nodup_range

theorem mem_iff {i : Nat} : i ∈ p ↔ i < set.validCount := by
  rw [h.perm.mem_iff, List.mem_range]

theorem length : p.length = set.validCount := by rw [h.perm.length_eq, List.length_range]

/-- Distinct valid slots have distinct ages. -/
theorem age_ne {i j : Nat} (hi : i ∈ p) (hj : j ∈ p) (hij : i ≠ j) : set.age i ≠ set.age j := by
  have hpair : p.Pairwise fun a b => set.age a ≠ set.age b :=
    h.order.imp fun {a b} hab => by
      unfold CacheSet.older at hab; split at hab <;> omega
  rw [List.pairwise_iff_getElem] at hpair
  obtain ⟨m, hm, rfl⟩ := List.getElem_of_mem hi
  obtain ⟨n, hn, rfl⟩ := List.getElem_of_mem hj
  rcases Nat.lt_trichotomy m n with hmn | rfl | hmn
  · exact hpair m n hm hn hmn
  · exact absurd rfl hij
  · exact (hpair n m hn hm hmn).symm

omit h in
/-- A slot younger than all the others comes last. -/
theorem snoc {q : List Nat} {i : Nat} (perm : (q ++ [i]).Perm (List.range set.validCount))
    (le : set.validCount ≤ set.slots.length) (order : q.Pairwise (set.older isLru))
    (bound : ∀ j ∈ q, if isLru then set.age j < set.validCount else set.age j < set.fifoCounter.toNat)
    (last : ∀ j ∈ q, set.older isLru j i)
    (bound_last : if isLru then set.age i < set.validCount else set.age i < set.fifoCounter.toNat) :
    Ordered isLru set (q ++ [i]) := by
  refine ⟨perm, le, ?_, ?_⟩
  · rw [List.pairwise_append]
    refine ⟨order, List.pairwise_singleton _ _, ?_⟩
    intro j hj k hk
    rw [List.mem_singleton] at hk
    rw [hk]
    exact last j hj
  · intro j hj
    rcases List.mem_append.1 hj with hj | hj
    · exact bound j hj
    · rw [List.mem_singleton] at hj
      rw [hj]
      exact bound_last

end Ordered

namespace Vacated

variable {isLru : Bool} {set : CacheSet} {i : Nat} {q : List Nat} (h : Vacated isLru set i q)
include h

theorem nodup : (q ++ [i]).Nodup := h.perm.nodup_iff.2 List.nodup_range

theorem not_mem : i ∉ q := by
  intro hi
  have := (List.nodup_append.1 h.nodup).2.2 i hi i (by simp)
  exact this rfl

theorem lt : i < set.validCount := by
  have : i ∈ List.range set.validCount := h.perm.mem_iff.1 (by simp)
  exact List.mem_range.1 this

theorem lt_of_mem {j : Nat} (hj : j ∈ q) : j < set.validCount :=
  List.mem_range.1 (h.perm.mem_iff.1 (List.mem_append_left _ hj))

end Vacated

/-! ## Slots after an update -/

@[simp] theorem slot_modifySlot (set : CacheSet) (i j : Nat) (f : Slot → Slot) :
    (set.modifySlot i f).slot j =
      if i = j ∧ j < set.slots.length then f (set.slot j) else set.slot j := by
  unfold CacheSet.slot CacheSet.modifySlot
  simp only [List.getD_eq_getElem?_getD, List.getElem?_modify]
  by_cases hj : j < set.slots.length
  · by_cases hi : i = j <;> simp [hi, hj]
  · simp [hj]

/-- A change of a slot that leaves its age alone. -/
theorem age_modifySlot {f : Slot → Slot} (hf : ∀ s, (f s).accessOrder = s.accessOrder)
    (set : CacheSet) (i j : Nat) : (set.modifySlot i f).age j = set.age j := by
  unfold CacheSet.age
  rw [slot_modifySlot]
  split
  · rw [hf]
  · rfl

@[simp] theorem length_modifySlot (set : CacheSet) (i : Nat) (f : Slot → Slot) :
    (set.modifySlot i f).slots.length = set.slots.length := by
  simp [CacheSet.modifySlot]

@[simp] theorem validCount_modifySlot (set : CacheSet) (i : Nat) (f : Slot → Slot) :
    (set.modifySlot i f).validCount = set.validCount := rfl

@[simp] theorem fifoCounter_modifySlot (set : CacheSet) (i : Nat) (f : Slot → Slot) :
    (set.modifySlot i f).fifoCounter = set.fifoCounter := rfl

@[simp] theorem length_updateLru (set : CacheSet) (r : UInt32) :
    (set.updateLru r).slots.length = set.slots.length := by
  simp [CacheSet.updateLru]

@[simp] theorem validCount_updateLru (set : CacheSet) (r : UInt32) :
    (set.updateLru r).validCount = set.validCount := rfl

@[simp] theorem fifoCounter_updateLru (set : CacheSet) (r : UInt32) :
    (set.updateLru r).fifoCounter = set.fifoCounter := rfl

theorem slot_updateLru {set : CacheSet} (hle : set.validCount ≤ set.slots.length) (r : UInt32)
    (j : Nat) :
    (set.updateLru r).slot j =
      if j < set.validCount ∧ (set.slot j).accessOrder < r then
        { set.slot j with accessOrder := (set.slot j).accessOrder + 1 }
      else set.slot j := by
  unfold CacheSet.slot CacheSet.updateLru
  simp only [List.getD_eq_getElem?_getD, List.getElem?_mapIdx]
  by_cases hj : j < set.slots.length
  · simp [hj]
  · have : ¬ j < set.validCount := by omega
    simp [hj, this]

/-- `update_lru` ages the valid slots below the reference by one, without wrapping. -/
theorem age_updateLru {set : CacheSet} (hle : set.validCount ≤ set.slots.length) (r : UInt32)
    (j : Nat) :
    (set.updateLru r).age j =
      if j < set.validCount ∧ set.age j < r.toNat then set.age j + 1 else set.age j := by
  unfold CacheSet.age
  rw [slot_updateLru hle]
  simp only [UInt32.lt_iff_toNat_lt]
  split
  · rename_i hc
    have := r.toNat_lt
    simp only [UInt32.toNat_add, UInt32.toNat_one]
    omega
  · rfl

/-- An LRU hit on slot `i`: its age becomes 0, the younger ones grow by one. -/
theorem age_touch {set : CacheSet} {i : Nat} (hle : set.validCount ≤ set.slots.length)
    (hi : i < set.validCount) (j : Nat) :
    (set.touch i).age j =
      if j = i then 0
      else if j < set.validCount ∧ set.age j < set.age i then set.age j + 1 else set.age j := by
  have hi' : i < set.slots.length := by omega
  by_cases hj : j = i
  · subst hj
    simp [CacheSet.age, CacheSet.touch, hi']
  · rw [if_neg hj]
    have hne : ¬ (i = j ∧ j < set.slots.length) := fun e => hj e.1.symm
    have : (set.touch i).age j = (set.updateLru (set.slot i).accessOrder).age j := by
      simp [CacheSet.age, CacheSet.touch, hne]
    rw [this, age_updateLru hle]
    rfl

theorem validCount_touch (set : CacheSet) (i : Nat) : (set.touch i).validCount = set.validCount := rfl

@[simp] theorem length_touch (set : CacheSet) (i : Nat) :
    (set.touch i).slots.length = set.slots.length := by
  simp [CacheSet.touch]

/-- A hit leaves tags and dirty flags alone. -/
theorem entry_touch {set : CacheSet} (hle : set.validCount ≤ set.slots.length) (i j : Nat) :
    ((set.touch i).slot j).tag = (set.slot j).tag ∧
      ((set.touch i).slot j).dirty = (set.slot j).dirty := by
  unfold CacheSet.touch
  rw [slot_modifySlot, slot_updateLru hle]
  constructor <;> split <;> split <;> rfl

/-! ## `find_victim_slot` -/

/-- A scan that starts at `b` ends at the one index that beats every other. -/
theorem foldl_scan (beats : Nat → Nat → Bool) {v : Nat} :
    ∀ (l : List Nat) (b : Nat), v ∈ b :: l → (∀ i, beats i i = false) →
      (∀ i ∈ b :: l, i ≠ v → beats v i = true ∧ beats i v = false) →
      l.foldl (fun best i => if beats i best then i else best) b = v
  | [], b, hv, _, _ => by simp at hv; exact hv.symm
  | i :: l, b, hv, hirr, hbeat => by
    simp only [List.foldl_cons]
    refine foldl_scan beats l _ ?_ hirr fun j hj hne => ?_
    · by_cases hb : b = v
      · subst hb
        by_cases hi : i = b
        · simp [hi, hirr]
        · simp [(hbeat i (by simp) hi).2]
      · by_cases hi : i = v
        · subst hi; simp [(hbeat b (by simp) hb).1]
        · have : v ∈ l := by
            rcases List.mem_cons.1 hv with h | h
            · exact absurd h.symm hb
            · rcases List.mem_cons.1 h with h | h
              · exact absurd h.symm hi
              · exact h
          exact List.mem_cons_of_mem _ this
    · refine hbeat j ?_ hne
      rcases List.mem_cons.1 hj with h | h
      · subst h; split <;> simp
      · simp [h]

/-- Whatever it compares, a scan ends at a valid slot. -/
theorem scan_lt {set : CacheSet} (hpos : 0 < set.validCount) (beats : UInt32 → UInt32 → Bool) :
    set.scan beats < set.validCount := by
  unfold CacheSet.scan
  have hall : ∀ i ∈ List.range set.validCount, i < set.validCount := fun i hi => List.mem_range.1 hi
  generalize List.range set.validCount = l at hall
  generalize 0 = b at hpos
  induction l generalizing b with
  | nil => exact hpos
  | cons i l ih =>
    rw [List.foldl_cons]
    refine ih (fun j hj => hall j (List.mem_cons_of_mem _ hj)) _ ?_
    split
    · exact hall i (List.mem_cons_self ..)
    · exact hpos

/-- `find_victim_slot` leaves the slots alone. -/
theorem slots_victim (isLru : Bool) (set : CacheSet) :
    (set.findVictimSlot isLru).2.slots = set.slots := by
  unfold CacheSet.findVictimSlot
  split
  · split <;> rfl
  · rfl

theorem fifoCounter_victim (isLru : Bool) (set : CacheSet) :
    (set.findVictimSlot isLru).2.fifoCounter = set.fifoCounter := by
  unfold CacheSet.findVictimSlot
  split
  · split <;> rfl
  · rfl

@[simp] theorem slot_victim (isLru : Bool) (set : CacheSet) (j : Nat) :
    (set.findVictimSlot isLru).2.slot j = set.slot j := by
  rw [CacheSet.slot, slots_victim, CacheSet.slot]

theorem age_victim (isLru : Bool) (set : CacheSet) (j : Nat) :
    (set.findVictimSlot isLru).2.age j = set.age j := by
  rw [CacheSet.age, slot_victim, CacheSet.age]

/-- `find_victim_slot` returns a slot that is valid once it has counted it; the others were valid
before. -/
theorem victim_lt (isLru : Bool) {set : CacheSet} (hle : set.validCount ≤ set.slots.length)
    (hpos : 0 < set.slots.length) :
    (set.findVictimSlot isLru).1 < (set.findVictimSlot isLru).2.validCount ∧
      (set.findVictimSlot isLru).2.validCount ≤ set.slots.length ∧
      set.validCount ≤ (set.findVictimSlot isLru).2.validCount ∧
      ∀ j < (set.findVictimSlot isLru).2.validCount, j ≠ (set.findVictimSlot isLru).1 →
        j < set.validCount := by
  unfold CacheSet.findVictimSlot
  by_cases hfull : set.validCount = set.slots.length
  · have hscan := scan_lt (show 0 < set.validCount by omega)
    rw [if_pos hfull]
    cases isLru
    · rw [if_neg Bool.false_ne_true]
      exact ⟨hscan fun a b => a < b, hle, Nat.le_refl _, fun j hj _ => hj⟩
    · rw [if_pos rfl]
      exact ⟨hscan fun a b => a > b, hle, Nat.le_refl _, fun j hj _ => hj⟩
  · rw [if_neg hfull]
    refine ⟨Nat.lt_succ_self _, ?_, Nat.le_succ _, ?_⟩
    · show set.validCount + 1 ≤ set.slots.length
      omega
    · intro j hj hne
      simp only at hj hne
      omega

/-- The scan of a full set finds the oldest slot. -/
theorem scan_eq_head {isLru : Bool} {set : CacheSet} {v : Nat} {q : List Nat}
    (h : Ordered isLru set (v :: q)) (beats : UInt32 → UInt32 → Bool)
    (hb : ∀ i j, beats (set.slot i).accessOrder (set.slot j).accessOrder = true ↔
      set.older isLru i j) : set.scan beats = v := by
  have hpos : 0 < set.validCount := by rw [← h.length]; simp
  have hirr : ∀ i, ¬ set.older isLru i i := by
    intro i; unfold CacheSet.older; split <;> exact Nat.lt_irrefl _
  have hasym : ∀ {i j}, set.older isLru i j → ¬ set.older isLru j i := by
    intro i j; unfold CacheSet.older; split <;> omega
  refine foldl_scan (fun i j => beats (set.slot i).accessOrder (set.slot j).accessOrder)
    _ 0 ?_ (fun i => ?_) fun i hi hne => ?_
  · have : v < set.validCount := h.mem_iff.1 (by simp)
    exact List.mem_cons_of_mem _ (List.mem_range.2 this)
  · exact Bool.eq_false_iff.2 fun e => hirr i ((hb i i).1 e)
  · have hi' : i < set.validCount := by
      rcases List.mem_cons.1 hi with e | e
      · rw [e]; exact hpos
      · exact List.mem_range.1 e
    have hq : i ∈ q := by
      rcases List.mem_cons.1 (h.mem_iff.2 hi') with e | e
      · exact absurd e hne
      · exact e
    have ho := (List.pairwise_cons.1 h.order).1 i hq
    exact ⟨(hb v i).2 ho, Bool.eq_false_iff.2 fun e => hasym ho ((hb i v).1 e)⟩

theorem findVictimSlot_full {isLru : Bool} {set : CacheSet} {v : Nat} {q : List Nat}
    (h : Ordered isLru set (v :: q)) (hfull : set.validCount = set.slots.length) :
    set.findVictimSlot isLru = (v, set) := by
  unfold CacheSet.findVictimSlot
  rw [if_pos hfull]
  cases isLru
  · rw [scan_eq_head h (fun a b => a < b)]
    · rfl
    · intro i j; simp [CacheSet.older, CacheSet.age, UInt32.lt_iff_toNat_lt]
  · rw [scan_eq_head h (fun a b => a > b)]
    · rfl
    · intro i j; simp [CacheSet.older, CacheSet.age, UInt32.lt_iff_toNat_lt]

/-- **`find_victim_slot`**: the oldest slot of a full set, the next free one otherwise; the other
slots keep their order. -/
theorem victim_spec {isLru : Bool} {set : CacheSet} {p : List Nat} (h : Ordered isLru set p)
    (hpos : 0 < set.slots.length) :
    ∃ i, (set.findVictimSlot isLru).1 = i ∧
      (set.validCount < set.slots.length → i = set.validCount) ∧
      (¬ set.validCount < set.slots.length → p = i :: p.tail) ∧
      Vacated isLru (set.findVictimSlot isLru).2 i
        (if set.validCount < set.slots.length then p else p.tail) := by
  have hle := h.le
  by_cases hroom : set.validCount < set.slots.length
  · have he : set.findVictimSlot isLru =
        (set.validCount, { set with validCount := set.validCount + 1 }) := by
      unfold CacheSet.findVictimSlot; rw [if_neg (by omega)]
    rw [he]
    refine ⟨_, rfl, fun _ => rfl, fun hn => absurd hroom hn, ?_⟩
    rw [if_pos hroom]
    refine ⟨?_, hroom, h.order, ?_⟩
    · rw [List.range_succ]
      exact h.perm.append_right _
    · intro j hj
      have := h.bound j hj
      cases isLru
      · exact this
      · exact Nat.succ_lt_succ this
  · have hfull : set.validCount = set.slots.length := by omega
    obtain ⟨v, q, rfl⟩ : ∃ v q, p = v :: q := by
      cases p with
      | nil => have := h.length; simp at this; omega
      | cons v q => exact ⟨v, q, rfl⟩
    rw [findVictimSlot_full h hfull]
    refine ⟨v, rfl, fun hl => absurd hl hroom, fun _ => rfl, ?_⟩
    rw [if_neg hroom]
    obtain ⟨hv, hq⟩ := List.pairwise_cons.1 h.order
    refine ⟨(List.perm_append_singleton v q).trans h.perm, hle, hq, ?_⟩
    intro j hj
    have hb := h.bound v (by simp)
    have ho := hv j hj
    have hj' := h.bound j (List.mem_cons_of_mem _ hj)
    cases isLru
    · exact hj'
    · simp only [CacheSet.older, if_true] at *
      omega

/-- The slots that a fill keeps are those of the order without the victim. -/
theorem Ordered.vacated {isLru : Bool} {set : CacheSet} {p : List Nat} (h : Ordered isLru set p)
    (hpos : 0 < set.slots.length) :
    Vacated isLru (set.findVictimSlot isLru).2 (set.findVictimSlot isLru).1
      (p.erase (set.findVictimSlot isLru).1) := by
  obtain ⟨i, rfl, hfree, hhead, hvac⟩ := victim_spec h hpos
  by_cases hroom : set.validCount < set.slots.length
  · have hnot : (set.findVictimSlot isLru).1 ∉ p := by
      intro hmem
      have hvalid := h.mem_iff.1 hmem
      have hvictim := hfree hroom
      omega
    rw [List.erase_of_not_mem hnot]
    rwa [if_pos hroom] at hvac
  · have hp := hhead hroom
    have htail : p.erase (set.findVictimSlot isLru).1 = p.tail := by
      rw [hp, List.erase_cons_head, List.tail_cons]
    rw [htail]
    rwa [if_neg hroom] at hvac

/-! ## Overwriting the victim, and hits -/

@[simp] theorem length_install (set : CacheSet) (config : CacheConfig) (i : Nat) (tag : UInt32) :
    (set.install config i tag).slots.length = set.slots.length := by
  unfold CacheSet.install CacheSet.markInsertionFifo; split <;> simp

@[simp] theorem validCount_install (set : CacheSet) (config : CacheConfig) (i : Nat) (tag : UInt32) :
    (set.install config i tag).validCount = set.validCount := by
  unfold CacheSet.install CacheSet.markInsertionFifo; split <;> rfl

/-- The installed slot holds the new tag, clean; the others keep tag and dirty flag. -/
theorem entry_install {set : CacheSet} (config : CacheConfig) {i : Nat} (tag : UInt32)
    (hle : set.validCount ≤ set.slots.length) (hi : i < set.slots.length) (j : Nat) :
    ((set.install config i tag).slot j).tag = (if j = i then tag else (set.slot j).tag) ∧
      ((set.install config i tag).slot j).dirty = (if j = i then false else (set.slot j).dirty) := by
  unfold CacheSet.install
  by_cases hj : j = i
  · subst hj
    split <;> simp [hi, CacheSet.markInsertionFifo]
  · have hne : ¬ (i = j ∧ j < set.slots.length) := fun e => hj e.1.symm
    rw [if_neg hj, if_neg hj]
    split
    · rw [slot_modifySlot, if_neg (fun e => hj e.1.symm), slot_updateLru hle]
      constructor <;> split <;> rfl
    · rw [slot_modifySlot, if_neg (fun e => hj e.1.symm)]
      have : (set.markInsertionFifo i).slot j = set.slot j := by
        have := slot_modifySlot set i j fun s => { s with accessOrder := set.fifoCounter.toUInt32 }
        rw [if_neg hne] at this
        exact this
      rw [this]
      exact ⟨rfl, rfl⟩

theorem age_install_lru {set : CacheSet} {config : CacheConfig} {i : Nat} (tag : UInt32)
    (hlru : config.isLru = true) (hle : set.validCount ≤ set.slots.length)
    (hi : i < set.slots.length) (j : Nat) :
    (set.install config i tag).age j =
      if j = i then 0
      else if j < set.validCount ∧ set.age j < config.numBlocks.toNat then set.age j + 1
      else set.age j := by
  unfold CacheSet.install
  rw [if_pos hlru]
  by_cases hj : j = i
  · subst hj; simp [CacheSet.age, hi]
  · have hne : ¬ (i = j ∧ j < set.slots.length) := fun e => hj e.1.symm
    rw [if_neg hj, ← age_updateLru hle]
    simp [CacheSet.age, hne]

theorem age_install_fifo {set : CacheSet} {config : CacheConfig} {i : Nat} (tag : UInt32)
    (hfifo : config.isLru = false) (hi : i < set.slots.length) (j : Nat) :
    (set.install config i tag).age j =
      if j = i then set.fifoCounter.toNat % 2 ^ 32 else set.age j := by
  unfold CacheSet.install
  rw [if_neg (by simp [hfifo])]
  have hmark : ∀ j, (set.markInsertionFifo i).slot j =
      if i = j ∧ j < set.slots.length then
        { set.slot j with accessOrder := set.fifoCounter.toUInt32 } else set.slot j :=
    fun j => slot_modifySlot set i j _
  unfold CacheSet.age
  rw [slot_modifySlot, hmark]
  by_cases hj : j = i
  · subst hj
    have : (set.markInsertionFifo j).slots.length = set.slots.length := length_modifySlot set j _
    simp only [this, hi, and_self, if_true]
    exact UInt64.toNat_toUInt32 _
  · have hne : ∀ n, ¬ (i = j ∧ j < n) := fun n e => hj e.1.symm
    simp [hne, hj]

section
variable {config : CacheConfig} {set : CacheSet} {i : Nat} {q : List Nat}

/-- Under FIFO the new stamp is above all the others, when it fits the 32-bit field. -/
theorem Vacated.install_fifo (h : Vacated false set i q) (hfifo : config.isLru = false)
    (hstamp : set.fifoCounter.toNat < 2 ^ 32) (tag : UInt32) :
    Ordered false (set.install config i tag) (q ++ [i]) := by
  have hi : i < set.slots.length := Nat.lt_of_lt_of_le h.lt h.le
  have hne : ∀ j ∈ q, j ≠ i := fun j hj e => h.not_mem (e ▸ hj)
  have hage := age_install_fifo tag hfifo hi
  rw [Nat.mod_eq_of_lt hstamp] at hage
  have hcount : (set.install config i tag).fifoCounter.toNat = set.fifoCounter.toNat + 1 := by
    have : (set.install config i tag).fifoCounter = set.fifoCounter + 1 := by
      unfold CacheSet.install; rw [if_neg (by simp [hfifo])]; rfl
    rw [this, UInt64.toNat_add, UInt64.toNat_one, Nat.mod_eq_of_lt (by omega)]
  refine .snoc (by simpa using h.perm) (by simpa using h.le) ?_ ?_ ?_ ?_
  · refine h.order.imp_of_mem fun {a b} ha hb hab => ?_
    simp only [CacheSet.older, hage, hne a ha, hne b hb, if_false] at hab ⊢
    exact hab
  · intro j hj
    have := h.bound j hj
    simp only [hage, hcount, hne j hj, Bool.false_eq_true, if_false] at this ⊢
    omega
  · intro j hj
    have := h.bound j hj
    simp only [CacheSet.older, hage, hne j hj, if_true, if_false] at this ⊢
    exact this
  · simp [hage, hcount]

/-- Under LRU every other age grows by one and the new one is 0. -/
theorem Vacated.install_lru (h : Vacated true set i q) (hlru : config.isLru = true)
    (hlen : set.slots.length = config.numBlocks.toNat) (tag : UInt32) :
    Ordered true (set.install config i tag) (q ++ [i]) := by
  have hi : i < set.slots.length := Nat.lt_of_lt_of_le h.lt h.le
  have hle := h.le
  have hage := age_install_lru tag hlru hle hi
  have hbump : ∀ j ∈ q, (set.install config i tag).age j = set.age j + 1 := by
    intro j hj
    have hne : j ≠ i := fun e => h.not_mem (e ▸ hj)
    have := h.bound j hj
    have := h.lt_of_mem hj
    simp only [if_true] at *
    rw [hage, if_neg hne, if_pos (by omega)]
  have hzero : (set.install config i tag).age i = 0 := by rw [hage, if_pos rfl]
  refine .snoc (by simpa using h.perm) (by simpa using hle) ?_ ?_ ?_ ?_
  · refine h.order.imp_of_mem fun {a b} ha hb hab => ?_
    simp only [CacheSet.older, if_true, hbump a ha, hbump b hb] at hab ⊢
    omega
  · intro j hj
    rw [hbump j hj, validCount_install]
    exact h.bound j hj
  · intro j hj
    simp only [CacheSet.older, if_true, hzero, hbump j hj]
    omega
  · rw [hzero, validCount_install]
    exact Nat.lt_of_le_of_lt (Nat.zero_le _) h.lt

/-- **Overwriting** slot `i` makes it the youngest. Under FIFO the stamp it gets must fit the
32-bit field. -/
theorem Vacated.install (h : Vacated config.isLru set i q)
    (hlen : set.slots.length = config.numBlocks.toNat)
    (hstamp : config.isLru = false → set.fifoCounter.toNat < 2 ^ 32) (tag : UInt32) :
    Ordered config.isLru (set.install config i tag) (q ++ [i]) := by
  cases hlru : config.isLru
  · rw [hlru] at h
    exact h.install_fifo hlru (hstamp hlru) tag
  · rw [hlru] at h
    exact h.install_lru hlru hlen tag

end

/-- The order reads nothing but ages and counters. -/
theorem Ordered.congr {isLru : Bool} {set set' : CacheSet} {p : List Nat} (h : Ordered isLru set p)
    (hage : ∀ j, set'.age j = set.age j) (hcount : set'.validCount = set.validCount)
    (hlen : set'.slots.length = set.slots.length) (hfifo : set'.fifoCounter = set.fifoCounter) :
    Ordered isLru set' p := by
  refine ⟨hcount ▸ h.perm, by rw [hcount, hlen]; exact h.le, ?_, ?_⟩
  · refine h.order.imp fun {a b} hab => ?_
    simpa only [CacheSet.older, hage] using hab
  · intro i hi
    simpa only [hage, hcount, hfifo] using h.bound i hi

/-- **LRU hit**: the hit slot becomes the youngest, the others keep their order. -/
theorem Ordered.touch {set : CacheSet} {p : List Nat} (h : Ordered true set p) {i : Nat}
    (hi : i ∈ p) : Ordered true (set.touch i) (p.erase i ++ [i]) := by
  have hiv := h.mem_iff.1 hi
  have hage := age_touch h.le hiv
  have hzero : (set.touch i).age i = 0 := by rw [hage, if_pos rfl]
  have hmem : ∀ {j}, j ∈ p.erase i → j ∈ p ∧ j ≠ i := fun hj =>
    ⟨List.mem_of_mem_erase hj, fun e => h.nodup.not_mem_erase (e ▸ hj)⟩
  have hdist : ∀ {j}, j ∈ p.erase i → set.age j ≠ set.age i := fun hj =>
    h.age_ne (hmem hj).1 hi (hmem hj).2
  refine .snoc ?_ ?_ ?_ ?_ ?_ ?_
  · rw [validCount_touch]
    exact (List.perm_append_singleton _ _).trans ((List.perm_cons_erase hi).symm.trans h.perm)
  · rw [validCount_touch, length_touch]
    exact h.le
  · refine (h.order.sublist (List.erase_sublist)).imp_of_mem fun {a b} ha hb hab => ?_
    have hav := h.mem_iff.1 (hmem ha).1
    have hbv := h.mem_iff.1 (hmem hb).1
    have := hdist ha
    have := hdist hb
    simp only [CacheSet.older, if_true, hage, (hmem ha).2, (hmem hb).2, if_false, hav, hbv,
      true_and] at hab ⊢
    split <;> split <;> omega
  · intro j hj
    have hjv := h.mem_iff.1 (hmem hj).1
    have hbi := h.bound i hi
    have hbj := h.bound j (hmem hj).1
    simp only [if_true, validCount_touch] at hbi hbj ⊢
    rw [hage, if_neg (hmem hj).2]
    split <;> omega
  · intro j hj
    have hjv := h.mem_iff.1 (hmem hj).1
    have := hdist hj
    simp only [CacheSet.older, if_true, hzero, hage, (hmem hj).2, if_false, hjv, true_and]
    split <;> omega
  · simp only [if_true, hzero, validCount_touch]
    omega

end CsfAssignments.CacheSim
