import Mathlib.Data.List.Nodup
/-!
# Bounded sets with recency or insertion order

The textbook replacement set over an arbitrary type of keys: a list of `(key, dirty)` lines, the
oldest line first. `touch` moves a line to the most recent end, `fill` appends a line and drops the
oldest one when the list is full. `step` is one read (`store = false`) or write of a key under a
`Policy`; `event` is what an observer of that access sees.

Main results: `keys_nodup_step` and `length_step_le` (what every access keeps), and
`Included.step`: under recency order the keys of a smaller set stay a sublist of the keys of a
larger one (no anomaly), with or without allocation on writes.
-/

namespace Eviction

variable {K : Type} [DecidableEq K]

/-- A resident line: its key and whether it was written since it was filled. -/
abbrev Line (K : Type) := K × Bool

structure Policy where
  capacity : Nat
  /-- Hits move the line to the most recent end (recency order); otherwise insertion order. -/
  recency : Bool
  allocateOnStore : Bool
  /-- A store leaves its line dirty. -/
  writeBack : Bool
deriving DecidableEq, Repr

/-- What one access shows: hit or miss, and the line it pushed out. -/
structure Event (K : Type) where
  hit : Bool
  evicted : Option (Line K)
deriving DecidableEq, Repr

def keys (l : List (Line K)) : List K := l.map Prod.fst

/-- Move the line of `k` to the most recent end. -/
def touch (k : K) (l : List (Line K)) : List (Line K) :=
  l.filter (fun e => !(e.1 == k)) ++ l.filter (fun e => e.1 == k)

def mark (k : K) (l : List (Line K)) : List (Line K) :=
  l.map fun e => if e.1 = k then (e.1, true) else e

/-- Append a line, dropping the oldest one of a full list. -/
def fill (capacity : Nat) (l : List (Line K)) (e : Line K) : List (Line K) :=
  (if l.length < capacity then l else l.tail) ++ [e]

/-- The line that `fill` drops. -/
def evictee (capacity : Nat) (l : List (Line K)) : Option (Line K) :=
  if l.length < capacity then none else l.head?

def Policy.allocates (P : Policy) (store : Bool) : Bool := !store || P.allocateOnStore

def step (P : Policy) (store : Bool) (k : K) (l : List (Line K)) : List (Line K) :=
  if k ∈ keys l then
    let l := if store && P.writeBack then mark k l else l
    if P.recency then touch k l else l
  else if P.allocates store then fill P.capacity l (k, store && P.writeBack)
  else l

def event (P : Policy) (store : Bool) (k : K) (l : List (Line K)) : Event K :=
  if k ∈ keys l then ⟨true, none⟩
  else ⟨false, if P.allocates store then evictee P.capacity l else none⟩

/-! ## What an event tells -/

/-- A hit pushes nothing out. -/
theorem evicted_of_hit {P : Policy} {store : Bool} {k : K} {l : List (Line K)} (h : (event P store k l).hit = true) :
    (event P store k l).evicted = none := by
  unfold event at h ⊢
  by_cases hk : k ∈ keys l
  · rw [if_pos hk]
  · rw [if_neg hk] at h
    cases h

theorem mem_of_evicted {P : Policy} {store : Bool} {k : K} {l : List (Line K)} {e : Line K}
    (h : (event P store k l).evicted = some e) : e ∈ l := by
  unfold event at h
  by_cases hk : k ∈ keys l
  · rw [if_pos hk] at h
    cases h
  · rw [if_neg hk] at h
    by_cases hstored : P.allocates store = true
    · simp only [if_pos hstored, evictee] at h
      split at h
      · cases h
      · exact List.mem_of_mem_head? h
    · simp only [if_neg hstored] at h
      cases h

/-! ## The keys of a step -/

omit [DecidableEq K] in
@[simp] theorem keys_append (l m : List (Line K)) : keys (l ++ m) = keys l ++ keys m := by
  simp [keys]

omit [DecidableEq K] in
@[simp] theorem length_keys (l : List (Line K)) : (keys l).length = l.length := by
  simp [keys]

omit [DecidableEq K] in
theorem keys_filter (l : List (Line K)) (p : K → Bool) :
    keys (l.filter fun e => p e.1) = (keys l).filter p := by
  simp [keys, List.filter_map, Function.comp_def]

theorem keys_touch (k : K) (l : List (Line K)) :
    keys (touch k l) = (keys l).filter (fun x => !(x == k)) ++ (keys l).filter (fun x => x == k) := by
  rw [touch, keys_append, keys_filter l fun x => !(x == k), keys_filter l fun x => x == k]

@[simp] theorem keys_mark (k : K) (l : List (Line K)) : keys (mark k l) = keys l := by
  simp only [keys, mark, List.map_map]
  refine List.map_congr_left fun e _ => ?_
  by_cases h : e.1 = k <;> simp [h]

omit [DecidableEq K] in
theorem keys_fill (c : Nat) (l : List (Line K)) (e : Line K) :
    keys (fill c l e) = (if l.length < c then keys l else (keys l).tail) ++ [e.1] := by
  unfold fill; split <;> simp [keys]

/-- With distinct keys, `touch` keeps the order of the others and puts `k` last. -/
theorem keys_touch_of_mem {k : K} {l : List (Line K)} (hn : (keys l).Nodup) (hk : k ∈ keys l) :
    keys (touch k l) = (keys l).erase k ++ [k] := by
  rw [keys_touch, hn.erase_eq_filter, List.filter_beq, List.count_eq_one_of_mem hn hk]
  rfl

theorem length_erase_snoc {k : K} {l : List (Line K)} (hk : k ∈ keys l) :
    ((keys l).erase k ++ [k]).length = l.length := by
  have := List.length_erase_of_mem hk
  have := List.length_pos_of_mem hk
  simp only [List.length_append, List.length_singleton, length_keys] at *
  omega

theorem nodup_erase_snoc {k : K} {l : List (Line K)} (hn : (keys l).Nodup) :
    ((keys l).erase k ++ [k]).Nodup := by
  refine List.nodup_append.2 ⟨hn.erase k, by simp, ?_⟩
  intro a ha b hb e
  rw [List.mem_singleton] at hb
  subst hb; subst e
  exact hn.not_mem_erase ha

omit [DecidableEq K] in
/-- Appending a new key to a set, full or not. -/
theorem nodup_fill {c : Nat} {k : K} {l : List (Line K)} (hn : (keys l).Nodup) (hk : k ∉ keys l)
    (d : Bool) : (keys (fill c l (k, d))).Nodup := by
  rw [keys_fill]
  refine List.nodup_append.2 ⟨?_, by simp, ?_⟩
  · split
    · exact hn
    · exact hn.sublist (List.tail_sublist _)
  · intro a ha b hb e
    rw [List.mem_singleton] at hb
    subst hb; subst e
    refine hk ?_
    split at ha
    · exact ha
    · exact List.mem_of_mem_tail ha

/-- The keys after a step depend on the keys alone. -/
theorem keys_step (P : Policy) (store : Bool) (k : K) {l : List (Line K)} (hn : (keys l).Nodup) :
    keys (step P store k l) =
      if k ∈ keys l then (if P.recency then (keys l).erase k ++ [k] else keys l)
      else if P.allocates store then
        (if l.length < P.capacity then keys l else (keys l).tail) ++ [k]
      else keys l := by
  unfold step
  split
  · rename_i hk
    have hmark : keys (if (store && P.writeBack) = true then mark k l else l) = keys l := by
      split <;> simp
    simp only
    split
    · rw [keys_touch_of_mem (by rwa [hmark]) (by rwa [hmark]), hmark]
    · exact hmark
  · split
    · rw [keys_fill]
    · rfl

theorem keys_nodup_step {P : Policy} {store : Bool} {k : K} {l : List (Line K)}
    (hn : (keys l).Nodup) : (keys (step P store k l)).Nodup := by
  by_cases hk : k ∈ keys l
  · rw [keys_step _ _ _ hn, if_pos hk]
    split
    · exact nodup_erase_snoc hn
    · exact hn
  · unfold step
    rw [if_neg hk]
    split
    · exact nodup_fill hn hk _
    · exact hn

theorem length_step_le {P : Policy} {store : Bool} {k : K} {l : List (Line K)}
    (hc : 0 < P.capacity) (hn : (keys l).Nodup) (hl : l.length ≤ P.capacity) :
    (step P store k l).length ≤ P.capacity := by
  rw [← length_keys, keys_step _ _ _ hn]
  split
  · rename_i hk
    split
    · rwa [length_erase_snoc hk]
    · simpa using hl
  · split
    · split <;> simp <;> omega
    · simpa using hl

/-- A full set stays full. -/
theorem length_step_full {P : Policy} {store : Bool} {k : K} {l : List (Line K)}
    (hc : 0 < P.capacity) (hn : (keys l).Nodup) (hl : P.capacity ≤ l.length) :
    (step P store k l).length = l.length := by
  rw [← length_keys, keys_step _ _ _ hn]
  split
  · rename_i hk
    split
    · exact length_erase_snoc hk
    · exact length_keys l
  · split
    · rw [if_neg (show ¬l.length < P.capacity by omega), List.length_append, List.length_tail,
        length_keys, List.length_singleton]
      omega
    · exact length_keys l

/-! ## One line

A set of one line has no order to keep, so recency and insertion order are the same policy. -/

theorem touch_of_length_le {k : K} {l : List (Line K)} (hl : l.length ≤ 1) : touch k l = l := by
  match l, hl with
  | [], _ => rfl
  | [e], _ => by_cases he : e.1 = k <;> simp [touch, he]

omit [DecidableEq K] in
theorem fill_of_length_le {l : List (Line K)} (hl : l.length ≤ 1) (e : Line K) : fill 1 l e = [e] := by
  match l, hl with
  | [], _ => rfl
  | [_], _ => rfl

theorem step_of_length_le {P Q : Policy} (hcap : P.capacity = Q.capacity)
    (halloc : P.allocateOnStore = Q.allocateOnStore) (hback : P.writeBack = Q.writeBack) (store : Bool)
    (k : K) {l : List (Line K)} (hl : l.length ≤ 1) : step P store k l = step Q store k l := by
  have hmark : (if store && P.writeBack then mark k l else l).length ≤ 1 := by
    split
    · simpa [mark] using hl
    · exact hl
  have hallocates : P.allocates store = Q.allocates store := by simp [Policy.allocates, halloc]
  simp only [step, ← hallocates, ← hcap, ← hback, touch_of_length_le hmark, ite_self]

/-! ## Lines held in slots

The lines of a concrete set are the image of an order of its slots; `f` reads a slot. -/

section slots
variable {S : Type} [DecidableEq S] {f : S → Line K} {p : List S}

omit [DecidableEq K] [DecidableEq S] in
theorem keys_map (f : S → Line K) (p : List S) : keys (p.map f) = p.map fun s => (f s).1 := by
  simp [keys]

omit [DecidableEq K] [DecidableEq S] in
/-- Among slots with distinct keys, the key determines the slot. -/
theorem key_inj (hn : (keys (p.map f)).Nodup) {s t : S} (hs : s ∈ p) (ht : t ∈ p)
    (h : (f s).1 = (f t).1) : s = t := by
  rw [keys_map] at hn
  exact List.inj_on_of_nodup_map hn hs ht h

theorem touch_map (hn : (keys (p.map f)).Nodup) {s : S} (hs : s ∈ p) :
    touch (f s).1 (p.map f) = (p.erase s ++ [s]).map f := by
  have hp : p.Nodup := (keys_map f p ▸ hn).of_map _
  have hkey : ∀ t ∈ p, ((f t).1 == (f s).1) = (t == s) := by
    intro t ht
    by_cases hts : t = s
    · simp [hts]
    · have : (f t).1 ≠ (f s).1 := fun e => hts (key_inj hn ht hs e)
      simp [hts, this]
  unfold touch
  rw [List.filter_map, List.filter_map, List.map_append, hp.erase_eq_filter]
  congr 2
  · exact List.filter_congr fun t ht => by simp [hkey t ht, bne]
  · rw [List.filter_congr (q := fun t => t == s) fun t ht => by simp [hkey t ht],
      List.filter_beq, List.count_eq_one_of_mem hp hs]
    rfl

omit [DecidableEq S] in
theorem mark_map (hn : (keys (p.map f)).Nodup) {s : S} (hs : s ∈ p) {g : S → Line K}
    (hg : g s = ((f s).1, true)) (hne : ∀ t, t ≠ s → g t = f t) :
    mark (f s).1 (p.map f) = p.map g := by
  unfold mark
  rw [List.map_map]
  refine List.map_congr_left fun t ht => ?_
  by_cases hts : t = s
  · subst hts; simp [hg]
  · have : (f t).1 ≠ (f s).1 := fun e => hts (key_inj hn ht hs e)
    simp [this, hne t hts]

end slots

/-! ## A smaller recency set is included in a larger one -/

/-- The keys of `l` (of capacity `c`) are a sublist of those of `m`, and all of them while `l`
still has room. -/
structure Included (c : Nat) (l m : List (Line K)) : Prop where
  sub : (keys l).Sublist (keys m)
  room : l.length < c → keys l = keys m

omit [DecidableEq K] in
theorem Included.nil (c : Nat) : Included c ([] : List (Line K)) [] :=
  ⟨List.Sublist.refl _, fun _ => rfl⟩

omit [DecidableEq K] in
theorem Included.mem {c : Nat} {l m : List (Line K)} (h : Included c l m) {k : K}
    (hk : k ∈ keys l) : k ∈ keys m := h.sub.subset hk

omit [DecidableEq K] in
/-- Filling two full sets: the oldest key of the larger list is not one of the smaller list, or is
the oldest there too. -/
theorem tail_sublist_tail {l m : List K} (h : l.Sublist m) (hl : l ≠ []) :
    l.tail.Sublist m.tail := by
  cases h with
  | slnil => exact absurd rfl hl
  | cons a h => exact (List.tail_sublist l).trans h
  | cons_cons a h => exact h

/-- **No anomaly**: one access under the same recency policy keeps a smaller set included in a
larger one. A write miss that allocates in neither set, or a write that only the larger set hits,
reorders keys of the larger set that the smaller one does not hold. -/
theorem Included.step {P Q : Policy} (hP : P.recency = true) (hQ : Q.recency = true)
    (halloc : P.allocateOnStore = Q.allocateOnStore) (hcap : P.capacity ≤ Q.capacity)
    (hpos : 0 < P.capacity) {store : Bool} {k : K} {l m : List (Line K)} (hnl : (keys l).Nodup)
    (hnm : (keys m).Nodup) (hlen : l.length ≤ P.capacity) (h : Included P.capacity l m) :
    Included P.capacity (Eviction.step P store k l) (Eviction.step Q store k m) := by
  have hal : P.allocates store = Q.allocates store := by simp [Policy.allocates, halloc]
  have hkl := keys_step P store k hnl
  have hkm := keys_step Q store k hnm
  have hsame : keys l = keys m →
      l.length < P.capacity → keys (Eviction.step P store k l) = keys (Eviction.step Q store k m) := by
    intro he hlt
    have hle : l.length = m.length := by rw [← length_keys l, he, length_keys]
    rw [hkl, hkm, he, hP, hQ, hal]
    simp only [show l.length < P.capacity from hlt, show m.length < Q.capacity by omega, if_true]
  refine ⟨?_, ?_⟩
  · by_cases hroom : l.length < P.capacity
    · rw [hsame (h.room hroom) hroom]
    rw [hkl, hkm]
    simp only [hP, hQ, if_true, if_neg hroom, ← hal]
    by_cases hml : k ∈ keys l
    · simp only [hml, h.mem hml, if_true]
      exact (h.sub.erase k).append (List.Sublist.refl _)
    · simp only [hml, if_false]
      by_cases hmm : k ∈ keys m
      · -- only the larger set holds `k`
        simp only [hmm, if_true]
        have hsub : (keys l).Sublist ((keys m).erase k) := by
          have := h.sub.erase k
          rwa [List.erase_of_not_mem hml] at this
        split
        · exact ((List.tail_sublist _).trans hsub).append (List.Sublist.refl _)
        · exact hsub.trans (List.sublist_append_left _ _)
      · simp only [hmm, if_false]
        split
        · refine List.Sublist.append ?_ (List.Sublist.refl _)
          split
          · exact (List.tail_sublist _).trans h.sub
          · refine tail_sublist_tail h.sub fun h0 => ?_
            have := congrArg List.length h0
            simp only [length_keys, List.length_nil] at this
            omega
        · exact h.sub
  · intro hlt
    -- the smaller set has room after the step only if it had room before
    by_cases hroom : l.length < P.capacity
    · exact hsame (h.room hroom) hroom
    rw [length_step_full hpos hnl (Nat.le_of_not_lt hroom)] at hlt
    exact absurd hlt hroom

end Eviction
