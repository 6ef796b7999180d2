import CsfAssignments.Lib.Eviction
import Mathlib.Data.List.Dedup
import Mathlib.Data.List.DropRight
import Mathlib.Data.Finset.Card
/-!
# What a set in recency order holds

When every access brings its key in, a set in recency order holds the last distinct keys that were accessed,
as many as it has room for, in the order of their last accesses (`keys_runs`). So a key is resident if and only
if fewer other keys than that have been accessed since (`mem_runs_iff`): whether an access hits can be read off
the sequence of the keys, and no state is needed.
-/

namespace Eviction

variable {K : Type} [DecidableEq K]

/-- `dedup` keeps the last of equal elements. -/
theorem dedup_concat (l : List K) (k : K) : (l ++ [k]).dedup = l.dedup.erase k ++ [k] := by
  induction l with
  | nil => simp
  | cons x l ih =>
    rw [List.cons_append]
    by_cases hmem : x ∈ l
    · rw [List.dedup_cons_of_mem (List.mem_append_left _ hmem), List.dedup_cons_of_mem hmem, ih]
    · have hx : x ∉ l.dedup := fun h => hmem (List.mem_dedup.1 h)
      rw [List.dedup_cons_of_notMem hmem]
      by_cases hxk : x = k
      · subst hxk
        rw [List.dedup_cons_of_mem (by simp), ih, List.erase_cons_head, List.erase_of_not_mem hx]
      · rw [List.dedup_cons_of_notMem (by simp [hmem, hxk]), ih, List.erase_cons_tail (by simpa using hxk)]
        rfl

/-- Behind its last occurrence, a key has only keys in front of which it stands in `dedup` too. -/
theorem dedup_append_cons {k : K} {after : List K} (h : k ∉ after) (before : List K) :
    ∃ front, (before ++ k :: after).dedup = front ++ k :: after.dedup := by
  rw [List.dedup_append, List.dedup_cons_of_notMem h]
  obtain ⟨front, hfront⟩ := List.suffix_union_right before (k :: after.dedup)
  exact ⟨front, hfront.symm⟩

omit [DecidableEq K] in
theorem rtake_append {front back : List K} {c : Nat} (h : back.length = c ∨ front = [] ∧ back.length ≤ c) :
    (front ++ back).rtake c = back := by
  rw [List.rtake]
  rcases h with h | ⟨rfl, h⟩
  · rw [List.length_append, show front.length + back.length - c = front.length by omega]
    exact List.drop_left
  · rw [List.nil_append, show back.length - c = 0 by omega]
    rfl

omit [DecidableEq K] in
theorem rtake_cases (l : List K) (c : Nat) :
    ∃ front, l = front ++ l.rtake c ∧ ((l.rtake c).length = c ∨ front = [] ∧ (l.rtake c).length ≤ c) := by
  refine ⟨l.take (l.length - c), (List.take_append_drop _ _).symm, ?_⟩
  rw [List.rtake, List.length_drop]
  by_cases hc : c ≤ l.length
  · exact .inl (by omega)
  · rw [show l.length - c = 0 by omega]
    exact .inr ⟨rfl, by omega⟩

omit [DecidableEq K] in
theorem mem_rtake_iff {k : K} {front back : List K} (h : k ∉ back) (c : Nat) :
    k ∈ (front ++ k :: back).rtake c ↔ back.length < c := by
  have hlen : (front ++ k :: back).length = front.length + (back.length + 1) := by simp
  rw [List.rtake, hlen]
  constructor
  · intro hmem
    by_contra hfar
    obtain ⟨n, hdrop⟩ : ∃ n, front.length + (back.length + 1) - c = front.length + (n + 1) :=
      ⟨back.length - c, by omega⟩
    rw [hdrop, List.drop_length_add_append, List.drop_succ_cons] at hmem
    exact h (List.mem_of_mem_drop hmem)
  · intro hnear
    rw [List.drop_append_of_le_length (by omega)]
    simp

/-- One more key, for the last `c` distinct ones. -/
theorem rtake_erase_concat {l : List K} (hn : l.Nodup) {c : Nat} (hc : 0 < c) (k : K) :
    (l.erase k ++ [k]).rtake c =
      if k ∈ l.rtake c then (l.rtake c).erase k ++ [k]
      else (if (l.rtake c).length < c then l.rtake c else (l.rtake c).tail) ++ [k] := by
  obtain ⟨front, hl, hfront⟩ := rtake_cases l c
  generalize l.rtake c = back at hl hfront
  subst hl
  by_cases hk : k ∈ back
  · have hnot : k ∉ front := fun h => (List.disjoint_of_nodup_append hn) h hk
    have hlen : (back.erase k ++ [k]).length = back.length := by
      have := List.length_pos_of_mem hk
      rw [List.length_append, List.length_erase_of_mem hk, List.length_singleton]
      omega
    rw [if_pos hk, List.erase_append_right _ hnot, List.append_assoc]
    exact rtake_append (by rw [hlen]; exact hfront)
  · rw [if_neg hk, List.erase_append]
    rw [List.erase_of_not_mem hk]
    by_cases hroom : back.length < c
    · rcases hfront with hfull | ⟨rfl, -⟩
      · omega
      · rw [if_pos hroom]
        simp only [List.not_mem_nil, if_false, List.nil_append]
        rw [← List.nil_append (back ++ [k])]
        exact rtake_append (.inr ⟨rfl, by simp; omega⟩)
    · have hfull : back.length = c := by omega
      rw [if_neg hroom]
      cases back with
      | nil =>
        simp at hfull
        omega
      | cons x back =>
        have hcut (f : List K) : (f ++ x :: back ++ [k]).rtake c = back ++ [k] := by
          have hassoc : f ++ x :: back ++ [k] = (f ++ [x]) ++ (back ++ [k]) := by simp
          rw [hassoc]
          exact rtake_append (.inl (by simpa using hfull))
        split <;> exact hcut _

/-- The set after a sequence of accesses. -/
def runs (P : Policy) (accesses : List (Bool × K)) : List (Line K) :=
  accesses.foldl (fun l a => step P a.1 a.2 l) []

theorem runs_concat (P : Policy) (accesses : List (Bool × K)) (a : Bool × K) :
    runs P (accesses ++ [a]) = step P a.1 a.2 (runs P accesses) := by
  simp [runs]

variable {P : Policy}

/-- **Recency order**: the last distinct keys. -/
theorem keys_runs (hrec : P.recency = true) (halloc : P.allocateOnStore = true) (hc : 0 < P.capacity)
    (accesses : List (Bool × K)) :
    keys (runs P accesses) = (accesses.map Prod.snd).dedup.rtake P.capacity ∧ (keys (runs P accesses)).Nodup := by
  induction accesses using List.reverseRecOn with
  | nil => exact ⟨by simp [runs, keys], List.nodup_nil⟩
  | append_singleton accesses a ih =>
    obtain ⟨hkeys, hn⟩ := ih
    rw [runs_concat]
    refine ⟨?_, keys_nodup_step hn⟩
    have hallocates : P.allocates a.1 = true := by simp [Policy.allocates, halloc]
    rw [keys_step P a.1 a.2 hn, List.map_append, List.map_singleton, dedup_concat,
      rtake_erase_concat (List.nodup_dedup _) hc, ← hkeys, hrec, hallocates, length_keys]
    rfl

omit [DecidableEq K] in
theorem exists_last {k : K} {l : List K} (h : k ∈ l) : ∃ before after, l = before ++ k :: after ∧ k ∉ after := by
  induction l using List.reverseRecOn with
  | nil => cases h
  | append_singleton l x ih =>
    by_cases hx : x = k
    · exact ⟨l, [], by rw [hx], List.not_mem_nil⟩
    · have hmem : k ∈ l := by simpa [Ne.symm hx] using h
      obtain ⟨before, after, rfl, hnot⟩ := ih hmem
      exact ⟨before, after ++ [x], by simp, by simp [hnot, Ne.symm hx]⟩

omit [DecidableEq K] in
theorem rtakeWhile_of_notMem {before after : List K} {k : K} {p : K → Bool} (hk : p k = false)
    (hp : ∀ x ∈ after, p x = true) : (before ++ k :: after).rtakeWhile p = after := by
  have hrev : (before ++ k :: after).reverse = after.reverse ++ k :: before.reverse := by simp
  rw [List.rtakeWhile, hrev, List.takeWhile_append_of_pos (by simpa using hp), List.takeWhile_cons_of_neg (by simp [hk])]
  simp

/-- **Residence**: fewer distinct keys than there is room for have been accessed since. -/
theorem mem_runs_iff (hrec : P.recency = true) (halloc : P.allocateOnStore = true) (hc : 0 < P.capacity)
    (accesses : List (Bool × K)) (k : K) :
    k ∈ keys (runs P accesses) ↔ k ∈ accesses.map Prod.snd ∧
      ((accesses.map Prod.snd).rtakeWhile (· ≠ k)).toFinset.card < P.capacity := by
  rw [(keys_runs hrec halloc hc accesses).1]
  generalize accesses.map Prod.snd = l
  have hlast (hmem : k ∈ l) : k ∈ l.dedup.rtake P.capacity ↔ (l.rtakeWhile (· ≠ k)).toFinset.card < P.capacity := by
    obtain ⟨before, after, rfl, hnot⟩ := exists_last hmem
    obtain ⟨front, hfront⟩ := dedup_append_cons hnot before
    have hsince : (before ++ k :: after).rtakeWhile (· ≠ k) = after :=
      rtakeWhile_of_notMem (by simp) fun x hx => decide_eq_true fun e => hnot (e ▸ hx)
    rw [hsince, List.card_toFinset, hfront]
    exact mem_rtake_iff (by rwa [List.mem_dedup]) P.capacity
  constructor
  · intro h
    have hmem : k ∈ l := List.mem_dedup.1 (List.mem_of_mem_drop h)
    exact ⟨hmem, (hlast hmem).1 h⟩
  · rintro ⟨hmem, hnear⟩
    exact (hlast hmem).2 hnear

end Eviction
