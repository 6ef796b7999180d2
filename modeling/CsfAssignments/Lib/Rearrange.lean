import Mathlib.Data.List.Sort
/-!
# Rearranging a region of an array

Sorting a region in place has two halves: the array is the old one with the elements of `[s, e)`
moved among themselves (`Rearranged`), and the region is in order (`SortedOn`); `Sorts` is both.
`Rearranged` composes like a frame rule: it is transitive, it grows with the region, and it carries
a fact about every element of the region along. `Sorts.join` is the step of a quicksort,
`Sorts.unique` says that the result does not depend on how it was found.
-/

namespace Rearrange

variable {α : Type*} {a b c : List α} {s e : Nat}

/-- The elements of `a` at the indices `[s, e)`. -/
def region (a : List α) (s e : Nat) : List α := (a.drop s).take (e - s)

theorem mem_region {x : α} : x ∈ region a s e ↔ ∃ i, s ≤ i ∧ i < e ∧ a[i]? = some x := by
  unfold region
  rw [List.mem_iff_getElem?]
  constructor
  · rintro ⟨k, hk⟩
    rw [List.getElem?_take] at hk
    split at hk
    · rename_i hlt
      exact ⟨s + k, by omega, by omega, by rw [List.getElem?_drop] at hk; exact hk⟩
    · cases hk
  · rintro ⟨i, h1, h2, h3⟩
    refine ⟨i - s, ?_⟩
    rw [List.getElem?_take, if_pos (by omega), List.getElem?_drop, Nat.add_sub_cancel' h1, h3]

theorem length_region (h : e ≤ a.length) : (region a s e).length = e - s := by
  simp only [region, List.length_take, List.length_drop]; omega

/-- The array is what lies below, in and above a region. -/
theorem split_region (hse : s ≤ e) : a = a.take s ++ region a s e ++ a.drop e := by
  have h1 : (a.drop s).drop (e - s) = a.drop e := by rw [List.drop_drop]; congr 1; omega
  calc a = a.take s ++ a.drop s := (List.take_append_drop s a).symm
    _ = a.take s ++ ((a.drop s).take (e - s) ++ (a.drop s).drop (e - s)) := by
      rw [List.take_append_drop (e - s) (a.drop s)]
    _ = a.take s ++ region a s e ++ a.drop e := by rw [h1, List.append_assoc]; rfl

/-- A region with one element singled out. -/
theorem region_split {m : Nat} {p : α} (hs : s ≤ m) (he : m < e) (hp : a[m]? = some p) :
    region a s e = region a s m ++ p :: region a (m + 1) e := by
  obtain ⟨hlt, hget⟩ := List.getElem?_eq_some_iff.1 hp
  have h1 : a.drop s = (a.drop s).take (m - s) ++ a.drop m := by
    conv_lhs => rw [← List.take_append_drop (m - s) (a.drop s)]
    rw [List.drop_drop, Nat.add_sub_cancel' hs]
  have h2 : a.drop m = p :: a.drop (m + 1) := by rw [← hget]; exact List.drop_eq_getElem_cons hlt
  have hlen : ((a.drop s).take (m - s)).length = m - s := by
    rw [List.length_take, List.length_drop]; omega
  calc region a s e = ((a.drop s).take (m - s) ++ p :: a.drop (m + 1)).take (e - s) := by
        unfold region; rw [← h2, ← h1]
    _ = region a s m ++ p :: region a (m + 1) e := by
        have hem : e - s = (m - s) + ((e - (m + 1)) + 1) := by omega
        rw [List.take_append, hlen, List.take_of_length_le (by omega),
          show e - s - (m - s) = e - (m + 1) + 1 by omega, List.take_succ_cons]
        rfl

theorem region_congr (h : ∀ i, s ≤ i → i < e → b[i]? = a[i]?) : region b s e = region a s e := by
  apply List.ext_getElem?
  intro k
  unfold region
  simp only [List.getElem?_take, List.getElem?_drop]
  split
  · exact h _ (by omega) (by omega)
  · rfl

/-! ## `Rearranged` -/

/-- `b` is `a` with the elements of `[s, e)` moved among themselves. -/
structure Rearranged (a b : List α) (s e : Nat) : Prop where
  perm : b.Perm a
  frame : ∀ i, i < s ∨ e ≤ i → b[i]? = a[i]?

namespace Rearranged

theorem refl (a : List α) (s e : Nat) : Rearranged a a s e := ⟨List.Perm.refl _, fun _ _ => rfl⟩

theorem trans (h : Rearranged a b s e) (h' : Rearranged b c s e) : Rearranged a c s e :=
  ⟨h'.perm.trans h.perm, fun i hi => (h'.frame i hi).trans (h.frame i hi)⟩

theorem mono {s' e' : Nat} (h : Rearranged a b s e) (hs : s' ≤ s) (he : e ≤ e') :
    Rearranged a b s' e' :=
  ⟨h.perm, fun i hi => h.frame i (by omega)⟩

theorem of_subset {s' e' : Nat} (h : Rearranged a b s e)
    (hsub : ∀ i, s ≤ i → i < e → s' ≤ i ∧ i < e') : Rearranged a b s' e' := by
  refine ⟨h.perm, fun i hi => h.frame i ?_⟩
  by_contra hin
  have := hsub i (by omega) (by omega)
  omega

theorem length_eq (h : Rearranged a b s e) : b.length = a.length := h.perm.length_eq

/-- Cancel the common outside. -/
theorem region_perm (h : Rearranged a b s e) (hse : s ≤ e) :
    (region b s e).Perm (region a s e) := by
  have htake : b.take s = a.take s := by
    apply List.ext_getElem?
    intro i
    rw [List.getElem?_take, List.getElem?_take]
    split
    · exact h.frame i (by omega)
    · rfl
  have hdrop : b.drop e = a.drop e := by
    apply List.ext_getElem?
    intro i
    rw [List.getElem?_drop, List.getElem?_drop]
    exact h.frame _ (by omega)
  have hperm := h.perm
  rw [split_region hse (a := b), split_region hse (a := a), htake, hdrop] at hperm
  exact (List.perm_append_left_iff _).1 ((List.perm_append_right_iff _).1 hperm)

/-- What holds of every element of the region still does. -/
theorem forall_region {P : α → Prop} (h : Rearranged a b s e) (hP : ∀ x ∈ region a s e, P x) :
    ∀ x ∈ region b s e, P x := by
  intro x hx
  rcases Nat.lt_or_ge s e with hse | hse
  · exact hP x ((h.region_perm (Nat.le_of_lt hse)).mem_iff.1 hx)
  · obtain ⟨i, h1, h2, -⟩ := mem_region.1 hx
    omega

/-- A region apart from the rearranged one is unchanged. -/
theorem region_eq {s' e' : Nat} (h : Rearranged a b s e) (hd : e' ≤ s ∨ e ≤ s') :
    region b s' e' = region a s' e' :=
  region_congr fun i h1 h2 => h.frame i (by omega)

/-- Exchanging two elements of the region. -/
theorem swap {i j : Nat} {x y : α} (hi : s ≤ i ∧ i < e) (hj : s ≤ j ∧ j < e)
    (hx : a[i]? = some x) (hy : a[j]? = some y) : Rearranged a ((a.set i y).set j x) s e := by
  obtain ⟨hil, rfl⟩ := List.getElem?_eq_some_iff.1 hx
  obtain ⟨hjl, rfl⟩ := List.getElem?_eq_some_iff.1 hy
  refine ⟨List.set_set_perm hil hjl, ?_⟩
  intro k hk
  rw [List.getElem?_set_ne (by omega), List.getElem?_set_ne (by omega)]

/-- Overwriting the region by a permutation of it. -/
theorem splice {r : List α} (hse : s ≤ e) (he : e ≤ a.length) (hr : r.Perm (region a s e)) :
    Rearranged a (a.take s ++ r ++ a.drop e) s e := by
  have hlen : r.length = e - s := by rw [hr.length_eq, length_region he]
  have hs : (a.take s).length = s := by rw [List.length_take]; omega
  refine ⟨?_, ?_⟩
  · conv_rhs => rw [split_region hse (a := a)]
    exact (hr.append_left _).append_right _
  · intro i hi
    rcases hi with hi | hi
    · rw [List.append_assoc, List.getElem?_append_left (by omega), List.getElem?_take_of_lt hi]
    · rw [List.getElem?_append_right (by rw [List.length_append]; omega), List.getElem?_drop,
        List.length_append, hs, hlen]
      congr 1
      omega

end Rearranged

theorem region_splice {r : List α} (hs : s ≤ a.length) (hr : r.length = e - s) :
    region (a.take s ++ r ++ a.drop e) s e = r := by
  have hlen : (a.take s).length = s := by rw [List.length_take]; omega
  unfold region
  rw [List.append_assoc, List.drop_left' hlen, ← hr, List.take_left]

/-! ## `SortedOn` -/

/-- The region `[s, e)` of `a` is in the order `r`. -/
def SortedOn (r : α → α → Prop) (a : List α) (s e : Nat) : Prop := (region a s e).Pairwise r

variable {r : α → α → Prop}

/-- A region of at most one element. -/
theorem SortedOn.short (h : e ≤ s + 1) : SortedOn r a s e := by
  unfold SortedOn region
  have : ((a.drop s).take (e - s)).length ≤ 1 := by rw [List.length_take]; omega
  match hl : (a.drop s).take (e - s) with
  | [] => exact List.Pairwise.nil
  | [x] => exact List.pairwise_singleton r x
  | x :: y :: l => rw [hl] at this; simp at this

/-- **Join**: two sorted regions around an element that separates them. -/
theorem SortedOn.join [IsTrans α r] {m : Nat} {p : α} (hs : s ≤ m) (he : m < e)
    (hp : a[m]? = some p) (hleft : SortedOn r a s m) (hright : SortedOn r a (m + 1) e)
    (hlo : ∀ x ∈ region a s m, r x p) (hhi : ∀ y ∈ region a (m + 1) e, r p y) :
    SortedOn r a s e := by
  unfold SortedOn at *
  rw [region_split hs he hp, List.pairwise_append, List.pairwise_cons]
  refine ⟨hleft, ⟨hhi, hright⟩, ?_⟩
  intro x hx y hy
  rcases List.mem_cons.1 hy with rfl | hy
  · exact hlo x hx
  · exact IsTrans.trans x p y (hlo x hx) (hhi y hy)

/-- `b` is `a` with the region `[s, e)` sorted. -/
structure Sorts (r : α → α → Prop) (a b : List α) (s e : Nat) : Prop where
  rearranged : Rearranged a b s e
  sorted : SortedOn r b s e

/-- Sorting what is already a rearrangement. -/
theorem Sorts.of_rearranged (h : Rearranged a b s e) (h' : Sorts r b c s e) : Sorts r a c s e :=
  ⟨h.trans h'.rearranged, h'.sorted⟩

/-- Sorting one side of a pivot and then the other, in either order, sorts the whole. -/
theorem Sorts.join [IsTrans α r] {m : Nat} {p : α} (hs : s ≤ m) (he : m < e)
    (hp : a[m]? = some p) (hlo : ∀ x ∈ region a s m, r x p) (hhi : ∀ y ∈ region a (m + 1) e, r p y)
    (h : Sorts r a b s m ∧ Sorts r b c (m + 1) e ∨ Sorts r a b (m + 1) e ∧ Sorts r b c s m) :
    Sorts r a c s e := by
  rcases h with ⟨h1, h2⟩ | ⟨h1, h2⟩
  · have hleft : region c s m = region b s m := h2.rearranged.region_eq (.inl (by omega))
    have hright : region b (m + 1) e = region a (m + 1) e := h1.rearranged.region_eq (.inr (by omega))
    refine ⟨(h1.rearranged.mono (Nat.le_refl s) (Nat.le_of_lt he)).trans
      (h2.rearranged.mono (by omega) (Nat.le_refl e)), .join (p := p) hs he ?_ ?_ h2.sorted ?_ ?_⟩
    · rw [h2.rearranged.frame m (by omega), h1.rearranged.frame m (by omega), hp]
    · unfold SortedOn; rw [hleft]; exact h1.sorted
    · rw [hleft]; exact h1.rearranged.forall_region hlo
    · exact h2.rearranged.forall_region (by rw [hright]; exact hhi)
  · have hright : region c (m + 1) e = region b (m + 1) e := h2.rearranged.region_eq (.inr (by omega))
    have hleft : region b s m = region a s m := h1.rearranged.region_eq (.inl (by omega))
    refine ⟨(h1.rearranged.mono (by omega) (Nat.le_refl e)).trans
      (h2.rearranged.mono (Nat.le_refl s) (Nat.le_of_lt he)), .join (p := p) hs he ?_ h2.sorted ?_ ?_ ?_⟩
    · rw [h2.rearranged.frame m (by omega), h1.rearranged.frame m (by omega), hp]
    · unfold SortedOn; rw [hright]; exact h1.sorted
    · exact h2.rearranged.forall_region (by rw [hleft]; exact hlo)
    · rw [hright]; exact h1.rearranged.forall_region hhi

/-- **Uniqueness**: there is one way to sort a region. -/
theorem Sorts.unique [Std.Antisymm r] (hse : s ≤ e) (hb : Sorts r a b s e)
    (hc : Sorts r a c s e) : b = c := by
  have hreg : region b s e = region c s e :=
    List.Perm.eq_of_pairwise' hb.sorted hc.sorted
      ((hb.rearranged.region_perm hse).trans (hc.rearranged.region_perm hse).symm)
  apply List.ext_getElem?
  intro i
  by_cases hi : i < s ∨ e ≤ i
  · rw [hb.rearranged.frame i hi, hc.rearranged.frame i hi]
  · have hk : ∀ l : List α, l[i]? = (region l s e)[i - s]? := by
      intro l
      unfold region
      rw [List.getElem?_take, if_pos (by omega), List.getElem?_drop, Nat.add_sub_cancel' (by omega)]
    rw [hk b, hk c, hreg]

end Rearrange
