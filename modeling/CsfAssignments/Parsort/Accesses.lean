import CsfAssignments.Parsort.Partition
/-!
# Where `partition` reads and writes (`csf_assign04/parsort.c:119-163`)

| here | there |
| --- | --- |
| `loopAccesses`      | the indices of the `while` (`:138-157`), in the order it uses them |
| `partitionAccesses` | those of the whole function |

A swap reads and writes both its elements. `right_index` has nothing below it to stop at when no element
is smaller than the pivot; in a region that starts at 0 it then wraps (`leaves_of_least`).
-/

namespace CsfAssignments.Parsort

open Rearrange

/-- The indices that `partitionLoop` accesses; the last one may be past the array. -/
def loopAccesses (pivotVal : Int64) (arr : Mapping) (left right : UInt64) : List UInt64 :=
  if _hle : left ≤ right then
    match _hx : arr.get left with
    | none => [left]
    | some x =>
      if _hxp : x < pivotVal then left :: loopAccesses pivotVal arr (left + 1) right
      else
        match _hy : arr.get right with
        | none => [left, right]
        | some y =>
          if _hyp : y ≥ pivotVal then left :: right :: loopAccesses pivotVal arr left (right - 1)
          else
            match _hs : swap arr left right with
            | none => [left, right, left, right]
            | some arr' => left :: right :: left :: right :: loopAccesses pivotVal arr' left right
  else []
termination_by togo arr pivotVal left right
decreasing_by
  · exact togo_left _hle _hx
  · exact togo_right _hle _hy
  · exact togo_swap _hx _hy _hxp _hyp _hs

/-- The indices that `partition` accesses. -/
def partitionAccesses (arr : Mapping) (start end_ : UInt64) : List UInt64 :=
  if end_ > start then
    let len := end_ - start
    if len ≥ 2 then
      let pivotIndex := start + len / 2
      [pivotIndex, pivotIndex, end_ - 1] ++
        match arr.get pivotIndex, swap arr pivotIndex (end_ - 1) with
        | some pivotVal, some arr =>
          loopAccesses pivotVal arr start (start + (len - 2)) ++
            match partitionLoop pivotVal arr start (start + (len - 2)) with
            | .error _ _ => []
            | .ok left _ => [left, end_ - 1]
        | _, _ => []
    else []
  else []

/-! ## Staying inside -/

theorem get_of_lt {arr : Mapping} {i : UInt64} (h : i.toNat < arr.length) : ∃ x, arr.get i = some x :=
  ⟨_, List.getElem?_eq_getElem h⟩

theorem swap_of_lt {arr : Mapping} {i j : UInt64} (hi : i.toNat < arr.length) (hj : j.toNat < arr.length) :
    ∃ arr', swap arr i j = some arr' := by
  obtain ⟨x, hx⟩ := get_of_lt hi
  obtain ⟨y, hy⟩ := get_of_lt hj
  unfold swap
  rw [hx, hy]
  exact ⟨_, rfl⟩

/-- `right_index` stops above the bottom of the array: the region starts above it, or has an element
below the pivot. -/
structure Inside (pivotVal : Int64) (s p : Nat) (arr : Mapping) (left right : UInt64) : Prop
    extends Scan pivotVal s p arr left right where
  inArray : right.toNat < arr.length
  stopper : 0 < s ∨ ∃ x ∈ region arr.elems s p, x < pivotVal

section
variable {pivotVal x y : Int64} {s p : Nat} {arr arr' : Mapping} {left right : UInt64}

theorem Inside.meet (h : Inside pivotVal s p arr left right) :
    left.toNat ≤ right.toNat + 1 ∧ right.toNat < p ∧
      ∀ x ∈ region arr.elems (right.toNat + 1) p, pivotVal ≤ x := by
  rcases h.highs with h' | ⟨h', -⟩
  · exact h'
  · exact absurd h.inArray (by omega)

theorem Inside.extendRight (h : Inside pivotVal s p arr left right) (hle : left ≤ right)
    (hy : arr.get right = some y) (hyp : pivotVal ≤ y) : Inside pivotVal s p arr left (right - 1) := by
  refine ⟨h.toScan.extendRight hle hy hyp, ?_, h.stopper⟩
  have hle' := UInt64.le_iff_toNat_le.1 hle
  have hs := h.start
  have hin := h.inArray
  obtain ⟨-, hrp, hhighs⟩ := h.meet
  rw [toNat_pred]
  split
  · rename_i h0
    -- nothing is left that could be below the pivot
    exfalso
    rcases h.stopper with hpos | ⟨z, hz, hlt⟩
    · omega
    · obtain ⟨i, hi1, hi2, hi3⟩ := mem_region.1 hz
      rcases Nat.eq_zero_or_pos i with rfl | hi
      · unfold Mapping.get at hy
        rw [h0, hi3] at hy
        cases hy
        exact Int64.not_le.2 hlt hyp
      · exact Int64.not_le.2 hlt (hhighs z (mem_region.2 ⟨i, by omega, hi2, hi3⟩))
  · omega

theorem Inside.extendLeft (h : Inside pivotVal s p arr left right) (hle : left ≤ right)
    (hx : arr.get left = some x) (hxp : x < pivotVal) : Inside pivotVal s p arr (left + 1) right :=
  ⟨h.toScan.extendLeft hle hx hxp, h.inArray, h.stopper⟩

theorem Inside.swap (h : Inside pivotVal s p arr left right) (hle : left ≤ right)
    (hs : swap arr left right = some arr') : Inside pivotVal s p arr' left right := by
  obtain ⟨hscan, hre⟩ := h.toScan.swap hle hs
  have hsp : s ≤ p := by
    have hle' := UInt64.le_iff_toNat_le.1 hle
    have hstart := h.start
    obtain ⟨-, hrp, -⟩ := h.meet
    omega
  refine ⟨hscan, ?_, h.stopper.imp_right ?_⟩
  · unfold Mapping.length
    rw [hre.length_eq]
    exact h.inArray
  · rintro ⟨z, hz, hlt⟩
    exact ⟨z, (hre.region_perm hsp).mem_iff.2 hz, hlt⟩

/-- Both indices are in the region while the loop goes on. -/
theorem Inside.indices (h : Inside pivotVal s p arr left right) (hle : left ≤ right) :
    (s ≤ left.toNat ∧ left.toNat < p) ∧ (s ≤ right.toNat ∧ right.toNat < p) := by
  have hle' := UInt64.le_iff_toNat_le.1 hle
  have hs := h.start
  obtain ⟨-, hrp, -⟩ := h.meet
  omega

/-- **Run**: the loop ends, and stays in `[s, p)`. -/
theorem Inside.loop (h : Inside pivotVal s p arr left right) :
    (∃ m arr', partitionLoop pivotVal arr left right = .ok m arr') ∧
      ∀ i ∈ loopAccesses pivotVal arr left right, s ≤ i.toNat ∧ i.toNat < p := by
  fun_induction loopAccesses pivotVal arr left right with
  | case1 arr left right hle hx =>
    obtain ⟨x, hget⟩ := get_of_lt (Nat.lt_trans (h.indices hle).1.2 h.stash)
    rw [hget] at hx
    cases hx
  | case2 arr left right hle x hx hxp ih =>
    obtain ⟨hok, hall⟩ := ih (h.extendLeft hle hx hxp)
    rw [partitionLoop_left hle hx hxp]
    exact ⟨hok, List.forall_mem_cons.2 ⟨(h.indices hle).1, hall⟩⟩
  | case3 arr left right hle x hx hxp hy =>
    obtain ⟨y, hget⟩ := get_of_lt h.inArray
    rw [hget] at hy
    cases hy
  | case4 arr left right hle x hx hxp y hy hyp ih =>
    obtain ⟨hok, hall⟩ := ih (h.extendRight hle hy hyp)
    obtain ⟨hl, hr⟩ := h.indices hle
    rw [partitionLoop_right hle hx hxp hy hyp]
    exact ⟨hok, List.forall_mem_cons.2 ⟨hl, List.forall_mem_cons.2 ⟨hr, hall⟩⟩⟩
  | case5 arr left right hle x hx hxp y hy hyp hs =>
    obtain ⟨arr', hswap⟩ := swap_of_lt (Nat.lt_trans (h.indices hle).1.2 h.stash) h.inArray
    rw [hswap] at hs
    cases hs
  | case6 arr left right hle x hx hxp y hy hyp arr'' hs ih =>
    obtain ⟨hok, hall⟩ := ih (h.swap hle hs)
    obtain ⟨hl, hr⟩ := h.indices hle
    rw [partitionLoop_swap hle hx hxp hy hyp hs]
    refine ⟨hok, ?_⟩
    simp only [List.forall_mem_cons]
    exact ⟨hl, hr, hl, hr, hall⟩
  | case7 arr left right hle => exact ⟨⟨_, _, partitionLoop_done hle⟩, by simp⟩

end

/-! ## Leaving the region -/

section
variable {pivotVal x y : Int64} {arr : Mapping} {left right : UInt64}

theorem loopAccesses_right (hle : left ≤ right) (hx : arr.get left = some x) (hxp : ¬x < pivotVal)
    (hy : arr.get right = some y) (hyp : y ≥ pivotVal) :
    loopAccesses pivotVal arr left right =
      left :: right :: loopAccesses pivotVal arr left (right - 1) := by
  rw [loopAccesses]
  grind

theorem loopAccesses_outside (hle : left ≤ right) (hx : arr.get left = some x) (hxp : ¬x < pivotVal)
    (hy : arr.get right = none) : loopAccesses pivotVal arr left right = [left, right] := by
  rw [loopAccesses]
  grind

/-- The index below 0. -/
def wrapped : UInt64 := 0 - 1

/-- With no smaller element from 0 to `right_index`, the index goes down to 0 and wraps. -/
theorem leaves_of_least {right : UInt64} (hright : right.toNat < arr.length)
    (hleast : ∀ x ∈ region arr.elems 0 (right.toNat + 1), pivotVal ≤ x) :
    wrapped ∈ loopAccesses pivotVal arr 0 right := by
  have hget : ∀ i : UInt64, i.toNat ≤ right.toNat → ∃ x, arr.get i = some x ∧ pivotVal ≤ x := by
    intro i hi
    obtain ⟨x, hx⟩ := get_of_lt (Nat.lt_of_le_of_lt hi hright)
    exact ⟨x, hx, hleast x (mem_region.2 ⟨i.toNat, Nat.zero_le _, by omega, hx⟩)⟩
  obtain ⟨x, hx, hxp⟩ := hget 0 (Nat.zero_le _)
  obtain ⟨y, hy, hyp⟩ := hget right (Nat.le_refl _)
  have hnot := Int64.not_lt.2 hxp
  have hle (i : UInt64) : 0 ≤ i := UInt64.le_iff_toNat_le.2 (Nat.zero_le _)
  rw [loopAccesses_right (hle right) hx hnot hy hyp]
  have htail : wrapped ∈ loopAccesses pivotVal arr 0 (right - 1) := by
    by_cases h0 : right.toNat = 0
    · have hzero : right = 0 := UInt64.toNat_inj.1 h0
      have hout : arr.get wrapped = none := by
        have hfits := arr.fits
        refine List.getElem?_eq_none ?_
        show arr.elems.length ≤ 2 ^ 64 - 1
        omega
      rw [hzero]
      show wrapped ∈ loopAccesses pivotVal arr 0 wrapped
      rw [loopAccesses_outside (hle wrapped) hx hnot hout]
      simp
    · have hpred : (right - 1).toNat = right.toNat - 1 := by rw [toNat_pred, if_neg h0]
      refine leaves_of_least (by omega) fun z hz => ?_
      obtain ⟨i, h1, h2, h3⟩ := mem_region.1 hz
      exact hleast z (mem_region.2 ⟨i, h1, by omega, h3⟩)
  exact List.mem_cons_of_mem _ (List.mem_cons_of_mem _ htail)
termination_by right.toNat
decreasing_by omega

end

/-! ## The whole function -/

/-- `partition` returns, and touches only its region. -/
def StaysInside (arr : Mapping) (start end_ : UInt64) : Prop :=
  (∃ mid arr', partition arr start end_ = .ok mid arr') ∧
    ∀ i ∈ partitionAccesses arr start end_, start ≤ i ∧ i < end_

/-- Some element of the region is smaller than the one in its middle. -/
def HasSmaller (arr : Mapping) (start end_ : UInt64) : Prop :=
  ∃ pivotVal, arr.elems[start.toNat + (end_.toNat - start.toNat) / 2]? = some pivotVal ∧
    ∃ x ∈ region arr.elems start.toNat end_.toNat, x < pivotVal

section
variable {arr : Mapping} {start end_ : UInt64}

/-- Up to the loop: the pivot is at the end of the region. -/
theorem stash_spec (hend : end_.toNat ≤ arr.length) (h2 : start.toNat + 2 ≤ end_.toNat) :
    ∃ pivotVal arr₁, arr.get (start + (end_ - start) / 2) = some pivotVal ∧
      swap arr (start + (end_ - start) / 2) (end_ - 1) = some arr₁ ∧
      Rearranged arr.elems arr₁.elems start.toNat end_.toNat ∧
      arr₁.elems[end_.toNat - 1]? = some pivotVal := by
  have hlt : start < end_ := UInt64.lt_iff_toNat_lt.2 (by omega)
  have hpivot := toNat_pivotIndex hlt
  have hlast := toNat_last hlt
  obtain ⟨pivotVal, hget⟩ := get_of_lt (show (start + (end_ - start) / 2).toNat < arr.length by omega)
  obtain ⟨arr₁, hswap⟩ := swap_of_lt (show (start + (end_ - start) / 2).toNat < arr.length by omega)
    (show (end_ - 1).toNat < arr.length by omega)
  obtain ⟨x, y, hx, hy, helems⟩ := swap_spec hswap
  rw [hget] at hx
  cases hx
  unfold Mapping.get at hget hy
  rw [hpivot, hlast] at helems
  rw [hpivot] at hget
  rw [hlast] at hy
  refine ⟨pivotVal, arr₁, by unfold Mapping.get; rw [hpivot]; exact hget, hswap, ?_, ?_⟩
  · rw [helems]
    exact Rearranged.swap ⟨by omega, by omega⟩ ⟨by omega, by omega⟩ hget hy
  · rw [helems, List.getElem?_set_self]
    rw [List.length_set]
    exact (List.getElem?_eq_some_iff.1 hy).1

theorem partitionAccesses_eq {arr₁ : Mapping} {pivotVal : Int64} (hlt : end_ > start)
    (hlen : end_ - start ≥ 2) (hget : arr.get (start + (end_ - start) / 2) = some pivotVal)
    (hstash : swap arr (start + (end_ - start) / 2) (end_ - 1) = some arr₁) :
    partitionAccesses arr start end_ =
      [start + (end_ - start) / 2, start + (end_ - start) / 2, end_ - 1] ++
        (loopAccesses pivotVal arr₁ start (start + (end_ - start - 2)) ++
          match partitionLoop pivotVal arr₁ start (start + (end_ - start - 2)) with
          | .error _ _ => []
          | .ok left _ => [left, end_ - 1]) := by
  unfold partitionAccesses
  rw [if_pos hlt]
  dsimp only
  rw [if_pos hlen, hget, hstash]

theorem mem_partitionAccesses {arr₁ : Mapping} {pivotVal : Int64} {i : UInt64}
    (hlt : end_ > start) (hlen : end_ - start ≥ 2)
    (hget : arr.get (start + (end_ - start) / 2) = some pivotVal)
    (hstash : swap arr (start + (end_ - start) / 2) (end_ - 1) = some arr₁)
    (hi : i ∈ loopAccesses pivotVal arr₁ start (start + (end_ - start - 2))) :
    i ∈ partitionAccesses arr start end_ := by
  rw [partitionAccesses_eq hlt hlen hget hstash]
  exact List.mem_append_right _ (List.mem_append_left _ hi)

/-- In front of the loop. -/
theorem inside_start {arr₁ : Mapping} {pivotVal : Int64} (hend : end_.toNat ≤ arr.length)
    (hlt : start < end_) (hlen : end_ - start ≥ 2)
    (hre : Rearranged arr.elems arr₁.elems start.toNat end_.toNat)
    (hp : arr₁.elems[end_.toNat - 1]? = some pivotVal)
    (hstop : 0 < start ∨ ∃ x ∈ region arr.elems start.toNat end_.toNat, x < pivotVal) :
    Inside pivotVal start.toNat (end_.toNat - 1) arr₁ start (start + (end_ - start - 2)) := by
  have hright := toNat_rightIndex hlt hlen
  have hlt' := UInt64.lt_iff_toNat_lt.1 hlt
  have hlen' := UInt64.le_iff_toNat_le.1 hlen
  rw [toNat_len (UInt64.le_of_lt hlt), show (2 : UInt64).toNat = 2 from rfl] at hlen'
  have hlength : arr₁.length = arr.length := hre.length_eq
  refine ⟨⟨Nat.le_refl _, by omega, ?_, .inl ⟨by omega, by omega, ?_⟩⟩, by omega, ?_⟩
  · intro z hz
    obtain ⟨i, h1, h2, -⟩ := mem_region.1 hz
    omega
  · rw [hright]
    intro z hz
    obtain ⟨i, h1, h2, -⟩ := mem_region.1 hz
    omega
  · refine hstop.imp UInt64.lt_iff_toNat_lt.1 ?_
    rintro ⟨z, hz, hzp⟩
    obtain ⟨i, h1, h2, h3⟩ := mem_region.1 ((hre.region_perm (Nat.le_of_lt hlt')).mem_iff.2 hz)
    refine ⟨z, mem_region.2 ⟨i, h1, ?_, h3⟩, hzp⟩
    -- the stashed pivot is not smaller than itself
    rcases Nat.lt_or_ge i (end_.toNat - 1) with hi | hi
    · exact hi
    · have hi' : i = end_.toNat - 1 := by omega
      rw [hi', hp] at h3
      cases h3
      exact absurd hzp (Int64.not_lt.2 (Int64.le_refl _))

theorem two_le_len (h2 : start.toNat + 2 ≤ end_.toNat) : start < end_ ∧ end_ - start ≥ 2 := by
  have hlt : start < end_ := UInt64.lt_iff_toNat_lt.2 (by omega)
  refine ⟨hlt, ?_⟩
  rw [ge_iff_le, UInt64.le_iff_toNat_le, toNat_len (UInt64.le_of_lt hlt)]
  show 2 ≤ _
  omega

theorem pivot_of_get {pivotVal : Int64} (hlt : start < end_)
    (hget : arr.get (start + (end_ - start) / 2) = some pivotVal) :
    arr.elems[start.toNat + (end_.toNat - start.toNat) / 2]? = some pivotVal := by
  rw [← toNat_pivotIndex hlt]
  exact hget

/-- With no smaller element in a region that starts at 0, `right_index` leaves it. -/
theorem not_inside_of_least (hend : end_.toNat ≤ arr.length) (h2 : 2 ≤ end_.toNat)
    (hnone : ¬HasSmaller arr 0 end_) : ¬StaysInside arr 0 end_ := by
  rintro ⟨-, hall⟩
  have hzero : (0 : UInt64).toNat + 2 ≤ end_.toNat := by
    show 0 + 2 ≤ _
    omega
  obtain ⟨pivotVal, arr₁, hget, hswap, hre, hp⟩ := stash_spec hend hzero
  obtain ⟨hlt, hlen⟩ := two_le_len hzero
  have hright := toNat_rightIndex hlt hlen
  have hleast : ∀ x ∈ region arr₁.elems 0 end_.toNat, pivotVal ≤ x := by
    refine hre.forall_region ?_
    intro x hx
    refine Int64.not_lt.1 fun hxp => ?_
    exact hnone ⟨pivotVal, pivot_of_get hlt hget, x, hx, hxp⟩
  have hwrap : wrapped ∈ loopAccesses pivotVal arr₁ 0 (0 + (end_ - 0 - 2)) := by
    refine leaves_of_least ?_ ?_
    · rw [hright]
      show _ < arr₁.elems.length
      rw [hre.length_eq]
      show _ < arr.length
      omega
    · intro x hx
      rw [hright] at hx
      obtain ⟨i, h1, h2, h3⟩ := mem_region.1 hx
      exact hleast x (mem_region.2 ⟨i, h1, by omega, h3⟩)
  have hin := (hall wrapped (mem_partitionAccesses hlt hlen hget hswap hwrap)).2
  have hin' : 2 ^ 64 - 1 < end_.toNat := UInt64.lt_iff_toNat_lt.1 hin
  have := end_.toNat_lt
  omega

/-- Where something stops `right_index`, the loop ends with everything inside. -/
theorem inside_of_stop (hend : end_.toNat ≤ arr.length) (h2 : start.toNat + 2 ≤ end_.toNat)
    (hstop : 0 < start ∨ HasSmaller arr start end_) : StaysInside arr start end_ := by
  obtain ⟨pivotVal, arr₁, hget, hswap, hre, hp⟩ := stash_spec hend h2
  obtain ⟨hlt, hlen⟩ := two_le_len h2
  have hpivot := toNat_pivotIndex hlt
  have hlast := toNat_last hlt
  have hinside : Inside pivotVal start.toNat (end_.toNat - 1) arr₁ start (start + (end_ - start - 2)) := by
    refine inside_start hend hlt hlen hre hp (hstop.imp_right ?_)
    rintro ⟨pivotVal', hmiddle, hsmaller⟩
    rw [pivot_of_get hlt hget] at hmiddle
    cases hmiddle
    exact hsmaller
  obtain ⟨⟨m, arr₂, hloop⟩, hall⟩ := hinside.loop
  obtain ⟨hm, hmp, hre', -⟩ := partitionLoop_ok hinside.toScan hloop
  have hlength : arr₂.length = arr.length := hre'.length_eq.trans hre.length_eq
  obtain ⟨arr₃, hplace⟩ := swap_of_lt (show m.toNat < arr₂.length by omega)
    (show (end_ - 1).toNat < arr₂.length by omega)
  refine ⟨⟨m, arr₃, partition_eq pivotVal arr₂ hlt hlen hget hswap hloop hplace⟩, ?_⟩
  rw [partitionAccesses_eq hlt hlen hget hswap, hloop]
  simp only [UInt64.le_iff_toNat_le, UInt64.lt_iff_toNat_lt, List.forall_mem_append,
    List.forall_mem_cons, hpivot, hlast]
  refine ⟨⟨by omega, by omega, by omega, by simp⟩, ?_, by omega, by omega, by simp⟩
  intro i hi
  have := hall i hi
  omega

/-- **`partition` stays inside its region** exactly when the region starts above index 0 or has an element
smaller than the one in its middle. -/
theorem partition_inside_iff (hend : end_.toNat ≤ arr.length) (h2 : start.toNat + 2 ≤ end_.toNat) :
    StaysInside arr start end_ ↔ 0 < start ∨ HasSmaller arr start end_ := by
  constructor
  · intro hinside
    by_contra hnot
    rw [not_or] at hnot
    obtain ⟨hzero, hnone⟩ := hnot
    have hstart : start = 0 := UInt64.le_zero_iff.1 (UInt64.not_lt.1 hzero)
    subst hstart
    exact not_inside_of_least hend (Nat.le_of_add_left_le h2) hnone hinside
  · exact inside_of_stop hend h2

end

/-- The pivot is 4. -/
theorem partition_inside_2341 : StaysInside ⟨[2, 3, 4, 1], by decide⟩ 0 4 :=
  (partition_inside_iff (by decide) (by decide)).2
    (.inr ⟨4, rfl, 2, mem_region.2 ⟨0, by decide, by decide, rfl⟩, by decide⟩)

/-- The pivot is 1, the least element. -/
theorem partition_leaves_213 : ¬StaysInside ⟨[2, 1, 3], by decide⟩ 0 3 := by
  rintro ⟨-, hall⟩
  have hleast : ∀ x ∈ [2, 3], (1 : Int64) ≤ x := by simp
  have hwrap : wrapped ∈ loopAccesses 1 ⟨[2, 3, 1], by decide⟩ 0 1 :=
    leaves_of_least (by decide) hleast
  have hin := (hall wrapped (mem_partitionAccesses (by decide) (by decide) rfl rfl hwrap)).2
  exact absurd hin (by decide)

end CsfAssignments.Parsort
