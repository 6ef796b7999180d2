import CsfAssignments.Lib.Rearrange
import Mathlib.Algebra.Group.Nat.Defs
import Mathlib.Data.Nat.Basic
/-!
# `partition` (`csf_assign04/parsort.c:84-163`)

| here | there |
| --- | --- |
| `Mapping`       | the mapped file: `num_elements` elements that fit the address space |
| `Result`        | what a piece of code leaves: a value, or an abnormal end; the array in both cases |
| `compare`, `swap` | `parsort.c:84`, `:100` |
| `partitionLoop` | the `while` of `:138-157` |
| `partition`     | `:119` |

Indices are `unsigned long`, so `UInt64`: `--right_index` at 0 gives `2^64 - 1`. An access past the
array ends the process abnormally (`Abort.outOfRange`), as a failed assert does.
-/

namespace CsfAssignments.Parsort

open Rearrange

/-- An array of `int64_t` in memory. -/
structure Mapping where
  elems : List Int64
  fits : 8 * elems.length < 2 ^ 64

namespace Mapping

theorem ext {a b : Mapping} (h : a.elems = b.elems) : a = b := by
  cases a; cases b; cases h; rfl

def length (arr : Mapping) : Nat := arr.elems.length

/-- `arr[i]`. -/
def get (arr : Mapping) (i : UInt64) : Option Int64 := arr.elems[i.toNat]?

/-- The same array with other elements. -/
def update (arr : Mapping) (l : List Int64) (h : l.length = arr.elems.length) : Mapping :=
  ⟨l, by rw [h]; exact arr.fits⟩

end Mapping

inductive Abort where
  | assertFailed
  | outOfRange
  | killed
deriving DecidableEq, Repr

/-- A value or an abnormal end, and the array at that point. -/
inductive Result (α : Type) where
  | ok (value : α) (arr : Mapping)
  | error (why : Abort) (arr : Mapping)

/-- `parsort.c:84`, on the elements the pointers refer to. -/
def compare (left right : Int64) : Int32 :=
  if left < right then -1 else if left > right then 1 else 0

/-- `parsort.c:100`: `none` when an index is past the array. -/
def swap (arr : Mapping) (i j : UInt64) : Option Mapping :=
  match arr.get i, arr.get j with
  | some tmp, some x =>
    some (arr.update ((arr.elems.set i.toNat x).set j.toNat tmp) (by simp))
  | _, _ => none

/-! ## The scan -/

theorem swap_spec {arr arr' : Mapping} {i j : UInt64} (h : swap arr i j = some arr') :
    ∃ x y, arr.get i = some x ∧ arr.get j = some y ∧
      arr'.elems = (arr.elems.set i.toNat y).set j.toNat x := by
  unfold swap at h
  split at h
  · rename_i x y hx hy
    cases h
    exact ⟨x, y, hx, hy, rfl⟩
  · cases h

/-- A position the scan has to swap at. -/
def stuck (arr : Mapping) (pivotVal : Int64) (left right : UInt64) : Nat :=
  match arr.get left, arr.get right with
  | some x, some y => if pivotVal ≤ x ∧ y < pivotVal then 1 else 0
  | _, _ => 0

/-- What is left to scan. A `right_index` that has wrapped below 0 counts nothing: the next read
through it aborts. -/
def togo (arr : Mapping) (pivotVal : Int64) (left right : UInt64) : Nat :=
  4 * (arr.length - left.toNat) +
    if right.toNat < arr.length then 2 * (right.toNat + 1 - left.toNat) + stuck arr pivotVal left right
    else 0

theorem stuck_le (arr : Mapping) (pivotVal : Int64) (left right : UInt64) :
    stuck arr pivotVal left right ≤ 1 := by
  unfold stuck
  split
  · split <;> omega
  · omega

theorem toNat_succ {arr : Mapping} {i : UInt64} (h : i.toNat < arr.length) :
    (i + 1).toNat = i.toNat + 1 := by
  have := arr.fits
  unfold Mapping.length at h
  rw [UInt64.toNat_add, UInt64.toNat_one, Nat.mod_eq_of_lt (by omega)]

theorem toNat_pred {i : UInt64} :
    (i - 1).toNat = if i.toNat = 0 then 2 ^ 64 - 1 else i.toNat - 1 := by
  have hlt := i.toNat_lt
  rw [UInt64.toNat_sub, UInt64.toNat_one]
  split <;> omega

theorem togo_left {arr : Mapping} {pivotVal x : Int64} {left right : UInt64} (hle : left ≤ right)
    (hx : arr.get left = some x) :
    togo arr pivotVal (left + 1) right < togo arr pivotVal left right := by
  have hl : left.toNat < arr.length := (List.getElem?_eq_some_iff.1 hx).1
  have hle' := UInt64.le_iff_toNat_le.1 hle
  have h1 := stuck_le arr pivotVal (left + 1) right
  unfold togo
  rw [toNat_succ hl]
  split <;> omega

theorem togo_right {arr : Mapping} {pivotVal y : Int64} {left right : UInt64} (hle : left ≤ right)
    (hy : arr.get right = some y) :
    togo arr pivotVal left (right - 1) < togo arr pivotVal left right := by
  have hr : right.toNat < arr.length := (List.getElem?_eq_some_iff.1 hy).1
  have hle' := UInt64.le_iff_toNat_le.1 hle
  have hfit := arr.fits
  have h1 := stuck_le arr pivotVal left (right - 1)
  unfold togo
  rw [toNat_pred, if_pos hr]
  unfold Mapping.length at *
  split <;> split <;> omega

/-- A swap moves neither index: what it decreases is `stuck`. -/
theorem togo_swap {arr arr' : Mapping} {pivotVal x y : Int64} {left right : UInt64}
    (hx : arr.get left = some x) (hy : arr.get right = some y) (hxp : ¬ x < pivotVal)
    (hyp : ¬ y ≥ pivotVal) (h : swap arr left right = some arr') :
    togo arr' pivotVal left right < togo arr pivotVal left right := by
  have hr : right.toNat < arr.length := (List.getElem?_eq_some_iff.1 hy).1
  have hl : left.toNat < arr.length := (List.getElem?_eq_some_iff.1 hx).1
  obtain ⟨x', y', hx', hy', helems⟩ := swap_spec h
  rw [hx] at hx'; cases hx'
  rw [hy] at hy'; cases hy'
  have hyp' := Int64.not_le.1 hyp
  have hlen : arr'.length = arr.length := by unfold Mapping.length; rw [helems]; simp
  have hstuck : stuck arr pivotVal left right = 1 := by
    unfold stuck
    rw [hx, hy]
    exact if_pos ⟨Int64.not_lt.1 hxp, hyp'⟩
  have hne : left.toNat ≠ right.toNat := by
    intro heq
    unfold Mapping.get at hx hy
    rw [heq, hy] at hx
    cases hx
    exact hyp (Int64.not_lt.1 hxp)
  have hget : arr'.get left = some y := by
    unfold Mapping.get Mapping.length at *
    rw [helems, List.getElem?_set_ne (Ne.symm hne), List.getElem?_set_self hl]
  have hstuck' : stuck arr' pivotVal left right = 0 := by
    unfold stuck
    rw [hget]
    split
    · rename_i h1 _
      cases h1
      exact if_neg fun hc => hyp hc.1
    · rfl
  unfold togo
  rw [hlen, if_pos hr, if_pos hr, hstuck, hstuck']
  omega

/-- The `while` of `parsort.c:138`. -/
def partitionLoop (pivotVal : Int64) (arr : Mapping) (left right : UInt64) : Result UInt64 :=
  if _hle : left ≤ right then
    match _hx : arr.get left with
    | none => .error .outOfRange arr
    | some x =>
      if _hxp : x < pivotVal then partitionLoop pivotVal arr (left + 1) right
      else
        match _hy : arr.get right with
        | none => .error .outOfRange arr
        | some y =>
          if _hyp : y ≥ pivotVal then partitionLoop pivotVal arr left (right - 1)
          else
            match _hs : swap arr left right with
            | none => .error .outOfRange arr
            | some arr' => partitionLoop pivotVal arr' left right
  else .ok left arr
termination_by togo arr pivotVal left right
decreasing_by
  · exact togo_left _hle _hx
  · exact togo_right _hle _hy
  · exact togo_swap _hx _hy _hxp _hyp _hs

/-- `parsort.c:119`: the index of the pivot. -/
def partition (arr : Mapping) (start end_ : UInt64) : Result UInt64 :=
  if end_ > start then
    let len := end_ - start
    if len ≥ 2 then
      let pivotIndex := start + len / 2
      match arr.get pivotIndex, swap arr pivotIndex (end_ - 1) with
      | some pivotVal, some arr =>
        match partitionLoop pivotVal arr start (start + (len - 2)) with
        | .error why arr => .error why arr
        | .ok left arr =>
          match swap arr left (end_ - 1) with
          | none => .error .outOfRange arr
          | some arr => .ok left arr
      | _, _ => .error .outOfRange arr
    else .error .assertFailed arr
  else .error .assertFailed arr

/-- The rounds of the loop, and its end. -/
theorem partitionLoop_left {pivotVal x : Int64} {arr : Mapping} {left right : UInt64}
    (hle : left ≤ right) (hx : arr.get left = some x) (hlt : x < pivotVal) :
    partitionLoop pivotVal arr left right = partitionLoop pivotVal arr (left + 1) right := by
  rw [partitionLoop]
  grind

theorem partitionLoop_right {pivotVal x y : Int64} {arr : Mapping} {left right : UInt64}
    (hle : left ≤ right) (hx : arr.get left = some x) (hxp : ¬x < pivotVal)
    (hy : arr.get right = some y) (hyp : y ≥ pivotVal) :
    partitionLoop pivotVal arr left right = partitionLoop pivotVal arr left (right - 1) := by
  rw [partitionLoop]
  grind

theorem partitionLoop_swap {pivotVal x y : Int64} {arr arr' : Mapping} {left right : UInt64}
    (hle : left ≤ right) (hx : arr.get left = some x) (hxp : ¬x < pivotVal)
    (hy : arr.get right = some y) (hyp : ¬y ≥ pivotVal) (hs : swap arr left right = some arr') :
    partitionLoop pivotVal arr left right = partitionLoop pivotVal arr' left right := by
  rw [partitionLoop]
  grind

theorem partitionLoop_done {pivotVal : Int64} {arr : Mapping} {left right : UInt64}
    (hle : ¬left ≤ right) : partitionLoop pivotVal arr left right = .ok left arr := by
  rw [partitionLoop, dif_neg hle]

theorem partition_eq {arr arr₁ arr₃ : Mapping} {start end_ left : UInt64} (pivotVal : Int64)
    (arr₂ : Mapping)
    (hlt : end_ > start) (hlen : end_ - start ≥ 2)
    (hpivot : arr.get (start + (end_ - start) / 2) = some pivotVal)
    (hstash : swap arr (start + (end_ - start) / 2) (end_ - 1) = some arr₁)
    (hloop : partitionLoop pivotVal arr₁ start (start + (end_ - start - 2)) = .ok left arr₂)
    (hplace : swap arr₂ left (end_ - 1) = some arr₃) : partition arr start end_ = .ok left arr₃ := by
  unfold partition
  rw [if_pos hlt]
  dsimp only
  rw [if_pos hlen, hpivot, hstash]
  dsimp only
  rw [hloop]
  dsimp only
  rw [hplace]

/-! ## What the scan leaves -/

/-- The loop invariant: `[s, left)` is below the pivot and `(right, p)` is not, where `p` is the
index of the stashed pivot. A wrapped `right_index` is past the array. -/
structure Scan (pivotVal : Int64) (s p : Nat) (arr : Mapping) (left right : UInt64) : Prop where
  start : s ≤ left.toNat
  stash : p < arr.length
  lows : ∀ x ∈ region arr.elems s left.toNat, x < pivotVal
  highs : (left.toNat ≤ right.toNat + 1 ∧ right.toNat < p ∧
      ∀ x ∈ region arr.elems (right.toNat + 1) p, pivotVal ≤ x) ∨
    (arr.length ≤ right.toNat ∧ left ≤ right)

section
variable {pivotVal x y : Int64} {s p : Nat} {arr arr' : Mapping} {left right : UInt64}

theorem Scan.extendLeft (h : Scan pivotVal s p arr left right) (hle : left ≤ right)
    (hx : arr.get left = some x) (hxp : x < pivotVal) :
    Scan pivotVal s p arr (left + 1) right := by
  have hl : left.toNat < arr.length := (List.getElem?_eq_some_iff.1 hx).1
  have hle' := UInt64.le_iff_toNat_le.1 hle
  have hs := h.start
  refine ⟨?_, h.stash, ?_, ?_⟩
  · rw [toNat_succ hl]; omega
  · intro z hz
    obtain ⟨i, h1, h2, h3⟩ := mem_region.1 hz
    rw [toNat_succ hl] at h2
    rcases Nat.lt_succ_iff_lt_or_eq.1 h2 with h2 | rfl
    · exact h.lows z (mem_region.2 ⟨i, h1, h2, h3⟩)
    · unfold Mapping.get at hx
      rw [hx] at h3
      cases h3
      exact hxp
  · rw [UInt64.le_iff_toNat_le, toNat_succ hl]
    rcases h.highs with ⟨h1, h2, h3⟩ | ⟨h1, h2⟩
    · exact .inl ⟨by omega, h2, h3⟩
    · exact .inr ⟨h1, by omega⟩

theorem Scan.extendRight (h : Scan pivotVal s p arr left right) (hle : left ≤ right)
    (hy : arr.get right = some y) (hyp : pivotVal ≤ y) :
    Scan pivotVal s p arr left (right - 1) := by
  have hr : right.toNat < arr.length := (List.getElem?_eq_some_iff.1 hy).1
  have hle' := UInt64.le_iff_toNat_le.1 hle
  have hfit := arr.fits
  refine ⟨h.start, h.stash, h.lows, ?_⟩
  rcases h.highs with ⟨h1, h2, h3⟩ | ⟨h1, -⟩
  · by_cases hz : right.toNat = 0
    -- the index wraps: the next read through it aborts
    · refine .inr ⟨?_, ?_⟩
      · rw [toNat_pred, if_pos hz]; unfold Mapping.length; omega
      · rw [UInt64.le_iff_toNat_le, toNat_pred, if_pos hz]; omega
    · refine .inl ⟨?_, ?_, fun z hz' => ?_⟩
      · rw [toNat_pred, if_neg hz]; omega
      · rw [toNat_pred, if_neg hz]; omega
      · obtain ⟨i, hi1, hi2, hi3⟩ := mem_region.1 hz'
        rw [toNat_pred, if_neg hz] at hi1
        rcases Nat.eq_or_lt_of_le (show right.toNat ≤ i by omega) with rfl | hlt
        · unfold Mapping.get at hy
          rw [hy] at hi3
          cases hi3
          exact hyp
        · exact h3 z (mem_region.2 ⟨i, hlt, hi2, hi3⟩)
  · omega

theorem Scan.swap (h : Scan pivotVal s p arr left right) (hle : left ≤ right)
    (hs : swap arr left right = some arr') :
    Scan pivotVal s p arr' left right ∧ Rearranged arr.elems arr'.elems s p := by
  obtain ⟨x, y, hx, hy, helems⟩ := swap_spec hs
  have hr : right.toNat < arr.length := (List.getElem?_eq_some_iff.1 hy).1
  have hle' := UInt64.le_iff_toNat_le.1 hle
  have hs := h.start
  rcases h.highs with ⟨h1, h2, h3⟩ | ⟨h1, -⟩
  · have hre : Rearranged arr.elems arr'.elems left.toNat (right.toNat + 1) := by
      rw [helems]
      exact Rearranged.swap ⟨Nat.le_refl _, by omega⟩ ⟨hle', by omega⟩ hx hy
    refine ⟨⟨h.start, ?_, ?_, .inl ⟨h1, h2, ?_⟩⟩, hre.mono hs (by omega)⟩
    · unfold Mapping.length; rw [hre.length_eq]; exact h.stash
    · rw [hre.region_eq (.inl (Nat.le_refl _))]; exact h.lows
    · rw [hre.region_eq (.inr (Nat.le_refl _))]; exact h3
  · omega

/-- **Run**: when the loop ends, `left_index` separates the elements below the pivot from the
others. -/
theorem partitionLoop_ok {m : UInt64} (h : Scan pivotVal s p arr left right)
    (hrun : partitionLoop pivotVal arr left right = .ok m arr') :
    s ≤ m.toNat ∧ m.toNat ≤ p ∧ Rearranged arr.elems arr'.elems s p ∧
      (∀ x ∈ region arr'.elems s m.toNat, x < pivotVal) ∧
      ∀ x ∈ region arr'.elems m.toNat p, pivotVal ≤ x := by
  fun_induction partitionLoop pivotVal arr left right with
  | case1 arr left right hle hx => cases hrun
  | case2 arr left right hle x hx hxp ih => exact ih (h.extendLeft hle hx hxp) hrun
  | case3 arr left right hle x hx hxp hy => cases hrun
  | case4 arr left right hle x hx hxp y hy hyp ih => exact ih (h.extendRight hle hy hyp) hrun
  | case5 arr left right hle x hx hxp y hy hyp hs => cases hrun
  | case6 arr left right hle x hx hxp y hy hyp arr'' hs ih =>
    obtain ⟨hscan, hre⟩ := h.swap hle hs
    obtain ⟨h1, h2, h3, h4⟩ := ih hscan hrun
    exact ⟨h1, h2, hre.trans h3, h4⟩
  | case7 arr left right hle =>
    cases hrun
    have hlt := UInt64.lt_iff_toNat_lt.1 (UInt64.not_le.1 hle)
    rcases h.highs with ⟨h1, h2, h3⟩ | ⟨-, h2⟩
    · have heq : right.toNat + 1 = m.toNat := by omega
      rw [heq] at h3
      exact ⟨h.start, by omega, Rearranged.refl _ _ _, h.lows, h3⟩
    · exact absurd h2 hle

end

/-- `partition` has split `[s, e)` at `mid`. -/
structure Partitioned (arr arr' : Mapping) (s e mid : Nat) : Prop where
  start : s ≤ mid
  stop : mid < e
  /-- The element at `mid` is the one `partition` picked from the middle. -/
  pivot : ∃ pivotVal, arr.elems[s + (e - s) / 2]? = some pivotVal ∧
    arr'.elems[mid]? = some pivotVal ∧ (∀ x ∈ region arr'.elems s mid, x < pivotVal) ∧
    ∀ x ∈ region arr'.elems (mid + 1) e, pivotVal ≤ x
  rearranged : Rearranged arr.elems arr'.elems s e

section
variable {start end_ : UInt64}

theorem toNat_len (h : start ≤ end_) : (end_ - start).toNat = end_.toNat - start.toNat :=
  UInt64.toNat_sub_of_le _ _ h

theorem toNat_pivotIndex (h : start < end_) :
    (start + (end_ - start) / 2).toNat = start.toNat + (end_.toNat - start.toNat) / 2 := by
  have hlt := end_.toNat_lt
  have := UInt64.lt_iff_toNat_lt.1 h
  rw [UInt64.toNat_add, UInt64.toNat_div, toNat_len (UInt64.le_of_lt h)]
  exact Nat.mod_eq_of_lt (show _ + _ / 2 < _ by omega)

theorem toNat_last (h : start < end_) : (end_ - 1).toNat = end_.toNat - 1 := by
  have := UInt64.lt_iff_toNat_lt.1 h
  rw [toNat_pred, if_neg (by omega)]

theorem toNat_rightIndex (h : start < end_) (h2 : end_ - start ≥ 2) :
    (start + (end_ - start - 2)).toNat = end_.toNat - 2 := by
  have hlt := end_.toNat_lt
  have h1 := UInt64.lt_iff_toNat_lt.1 h
  have h3 := UInt64.le_iff_toNat_le.1 h2
  rw [toNat_len (UInt64.le_of_lt h), show (2 : UInt64).toNat = 2 from rfl] at h3
  rw [UInt64.toNat_add, UInt64.toNat_sub_of_le _ _ h2, toNat_len (UInt64.le_of_lt h),
    show (2 : UInt64).toNat = 2 from rfl, Nat.mod_eq_of_lt (by omega)]
  omega

end

/-- Placing the stashed pivot on the first element that is not below it. -/
theorem partitioned_of_scan {arr arr1 arr2 arr3 : Mapping} {pivotVal : Int64} {s e q : Nat}
    {last m : UInt64} (hse : s + 2 ≤ e) (hq : q = s + (e - s) / 2) (hlast : last.toNat = e - 1)
    (hpivot : arr.elems[q]? = some pivotVal) (hstash : Rearranged arr.elems arr1.elems s e)
    (hp : arr1.elems[e - 1]? = some pivotVal)
    (hscan : s ≤ m.toNat ∧ m.toNat ≤ e - 1 ∧ Rearranged arr1.elems arr2.elems s (e - 1) ∧
      (∀ x ∈ region arr2.elems s m.toNat, x < pivotVal) ∧
      ∀ x ∈ region arr2.elems m.toNat (e - 1), pivotVal ≤ x)
    (hswap : swap arr2 m last = some arr3) : Partitioned arr arr3 s e m.toNat := by
  obtain ⟨h1, h2, hre, hlows, hhighs⟩ := hscan
  obtain ⟨x, y, hx, hy, helems⟩ := swap_spec hswap
  unfold Mapping.get at hx hy
  have hyp : y = pivotVal := by
    rw [hlast, hre.frame _ (.inr (Nat.le_refl _)), hp] at hy
    exact (Option.some.inj hy).symm
  subst hyp
  have hml : m.toNat < arr2.elems.length := (List.getElem?_eq_some_iff.1 hx).1
  have hll : last.toNat < arr2.elems.length := (List.getElem?_eq_some_iff.1 hy).1
  have hplace : Rearranged arr2.elems arr3.elems m.toNat e := by
    rw [helems]
    exact Rearranged.swap ⟨Nat.le_refl _, by omega⟩ ⟨by omega, by omega⟩ hx hy
  have hmid : arr3.elems[m.toNat]? = some y := by
    rw [helems]
    by_cases heq : last.toNat = m.toNat
    · rw [heq] at hy hll ⊢
      rw [List.getElem?_set_self (by simpa using hll)]
      exact hx.symm.trans hy
    · rw [List.getElem?_set_ne heq, List.getElem?_set_self hml]
  refine ⟨h1, by omega, ⟨y, by rw [← hq]; exact hpivot, hmid, ?_, ?_⟩,
    hstash.trans ((hre.mono (Nat.le_refl _) (by omega)).trans (hplace.mono h1 (Nat.le_refl _)))⟩
  · rw [hplace.region_eq (.inl (Nat.le_refl _))]
    exact hlows
  · intro z hz
    obtain ⟨i, hi1, hi2, hi3⟩ := mem_region.1 hz
    by_cases heq : i = last.toNat
    -- the element the pivot has displaced
    · rw [helems, heq, List.getElem?_set_self (by simpa using hll)] at hi3
      cases hi3
      exact hhighs _ (mem_region.2 ⟨m.toNat, Nat.le_refl _, by omega, hx⟩)
    · rw [helems, List.getElem?_set_ne (Ne.symm heq), List.getElem?_set_ne (by omega)] at hi3
      exact hhighs z (mem_region.2 ⟨i, by omega, by omega, hi3⟩)

/-- **`partition`**: a call that returns has split its region. -/
theorem partition_ok {arr arr' : Mapping} {start end_ mid : UInt64}
    (h : partition arr start end_ = .ok mid arr') :
    Partitioned arr arr' start.toNat end_.toNat mid.toNat := by
  unfold partition at h
  split at h
  case isFalse => cases h
  rename_i hgt
  dsimp only at h
  split at h
  case isFalse => cases h
  rename_i h2
  have hlt := UInt64.lt_iff_toNat_lt.1 hgt
  have hlen := UInt64.le_iff_toNat_le.1 h2
  rw [toNat_len (UInt64.le_of_lt hgt), show (2 : UInt64).toNat = 2 from rfl] at hlen
  split at h
  case h_2 => cases h
  rename_i pivotVal arr1 hget hswap
  split at h
  case h_1 => cases h
  rename_i left arr2 hloop
  split at h
  case h_1 => cases h
  rename_i arr3 hplace
  cases h
  obtain ⟨x, y, hx, hy, helems⟩ := swap_spec hswap
  rw [hget] at hx
  cases hx
  unfold Mapping.get at hget hy
  rw [toNat_pivotIndex hgt] at hget helems
  rw [toNat_last hgt] at helems hy
  have hend : end_.toNat - 1 < arr.elems.length := (List.getElem?_eq_some_iff.1 hy).1
  have hstash : Rearranged arr.elems arr1.elems start.toNat end_.toNat := by
    rw [helems]
    exact Rearranged.swap ⟨by omega, by omega⟩ ⟨by omega, by omega⟩ hget hy
  have hp : arr1.elems[end_.toNat - 1]? = some pivotVal := by
    rw [helems, List.getElem?_set_self (by simpa using hend)]
  refine partitioned_of_scan (by omega) rfl (toNat_last hgt) hget hstash hp
    (partitionLoop_ok ⟨Nat.le_refl _, ?_, ?_, .inl ⟨?_, ?_, ?_⟩⟩ hloop) hplace
  · unfold Mapping.length; rw [hstash.length_eq]; exact hend
  · intro z hz
    obtain ⟨i, h1, h3, -⟩ := mem_region.1 hz
    omega
  · rw [toNat_rightIndex hgt h2]; omega
  · rw [toNat_rightIndex hgt h2]; omega
  · rw [toNat_rightIndex hgt h2]
    intro z hz
    obtain ⟨i, h1, h3, -⟩ := mem_region.1 hz
    omega

/-- **What `partition` promises**, of every call that returns: the element picked from the middle is at
the index returned, smaller elements are before it and the others behind it; the region keeps its
elements, everything else its places. -/
theorem partition_postcondition {arr arr' : Mapping} {start end_ mid : UInt64}
    (h : partition arr start end_ = .ok mid arr') :
    start ≤ mid ∧ mid < end_ ∧
      (∃ pivotVal, arr.elems[start.toNat + (end_.toNat - start.toNat) / 2]? = some pivotVal ∧
        arr'.elems[mid.toNat]? = some pivotVal ∧
        (∀ x ∈ region arr'.elems start.toNat mid.toNat, x < pivotVal) ∧
        ∀ x ∈ region arr'.elems (mid.toNat + 1) end_.toNat, pivotVal ≤ x) ∧
      (region arr'.elems start.toNat end_.toNat).Perm (region arr.elems start.toNat end_.toNat) ∧
      ∀ i, i < start.toNat ∨ end_.toNat ≤ i → arr'.elems[i]? = arr.elems[i]? := by
  have hpart := partition_ok h
  have hse : start.toNat ≤ end_.toNat := Nat.le_trans hpart.start (Nat.le_of_lt hpart.stop)
  exact ⟨UInt64.le_iff_toNat_le.2 hpart.start, UInt64.lt_iff_toNat_lt.2 hpart.stop, hpart.pivot,
    hpart.rearranged.region_perm hse, hpart.rearranged.frame⟩

theorem partition_2341 : partition ⟨[2, 3, 4, 1], by decide⟩ 0 4 = .ok 3 ⟨[2, 3, 1, 4], by decide⟩ := by
  refine partition_eq 4 ⟨[2, 3, 1, 4], by decide⟩ (by decide) (by decide) rfl rfl
    ?_ rfl
  rw [partitionLoop_left (x := 2) (by decide) rfl (by decide),
    partitionLoop_left (x := 3) (by decide) rfl (by decide),
    partitionLoop_left (x := 1) (by decide) rfl (by decide), partitionLoop_done (by decide)]
  rfl

theorem partition_postcondition_2341 :
    (0 : UInt64) ≤ 3 ∧ (3 : UInt64) < 4 ∧
      (∃ pivotVal, ([2, 3, 4, 1] : List Int64)[0 + (4 - 0) / 2]? = some pivotVal ∧
        ([2, 3, 1, 4] : List Int64)[3]? = some pivotVal ∧
        (∀ x ∈ region ([2, 3, 1, 4] : List Int64) 0 3, x < pivotVal) ∧
        ∀ x ∈ region ([2, 3, 1, 4] : List Int64) (3 + 1) 4, pivotVal ≤ x) ∧
      (region ([2, 3, 1, 4] : List Int64) 0 4).Perm (region [2, 3, 4, 1] 0 4) ∧
      ∀ i, i < 0 ∨ 4 ≤ i → ([2, 3, 1, 4] : List Int64)[i]? = ([2, 3, 4, 1] : List Int64)[i]? :=
  partition_postcondition partition_2341

end CsfAssignments.Parsort
