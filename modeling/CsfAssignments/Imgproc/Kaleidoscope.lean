import CsfAssignments.Imgproc.AsmKaleidoscope
import CsfAssignments.Imgproc.Picture
import CsfAssignments.Lib.Paint
/-!
# What `imgproc_kaleidoscope` paints

`kaleidoPixel` is the picture: every pixel is one of the wedge, found by mirroring at the middle. On an
image of odd size the mirror is half a pixel off the middle, as if there was one more row and column.
The assembly (`even_picture`, `odd_picture`) and the C function (`c_picture`) both paint it.

The odd path also stores where the mirror image of row and column 0 would be, behind the last pixel.
-/

namespace CsfAssignments.Imgproc

open Memory X86 Asm Paint

variable {text : List (Instr Label) → Addr} {L : Layout} {n half : Nat}

/-! ## The wedge -/

theorem mem_wedge {half : Nat} {c : Nat × Nat} : c ∈ wedge half ↔ c.1 ≤ c.2 ∧ c.2 < half := by
  obtain ⟨i, j⟩ := c
  simp only [wedge, List.mem_flatMap, List.mem_range, List.mem_map, List.mem_range'_1, Prod.mk.injEq]
  constructor
  · rintro ⟨i', hi, j', hj, rfl, rfl⟩
    omega
  · rintro ⟨h1, h2⟩
    exact ⟨i, by omega, j, by omega, rfl, rfl⟩

/-- The rounds go by rows. -/
theorem wedge_sorted (half : Nat) :
    (wedge half).Pairwise fun a b => a.1 < b.1 ∨ a.1 = b.1 ∧ a.2 < b.2 := by
  rw [wedge, List.pairwise_flatMap]
  constructor
  · intro i _
    rw [List.pairwise_map]
    exact (List.pairwise_lt_range' (s := i) (n := half - i)).imp fun h => .inr ⟨rfl, h⟩
  · refine List.pairwise_lt_range.imp fun h a ha b hb => ?_
    obtain ⟨_, _, rfl⟩ := List.mem_map.mp ha
    obtain ⟨_, _, rfl⟩ := List.mem_map.mp hb
    exact .inl h

/-! ## Accesses -/

theorem even_inside (hv : L.Valid) (hs : Square L n) :
    ∀ a ∈ (wedge (n / 2)).flatMap (kaleidoAccesses evenStores L n), L.InBounds a := by
  intro a ha
  obtain ⟨⟨i, j⟩, hc, ha⟩ := List.mem_flatMap.mp ha
  obtain ⟨hij, hj⟩ := mem_wedge.mp hc
  simp only at hij hj
  rcases List.mem_cons.mp ha with rfl | ha
  · exact inBounds_load hv (hs.load (by omega) (by omega))
  obtain ⟨q, hq, rfl⟩ := List.mem_map.mp ha
  refine inBounds_store hv ?_
  simp only [evenStores, List.mem_cons, List.not_mem_nil, or_false] at hq
  rcases hq with rfl | rfl | rfl | rfl | rfl | rfl | rfl | rfl
  all_goals exact hs.store (by omega) (by omega)

/-- Round `(0, 0)` stores at index `n * n`. -/
theorem odd_outside (hv : L.Valid) (hs : Square L n) :
    ∃ a ∈ (wedge (n / 2 + 1)).flatMap (kaleidoAccesses oddStores L n), ¬L.InBounds a := by
  refine ⟨⟨true, L.out.data, word (n * n)⟩, ?_, ?_⟩
  · refine List.mem_flatMap.mpr ⟨(0, 0), mem_wedge.mpr ⟨by simp, by simp⟩, ?_⟩
    simp [kaleidoAccesses, oddStores]
  · rintro ⟨-, h⟩
    have hsize : L.out.size = n * n := by rw [Img.size, hs.out.1, hs.out.2]
    have hlt := hv.out.size
    simp only at h
    rw [toNat_word (by omega)] at h
    omega

/-- **The assembly stays inside the images exactly when their size is even.** -/
theorem kaleidoscope_inside_iff {s : State} (hc : Called L s) (hs : Square L n) :
    ∃ ra s', Returns (program text) .imgprocKaleidoscope s ra s' ∧
      (Inside L s.accesses s'.accesses ↔ n % 2 = 0) := by
  rcases Nat.mod_two_eq_zero_or_one n with heven | hodd
  · obtain ⟨s', hr, h⟩ := even_returns hc hs heven
    refine ⟨s.top, s', hr, ?_⟩
    rw [h.accesses, inside_append]
    exact iff_of_true (even_inside hc.valid hs) heven
  · obtain ⟨s', hr, h⟩ := odd_returns hc hs hodd
    refine ⟨s.top, s', hr, ?_⟩
    obtain ⟨a, ha, hout⟩ := odd_outside hc.valid hs
    rw [h.accesses, inside_append]
    exact iff_of_false (fun h => hout (h a ha)) (by omega)

/-- A call for `n` by `n` images. -/
def squareState (n : Nat) : State :=
  sampleState ⟨0, 0, 0, 0, 0, 0, 0, 0, 0, 0, 0, 0, 0, 0, 0, 0⟩ (sampleLayout n n n n)

theorem squareState_called (hn : n * n < 2 ^ 16) : Called (sampleLayout n n n n) (squareState n) := by
  have h : n < 2 ^ 31 := Nat.lt_of_le_of_lt (Nat.le_mul_self n) (Nat.lt_trans hn (by decide))
  exact sample_called _ hn hn h h h h

theorem kaleidoscope_inside_iff_two :
    ∃ ra s', Returns (program fun _ => 0x400000#64) .imgprocKaleidoscope (squareState 2) ra s' ∧
      (Inside (sampleLayout 2 2 2 2) (squareState 2).accesses s'.accesses ↔ 2 % 2 = 0) :=
  kaleidoscope_inside_iff (squareState_called (by decide)) ⟨⟨rfl, rfl⟩, ⟨rfl, rfl⟩⟩

theorem kaleidoscope_outside_three :
    ∃ ra s', Returns (program fun _ => 0x400000#64) .imgprocKaleidoscope (squareState 3) ra s' ∧
      ¬Inside (sampleLayout 3 3 3 3) (squareState 3).accesses s'.accesses := by
  have hc := squareState_called (n := 3) (by decide)
  have hs : Square (sampleLayout 3 3 3 3) 3 := ⟨⟨rfl, rfl⟩, ⟨rfl, rfl⟩⟩
  obtain ⟨s', hr, h⟩ := odd_returns hc hs rfl
  refine ⟨_, s', hr, ?_⟩
  obtain ⟨a, ha, hout⟩ := odd_outside hc.valid hs
  rw [h.accesses, inside_append]
  exact fun h => hout (h a ha)

/-! ## The picture -/

/-- Mirrored at the middle into the first half. -/
def fold (n x : Nat) : Nat := min x (n - 1 + n % 2 - x)

/-- The pixel in row `r` and column `c`. -/
def kaleidoPixel (n : Nat) (inPix : Nat → Pixel) (r c : Nat) : Pixel :=
  inPix (n * min (fold n r) (fold n c) + max (fold n r) (fold n c))

/-- The writes of a round. -/
def kaleidoWrites (stores : Nat → Nat → Nat → List (Nat × Nat)) (n : Nat) (inPix : Nat → Pixel)
    (c : Nat × Nat) : List (Nat × Pixel) :=
  (stores n c.1 c.2).map fun q => (n * q.1 + q.2, inPix (n * c.1 + c.2))

theorem kaleidoCell_eq (stores : Nat → Nat → Nat → List (Nat × Nat)) (n : Nat) (inPix : Nat → Pixel) :
    kaleidoCell stores n inPix = fun p c => paint (kaleidoWrites stores n inPix c) p := by
  funext p c
  simp only [kaleidoCell, storeAll, paint, kaleidoWrites, List.foldl_map]

variable {inPix p : Nat → Pixel} {r c i j : Nat}

/-- The mirror image of row and column `x`. -/
abbrev mirror (n x : Nat) : Nat := n - 1 + n % 2 - x

theorem fold_lt (hr : r < n) : fold n r < (n + n % 2) / 2 := by
  unfold fold
  omega

theorem fold_cases (hr : r < n) : r = fold n r ∨ r = mirror n (fold n r) := by
  unfold mirror fold
  omega

theorem fold_self (hi : i < (n + n % 2) / 2) : fold n i = i := by
  unfold fold
  omega

theorem fold_mirror (hi : i < (n + n % 2) / 2) : fold n (mirror n i) = i := by
  unfold mirror fold
  omega

/-- The pixels with the same mirror images are the same. -/
theorem kaleidoPixel_of_fold (hij : i ≤ j) (h : fold n r = i ∧ fold n c = j ∨ fold n r = j ∧ fold n c = i) :
    kaleidoPixel n inPix r c = inPix (n * i + j) := by
  rcases h with ⟨h1, h2⟩ | ⟨h1, h2⟩
  · rw [kaleidoPixel, h1, h2, min_eq_left hij, max_eq_right hij]
  · rw [kaleidoPixel, h1, h2, min_eq_right hij, max_eq_left hij]

theorem mem_evenStores (heven : n % 2 = 0) (hr : r < n) (hc : c < n) :
    (r, c) ∈ evenStores n (min (fold n r) (fold n c)) (max (fold n r) (fold n c)) := by
  have hmr := fold_cases hr
  have hmc := fold_cases hc
  simp only [mirror, heven, Nat.add_zero] at hmr hmc
  generalize fold n r = i at hmr ⊢
  generalize fold n c = j at hmc ⊢
  rcases Nat.le_total i j with hij | hij
  · rw [min_eq_left hij, max_eq_right hij]
    rcases hmr with rfl | rfl <;> rcases hmc with rfl | rfl <;> simp [evenStores]
  · rw [min_eq_right hij, max_eq_left hij]
    rcases hmr with rfl | rfl <;> rcases hmc with rfl | rfl <;> simp [evenStores]

theorem even_picture (heven : n % 2 = 0) (hr : r < n) (hc : c < n) :
    (wedge (n / 2)).foldl (kaleidoCell evenStores n inPix) p (n * r + c) = kaleidoPixel n inPix r c := by
  rw [kaleidoCell_eq, foldl_paint]
  have hhalf : (n + n % 2) / 2 = n / 2 := by rw [heven, Nat.add_zero]
  apply paint_of_mem
  · have hlt := fold_lt hr
    have hlt' := fold_lt hc
    refine List.mem_flatMap.mpr ⟨(min (fold n r) (fold n c), max (fold n r) (fold n c)),
      mem_wedge.mpr ⟨min_le_max, by simp only; omega⟩, ?_⟩
    exact List.mem_map.mpr ⟨(r, c), mem_evenStores heven hr hc, rfl⟩
  · intro w hw hx
    obtain ⟨⟨i, j⟩, hij, hw⟩ := List.mem_flatMap.mp hw
    obtain ⟨⟨a, b⟩, hq, rfl⟩ := List.mem_map.mp hw
    obtain ⟨h1, h2⟩ := mem_wedge.mp hij
    simp only at h1 h2 hx
    have hi : i < (n + n % 2) / 2 := by omega
    have hj : j < (n + n % 2) / 2 := by omega
    have hmi := fold_mirror hi
    have hmj := fold_mirror hj
    simp only [mirror, heven, Nat.add_zero] at hmi hmj
    refine (kaleidoPixel_of_fold h1 ?_).symm
    simp only [evenStores, List.mem_cons, Prod.mk.injEq, List.not_mem_nil, or_false] at hq
    obtain ⟨rfl, rfl⟩ := index_inj (by omega) hc hx
    rcases hq with ⟨rfl, rfl⟩ | ⟨rfl, rfl⟩ | ⟨rfl, rfl⟩ | ⟨rfl, rfl⟩ | ⟨rfl, rfl⟩ | ⟨rfl, rfl⟩ |
      ⟨rfl, rfl⟩ | ⟨rfl, rfl⟩
    all_goals simp [fold_self hi, fold_self hj, hmi, hmj]

theorem mem_oddStores (hodd : n % 2 = 1) (hr : r < n) (hc : c < n) :
    (r, c) ∈ oddStores n (min (fold n r) (fold n c)) (max (fold n r) (fold n c)) := by
  have hmr := fold_cases hr
  have hmc := fold_cases hc
  have hm {x : Nat} : mirror n x = n - x := by
    unfold mirror
    omega
  rw [hm] at hmr hmc
  generalize fold n r = i at hmr ⊢
  generalize fold n c = j at hmc ⊢
  have hi : i = 0 → r = 0 := by omega
  have hj : j = 0 → c = 0 := by omega
  rcases Nat.le_total i j with hij | hij
  · rw [min_eq_left hij, max_eq_right hij]
    by_cases h0 : i = 0
    · have hr0 := hi h0
      rcases hmc with rfl | rfl <;> simp [oddStores, h0, hr0]
    · rcases hmr with rfl | rfl <;> rcases hmc with rfl | rfl <;> simp [oddStores, h0]
  · rw [min_eq_right hij, max_eq_left hij]
    by_cases h0 : j = 0
    · have hc0 := hj h0
      rcases hmr with rfl | rfl <;> simp [oddStores, h0, hc0]
    · rcases hmr with rfl | rfl <;> rcases hmc with rfl | rfl <;> simp [oddStores, h0]

/-- Only round `(0, 0)` stores behind the end of a row. -/
theorem oddStores_past {a b : Nat} (hodd : n % 2 = 1) (hij : i ≤ j) (hj : j < n / 2 + 1)
    (hq : (a, b) ∈ oddStores n i j) (hb : n ≤ b) : (i = 0 ∧ j = 0) ∧ a = 0 ∧ b = n := by
  unfold oddStores at hq
  split at hq
  all_goals
    simp only [List.mem_cons, Prod.mk.injEq, List.not_mem_nil, or_false] at hq
    omega

/-- Round `(0, 0)` also stores at pixel `(1, 0)`; round `(0, 1)` stores there again. -/
theorem odd_write (hodd : n % 2 = 1) (hr : r < n) (hc : c < n) {q : Nat × Nat} (hij : i ≤ j)
    (hj : j < n / 2 + 1) (hq : q ∈ oddStores n i j) (hx : n * q.1 + q.2 = n * r + c) :
    (i = 0 ∧ j = 0) ∧ (r = 1 ∧ c = 0) ∨ fold n r = i ∧ fold n c = j ∨ fold n r = j ∧ fold n c = i := by
  obtain ⟨a, b⟩ := q
  simp only at hx
  have hm {x : Nat} : mirror n x = n - x := by
    unfold mirror
    omega
  have hi' : i < (n + n % 2) / 2 := by omega
  have hj' : j < (n + n % 2) / 2 := by omega
  have hmi := fold_mirror hi'
  have hmj := fold_mirror hj'
  rw [hm] at hmi hmj
  by_cases hin : b < n
  · obtain ⟨rfl, rfl⟩ := index_inj hin hc hx
    right
    unfold oddStores at hq
    split at hq
    all_goals
      simp only [List.mem_cons, Prod.mk.injEq, List.not_mem_nil, or_false] at hq
    · subst i
      rcases hq with ⟨rfl, rfl⟩ | ⟨rfl, rfl⟩ | ⟨rfl, rfl⟩ | ⟨rfl, rfl⟩
      all_goals simp [fold_self hi', fold_self hj', hmj]
    · rcases hq with ⟨rfl, rfl⟩ | ⟨rfl, rfl⟩ | ⟨rfl, rfl⟩ | ⟨rfl, rfl⟩ | ⟨rfl, rfl⟩ | ⟨rfl, rfl⟩ |
        ⟨rfl, rfl⟩ | ⟨rfl, rfl⟩
      all_goals simp [fold_self hi', fold_self hj', hmi, hmj]
  · left
    have h0 := oddStores_past hodd hij hj hq (Nat.le_of_not_lt hin)
    obtain ⟨h0, rfl, rfl⟩ := h0
    refine ⟨h0, ?_⟩
    have h1 : b * 1 + 0 = b * r + c := by omega
    obtain ⟨rfl, rfl⟩ := index_inj (by omega) hc h1
    exact ⟨rfl, rfl⟩

theorem odd_picture (hodd : n % 2 = 1) (hr : r < n) (hc : c < n) :
    (wedge (n / 2 + 1)).foldl (kaleidoCell oddStores n inPix) p (n * r + c) =
      kaleidoPixel n inPix r c := by
  rw [kaleidoCell_eq, foldl_paint]
  have hlt := fold_lt hr
  have hlt' := fold_lt hc
  have hcell : (min (fold n r) (fold n c), max (fold n r) (fold n c)) ∈ wedge (n / 2 + 1) :=
    mem_wedge.mpr ⟨min_le_max, by simp only; omega⟩
  refine paint_flatMap (wedge_sorted _) hcell (List.mem_map.mpr ⟨(r, c), mem_oddStores hodd hr hc, rfl⟩)
    ?_ ?_
  · intro w hw _
    obtain ⟨q, -, rfl⟩ := List.mem_map.mp hw
    rfl
  · rintro ⟨i, j⟩ hij hafter w hw hx
    obtain ⟨q, hq, rfl⟩ := List.mem_map.mp hw
    obtain ⟨h1, h2⟩ := mem_wedge.mp hij
    simp only at h1 h2 hx hafter
    rcases odd_write hodd hr hc h1 h2 hq hx with ⟨⟨h0, h0'⟩, -⟩ | h
    · omega
    · exact (kaleidoPixel_of_fold h1 h).symm

/-! ## The C function -/

/-- A round of the first loops. -/
def copyCell (n : Nat) (inPix : Nat → Pixel) (p : Nat → Pixel) (c : Nat × Nat) : Nat → Pixel :=
  paint [(n * c.1 + c.2, inPix (n * c.1 + c.2)), (n * c.2 + c.1, inPix (n * c.1 + c.2))] p

theorem copyWedge_picture (hsize : n * n < 2 ^ 31) (hi : i < n) (hj : j < n) :
    copyWedge (picture n n inPix) (BitVec.ofNat 32 i) (BitVec.ofNat 32 j) (picture n n p) =
      some (picture n n (copyCell n inPix p (i, j))) := by
  have hij := index_lt hi hj
  have hji := index_lt hj hi
  simp only [copyWedge, computeIndex_picture, load_picture hsize hij, store_picture hsize hij,
    store_picture hsize hji, Option.bind_eq_bind, Option.bind_some]
  simp only [copyCell, paint, List.foldl_cons, List.foldl_nil, Nat.mul_comm n]

/-- Where a round of the second loops stores. -/
def mirrorPlaces (n : Nat) (c : Nat × Nat) : List (Nat × Nat) :=
  (if n % 2 = 0 ∨ 0 < c.2 then [(c.1, mirror n c.2)] else []) ++
  (if n % 2 = 0 ∨ 0 < c.1 then [(mirror n c.1, c.2)] else []) ++
  (if n % 2 = 0 ∨ 0 < c.1 ∧ 0 < c.2 then [(mirror n c.1, mirror n c.2)] else [])

def mirrorCell (n : Nat) (p : Nat → Pixel) (c : Nat × Nat) : Nat → Pixel :=
  (mirrorPlaces n c).foldl (fun p q => Function.update p (n * q.1 + q.2) (p (n * c.1 + c.2))) p

theorem copyPixel_picture (hsize : n * n < 2 ^ 31) {x y : Nat} (hx : x < n * n) (hy : y < n * n) :
    copyPixel (picture n n p) (BitVec.ofNat 32 x) (BitVec.ofNat 32 y) =
      some (picture n n (Function.update p y (p x))) := by
  simp only [copyPixel, load_picture hsize hx, store_picture hsize hy, Option.bind_eq_bind,
    Option.bind_some]

theorem ofNat_mirror' (hi : i < (n + n % 2) / 2) :
    BitVec.ofNat 32 (n + n % 2) - 1 - BitVec.ofNat 32 i = BitVec.ofNat 32 (mirror n i) := by
  have hW : n - 1 + n % 2 - i = n + n % 2 - 1 - i := by omega
  rw [mirror, hW]
  exact (ofNat_mirror (by omega)).symm

theorem mirrorQuadrant_picture (hsize : n * n < 2 ^ 31) (hi : i < (n + n % 2) / 2)
    (hj : j < (n + n % 2) / 2) :
    mirrorQuadrant (n % 2 = 0) (BitVec.ofNat 32 (n + n % 2)) (BitVec.ofNat 32 (n + n % 2))
      (BitVec.ofNat 32 i) (BitVec.ofNat 32 j) (picture n n p) =
      some (picture n n (mirrorCell n p (i, j))) := by
  have hn : n ≤ n * n := Nat.le_mul_self n
  have hi31 : (BitVec.ofNat 32 i).toInt = i := toInt_ofNat (by omega)
  have hj31 : (BitVec.ofNat 32 j).toInt = j := toInt_ofNat (by omega)
  have hlt {x : Nat} (hx : n % 2 = 0 ∨ 0 < x) (h : x < (n + n % 2) / 2) : mirror n x < n := by
    unfold mirror
    omega
  have ho := index_lt (show i < n by omega) (show j < n by omega)
  have hright (h : n % 2 = 0 ∨ 0 < j) := index_lt (show i < n by omega) (hlt h hj)
  have hdown (h : n % 2 = 0 ∨ 0 < i) := index_lt (hlt h hi) (show j < n by omega)
  have hboth (h : n % 2 = 0 ∨ 0 < i) (h' : n % 2 = 0 ∨ 0 < j) := index_lt (hlt h hi) (hlt h' hj)
  have hcond : (n % 2 = 0 ∨ 0 < i ∧ 0 < j) ↔ (n % 2 = 0 ∨ 0 < i) ∧ (n % 2 = 0 ∨ 0 < j) :=
    or_and_left
  simp only [mirrorQuadrant, computeIndex_picture, ofNat_mirror' hi, ofNat_mirror' hj, hi31, hj31,
    Bool.or_eq_true, Bool.and_eq_true, decide_eq_true_eq, Int.natCast_pos, hcond, mirrorCell,
    mirrorPlaces]
  by_cases h1 : n % 2 = 0 ∨ 0 < i <;> by_cases h2 : n % 2 = 0 ∨ 0 < j
  · simp only [h1, h2, if_true, true_and, copyPixel_picture hsize ho (hright h2), Option.bind_eq_bind,
      Option.bind_some, computeIndex_picture, copyPixel_picture hsize ho (hdown h1),
      copyPixel_picture hsize ho (hboth h1 h2), Nat.mul_comm n]
    rfl
  · simp only [h1, h2, if_true, if_false, and_false, Option.bind_eq_bind, Option.pure_def,
      Option.bind_some, computeIndex_picture, copyPixel_picture hsize ho (hdown h1), Nat.mul_comm n]
    rfl
  · simp only [h1, h2, if_true, if_false, false_and, copyPixel_picture hsize ho (hright h2),
      Option.bind_eq_bind, Option.pure_def, Option.bind_some, Nat.mul_comm n]
    rfl
  · simp only [h1, h2, if_false, and_false, Option.bind_eq_bind, Option.pure_def, Option.bind_some]
    rfl

/-- The pixels of the top left quadrant. -/
def quadrant (half : Nat) : List (Nat × Nat) :=
  (List.range half).flatMap fun i => (List.range half).map fun j => (i, j)

theorem mem_quadrant {c : Nat × Nat} : c ∈ quadrant half ↔ c.1 < half ∧ c.2 < half := by
  obtain ⟨i, j⟩ := c
  simp [quadrant]

theorem even_ofNat : (BitVec.ofNat 32 n &&& 1 = 0) ↔ n % 2 = 0 := by
  have hpar : BitVec.ofNat 32 n &&& 1 = BitVec.ofNat 32 (n % 2) := ofNat_parity n
  rw [hpar]
  constructor
  · intro h
    exact ofNat_injective (by omega) (by omega) h
  · intro h
    rw [h]
    rfl

/-- The size that the C function mirrors at. -/
theorem mirrored_size :
    (if decide (BitVec.ofNat 32 n &&& 1 = 0) then BitVec.ofNat 32 n else BitVec.ofNat 32 n + 1) =
      BitVec.ofNat 32 (n + n % 2) := by
  rcases Nat.mod_two_eq_zero_or_one n with h | h
  · simp only [even_ofNat.mpr h, decide_true, if_true, h, Nat.add_zero]
  · have hne : ¬(BitVec.ofNat 32 n &&& 1 = 0) := by
      intro he
      have := even_ofNat.mp he
      omega
    simp only [hne, decide_false, h]
    exact ofNat_succ n

theorem half_size {w : Nat} (hw : w < 2 ^ 31) :
    (BitVec.ofNat 32 w).sshiftRight 1 = BitVec.ofNat 32 (w / 2) := by
  have hmsb : (BitVec.ofNat 32 w).msb = false := by
    rw [BitVec.msb_eq_false_iff_two_mul_lt, BitVec.toNat_ofNat]
    omega
  rw [BitVec.sshiftRight_eq_of_msb_false hmsb, ofNat_half hw]

theorem copyWedge_loops (hsize : n * n < 2 ^ 31) (hhalf : half < 2 ^ 31) (hle : half ≤ n)
    (inPix p : Nat → Pixel) :
    forLoop 0 (BitVec.ofNat 32 half)
      (fun i => forLoop i (BitVec.ofNat 32 half) fun j => copyWedge (picture n n inPix) i j)
      (picture n n p) = some (picture n n ((wedge half).foldl (copyCell n inPix) p)) := by
  rw [wedge, List.foldl_flatMap, List.range_eq_range']
  refine forLoop_fold (Nat.zero_le half) (by omega) (fun i _ hi p => ?_) p
  rw [List.foldl_map]
  refine forLoop_fold (Nat.le_of_lt hi) (by omega) (fun j _ hj p => ?_) p
  exact copyWedge_picture hsize (by omega) (by omega)

theorem mirrorQuadrant_loops (hsize : n * n < 2 ^ 31) (hhalf : half < 2 ^ 31)
    (hle : half ≤ (n + n % 2) / 2) (p : Nat → Pixel) :
    forLoop 0 (BitVec.ofNat 32 half)
      (fun i => forLoop 0 (BitVec.ofNat 32 half) fun j => mirrorQuadrant (n % 2 = 0)
        (BitVec.ofNat 32 (n + n % 2)) (BitVec.ofNat 32 (n + n % 2)) i j)
      (picture n n p) = some (picture n n ((quadrant half).foldl (mirrorCell n) p)) := by
  rw [quadrant, List.foldl_flatMap, List.range_eq_range']
  refine forLoop_fold (Nat.zero_le half) (by omega) (fun i _ hi p => ?_) p
  rw [List.foldl_map]
  refine forLoop_fold (Nat.zero_le half) (by omega) (fun j _ hj p => ?_) p
  exact mirrorQuadrant_picture hsize (by omega) (by omega)

theorem c_loops (hsize : n * n < 2 ^ 31) (hW : half = (n + n % 2) / 2) :
    imgprocKaleidoscope (picture n n inPix) (picture n n p) =
      some (1, picture n n ((quadrant half).foldl (mirrorCell n)
        ((wedge half).foldl (copyCell n inPix) p))) := by
  have hn := succ_lt_of_mul_self_lt hsize
  have hshift : (BitVec.ofNat 32 (n + n % 2)).sshiftRight 1 = BitVec.ofNat 32 half := by
    rw [half_size (by omega), hW]
  have hcopy := copyWedge_loops hsize (show half < 2 ^ 31 by omega) (by omega) inPix p
  have hmirror := mirrorQuadrant_loops hsize (show half < 2 ^ 31 by omega) (Nat.le_of_eq hW)
  have hsquare : ¬(picture n n inPix).width ≠ (picture n n inPix).height := by simp [picture]
  have hw : (picture n n inPix).width = BitVec.ofNat 32 n := rfl
  have hh : (picture n n inPix).height = BitVec.ofNat 32 n := rfl
  rw [imgprocKaleidoscope, if_neg hsquare]
  simp only [hw, hh, mirrored_size, hshift, hcopy, Option.bind_eq_bind,
    Option.bind_some]
  simp only [even_ofNat, hmirror, Option.bind_some, Option.pure_def]

/-- The first loops fill the quadrant. -/
theorem copy_quadrant (hle : half ≤ (n + n % 2) / 2) (hi : i < half) (hj : j < half) :
    (wedge half).foldl (copyCell n inPix) p (n * i + j) = kaleidoPixel n inPix i j := by
  have hfi : fold n i = i := fold_self (by omega)
  have hfj : fold n j = j := fold_self (by omega)
  unfold copyCell
  rw [foldl_paint]
  apply paint_of_mem
  · refine List.mem_flatMap.mpr ⟨(min i j, max i j), mem_wedge.mpr ⟨min_le_max, by simp [hi, hj]⟩, ?_⟩
    rcases Nat.le_total i j with hij | hij
    · simp [kaleidoPixel, hfi, hfj, hij]
    · simp [kaleidoPixel, hfi, hfj, hij]
  · intro w hw hx
    obtain ⟨⟨a, b⟩, hab, hw⟩ := List.mem_flatMap.mp hw
    obtain ⟨h1, h2⟩ := mem_wedge.mp hab
    simp only at h1 h2
    refine (?_ : kaleidoPixel n inPix i j = w.2).symm
    simp only [List.mem_cons, List.not_mem_nil, or_false] at hw
    rcases hw with rfl | rfl
    · obtain ⟨rfl, rfl⟩ := index_inj (by omega) (by omega) hx
      exact kaleidoPixel_of_fold h1 (.inl ⟨hfi, hfj⟩)
    · obtain ⟨rfl, rfl⟩ := index_inj (by omega) (by omega) hx
      exact kaleidoPixel_of_fold h1 (.inr ⟨hfi, hfj⟩)

theorem fold_of_mirrorPlaces {q : Nat × Nat} (hi : i < (n + n % 2) / 2) (hj : j < (n + n % 2) / 2)
    (hq : q ∈ mirrorPlaces n (i, j)) : q.2 < n ∧ fold n q.1 = i ∧ fold n q.2 = j := by
  have hlt {x : Nat} (hx : n % 2 = 0 ∨ 0 < x) (h : x < (n + n % 2) / 2) : mirror n x < n := by
    unfold mirror
    omega
  simp only [mirrorPlaces, List.mem_append, List.mem_ite_nil_right, List.mem_singleton] at hq
  rcases hq with (⟨h, rfl⟩ | ⟨h, rfl⟩) | ⟨h, rfl⟩
  · exact ⟨hlt h hj, fold_self hi, fold_mirror hj⟩
  · exact ⟨by simp only; omega, fold_mirror hi, fold_self hj⟩
  · exact ⟨hlt (h.imp_right And.right) hj, fold_mirror hi, fold_mirror hj⟩

/-- Every pixel is in the quadrant, or a round of the second loops stores it. -/
theorem quadrant_or_mirror (hr : r < n) (hc : c < n) :
    (r = fold n r ∧ c = fold n c) ∨ (r, c) ∈ mirrorPlaces n (fold n r, fold n c) := by
  have hmr := fold_cases hr
  have hmc := fold_cases hc
  have h0 {x : Nat} (hx : x < n) (h : x = mirror n (fold n x)) : n % 2 = 0 ∨ 0 < fold n x := by
    unfold mirror at h
    omega
  simp only [mirrorPlaces, List.mem_append, List.mem_ite_nil_right, List.mem_singleton, Prod.mk.injEq]
  rcases hmr with hr' | hr' <;> rcases hmc with hc' | hc'
  · exact .inl ⟨hr', hc'⟩
  · exact .inr (.inl (.inl ⟨h0 hc hc', hr', hc'⟩))
  · exact .inr (.inl (.inr ⟨h0 hr hr', hr', hc'⟩))
  · have h1 := h0 hr hr'
    have h2 := h0 hc hc'
    exact .inr (.inr ⟨or_and_left.mpr ⟨h1, h2⟩, hr', hc'⟩)

/-- The picture, by index. -/
def kaleidoSpec (n : Nat) (inPix : Nat → Pixel) (x : Nat) : Pixel := kaleidoPixel n inPix (x / n) (x % n)

theorem kaleidoSpec_index (hc : c < n) : kaleidoSpec n inPix (n * r + c) = kaleidoPixel n inPix r c := by
  simp only [kaleidoSpec, Nat.mul_comm n, index_div _ hc, index_mod _ hc]

/-- Within a round of the second loops, the pixel read is right from the start. -/
theorem mirror_round (hi : i < (n + n % 2) / 2) (hj : j < (n + n % 2) / 2)
    (ho : p (n * i + j) = kaleidoSpec n inPix (n * i + j)) {x : Nat}
    (hx : p x = kaleidoSpec n inPix x ∨ x ∈ (mirrorPlaces n (i, j)).map fun q => n * q.1 + q.2) :
    mirrorCell n p (i, j) x = kaleidoSpec n inPix x := by
  refine foldl_improves (b := fun x => x = n * i + j) (w := fun q => [n * q.1 + q.2]) ?_ ?_ ?_
  · intro q hq p ho x hx
    obtain ⟨hq2, hf1, hf2⟩ := fold_of_mirrorPlaces hi hj hq
    by_cases hxq : x = n * q.1 + q.2
    · have hsame : kaleidoSpec n inPix (n * q.1 + q.2) = kaleidoSpec n inPix (n * i + j) := by
        rw [kaleidoSpec_index hq2, kaleidoSpec_index (by omega), kaleidoPixel, kaleidoPixel, hf1, hf2,
          fold_self hi, fold_self hj]
      rw [hxq, Function.update_self, hsame]
      exact ho _ rfl
    · rw [Function.update_of_ne hxq]
      simpa [hxq] using hx
  · rintro x rfl
    exact ho
  · rcases hx with hx | hx
    · exact .inl hx
    · obtain ⟨q, hq, rfl⟩ := List.mem_map.mp hx
      exact .inr ⟨q, hq, by simp⟩

/-- The C function paints the same picture. -/
theorem c_picture (hsize : n * n < 2 ^ 31) :
    ∃ q, imgprocKaleidoscope (picture n n inPix) (picture n n p) = some (1, picture n n q) ∧
      ∀ r < n, ∀ c < n, q (n * r + c) = kaleidoPixel n inPix r c := by
  refine ⟨_, c_loops hsize rfl, fun r hr c hc => ?_⟩
  have hcopy : ∀ i < (n + n % 2) / 2, ∀ j < (n + n % 2) / 2,
      (wedge ((n + n % 2) / 2)).foldl (copyCell n inPix) p (n * i + j) =
        kaleidoSpec n inPix (n * i + j) := by
    intro i hi j hj
    rw [kaleidoSpec_index (by omega)]
    exact copy_quadrant (Nat.le_refl _) hi hj
  rw [← kaleidoSpec_index hc]
  refine foldl_improves
    (b := fun x => ∃ i < (n + n % 2) / 2, ∃ j < (n + n % 2) / 2, x = n * i + j)
    (w := fun c => (mirrorPlaces n c).map fun q => n * q.1 + q.2) ?_ ?_ ?_
  · rintro ⟨i, j⟩ hij p hbase x hx
    obtain ⟨hi, hj⟩ := mem_quadrant.mp hij
    exact mirror_round hi hj (hbase _ ⟨i, hi, j, hj, rfl⟩) hx
  · rintro _ ⟨i, hi, j, hj, rfl⟩
    exact hcopy i hi j hj
  · rcases quadrant_or_mirror hr hc with ⟨hr', hc'⟩ | hm
    · left
      rw [hr', hc']
      exact hcopy _ (fold_lt hr) _ (fold_lt hc)
    · exact .inr ⟨_, mem_quadrant.mpr ⟨fold_lt hr, fold_lt hc⟩, List.mem_map.mpr ⟨_, hm, rfl⟩⟩

/-! ## Agreement -/

/-- Painted with the same picture. -/
theorem picture_eq {q q' : Nat → Pixel} (h : ∀ r < n, ∀ c < n, q (n * r + c) = kaleidoPixel n inPix r c)
    (h' : ∀ r < n, ∀ c < n, q' (n * r + c) = kaleidoPixel n inPix r c) :
    picture n n q = picture n n q' := by
  refine picture_congr fun x hx => ?_
  have hpos : 0 < n := Nat.pos_of_ne_zero fun h0 => by simp [h0] at hx
  have hrow : x / n < n := Nat.div_lt_of_lt_mul hx
  have hcol : x % n < n := Nat.mod_lt x hpos
  rw [← Nat.div_add_mod x n, h _ hrow _ hcol, h' _ hrow _ hcol]

/-- On a square input, any way of the assembly to the picture agrees with the C function. -/
theorem square_agree {s s' : State} {w12 w13 w14 w15 : BitVec 64} {new : List Access} {pix : Nat → Pixel}
    (hc : Called L s) (hs : Square L n) (h : Exit L s 1 w12 w13 w14 w15 new pix s')
    (hpix : ∀ r < n, ∀ c < n, pix (n * r + c) = kaleidoPixel n (L.contents s.mem).inPix r c) :
    imgprocKaleidoscope (L.inp.image s.mem) (L.out.image s.mem) =
      some (low s'.regs.rax, L.out.image s'.mem) ∧ low s'.regs.rax = 1 := by
  have hrax : low s'.regs.rax = 1 := by rw [h.rax, low_zext]
  refine ⟨?_, hrax⟩
  obtain ⟨q, hC, hq⟩ : ∃ q, imgprocKaleidoscope (picture n n (L.contents s.mem).inPix)
      (picture n n (L.contents s.mem).outPix) = some (1, picture n n q) ∧
      ∀ r < n, ∀ c < n, q (n * r + c) = kaleidoPixel n (L.contents s.mem).inPix r c :=
    c_picture (odd_sizes hc.valid hs).2
  have hout := (hc.holds 0).out.image
  rw [hrax, h.mem.out.image, hout, Img.image, hs.inp.1, hs.inp.2, hs.out.1, hs.out.2]
  exact hC.trans (congrArg (fun i => some (1, i)) (picture_eq hq hpix))

/-- **C and assembly agree** on the value returned and on every pixel of the output. -/
theorem kaleidoscope_agree {s : State} (hc : Called L s) (hfit : Entry.kaleidoscope.Fits L) :
    ∃ ra s', Returns (program text) .imgprocKaleidoscope s ra s' ∧
      imgprocKaleidoscope (L.inp.image s.mem) (L.out.image s.mem) =
        some (low s'.regs.rax, L.out.image s'.mem) ∧
      if L.inp.width = L.inp.height then low s'.regs.rax = 1
      else low s'.regs.rax = 0 ∧ L.out.image s'.mem = L.out.image s.mem := by
  have hv := hc.valid
  have hout := (hc.holds 0).out.image
  by_cases hsq : L.inp.width = L.inp.height
  · simp only [if_pos hsq]
    obtain ⟨n, hn⟩ : ∃ n, L.inp.width = n := ⟨_, rfl⟩
    have hs : Square L n := ⟨⟨hn, by omega⟩, ⟨by rw [hfit.1, hn], by rw [hfit.2]; omega⟩⟩
    rcases Nat.mod_two_eq_zero_or_one n with heven | hodd
    · obtain ⟨s', hr, h⟩ := even_returns hc hs heven
      exact ⟨s.top, s', hr, square_agree hc hs h fun r hr c hc => even_picture heven hr hc⟩
    · obtain ⟨s', hr, h⟩ := odd_returns hc hs hodd
      exact ⟨s.top, s', hr, square_agree hc hs h fun r hr c hc => odd_picture hodd hr hc⟩
  · simp only [if_neg hsq]
    obtain ⟨s', hr, h⟩ := mismatch_returns hc hsq
    have hrax : low s'.regs.rax = 0 := by rw [h.rax, low_zext]
    have hsame : L.out.image s'.mem = L.out.image s.mem := by
      rw [hout, h.mem.out.image]
      rfl
    refine ⟨s.top, s', hr, ?_, hrax, hsame⟩
    have hne : (L.inp.image s.mem).width ≠ (L.inp.image s.mem).height := fun he =>
      hsq (ofNat_injective hv.inp.width hv.inp.height he)
    rw [imgprocKaleidoscope, if_pos hne, hrax, hsame]

theorem kaleidoscope_agree_three :
    ∃ ra s', Returns (program fun _ => 0x400000#64) .imgprocKaleidoscope (squareState 3) ra s' ∧
      imgprocKaleidoscope ((sampleLayout 3 3 3 3).inp.image (squareState 3).mem)
        ((sampleLayout 3 3 3 3).out.image (squareState 3).mem) =
        some (low s'.regs.rax, (sampleLayout 3 3 3 3).out.image s'.mem) ∧
      if 3 = 3 then low s'.regs.rax = 1
      else low s'.regs.rax = 0 ∧
        (sampleLayout 3 3 3 3).out.image s'.mem = (sampleLayout 3 3 3 3).out.image (squareState 3).mem :=
  kaleidoscope_agree (squareState_called (by decide)) ⟨rfl, rfl⟩

end CsfAssignments.Imgproc
