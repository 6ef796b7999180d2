import CsfAssignments.Imgproc.AsmEntry
import CsfAssignments.Imgproc.CModel
/-!
# The C functions on whole images

`picture w h pix` is a C image of the given size. One rule for each thing that the C functions do with
images: `load_picture`, `store_picture`, `computeIndex_picture`, `forLoop_fold`.
-/

namespace CsfAssignments.Imgproc

open Memory X86

def picture (w h : Nat) (pix : Nat → Pixel) : Image where
  width := BitVec.ofNat 32 w
  height := BitVec.ofNat 32 h
  data := (List.range (w * h)).map pix

/-- The image that a C function finds in memory. -/
def Img.image (I : Img) (m : Mem) : Image :=
  picture I.width I.height fun i => read32 m (I.data + BitVec.ofNat 64 (4 * i))

theorem Img.At.image {I : Img} {m : Mem} {pix : Nat → Pixel} (h : I.At m pix) :
    I.image m = picture I.width I.height pix := by
  have hdata : (List.range I.size).map (fun i => read32 m (I.data + BitVec.ofNat 64 (4 * i))) =
      (List.range I.size).map pix := List.map_congr_left fun i hi => h.pixels i (List.mem_range.mp hi)
  exact congrArg (Image.mk _ _) hdata

theorem signExtend_ofNat {n : Nat} (hn : n < 2 ^ 31) :
    (BitVec.ofNat 32 n).signExtend 64 = BitVec.ofNat 64 n := by
  have hnat : (BitVec.ofNat 32 n).toNat = n := by
    rw [BitVec.toNat_ofNat]
    exact Nat.mod_eq_of_lt (by omega)
  rw [BitVec.signExtend_eq_setWidth_of_msb_false (by rw [BitVec.msb_eq_false_iff_two_mul_lt]; omega)]
  apply BitVec.eq_of_toNat_eq
  rw [BitVec.toNat_setWidth, hnat, BitVec.toNat_ofNat]

variable {w h : Nat} {pix pix' : Nat → Pixel} {x : Nat}

theorem picture_congr (he : ∀ x < w * h, pix x = pix' x) : picture w h pix = picture w h pix' := by
  have hdata : (List.range (w * h)).map pix = (List.range (w * h)).map pix' :=
    List.map_congr_left fun x hx => he x (List.mem_range.mp hx)
  rw [picture, picture, hdata]

theorem getElem?_picture (hx : x < w * h) : (picture w h pix).data[x]? = some (pix x) := by
  simp [picture, hx]

theorem load_picture (hsize : w * h < 2 ^ 31) (hx : x < w * h) :
    (picture w h pix).load (BitVec.ofNat 32 x) = some (pix x) := by
  have hneg : ¬(BitVec.ofNat 32 x).toInt < 0 := by
    rw [toInt_ofNat (Nat.lt_trans hx hsize)]
    omega
  have hnat : x % 2 ^ 32 = x := Nat.mod_eq_of_lt (by omega)
  rw [Image.load, if_neg hneg, BitVec.toNat_ofNat, hnat]
  exact getElem?_picture hx

theorem store_picture (hsize : w * h < 2 ^ 31) (hx : x < w * h) (v : Pixel) :
    (picture w h pix).store (BitVec.ofNat 32 x) v = some (picture w h (Function.update pix x v)) := by
  have hnat : (BitVec.ofNat 32 x).toNat = x := by
    rw [BitVec.toNat_ofNat]
    exact Nat.mod_eq_of_lt (by omega)
  have hin : ¬((BitVec.ofNat 32 x).toInt < 0 ∨
      (picture w h pix).data.length ≤ (BitVec.ofNat 32 x).toNat) := by
    rw [toInt_ofNat (Nat.lt_trans hx hsize), hnat]
    simp [picture]
    omega
  have hset : ((List.range (w * h)).map pix).set x v =
      (List.range (w * h)).map (Function.update pix x v) := by
    apply List.ext_getElem (by simp)
    intro i h1 h2
    by_cases hi : i = x
    · simp [hi]
    · simp [hi, List.getElem_set_ne (Ne.symm hi)]
  rw [Image.store, if_neg hin, hnat]
  simp only [picture, hset]

theorem computeIndex_picture (c r : Nat) :
    computeIndex (picture w h pix) (BitVec.ofNat 32 c) (BitVec.ofNat 32 r) =
      BitVec.ofNat 32 (r * w + c) := ofNat_index r w c

theorem foldlM_fold {σ τ κ : Type} {φ : τ → σ} {f : σ → κ → Option σ} {g : τ → κ → τ}
    {ks : List κ} (hstep : ∀ k ∈ ks, ∀ t, f (φ t) k = some (φ (g t k))) (t : τ) :
    ks.foldlM f (φ t) = some (φ (ks.foldl g t)) := by
  induction ks generalizing t with
  | nil => rfl
  | cons k ks ih =>
    rw [List.foldlM_cons, hstep k (by simp)]
    exact ih (fun k' hk' => hstep k' (by simp [hk'])) (g t k)

theorem forLoop_fold {σ τ : Type} {b l hi : Nat} {φ : τ → σ} {f : BitVec b → σ → Option σ}
    {g : τ → Nat → τ} (hlo : l ≤ hi) (hhi : 2 * hi < 2 ^ b)
    (hstep : ∀ k, l ≤ k → k < hi → ∀ t, f (BitVec.ofNat b k) (φ t) = some (φ (g t k))) (t : τ) :
    forLoop (BitVec.ofNat b l) (BitVec.ofNat b hi) f (φ t) =
      some (φ ((List.range' l (hi - l)).foldl g t)) := by
  have hint {x : Nat} (hx : 2 * x < 2 ^ b) : (BitVec.ofNat b x).toInt = x := by
    have hnat : (BitVec.ofNat b x).toNat = x := by
      rw [BitVec.toNat_ofNat, Nat.mod_eq_of_lt (by omega)]
    rw [BitVec.toInt_eq_toNat_of_lt (by omega), hnat]
  have hcount : ((BitVec.ofNat b hi).toInt - (BitVec.ofNat b l).toInt).toNat = hi - l := by
    rw [hint hhi, hint (by omega)]
    omega
  rw [forLoop, hcount, List.range'_eq_map_range, List.foldl_map]
  refine foldlM_fold (fun k hk t => ?_) t
  rw [← BitVec.ofNat_add]
  exact hstep (l + k) (Nat.le_add_right l k) (by have := List.mem_range.mp hk; omega) t

/-- Two loops over all pixels. -/
theorem forLoop_pixels {σ τ : Type} {b w h : Nat} {φ : τ → σ} {f : BitVec b → BitVec b → σ → Option σ}
    {g : τ → Nat → τ} (hw : 2 * w < 2 ^ b) (hh : 2 * h < 2 ^ b)
    (hstep : ∀ i < h, ∀ j < w, ∀ t,
      f (BitVec.ofNat b i) (BitVec.ofNat b j) (φ t) = some (φ (g t (i * w + j)))) (t : τ) :
    forLoop 0 (BitVec.ofNat b h) (fun i => forLoop 0 (BitVec.ofNat b w) (f i)) (φ t) =
      some (φ ((List.range (h * w)).foldl g t)) := by
  have hrow : ∀ k, (List.range (k * w)).foldl g t =
      (List.range k).foldl (fun t i => (List.range w).foldl (fun t j => g t (i * w + j)) t) t := by
    intro k
    induction k with
    | zero => simp
    | succ k ih =>
      rw [Nat.succ_mul, List.range_add, List.foldl_append, ih, List.range_succ, List.foldl_append,
        List.foldl_map]
      rfl
  rw [hrow]
  have houter := forLoop_fold (l := 0) (φ := φ) (f := fun i => forLoop 0 (BitVec.ofNat b w) (f i))
    (g := fun t i => (List.range w).foldl (fun t j => g t (i * w + j)) t) (Nat.zero_le h) hh
    (fun i _ hi t => ?_) t
  · rwa [Nat.sub_zero, ← List.range_eq_range'] at houter
  · have hinner := forLoop_fold (l := 0) (φ := φ) (f := f (BitVec.ofNat b i))
      (g := fun t j => g t (i * w + j)) (Nat.zero_le w) hw (fun j _ hj t => hstep i hi j hj t) t
    rwa [Nat.sub_zero, ← List.range_eq_range'] at hinner

end CsfAssignments.Imgproc
