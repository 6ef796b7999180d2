import CsfAssignments.Imgproc.Kaleidoscope
import CsfAssignments.Imgproc.OutputImage
/-!
# The output of `imgproc_kaleidoscope` (`c_imgproc_fns.c:166-232`)

The wedge `A` of the comment is what lies on or right of the diagonal of the top left quadrant. With `W`
the next even size, `fold n x` is `min x (W - 1 - x)`: it takes a row or column to the quadrant. The order
of the two takes a pixel of the quadrant to the wedge, so the symmetries of the picture are those of
`fold`.
-/

namespace CsfAssignments.Imgproc

/-- The picture and its symmetries. Those that mirror at the middle need an even size. -/
structure EightFold (n : Nat) (input result : Image) : Prop where
  folded : ∀ r < n, ∀ c < n, result.data[n * r + c]? =
    input.data[n * min (fold n r) (fold n c) + max (fold n r) (fold n c)]?
  diagonal : ∀ r < n, ∀ c < n, result.data[n * r + c]? = result.data[n * c + r]?
  vertical : n % 2 = 0 → ∀ r < n, ∀ c < n,
    result.data[n * r + c]? = result.data[n * r + (n - 1 - c)]?
  horizontal : n % 2 = 0 → ∀ r < n, ∀ c < n,
    result.data[n * r + c]? = result.data[n * (n - 1 - r) + c]?
  antidiagonal : n % 2 = 0 → ∀ r < n, ∀ c < n,
    result.data[n * r + c]? = result.data[n * (n - 1 - c) + (n - 1 - r)]?

variable {n x : Nat}

theorem fold_flip (heven : n % 2 = 0) (hx : x < n) : fold n (n - 1 - x) = fold n x := by
  unfold fold
  omega

theorem kaleidoPixel_comm (inPix : Nat → Pixel) (r c : Nat) :
    kaleidoPixel n inPix r c = kaleidoPixel n inPix c r := by
  unfold kaleidoPixel
  rw [min_comm, max_comm]

/-- Pixels that fold to the same place hold the same. -/
theorem eightFold_picture (inPix : Nat → Pixel) :
    EightFold n (picture n n inPix) (picture n n (kaleidoSpec n inPix)) := by
  have hget : ∀ r < n, ∀ c < n, (picture n n (kaleidoSpec n inPix)).data[n * r + c]? =
      some (kaleidoPixel n inPix r c) := by
    intro r hr c hc
    have hx := index_lt hr hc
    rw [Nat.mul_comm n r, getElem?_picture hx, Nat.mul_comm r n, kaleidoSpec_index hc]
  have hsame : ∀ r < n, ∀ c < n, ∀ r' < n, ∀ c' < n, fold n r' = fold n r → fold n c' = fold n c →
      (picture n n (kaleidoSpec n inPix)).data[n * r + c]? =
        (picture n n (kaleidoSpec n inPix)).data[n * r' + c']? := by
    intro r hr c hc r' hr' c' hc' hfr hfc
    rw [hget r hr c hc, hget r' hr' c' hc', kaleidoPixel, kaleidoPixel, hfr, hfc]
  have hdiagonal : ∀ r < n, ∀ c < n, (picture n n (kaleidoSpec n inPix)).data[n * r + c]? =
      (picture n n (kaleidoSpec n inPix)).data[n * c + r]? := by
    intro r hr c hc
    rw [hget r hr c hc, hget c hc r hr, kaleidoPixel_comm]
  refine ⟨?_, hdiagonal, ?_, ?_, ?_⟩
  · intro r hr c hc
    have hlr := fold_lt hr
    have hlc := fold_lt hc
    have hx := index_lt (show min (fold n r) (fold n c) < n by omega) (show max (fold n r) (fold n c) < n by omega)
    rw [hget r hr c hc, Nat.mul_comm n (min _ _), getElem?_picture hx, Nat.mul_comm _ n, kaleidoPixel]
  · intro heven r hr c hc
    exact hsame r hr c hc r hr _ (by omega) rfl (fold_flip heven hc)
  · intro heven r hr c hc
    exact hsame r hr c hc _ (by omega) c hc (fold_flip heven hr) rfl
  · intro heven r hr c hc
    rw [hdiagonal r hr c hc]
    exact hsame c hc r hr _ (by omega) _ (by omega) (fold_flip heven hc) (fold_flip heven hr)

/-- **The kaleidoscope** of every square image returns 1 and overwrites the whole output, whatever was in
it, with the eight-fold picture of the wedge. -/
theorem kaleidoscope_eightFold (hsize : n * n < 2 ^ 31) {input : Image} (hin : input.HasSize n n) :
    ∃ result, result.HasSize n n ∧ EightFold n input result ∧
      ∀ output, output.HasSize n n → imgprocKaleidoscope input output = some (1, result) := by
  have hn := hin.width_lt
  obtain ⟨inPix, rfl⟩ := eq_picture hin.width hin.height hin.length
  refine ⟨picture n n (kaleidoSpec n inPix), picture_hasSize hn hn, eightFold_picture inPix, ?_⟩
  intro output hout
  obtain ⟨p, rfl⟩ := eq_picture hout.width hout.height hout.length
  obtain ⟨q, hrun, hq⟩ : ∃ q, imgprocKaleidoscope (picture n n inPix) (picture n n p) =
      some (1, picture n n q) ∧ ∀ r < n, ∀ c < n, q (n * r + c) = kaleidoPixel n inPix r c :=
    c_picture hsize
  rw [hrun, picture_eq hq fun r _ c hc => kaleidoSpec_index hc]

/-- Nine pixels, numbered. -/
theorem kaleidoscope_eightFold_three :
    ∃ result, result.HasSize 3 3 ∧ EightFold 3 (picture 3 3 (BitVec.ofNat 32)) result ∧
      ∀ output, output.HasSize 3 3 →
        imgprocKaleidoscope (picture 3 3 (BitVec.ofNat 32)) output = some (1, result) :=
  kaleidoscope_eightFold (by decide) (picture_hasSize (by decide) (by decide))

end CsfAssignments.Imgproc
