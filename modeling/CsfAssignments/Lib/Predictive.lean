import Mathlib.Algebra.Group.Basic
import Mathlib.Data.List.Basic
/-!
# Predictive coding

A predictor guesses the next element of a sequence from the elements in front of it. `residuals` is what is
left of each element after the guess, `reconstruct` adds the guesses back. Nothing is lost whatever the
predictor (`reconstruct_residuals`), and a reconstruction is the only sequence that satisfies its own
equations (`eq_reconstruct_iff`).
-/

namespace Predictive

variable {G : Type*} [AddGroup G]

/-- The residuals of `xs`, with `past` in front of it. -/
def residuals (predict : List G → G) (past : List G) : List G → List G
  | [] => []
  | x :: xs => (x - predict past) :: residuals predict (past ++ [x]) xs

/-- `past`, and behind it what the residuals `ds` stand for. -/
def reconstruct (predict : List G → G) (past ds : List G) : List G :=
  ds.foldl (fun out d => out ++ [d + predict out]) past

variable (predict : List G → G) (past : List G)

@[simp] theorem reconstruct_nil : reconstruct predict past [] = past := rfl

theorem reconstruct_cons (d : G) (ds : List G) :
    reconstruct predict past (d :: ds) = reconstruct predict (past ++ [d + predict past]) ds := rfl

@[simp] theorem length_reconstruct (ds : List G) :
    (reconstruct predict past ds).length = past.length + ds.length := by
  induction ds generalizing past with
  | nil => simp
  | cons d ds ih =>
    rw [reconstruct_cons, ih]
    simp only [List.length_append, List.length_cons, List.length_nil]
    omega

@[simp] theorem length_residuals (xs : List G) : (residuals predict past xs).length = xs.length := by
  induction xs generalizing past with
  | nil => rfl
  | cons x xs ih => simp [residuals, ih]

/-- What is in front stays. -/
theorem take_reconstruct (ds : List G) : (reconstruct predict past ds).take past.length = past := by
  induction ds generalizing past with
  | nil => simp
  | cons d ds ih =>
    have h := congrArg (List.take past.length) (ih (past ++ [d + predict past]))
    rw [List.take_take, Nat.min_eq_left (by simp), List.take_left] at h
    rw [reconstruct_cons, h]

/-- **Lossless**: adding the guesses back gives the sequence. -/
theorem reconstruct_residuals (xs : List G) :
    reconstruct predict past (residuals predict past xs) = past ++ xs := by
  induction xs generalizing past with
  | nil => simp [residuals]
  | cons x xs ih =>
    rw [residuals, reconstruct_cons, sub_add_cancel, ih, List.append_assoc]
    rfl

/-- With `past` in front, a sequence is reconstructed when each element is its residual plus the guess. -/
theorem append_eq_reconstruct_iff {xs ds : List G} :
    past ++ xs = reconstruct predict past ds ↔ xs.length = ds.length ∧
      ∀ i (hi : i < xs.length) (hi' : i < ds.length), xs[i] = ds[i] + predict (past ++ xs.take i) := by
  induction xs generalizing past ds with
  | nil =>
    cases ds with
    | nil => simp
    | cons d ds =>
      have hne : past ≠ reconstruct predict past (d :: ds) := by
        intro h
        have := congrArg List.length h
        simp at this
      simp [hne]
  | cons x xs ih =>
    cases ds with
    | nil => simp
    | cons d ds =>
      have hsplit : past ++ x :: xs = (past ++ [x]) ++ xs := by simp
      rw [reconstruct_cons]
      constructor
      · intro h
        have htake := take_reconstruct predict (past ++ [d + predict past]) ds
        rw [← h, List.length_append, List.length_singleton] at htake
        have hx : x = d + predict past := by
          have hget := congrArg (·[past.length]?) htake
          simpa [List.getElem?_take] using hget
        rw [← hx, hsplit] at h
        obtain ⟨hlen, heq⟩ := (ih (past ++ [x])).mp h
        refine ⟨by simpa using hlen, ?_⟩
        intro i hi hi'
        cases i with
        | zero => simpa using hx
        | succ i => simpa using heq i (by simpa using hi) (by simpa using hi')
      · rintro ⟨hlen, heq⟩
        have hx := heq 0 (by simp) (by simp)
        simp only [List.getElem_cons_zero, List.take_zero, List.append_nil] at hx
        rw [← hx, hsplit]
        refine (ih (past ++ [x])).mpr ⟨by simpa using hlen, ?_⟩
        intro i hi hi'
        have := heq (i + 1) (by simpa using hi) (by simpa using hi')
        simpa using this

/-- **A reconstruction is the solution of its equations.** -/
theorem eq_reconstruct_iff {xs ds : List G} :
    xs = reconstruct predict [] ds ↔ xs.length = ds.length ∧
      ∀ i (hi : i < xs.length) (hi' : i < ds.length), xs[i] = ds[i] + predict (xs.take i) :=
  append_eq_reconstruct_iff predict []

end Predictive
