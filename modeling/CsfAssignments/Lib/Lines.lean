import Mathlib.Data.List.Basic
/-!
# Reading lines off a stream

A stream is a list; a line ends at the delimiter `d`. `takeLine d k` is what a reader with room for
`k` elements takes: everything through the first `d`, or `k` elements when no `d` is among them.
`takeLine_line` and `takeLine_long` are the two cases. `linesOf` reads the whole stream, and takes lines of
any length.
-/

namespace Lines

variable {α : Type*} {d : α}

/-- The stream of some lines. -/
def unlines (d : α) (ls : List (List α)) : List α := ls.flatMap fun l => l ++ [d]

@[simp] theorem unlines_nil : unlines d ([] : List (List α)) = [] := rfl

@[simp] theorem unlines_cons (l : List α) (ls : List (List α)) :
    unlines d (l :: ls) = l ++ d :: unlines d ls := by simp [unlines]

variable [DecidableEq α]

/-- The next line of the stream, cut off after `k` elements, and what is left. -/
def takeLine (d : α) : Nat → List α → List α × List α
  | 0, s => ([], s)
  | _ + 1, [] => ([], [])
  | k + 1, c :: s =>
    if c = d then ([c], s) else (c :: (takeLine d k s).1, (takeLine d k s).2)

@[simp] theorem takeLine_nil (k : Nat) : takeLine d k [] = ([], []) := by cases k <;> rfl

/-- A line that fits is taken whole. -/
theorem takeLine_line {k : Nat} {l : List α} (hd : d ∉ l) (hk : l.length < k) (s : List α) :
    takeLine d k (l ++ d :: s) = (l ++ [d], s) := by
  induction l generalizing k with
  | nil =>
    obtain ⟨k, rfl⟩ : ∃ j, k = j + 1 := ⟨k - 1, by simp at hk; omega⟩
    simp [takeLine]
  | cons c l ih =>
    obtain ⟨k, rfl⟩ : ∃ j, k = j + 1 := ⟨k - 1, by simp at hk; omega⟩
    simp only [List.mem_cons, not_or] at hd
    simp only [List.length_cons, Nat.add_lt_add_iff_right] at hk
    simp [takeLine, Ne.symm hd.1, ih hd.2 hk]

/-- A line that does not fit is cut after `k` elements. -/
theorem takeLine_long {k : Nat} {l : List α} (hd : d ∉ l) (hk : k ≤ l.length) (s : List α) :
    takeLine d k (l ++ s) = (l.take k, l.drop k ++ s) := by
  induction l generalizing k with
  | nil =>
    obtain rfl : k = 0 := by simpa using hk
    rfl
  | cons c l ih =>
    cases k with
    | zero => rfl
    | succ k =>
      simp only [List.mem_cons, not_or] at hd
      simp only [List.length_cons, Nat.add_le_add_iff_right] at hk
      simp [takeLine, Ne.symm hd.1, ih hd.2 hk]

/-- All lines of the stream, without their delimiters; the last one need not have one. -/
def linesOf (d : α) : List α → List (List α)
  | [] => []
  | c :: s =>
    if c = d then [] :: linesOf d s
    else
      match linesOf d s with
      | [] => [[c]]
      | l :: ls => (c :: l) :: ls

theorem linesOf_line {l : List α} (hd : d ∉ l) (s : List α) : linesOf d (l ++ d :: s) = l :: linesOf d s := by
  induction l with
  | nil => simp [linesOf]
  | cons c l ih =>
    simp only [List.mem_cons, not_or] at hd
    rw [List.cons_append, linesOf, if_neg (Ne.symm hd.1), ih hd.2]

/-- A text with no delimiter is one line, if it is anything. -/
theorem linesOf_last {l : List α} (hne : l ≠ []) (hd : d ∉ l) : linesOf d l = [l] := by
  induction l with
  | nil => exact absurd rfl hne
  | cons c l ih =>
    simp only [List.mem_cons, not_or] at hd
    rw [linesOf, if_neg (Ne.symm hd.1)]
    cases l with
    | nil => rfl
    | cons c' l => rw [ih (by simp) hd.2]

theorem linesOf_unlines {ls : List (List α)} (hd : ∀ l ∈ ls, d ∉ l) : linesOf d (unlines d ls) = ls := by
  induction ls with
  | nil => rfl
  | cons l ls ih =>
    rw [unlines_cons, linesOf_line (hd l (by simp)), ih fun m hm => hd m (by simp [hm])]

end Lines
