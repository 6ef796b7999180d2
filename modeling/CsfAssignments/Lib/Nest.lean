import Mathlib.Order.CompletePartialOrder
import Mathlib.Data.Set.Lattice
/-!
# Nested regions

A node of a tree is its way up to the root: `a :: p` is a child of `p`. A node owns a set; a child's is
inside its parent's, and two children of one node have disjoint sets (`Nested`). Then a node's set is
inside that of everything above it (`Nested.sub`), and two nodes of which neither is above the other
have disjoint sets (`Nested.disjoint`).
-/

namespace Nest

variable {σ ι : Type*} {a b : σ} {p q r : List σ}

/-- What is above `q` or is `q`, but not `p`, where `p` is above `q`: the child of `p` on the way. -/
theorem exists_child (h : p <:+ q) (hne : q ≠ p) : ∃ a, a :: p <:+ q := by
  obtain ⟨t, rfl⟩ := h
  rcases t.eq_nil_or_concat with rfl | ⟨t, a, rfl⟩
  · exact absurd rfl hne
  · exact ⟨a, t, by simp⟩

/-- Two nodes on different branches part at a node above both. -/
theorem exists_fork (hpq : ¬p <:+ q) (hqp : ¬q <:+ p) :
    ∃ r a b, a ≠ b ∧ a :: r <:+ p ∧ b :: r <:+ q := by
  induction p with
  | nil => exact absurd (List.nil_suffix) hpq
  | cons a p ih =>
    by_cases hp : p <:+ q
    · have hne : q ≠ p := fun h => hqp (h ▸ List.suffix_cons a p)
      obtain ⟨b, hb⟩ := exists_child hp hne
      exact ⟨p, a, b, fun hab => hpq (hab ▸ hb), List.suffix_refl _, hb⟩
    · obtain ⟨r, x, y, hxy, hx, hy⟩ := ih hp fun h => hqp (h.trans (List.suffix_cons a p))
      exact ⟨r, x, y, hxy, hx.trans (List.suffix_cons a p), hy⟩

structure Nested (owns : List σ → Option (Set ι)) : Prop where
  inside : ∀ {a p S}, owns (a :: p) = some S → ∃ T, owns p = some T ∧ S ⊆ T
  apart : ∀ {a b p S T}, a ≠ b → owns (a :: p) = some S → owns (b :: p) = some T → Disjoint S T

variable {owns : List σ → Option (Set ι)} {S T : Set ι}

/-- Everything above a node is there, and owns all that the node owns. -/
theorem Nested.sub (h : Nested owns) (hpq : p <:+ q) (hq : owns q = some S) :
    ∃ T, owns p = some T ∧ S ⊆ T := by
  induction q generalizing S with
  | nil =>
    rw [List.suffix_nil] at hpq
    exact ⟨S, hpq ▸ hq, subset_rfl⟩
  | cons a q ih =>
    rcases List.suffix_cons_iff.1 hpq with rfl | hp
    · exact ⟨S, hq, subset_rfl⟩
    · obtain ⟨U, hU, hSU⟩ := h.inside hq
      obtain ⟨T, hT, hUT⟩ := ih hp hU
      exact ⟨T, hT, hSU.trans hUT⟩

/-- **Branches.** Nodes on different branches own nothing in common. -/
theorem Nested.disjoint (h : Nested owns) (hpq : ¬p <:+ q) (hqp : ¬q <:+ p) (hp : owns p = some S)
    (hq : owns q = some T) : Disjoint S T := by
  obtain ⟨r, a, b, hab, ha, hb⟩ := exists_fork hpq hqp
  obtain ⟨S', hS', hS⟩ := h.sub ha hp
  obtain ⟨T', hT', hT⟩ := h.sub hb hq
  exact (h.apart hab hS' hT').mono hS hT

end Nest
