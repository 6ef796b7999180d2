import Mathlib.Logic.Function.Basic
import Mathlib.Data.List.Basic
/-!
# Writes into an array

An array is a function from places to values. `paint` does a list of writes one after the other; what a
place holds in the end is what the last write to it says.

`foldl_improves` is for programs that read back what they wrote: each step may spoil no place that is
right already.
-/

namespace Paint

variable {ι α κ : Type} {p : ι → α} {x : ι}

section
variable [DecidableEq ι] {ws : List (ι × α)} {v : α}

def paint (ws : List (ι × α)) (p : ι → α) : ι → α :=
  ws.foldl (fun p w => Function.update p w.1 w.2) p

theorem paint_append (ws ws' : List (ι × α)) (p : ι → α) :
    paint (ws ++ ws') p = paint ws' (paint ws p) := List.foldl_append

theorem foldl_paint (writes : κ → List (ι × α)) (cells : List κ) (p : ι → α) :
    cells.foldl (fun p c => paint (writes c) p) p = paint (cells.flatMap writes) p :=
  (List.foldl_flatMap ..).symm

/-- All writes to a place agree, and there is one. -/
theorem paint_of_mem (hmem : (x, v) ∈ ws) (h : ∀ w ∈ ws, w.1 = x → w.2 = v) : paint ws p x = v := by
  have hkeep : ∀ (ws : List (ι × α)) (p : ι → α), (∀ w ∈ ws, w.1 = x → w.2 = v) → p x = v →
      paint ws p x = v := by
    intro ws
    induction ws with
    | nil => exact fun _ _ hp => hp
    | cons w ws ih =>
      intro p h hp
      refine ih (Function.update p w.1 w.2) (fun w' hw' => h w' (by simp [hw'])) ?_
      by_cases hw : w.1 = x
      · rw [← hw, Function.update_self, h w (by simp) hw]
      · rw [Function.update_of_ne (Ne.symm hw), hp]
  obtain ⟨ws₁, ws₂, rfl⟩ := List.append_of_mem hmem
  rw [paint_append]
  exact hkeep ws₂ _ (fun w hw => h w (by simp [hw])) (Function.update_self ..)

/-- Every place is written once. -/
theorem foldl_update (value : ι → α) {places : List ι} (hx : x ∈ places) :
    places.foldl (fun p y => Function.update p y (value y)) p x = value x := by
  have hpaint := foldl_paint (fun y => [(y, value y)]) places p
  rw [show places.foldl (fun p y => Function.update p y (value y)) p = _ from hpaint]
  apply paint_of_mem
  · exact List.mem_flatMap.mpr ⟨x, hx, List.mem_singleton_self _⟩
  · intro w hw hplace
    obtain ⟨y, -, hy⟩ := List.mem_flatMap.mp hw
    rw [List.mem_singleton.mp hy] at hplace ⊢
    rw [show y = x from hplace]

/-- Every place is modified once. -/
theorem foldl_modify (f : ι → α → α) {places : List ι} (hn : places.Nodup) (hx : x ∈ places) :
    places.foldl (fun p y => Function.update p y (f y (p y))) p x = f x (p x) := by
  have hkeep : ∀ (places : List ι) (p : ι → α), x ∉ places →
      places.foldl (fun p y => Function.update p y (f y (p y))) p x = p x := by
    intro places
    induction places with
    | nil => exact fun _ _ => rfl
    | cons y places ih =>
      intro p hx
      simp only [List.mem_cons, not_or] at hx
      rw [List.foldl_cons, ih _ hx.2, Function.update_of_ne hx.1]
  induction places generalizing p with
  | nil => cases hx
  | cons y places ih =>
    obtain ⟨hy, hn⟩ := List.nodup_cons.mp hn
    rw [List.foldl_cons]
    by_cases hxy : x = y
    · subst hxy
      rw [hkeep _ _ hy, Function.update_self]
    · rw [ih hn ((List.mem_cons.mp hx).resolve_left hxy), Function.update_of_ne hxy]

/-- The cells after `c` leave its write alone. -/
theorem paint_flatMap {writes : κ → List (ι × α)} {cells : List κ} {R : κ → κ → Prop} {c : κ}
    (hsorted : cells.Pairwise R) (hc : c ∈ cells) (hmem : (x, v) ∈ writes c)
    (hself : ∀ w ∈ writes c, w.1 = x → w.2 = v)
    (h : ∀ c' ∈ cells, R c c' → ∀ w ∈ writes c', w.1 = x → w.2 = v) :
    paint (cells.flatMap writes) p x = v := by
  obtain ⟨cs₁, cs₂, rfl⟩ := List.append_of_mem hc
  rw [List.flatMap_append, paint_append]
  have hafter : ∀ c' ∈ cs₂, R c c' := (List.pairwise_cons.mp (List.pairwise_append.mp hsorted).2.1).1
  refine paint_of_mem (List.mem_flatMap.mpr ⟨c, by simp, hmem⟩) fun w hws => ?_
  obtain ⟨c', hc', hw⟩ := List.mem_flatMap.mp hws
  rcases List.mem_cons.mp hc' with rfl | hc'
  · exact hself w hw
  · exact h c' (by simp [hc']) (hafter c' hc') w hw

end

/-- Steps that spoil nothing, once the places in `b` are right. -/
theorem foldl_improves {spec : ι → α} {b : ι → Prop} {step : (ι → α) → κ → ι → α}
    {w : κ → List ι} {cells : List κ}
    (hstep : ∀ c ∈ cells, ∀ p, (∀ x, b x → p x = spec x) →
      ∀ x, p x = spec x ∨ x ∈ w c → step p c x = spec x)
    (hbase : ∀ x, b x → p x = spec x) (hx : p x = spec x ∨ ∃ c ∈ cells, x ∈ w c) :
    cells.foldl step p x = spec x := by
  induction cells generalizing p with
  | nil => simpa using hx
  | cons c cells ih =>
    have hnext := hstep c (by simp) p hbase
    refine ih (fun c' hc' => hstep c' (by simp [hc'])) (fun x hb => hnext x (.inl (hbase x hb))) ?_
    rcases hx with hx | ⟨c', hc', hx⟩
    · exact .inl (hnext x (.inl hx))
    rcases List.mem_cons.mp hc' with rfl | hc'
    · exact .inl (hnext x (.inr hx))
    · exact .inr ⟨c', hc', hx⟩

end Paint
