import CsfAssignments.Imgproc.AsmPixelwise
import CsfAssignments.Imgproc.AsmFade
import CsfAssignments.Imgproc.AsmKaleidoscope
/-!
# The calling convention

Every entry point comes back to its caller with the stack where it was, and with `rbx` and `rbp`.
`imgproc_fade` uses `r12` to `r15` without saving them. The three exits of `imgproc_kaleidoscope` pop in
three orders, none of them the order of the pushes; two pops take words that were never pushed.
-/

namespace CsfAssignments.Imgproc

open Memory X86 Asm

variable {text : List (Instr Label) → Addr} {L : Layout}

/-- What the caller must have in its registers, and below its stack, to get its registers back. -/
def Entry.Keeps (e : Entry) (L : Layout) (s : State) : Prop :=
  match e with
  | .rgb | .grayscale => True
  | .fade =>
    s.regs.r12 = word L.inp.height ∧
      s.regs.r13 = word (if L.inp.height = 0 then 0 else L.inp.width) ∧
      s.regs.r14 = s.regs.rdi ∧ s.regs.r15 = s.regs.rsi
  | .kaleidoscope =>
    if L.inp.width ≠ L.inp.height then
      s.regs.r12 = read64 s.mem (L.slot 7) ∧ s.regs.r13 = s.regs.r14 ∧
        s.regs.r14 = read64 s.mem (L.slot 6) ∧ s.regs.r15 = s.regs.r11
    else if L.inp.width % 2 = 0 then
      s.regs.r12 = read64 s.mem (L.slot 6) ∧ s.regs.r13 = read64 s.mem (L.slot 7) ∧
        s.regs.r15 = s.regs.r10
    else
      s.regs.r12 = s.regs.r11 ∧ s.regs.r13 = read64 s.mem (L.slot 7) ∧
        s.regs.r14 = read64 s.mem (L.slot 6) ∧ s.regs.r15 = s.regs.r14

/-- The part of the convention that `imgproc_kaleidoscope` meets leaves the four registers. -/
theorem Exit.restores_iff {s s' : State} {value : BitVec 32} {w12 w13 w14 w15 : BitVec 64}
    {new : List Access} {pix : Nat → Pixel} (h : Exit L s value w12 w13 w14 w15 new pix s') :
    Convention s s.top s' ↔
      s.regs.r12 = w12 ∧ s.regs.r13 = w13 ∧ s.regs.r14 = w14 ∧ s.regs.r15 = w15 := by
  constructor
  · intro hc
    exact ⟨hc.r12.symm.trans h.r12, hc.r13.symm.trans h.r13, hc.r14.symm.trans h.r14,
      hc.r15.symm.trans h.r15⟩
  · rintro ⟨h12, h13, h14, h15⟩
    exact ⟨h.rbx, h.rbp, h.r12.trans h12.symm, h.r13.trans h13.symm, h.r14.trans h14.symm,
      h.r15.trans h15.symm, h.rsp, rfl⟩

theorem kaleidoscope_convention {s : State} (hc : Called L s) (hfit : Entry.kaleidoscope.Fits L) :
    ∃ ra s', Returns (program text) .imgprocKaleidoscope s ra s' ∧
      (Convention s ra s' ↔ Entry.kaleidoscope.Keeps L s) := by
  by_cases hne : L.inp.width ≠ L.inp.height
  · obtain ⟨s', hr, h⟩ := mismatch_returns hc hne
    refine ⟨s.top, s', hr, ?_⟩
    rw [h.restores_iff, Entry.Keeps, if_pos hne]
    rfl
  · have hs : Square L L.inp.width := by
      have he := not_not.mp hne
      exact ⟨⟨rfl, he.symm⟩, ⟨hfit.1, hfit.2.trans he.symm⟩⟩
    rcases Nat.mod_two_eq_zero_or_one L.inp.width with heven | hodd
    · obtain ⟨s', hr, h⟩ := even_returns hc hs heven
      refine ⟨s.top, s', hr, ?_⟩
      rw [h.restores_iff, Entry.Keeps, if_neg hne, if_pos heven]
      simp [Layout.contents]
    · obtain ⟨s', hr, h⟩ := odd_returns hc hs hodd
      refine ⟨s.top, s', hr, ?_⟩
      rw [h.restores_iff, Entry.Keeps, if_neg hne, if_neg (by omega)]
      rfl

theorem fade_convention {s : State} (hc : Called L s) (hfit : Entry.fade.Fits L) :
    ∃ ra s', Returns (program text) .imgprocFade s ra s' ∧
      (Convention s ra s' ↔ Entry.fade.Keeps L s) := by
  obtain ⟨s', hr, hrbx, hrbp, hrsp, h12, h13, h14, h15, -⟩ := fade_returns hc hfit
  refine ⟨s.top, s', hr, ?_⟩
  constructor
  · intro h
    exact ⟨h.r12.symm.trans h12, h.r13.symm.trans h13, h.r14.symm.trans h14, h.r15.symm.trans h15⟩
  · rintro ⟨k12, k13, k14, k15⟩
    exact ⟨hrbx, hrbp, h12.trans k12.symm, h13.trans k13.symm, h14.trans k14.symm,
      h15.trans k15.symm, hrsp, rfl⟩

/-- **When an entry point obeys the calling convention.** -/
theorem Entry.convention_iff (e : Entry) {s : State} (hc : Called L s) (hfit : e.Fits L) :
    ∃ ra s', Returns (program text) e.label s ra s' ∧ (Convention s ra s' ↔ e.Keeps L s) := by
  cases e with
  | rgb =>
    obtain ⟨s', hr, h, -⟩ := rgb_returns hc hfit
    exact ⟨s.top, s', hr, iff_of_true h trivial⟩
  | grayscale =>
    obtain ⟨s', hr, h, -⟩ := grayscale_returns hc hfit
    exact ⟨s.top, s', hr, iff_of_true h trivial⟩
  | fade => exact fade_convention hc hfit
  | kaleidoscope => exact kaleidoscope_convention hc hfit

/-- A caller of `imgproc_fade` with 7 in `r12`, for one pixel. -/
def sevenInR12 : State :=
  sampleState ⟨0, 0, 0, 0, 0, 0, 0, 0, 0, 0, 0, 0, 7, 0, 0, 0⟩ (sampleLayout 1 1 1 1)

theorem sevenInR12_called : Called (sampleLayout 1 1 1 1) sevenInR12 :=
  sample_called _ (by decide) (by decide) (by decide) (by decide) (by decide) (by decide)

theorem Entry.convention_iff_fade :
    ∃ ra s', Returns (program fun _ => 0x400000#64) Entry.fade.label sevenInR12 ra s' ∧
      (Convention sevenInR12 ra s' ↔ Entry.fade.Keeps (sampleLayout 1 1 1 1) sevenInR12) :=
  Entry.fade.convention_iff sevenInR12_called ⟨rfl, rfl⟩

theorem fade_clobbers_r12 :
    ∃ ra s', Returns (program fun _ => 0x400000#64) Entry.fade.label sevenInR12 ra s' ∧
      ¬Convention sevenInR12 ra s' := by
  obtain ⟨ra, s', hr, h⟩ := fade_convention sevenInR12_called ⟨rfl, rfl⟩
  refine ⟨ra, s', hr, fun hc => ?_⟩
  have h12 : (7#64) = word 1 := (h.mp hc).1
  revert h12
  decide

end CsfAssignments.Imgproc
