import CsfAssignments.Imgproc.AsmEntry
/-!
# `imgproc_fade`

`FadeCols` is the invariant of the inner loop: the sizes in `r10` and `r11`, the counters in `r12`
and `r13`, the images in `r14` and `r15`. The calls of `gradient` and `fade_pixel` keep them. None of
`r12`, …, `r15` is restored, so `fade_returns` says what they hold in the end.
-/

namespace CsfAssignments.Imgproc

open Memory X86 Asm

variable {text : List (Instr Label) → Addr} {L : Layout} {A : Contents} {rbx : BitVec 64}

structure FadeRows (L : Layout) (A : Contents) (rbx : BitVec 64) (i : Nat) (s : State) : Prop where
  rbx : s.regs.rbx = rbx
  r10 : s.regs.r10 = word L.inp.width
  r11 : s.regs.r11 = word L.inp.height
  r12 : s.regs.r12 = word i
  r14 : s.regs.r14 = L.inp.ptr
  r15 : s.regs.r15 = L.out.ptr
  rsp : s.regs.rsp = L.slot 2
  mem : Holds L s.mem 2 A

structure FadeCols (L : Layout) (A : Contents) (rbx : BitVec 64) (i j : Nat) (s : State) : Prop
    extends FadeRows L A rbx i s where
  r13 : s.regs.r13 = word j

def fadeCell (w h : Nat) (inPix : Nat → Pixel) (pix : Nat → Pixel) (x : Nat) : Nat → Pixel :=
  Function.update pix x (fadePixel (gradient (word (x / w)) (word h))
    (gradient (word (x % w)) (word w)) (inPix x))

/-- The divisor of `gradient` is positive. -/
theorem toInt_divisor {n : Nat} (hpos : 0 < n) (hlt : n < 2 ^ 31) :
    0 < (1000000#64 * word n).toInt := by
  have h : (1000000#64 * word n).toNat = 1000000 * n := by
    rw [BitVec.toNat_mul, toNat_word (by omega), BitVec.toNat_ofNat]
    omega
  rw [BitVec.toInt_eq_toNat_cond, h, if_pos (by omega)]
  omega

theorem fade_body (hv : L.Valid) (hfit : Entry.fade.Fits L) {i j : Nat} (hi : i < L.inp.height)
    (hj : j < L.inp.width) {p : Nat → Pixel} {s : State}
    (h : FadeCols L (A.paint p) rbx i j s) :
    ∃ s', Goes (program text) (.colLoop, s) (.colLoop, s') ∧
      FadeCols L (A.paint (fadeCell L.inp.width L.inp.height A.inPix p (i * L.inp.width + j))) rbx i
        (j + 1) s' := by
  obtain ⟨r, fl, m, acc⟩ := s
  obtain ⟨⟨hrbx, hr10, hr11, hr12, hr14, hr15, hrsp, hm⟩, hr13⟩ := h
  simp only at hrbx hr10 hr11 hr12 hr14 hr15 hrsp hm hr13
  have hx := index_lt hi hj
  have hw := hv.inp.width
  have hh := hv.inp.height
  have hout : i * L.inp.width + j < L.out.size := by
    rw [Img.size, hfit.1, hfit.2]
    exact hx
  apply goes_of_wp
  simp [program, chunk, colLoop, hr10, hr13]
  refine wp_jcc_passed rfl ?_ ?_
  · simp
    omega
  simp [hr12, hr13, hr14]
  refine wp_helper (helper_computeIndex rfl fun _ h => h.inp.width) hv hm (by decide) hrsp ?_
  rintro _ rfl m fl hm
  simp [hr11, hr15, hrbx]
  refine wp_push hv hm (by decide) rfl fun m hm => ?_
  simp [hm.inp.data, ofNat_index] at hm ⊢
  rw [hm.load_word hv hx]
  refine wp_push hv hm (by decide) rfl fun m hm => ?_
  refine wp_push hv hm (by decide) rfl fun m hm => ?_
  refine wp_helper (helper_gradient hv (by decide) (toInt_divisor (by omega) hh)) hv hm (by decide)
    rfl ?_
  rintro _ ⟨gradrow, _, _, hgradrow, rfl⟩ m fl hm
  simp at hgradrow hm ⊢
  refine wp_pop hm rfl ?_
  refine wp_pop (hm.mono (by decide)) rfl ?_
  replace hm := hm.forget.forget
  simp
  refine wp_push hv hm (by decide) rfl fun m hm => ?_
  simp at hm ⊢
  refine wp_push hv hm (by decide) rfl fun m hm => ?_
  refine wp_push hv hm (by decide) rfl fun m hm => ?_
  refine wp_helper (helper_gradient hv (by decide) (toInt_divisor (by omega) hw)) hv hm (by decide)
    rfl ?_
  rintro _ ⟨gradcol, _, _, hgradcol, rfl⟩ m fl hm
  simp at hgradcol hm ⊢
  refine wp_pop hm rfl ?_
  refine wp_pop (hm.mono (by decide)) rfl ?_
  replace hm := hm.forget.forget
  simp
  refine wp_push hv hm (by decide) rfl fun m hm => ?_
  simp at hm ⊢
  refine wp_pop hm rfl ?_
  refine wp_pop (hm.mono (by decide)) rfl ?_
  replace hm := hm.forget.forget
  simp
  refine wp_helper (helper_fadePixel hv (by decide)) hv hm (by decide) rfl ?_
  rintro _ ⟨pixel, _, _, _, _, hpixel, rfl⟩ m fl hm
  simp at hpixel hm ⊢
  refine wp_pop hm rfl ?_
  replace hm := hm.forget
  simp [hm.out.data]
  refine wp_store hv hm (by decide) rfl rfl (Img.room hout) fun m hm => ?_
  simp [ofNat_succ] at hm ⊢
  refine wp_jmp ⟨rfl, ⟨⟨rfl, rfl, rfl, rfl, rfl, rfl, rfl, ?_⟩, rfl⟩⟩
  simpa [fadeCell, index_div i hj, index_mod i hj, ← hgradrow, ← hgradcol, ← hpixel] using hm

theorem fade_enter (hv : L.Valid) {i : Nat} (hi : i < L.inp.height) {s : State}
    (h : FadeRows L A rbx i s) :
    ∃ s', Goes (program text) (.rowLoop, s) (.colLoop, s') ∧ FadeCols L A rbx i 0 s' := by
  have hh := hv.inp.height
  apply goes_of_wp
  simp [program, chunk, rowLoop, h.r11, h.r12]
  refine wp_jcc_passed rfl ?_ ?_
  · simp
    omega
  simp
  exact wp_nil ⟨rfl, ⟨⟨h.rbx, h.r10, h.r11, h.r12, h.r14, h.r15, h.rsp, h.mem⟩, rfl⟩⟩

theorem fade_leave {i : Nat} {s : State} (h : FadeCols L A rbx i L.inp.width s) :
    ∃ s', Goes (program text) (.colLoop, s) (.rowLoop, s') ∧ FadeRows L A rbx (i + 1) s' ∧
      s'.regs.r13 = word L.inp.width := by
  have htest : ∃ s', Goes (program text) (.colLoop, s) (.endCols, s') ∧
      FadeCols L A rbx i L.inp.width s' := by
    apply goes_of_wp
    simp [program, chunk, colLoop, h.r10, h.r13]
    exact wp_jcc_taken rfl (by simp)
      ⟨rfl, ⟨⟨h.rbx, h.r10, h.r11, h.r12, h.r14, h.r15, h.rsp, h.mem⟩, h.r13⟩⟩
  obtain ⟨s1, g1, h1⟩ := htest
  have hnext : ∃ s', Goes (program text) (.endCols, s1) (.rowLoop, s') ∧
      FadeRows L A rbx (i + 1) s' ∧ s'.regs.r13 = word L.inp.width := by
    apply goes_of_wp
    simp [program, chunk, endCols, h1.r12, ofNat_succ]
    exact wp_jmp ⟨rfl, ⟨h1.rbx, h1.r10, h1.r11, rfl, h1.r14, h1.r15, h1.rsp, h1.mem⟩, h1.r13⟩
  obtain ⟨s', g2, h2⟩ := hnext
  exact ⟨s', g1.trans g2, h2⟩

/-- The inner loop sets `r13`, if it is entered at all. -/
theorem fade_loops (hv : L.Valid) (hfit : Entry.fade.Fits L) {p : Nat → Pixel} {s : State}
    (h : FadeRows L (A.paint p) rbx 0 s) (hr13 : s.regs.r13 = word 0) :
    ∃ s', Goes (program text) (.rowLoop, s) (.rowLoop, s') ∧
      FadeRows L (A.paint ((List.range L.inp.size).foldl
        (fadeCell L.inp.width L.inp.height A.inPix) p)) rbx L.inp.height s' ∧
      s'.regs.r13 = word (if L.inp.height = 0 then 0 else L.inp.width) := by
  have hsize : L.inp.size = L.inp.height * L.inp.width := Nat.mul_comm ..
  rw [hsize]
  refine Goes.nested (f := fun _ => 0) (m := L.inp.width)
    (R := fun i s => FadeRows L (A.paint ((List.range (i * L.inp.width)).foldl
      (fadeCell L.inp.width L.inp.height A.inPix) p)) rbx i s ∧
        s.regs.r13 = word (if i = 0 then 0 else L.inp.width))
    (C := fun i j s => FadeCols L (A.paint ((List.range (i * L.inp.width + j)).foldl
      (fadeCell L.inp.width L.inp.height A.inPix) p)) rbx i j s)
    (fun _ _ => Nat.zero_le _) (fun i hi s hr => fade_enter hv hi hr.1) ?_ ?_
    ⟨by simpa using h, hr13⟩
  · intro i hi j hj _ s hc
    rw [← Nat.add_assoc, List.range_succ, List.foldl_append]
    exact fade_body hv hfit hi hj hc
  · intro i _ s hc
    rw [Nat.succ_mul]
    exact fade_leave hc

/-- The whole routine, with what it leaves in the registers that it should have saved. -/
theorem fade_returns {s : State} (hc : Called L s) (hfit : Entry.fade.Fits L) :
    ∃ s', Returns (program text) .imgprocFade s s.top s' ∧ s'.regs.rbx = s.regs.rbx ∧
      s'.regs.rbp = s.regs.rbp ∧ s'.regs.rsp = s.regs.rsp + 8#64 ∧
      s'.regs.r12 = word L.inp.height ∧
      s'.regs.r13 = word (if L.inp.height = 0 then 0 else L.inp.width) ∧
      s'.regs.r14 = s.regs.rdi ∧ s'.regs.r15 = s.regs.rsi ∧
      Holds L s'.mem 0 ((L.contents s.mem).paint ((List.range L.inp.size).foldl
        (fadeCell L.inp.width L.inp.height (L.contents s.mem).inPix) (L.contents s.mem).outPix)) := by
  have hstart : ∃ s', Goes (program text) (.imgprocFade, s) (.rowLoop, s') ∧
      FadeRows L (Contents.paint ((L.contents s.mem).put 1 s.regs.rbp) (L.contents s.mem).outPix)
        s.regs.rbx 0 s' ∧ s'.regs.r13 = word 0 := by
    apply goes_of_wp
    simp only [program, chunk, Asm.imgprocFade]
    refine wp_push_slot (k := 0) hc.valid (hc.holds 2) (by decide) (by decide) (by simp [hc.rsp])
      fun _ hm => ?_
    simp [hc.rdi, hc.rsi, hm.inp.width, hm.inp.height]
    exact wp_nil ⟨rfl, ⟨rfl, rfl, rfl, rfl, rfl, rfl, rfl, hm⟩, rfl⟩
  obtain ⟨s1, g1, h1, e1⟩ := hstart
  obtain ⟨s2, g2, h2, e2⟩ := fade_loops hc.valid hfit h1 e1
  have htest : ∃ s', Goes (program text) (.rowLoop, s2) (.endRows, s') ∧
      s'.regs = s2.regs ∧ s'.mem = s2.mem := by
    apply goes_of_wp
    simp [program, chunk, rowLoop, h2.r11, h2.r12]
    exact wp_jcc_taken rfl (by simp) ⟨rfl, rfl, rfl⟩
  obtain ⟨⟨r3, fl3, m3, acc3⟩, g3, rfl, rfl⟩ := htest
  have hend : ∃ a s', Returns (program text) .endRows ⟨s2.regs, fl3, s2.mem, acc3⟩ a s' ∧
      a = (L.contents s.mem).stack 0 ∧
      s'.regs = { s2.regs with rbp := s.regs.rbp, rsp := L.sp + 8#64 } ∧
      Holds L s'.mem 0 ((L.contents s.mem).paint ((List.range L.inp.size).foldl
        (fadeCell L.inp.width L.inp.height (L.contents s.mem).inPix) (L.contents s.mem).outPix)) := by
    have hm := h2.mem
    apply returns_of_ends
    simp [program, chunk, endRows, h2.rsp]
    refine wp_pop (k := 0) (hm.mono (by decide)) rfl ?_
    simp only [Contents.put_paint] at hm
    replace hm := (hm.mono (Nat.le_succ 1)).forget
    refine wp_return hm rfl ⟨rfl, ?_, hm⟩
    simp
  obtain ⟨a, s', hr, rfl, hregs, hm⟩ := hend
  rw [hc.top]
  refine ⟨s', g1.returns (g2.returns (g3.returns hr)), ?_, ?_, ?_, ?_, ?_, ?_, ?_, hm⟩
  all_goals simp [hregs, h2.rbx, hc.rsp, h2.r12, e2, h2.r14, h2.r15, hc.rdi, hc.rsi]

end CsfAssignments.Imgproc
