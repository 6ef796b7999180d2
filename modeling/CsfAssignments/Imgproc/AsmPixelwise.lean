import CsfAssignments.Imgproc.AsmEntry
/-!
# `imgproc_grayscale` and `imgproc_rgb`

Both are the same two loops around a body: `Loops` is their shape, `Cols` their invariant, and
`Loops.run` runs them, given what the body does to the output at one pixel, and `Loops.returns` the
whole routine around them. The bodies are `gray_body` and `rgb_body`.
-/

namespace CsfAssignments.Imgproc

open Memory X86 Asm

variable {text : List (Instr Label) → Addr} {L : Layout} {k : Nat} {A : Contents}
  {acc : List Access} {K : BitVec 64 → Prop}

/-! ## The loops -/

/-- Row `i`, with the images in `r12` and `r13` and `k` slots in use; `K` is what is known about
`r15`. -/
structure Rows (L : Layout) (k : Nat) (K : BitVec 64 → Prop) (A : Contents) (acc : List Access)
    (i : Nat) (s : State) : Prop where
  rbx : s.regs.rbx = word i
  r12 : s.regs.r12 = L.inp.ptr
  r13 : s.regs.r13 = L.out.ptr
  r15 : K s.regs.r15
  rsp : s.regs.rsp = L.slot k
  accesses : s.accesses = acc
  mem : Holds L s.mem k A

/-- Row `i`, column `j`. -/
structure Cols (L : Layout) (k : Nat) (K : BitVec 64 → Prop) (A : Contents) (acc : List Access)
    (i j : Nat) (s : State) : Prop extends Rows L k K A acc i s where
  rbp : s.regs.rbp = word j

/-- The loops of a routine. -/
structure Loops (row rowBody colBody col : Label) (rest : List (Instr Label)) : Prop where
  rowChunk : chunk row = movl (.mem 4 .r12) eax :: cmpl eax ebx :: jl rowBody :: rest
  rowBodyChunk : chunk rowBody = [movq 0 Reg.rbp, .jmp col]
  colChunk : chunk col = [movl (.mem 0 .r12) eax, cmpl eax ebp, jl colBody, incl ebx]
  colNext : next col = some row

namespace Loops

variable {row rowBody colBody col : Label} {rest : List (Instr Label)} {i j : Nat}
  {s : State}

theorem enter (hl : Loops row rowBody colBody col rest) (hv : L.Valid)
    (hi : i < L.inp.height) (h : Rows L k K A acc i s) :
    ∃ s', Goes (program text) (row, s) (col, s') ∧ Cols L k K A acc i 0 s' := by
  have hh := hv.inp.height
  have htest : ∃ s', Goes (program text) (row, s) (rowBody, s') ∧ Rows L k K A acc i s' := by
    apply goes_of_wp
    simp [program, hl.rowChunk, h.r12, h.rbx, h.mem.inp.height]
    refine wp_jcc_taken rfl ?_ ⟨rfl, ⟨rfl, rfl, h.r13, h.r15, h.rsp, h.accesses, h.mem⟩⟩
    simp [toInt_ofNat hh, toInt_ofNat (Nat.lt_trans hi hh), hi]
  obtain ⟨s1, g1, h1⟩ := htest
  have hzero : ∃ s', Goes (program text) (rowBody, s1) (col, s') ∧ Cols L k K A acc i 0 s' := by
    apply goes_of_wp
    simp [program, hl.rowBodyChunk]
    exact wp_jmp ⟨rfl, ⟨⟨h1.rbx, h1.r12, h1.r13, h1.r15, h1.rsp, h1.accesses, h1.mem⟩, rfl⟩⟩
  obtain ⟨s', g2, h2⟩ := hzero
  exact ⟨s', g1.trans g2, h2⟩

theorem test (hl : Loops row rowBody colBody col rest) (hv : L.Valid)
    (hj : j < L.inp.width) (h : Cols L k K A acc i j s) :
    ∃ s', Goes (program text) (col, s) (colBody, s') ∧ Cols L k K A acc i j s' := by
  have hw := hv.inp.width
  apply goes_of_wp
  simp [program, hl.colChunk, h.r12, h.rbp, h.mem.inp.width]
  refine wp_jcc_taken rfl ?_
    ⟨rfl, ⟨⟨h.rbx, rfl, h.r13, h.r15, h.rsp, h.accesses, h.mem⟩, rfl⟩⟩
  simp [toInt_ofNat hw, toInt_ofNat (Nat.lt_trans hj hw), hj]

theorem leave (hl : Loops row rowBody colBody col rest)
    (h : Cols L k K A acc i L.inp.width s) :
    ∃ s', Goes (program text) (col, s) (row, s') ∧ Rows L k K A acc (i + 1) s' := by
  apply goes_of_wp
  simp [program, hl.colChunk, h.r12, h.rbp, h.mem.inp.width]
  refine wp_jcc_passed rfl (by simp) ?_
  simp [h.rbx, ofNat_succ]
  exact wp_nil ⟨hl.colNext, ⟨rfl, rfl, h.r13, h.r15, h.rsp, h.accesses, h.mem⟩⟩

/-- The loops visit every pixel, in the order of the data. -/
theorem run (hl : Loops row rowBody colBody col rest) (hv : L.Valid)
    {cell : (Nat → Pixel) → Nat → Nat → Pixel} {log : Nat → List Access}
    (hbody : ∀ i < L.inp.height, ∀ j < L.inp.width, ∀ p acc s, Cols L k K (A.paint p) acc i j s →
      ∃ s', Goes (program text) (colBody, s) (col, s') ∧
        Cols L k K (A.paint (cell p (i * L.inp.width + j))) (acc ++ log (i * L.inp.width + j)) i
          (j + 1) s')
    {p : Nat → Pixel} (h : Rows L k K (A.paint p) acc 0 s) :
    ∃ s', Goes (program text) (row, s) (row, s') ∧
      Rows L k K (A.paint ((List.range L.inp.size).foldl cell p))
        (acc ++ (List.range L.inp.size).flatMap log) L.inp.height s' := by
  have hsize : L.inp.size = L.inp.height * L.inp.width := Nat.mul_comm ..
  rw [hsize]
  refine Goes.nested (f := fun _ => 0) (m := L.inp.width)
    (R := fun i s => Rows L k K (A.paint ((List.range (i * L.inp.width)).foldl cell p))
      (acc ++ (List.range (i * L.inp.width)).flatMap log) i s)
    (C := fun i j s => Cols L k K (A.paint ((List.range (i * L.inp.width + j)).foldl cell p))
      (acc ++ (List.range (i * L.inp.width + j)).flatMap log) i j s)
    (fun _ _ => Nat.zero_le _) (fun i hi s hr => hl.enter hv hi hr) ?_ ?_ (by simpa using h)
  · intro i hi j hj _ s hc
    obtain ⟨s1, g1, h1⟩ := hl.test hv hj hc
    obtain ⟨s2, g2, h2⟩ := hbody i hi j hj _ _ s1 h1
    refine ⟨s2, g1.trans g2, ?_⟩
    rw [← Nat.add_assoc, List.range_succ, List.foldl_append, List.flatMap_append, ← List.append_assoc]
    simpa using h2
  · intro i _ s hc
    rw [Nat.succ_mul]
    exact hl.leave hc

/-- The whole routine, when it saves and restores `saves`; what else it saves, it keeps in `r15`. -/
theorem returns {name : Label} (saves : List Reg)
    (hl : Loops row rowBody colBody col ((saves.map .popq).reverse ++ [.ret]))
    (hname : chunk name = saves.map .pushq ++ [movq Reg.rdi Reg.r12, movq Reg.rsi Reg.r13, movq 0 Reg.rbx, .jmp row])
    (hsaves : .rsp ∉ saves ∧ ∀ x ∈ [Reg.rbx, .rbp, .r12, .r13, .r14], x ∈ saves)
    (hlen : saves.length ≤ Layout.depth) (hc : Called L s) (hK : K s.regs.r15)
    (hr15 : .r15 ∈ saves ∨ ∀ v, K v → v = s.regs.r15)
    {cell : (Nat → Pixel) → (Nat → Pixel) → Nat → Nat → Pixel} {log : Nat → List Access}
    (hbody : ∀ A : Contents, ∀ i < L.inp.height, ∀ j < L.inp.width, ∀ p acc s,
      Cols L saves.length K (A.paint p) acc i j s →
      ∃ s', Goes (program text) (colBody, s) (col, s') ∧
        Cols L saves.length K (A.paint (cell A.inPix p (i * L.inp.width + j)))
          (acc ++ log (i * L.inp.width + j)) i (j + 1) s') :
    ∃ s', Returns (program text) name s s.top s' ∧ Convention s s.top s' ∧
      s'.accesses = s.accesses ++ (List.range L.inp.size).flatMap log ∧
      Holds L s'.mem 0 ((L.contents s.mem).paint ((List.range L.inp.size).foldl
        (cell (L.contents s.mem).inPix) (L.contents s.mem).outPix)) := by
  have hv := hc.valid
  have hstart : ∃ s', Goes (program text) (name, s) (row, s') ∧
      Rows L saves.length K (((L.contents s.mem).putAll 0 (saves.map s.regs.get)).paint
        (L.contents s.mem).outPix) s.accesses 0 s' := by
    apply goes_of_wp
    show WP (program text) (chunk name) _ _
    rw [hname]
    refine wp_pushAll hsaves.1 hv (hc.holds 0) (by omega) (by rw [hc.rsp, Layout.slot_zero])
      fun m hm => ?_
    rw [Nat.zero_add] at hm ⊢
    simp [hc.rdi, hc.rsi]
    refine wp_jmp ⟨rfl, ⟨rfl, rfl, rfl, hK, rfl, rfl, ?_⟩⟩
    rwa [Contents.putAll_paint]
  obtain ⟨s1, g1, h1⟩ := hstart
  obtain ⟨s2, g2, h2⟩ := hl.run hv (hbody _) h1
  have hend : ∃ a s', Returns (program text) row s2 a s' ∧ a = (L.contents s.mem).stack 0 ∧
      Convention s ((L.contents s.mem).stack 0) s' ∧
      s'.accesses = s.accesses ++ (List.range L.inp.size).flatMap log ∧
      Holds L s'.mem 0 ((L.contents s.mem).paint ((List.range L.inp.size).foldl
        (cell (L.contents s.mem).inPix) (L.contents s.mem).outPix)) := by
    have hm := h2.mem
    apply returns_of_ends
    simp [program, hl.rowChunk, h2.r12, h2.rbx, hm.inp.height]
    refine wp_jcc_passed rfl (by simp) ?_
    rw [Contents.putAll_paint, Contents.putAll_inPix] at hm
    refine wp_popAll hsaves.1 (by rwa [Nat.zero_add]) (by rw [Nat.zero_add]; exact h2.rsp) fun hm => ?_
    refine wp_return hm rfl ⟨rfl, ?_, h2.accesses, hm⟩
    refine .of_get (fun x hx => ?_) (by simp [hc.rsp]) hc.top.symm
    have hne : x ≠ .rsp := by
      rintro rfl
      simp at hx
    rw [Regs.get_set, if_neg hne, Regs.get_set, if_neg hne, Regs.get_restore]
    split
    · rfl
    · rename_i hout
      -- only `r15` may be missing from the list
      obtain rfl : x = .r15 := by
        by_contra h15
        exact hout (hsaves.2 x (by simpa [h15] using hx))
      exact hr15.resolve_left hout _ h2.r15
  obtain ⟨a, s', hr, rfl, hconv, hacc, hm⟩ := hend
  rw [hc.top]
  exact ⟨s', g1.returns (g2.returns hr), hconv, hacc, hm⟩

end Loops

/-! ## `imgproc_grayscale` -/

theorem grayscale_loops : Loops .rowCondGrayscale .rowLoopGrayscale .colLoopGrayscale
    .colCondGrayscale [.popq .r14, .popq .r13, .popq .r12, .popq .rbp, .popq .rbx, .ret] :=
  ⟨rfl, rfl, rfl, rfl⟩

def grayCell (inPix : Nat → Pixel) (pix : Nat → Pixel) (x : Nat) : Nat → Pixel :=
  Function.update pix x (toGrayscale (inPix x))

def grayAccesses (L : Layout) (x : Nat) : List Access :=
  [⟨false, L.inp.data, word x⟩, ⟨true, L.out.data, word x⟩]

theorem gray_body (hv : L.Valid) (hfit : Entry.grayscale.Fits L) {i j : Nat}
    (hi : i < L.inp.height) (hj : j < L.inp.width) {p : Nat → Pixel} {s : State}
    (h : Cols L 5 K (A.paint p) acc i j s) :
    ∃ s', Goes (program text) (.colLoopGrayscale, s) (.colCondGrayscale, s') ∧
      Cols L 5 K (A.paint (grayCell A.inPix p (i * L.inp.width + j)))
        (acc ++ grayAccesses L (i * L.inp.width + j)) i (j + 1) s' := by
  obtain ⟨r, fl, m, acc'⟩ := s
  obtain ⟨⟨hrbx, hr12, hr13, hr15, hrsp, hacc, hm⟩, hrbp⟩ := h
  simp only at hrbx hr12 hr13 hr15 hrsp hrbp hm hacc
  have hx := index_lt hi hj
  have hout : i * L.inp.width + j < L.out.size := by
    rw [Img.size, hfit.1, hfit.2]
    exact hx
  apply goes_of_wp
  simp [program, chunk, colLoopGrayscale, hr12, hrbx, hrbp]
  refine wp_helper (helper_computeIndex rfl fun _ h => h.inp.width) hv hm (by decide) hrsp ?_
  rintro _ rfl m fl hm
  simp [hr13, hm.inp.data, ofNat_index]
  rw [hm.load_word hv hx]
  refine wp_helper (helper_toGrayscale hv (by decide) (low_zext _)) hv hm (by decide) rfl ?_
  rintro _ rfl m fl hm
  simp [hm.out.data]
  refine wp_store hv hm (by decide) rfl rfl (Img.room hout) fun m hm => ?_
  simp [ofNat_succ]
  refine wp_nil ⟨rfl, ⟨⟨rfl, rfl, rfl, hr15, rfl, ?_, ?_⟩, rfl⟩⟩
  · simp [grayAccesses, hacc]
  · simpa [grayCell] using hm

/-- The whole routine. -/
theorem grayscale_returns {s : State} (hc : Called L s) (hfit : Entry.grayscale.Fits L) :
    ∃ s', Returns (program text) .imgprocGrayscale s s.top s' ∧ Convention s s.top s' ∧
      s'.accesses = s.accesses ++ (List.range L.inp.size).flatMap (grayAccesses L) ∧
      Holds L s'.mem 0 ((L.contents s.mem).paint ((List.range L.inp.size).foldl
        (grayCell (L.contents s.mem).inPix) (L.contents s.mem).outPix)) :=
  Loops.returns [.rbx, .rbp, .r12, .r13, .r14] grayscale_loops rfl (by decide) (by decide) hc
    (K := (· = s.regs.r15)) rfl (.inr fun _ h => h)
    fun _ _ hi _ hj _ _ _ h => gray_body hc.valid hfit hi hj h

/-! ## `imgproc_rgb` -/

theorem rgb_loops : Loops .rowCondRgb .rowLoopRgb .colLoopRgb .colCondRgb
    [.popq .r15, .popq .r14, .popq .r13, .popq .r12, .popq .rbp, .popq .rbx, .ret] :=
  ⟨rfl, rfl, rfl, rfl⟩

/-- The four pixels of the output that input pixel `x` gives. -/
def rgbCell (w h : Nat) (inPix : Nat → Pixel) (pix : Nat → Pixel) (x : Nat) : Nat → Pixel :=
  let i := x / w
  let j := x % w
  let v := inPix x
  let copy := Function.update pix (i * (2 * w) + j) v
  let red := Function.update copy (i * (2 * w) + (j + w)) (makePixel (getR v) 0#32 0#32 (getA v))
  let green := Function.update red ((i + h) * (2 * w) + j) (makePixel 0#32 (getG v) 0#32 (getA v))
  Function.update green ((i + h) * (2 * w) + (j + w)) (makePixel 0#32 0#32 (getB v) (getA v))

def rgbAccesses (L : Layout) (w h x : Nat) : List Access :=
  let i := x / w
  let j := x % w
  [⟨false, L.inp.data, word x⟩, ⟨true, L.out.data, word (i * (2 * w) + j)⟩,
    ⟨true, L.out.data, word (i * (2 * w) + (j + w))⟩,
    ⟨true, L.out.data, word ((i + h) * (2 * w) + j)⟩,
    ⟨true, L.out.data, word ((i + h) * (2 * w) + (j + w))⟩]

/-- `compute_index` of the output image and a store there. It borrows `rax` and `r10`. -/
theorem wp_store_at {r : Regs} {fl : Option Flags} {m : Mem} {is : List (Instr Label)}
    {Q : Outcome Label → Prop} {x : Reg} {a b : Nat} (hx : x = .r14 ∨ x = .r15) (hv : L.Valid)
    (hm : Holds L m k A) (hk : k < Layout.depth) (hrsp : r.rsp = L.slot k) (hrdi : r.rdi = L.out.ptr)
    (hr13 : r.r13 = L.out.ptr) (hcol : low r.rsi = BitVec.ofNat 32 b)
    (hrow : low r.rdx = BitVec.ofNat 32 a) (hout : a * L.out.width + b < L.out.size)
    (hnext : ∀ m fl rax r10, Holds L m k (A.store (a * L.out.width + b) (low (r.get x))) →
      WP (program text) is ⟨{ r with rax := rax, r10 := r10, r13 := L.out.ptr, rsp := L.slot k }, fl,
        m, acc ++ [⟨true, L.out.data, word (a * L.out.width + b)⟩]⟩ Q) :
    WP (program text) (.call .computeIndex :: movq (.mem 8 .r13) Reg.r10 ::
      movl x (.sib .r10 .rax 4) :: is) ⟨r, fl, m, acc⟩ Q := by
  refine wp_helper (helper_computeIndex hrdi fun _ h => h.out.width) hv hm hk hrsp ?_
  rintro _ rfl m fl hm
  simp [hr13, hm.out.data, hrow, hcol, ofNat_index]
  rcases hx with rfl | rfl
  all_goals exact wp_store hv hm (by omega) rfl rfl (Img.room hout) fun m hm => hnext m _ _ _ hm

theorem rgb_body (hv : L.Valid) (hfit : Entry.rgb.Fits L) {i j : Nat} (hi : i < L.inp.height)
    (hj : j < L.inp.width) {p : Nat → Pixel} {s : State}
    (h : Cols L 6 (fun _ => True) (A.paint p) acc i j s) :
    ∃ s', Goes (program text) (.colLoopRgb, s) (.colCondRgb, s') ∧
      Cols L 6 (fun _ => True) (A.paint (rgbCell L.inp.width L.inp.height A.inPix p
        (i * L.inp.width + j))) (acc ++ rgbAccesses L L.inp.width L.inp.height
          (i * L.inp.width + j)) i (j + 1) s' := by
  obtain ⟨r, fl, m, acc'⟩ := s
  obtain ⟨⟨hrbx, hr12, hr13, -, hrsp, hacc, hm⟩, hrbp⟩ := h
  simp only at hrbx hr12 hr13 hrsp hrbp hm hacc
  have hx := index_lt hi hj
  have hwide {a b : Nat} (ha : a < 2 * L.inp.height) (hb : b < 2 * L.inp.width) :
      a * L.out.width + b < L.out.size := by
    rw [Img.size, hfit.1, hfit.2]
    exact index_lt ha hb
  apply goes_of_wp
  simp [program, chunk, colLoopRgb, hr12, hrbx, hrbp]
  refine wp_helper (helper_computeIndex rfl fun _ h => h.inp.width) hv hm (by decide) hrsp ?_
  rintro _ rfl m fl hm
  simp [hr13, hm.inp.data, ofNat_index]
  rw [hm.load_word hv hx]
  generalize hpix : (A.paint p).inPix (i * L.inp.width + j) = v
  refine wp_store_at (.inl rfl) hv hm (by decide) rfl rfl rfl (low_zext _) (low_zext _)
    (hwide (by omega) (by omega)) fun m fl rax r10 hm => ?_
  simp at hm ⊢
  refine wp_helper helper_getA hv hm (by decide) rfl ?_
  rintro _ rfl m fl hm
  simp
  refine wp_helper helper_getR hv hm (by decide) rfl ?_
  rintro _ rfl m fl hm
  simp
  refine wp_helper helper_makePixel hv hm (by decide) rfl ?_
  rintro _ rfl m fl hm
  simp
  -- The alpha value goes to the stack while `r15` has the red pixel.
  refine wp_push hv hm (by decide) rfl fun m hm => ?_
  simp [hm.inp.width]
  refine wp_store_at (b := j + L.inp.width) (.inr rfl) hv hm (by decide) rfl rfl rfl
    (by simp [BitVec.ofNat_add]) (low_zext _) (hwide (by omega) (by omega)) fun m fl rax r10 hm => ?_
  simp at hm ⊢
  refine wp_helper helper_getG hv hm (by decide) rfl ?_
  rintro _ rfl m fl hm
  simp
  refine wp_pop hm rfl ?_
  replace hm := hm.forget
  simp
  refine wp_helper helper_makePixel hv hm (by decide) rfl ?_
  rintro _ rfl m fl hm
  simp
  refine wp_push hv hm (by decide) rfl fun m hm => ?_
  simp [hm.inp.height]
  refine wp_store_at (a := i + L.inp.height) (.inr rfl) hv hm (by decide) rfl rfl rfl (low_zext _)
    (by simp [BitVec.ofNat_add]) (hwide (by omega) (by omega)) fun m fl rax r10 hm => ?_
  simp at hm ⊢
  refine wp_helper helper_getB hv hm (by decide) rfl ?_
  rintro _ rfl m fl hm
  simp
  refine wp_pop hm rfl ?_
  replace hm := hm.forget
  simp
  refine wp_helper helper_makePixel hv hm (by decide) rfl ?_
  rintro _ rfl m fl hm
  simp [hm.inp.width, hm.inp.height]
  refine wp_store_at (a := i + L.inp.height) (b := j + L.inp.width) (.inr rfl) hv hm (by decide) rfl
    rfl rfl (by simp [BitVec.ofNat_add]) (by simp [BitVec.ofNat_add]) (hwide (by omega) (by omega))
    fun m fl rax r10 hm => ?_
  simp [ofNat_succ] at hm ⊢
  refine wp_nil ⟨rfl, ⟨⟨rfl, rfl, rfl, trivial, rfl, ?_, ?_⟩, rfl⟩⟩
  · simp [rgbAccesses, index_div i hj, index_mod i hj, hacc, hfit.1]
  · simp only [Contents.paint_inPix] at hpix
    simpa only [rgbCell, index_div i hj, index_mod i hj, hpix, hfit.1] using hm

/-- The whole routine. -/
theorem rgb_returns {s : State} (hc : Called L s) (hfit : Entry.rgb.Fits L) :
    ∃ s', Returns (program text) .imgprocRgb s s.top s' ∧ Convention s s.top s' ∧
      s'.accesses = s.accesses ++
        (List.range L.inp.size).flatMap (rgbAccesses L L.inp.width L.inp.height) ∧
      Holds L s'.mem 0 ((L.contents s.mem).paint ((List.range L.inp.size).foldl
        (rgbCell L.inp.width L.inp.height (L.contents s.mem).inPix) (L.contents s.mem).outPix)) :=
  Loops.returns [.rbx, .rbp, .r12, .r13, .r14, .r15] rgb_loops rfl (by decide) (by decide) hc
    (K := fun _ => True) trivial (.inl (by decide))
    fun _ _ hi _ hj _ _ _ h => rgb_body hc.valid hfit hi hj h

end CsfAssignments.Imgproc
