import CsfAssignments.Imgproc.AsmEntry
/-!
# `imgproc_kaleidoscope`

`Cells` is the work of one round of the inner loops, apart from registers: which pixel it loads, and
where it stores it. `wedge` is the order of the rounds. `even_body` and `odd_body` are the rounds,
`even_returns`, `odd_returns` and `mismatch_returns` the whole routine on its three paths.
-/

namespace CsfAssignments.Imgproc

open Memory X86 Asm

variable {text : List (Instr Label) → Addr} {L : Layout} {A : Contents} {rbx : BitVec 64}
  {acc : List Access} {n W half i j : Nat}

/-! ## Rounds -/

/-- The pixels `(i, j)`, …, with `i ≤ j < half`, row by row. -/
def wedge (half : Nat) : List (Nat × Nat) :=
  (List.range half).flatMap fun i => (List.range' i (half - i)).map fun j => (i, j)

/-- Where round `(i, j)` of the even loops stores: rows and columns. -/
def evenStores (n i j : Nat) : List (Nat × Nat) :=
  let m x := n - 1 - x
  [(i, j), (j, i), (i, m j), (j, m i), (m i, j), (m j, i), (m j, m i), (m i, m j)]

/-- The odd loops mirror at `n`. Their first row goes through `.ODDIM_SPECIAL_I`. -/
def oddStores (n i j : Nat) : List (Nat × Nat) :=
  let m x := n - x
  if i = 0 then [(i, j), (j, i), (i, m j), (m j, i)]
  else [(i, j), (j, i), (i, m j), (j, m i), (m i, j), (m j, i), (m i, m j), (m j, m i)]

def storeAll (n : Nat) (v : Pixel) (pix : Nat → Pixel) (places : List (Nat × Nat)) : Nat → Pixel :=
  places.foldl (fun p q => Function.update p (n * q.1 + q.2) v) pix

/-- One round on the output pixels. -/
def kaleidoCell (stores : Nat → Nat → Nat → List (Nat × Nat)) (n : Nat) (inPix : Nat → Pixel)
    (pix : Nat → Pixel) (c : Nat × Nat) : Nat → Pixel :=
  storeAll n (inPix (n * c.1 + c.2)) pix (stores n c.1 c.2)

/-- The accesses of one round. -/
def kaleidoAccesses (stores : Nat → Nat → Nat → List (Nat × Nat)) (L : Layout) (n : Nat)
    (c : Nat × Nat) : List Access :=
  ⟨false, L.inp.data, word (n * c.1 + c.2)⟩ ::
    (stores n c.1 c.2).map fun q => ⟨true, L.out.data, word (n * q.1 + q.2)⟩

/-! ## The loops -/

structure KRows (L : Layout) (A : Contents) (acc : List Access) (rbx : BitVec 64)
    (n W half i : Nat) (s : State) : Prop where
  rbx : s.regs.rbx = rbx
  rdi : s.regs.rdi = L.inp.ptr
  rsi : s.regs.rsi = L.out.ptr
  r10 : s.regs.r10 = word n
  r11 : s.regs.r11 = word W
  r12 : s.regs.r12 = word i
  r14 : s.regs.r14 = word (n / 2)
  r15 : s.regs.r15 = word half
  rsp : s.regs.rsp = L.slot 11
  accesses : s.accesses = acc
  mem : Holds L s.mem 11 A

structure KCols (L : Layout) (A : Contents) (acc : List Access) (rbx : BitVec 64)
    (n W half i j : Nat) (s : State) : Prop extends KRows L A acc rbx n W half i s where
  r13 : s.regs.r13 = word j

theorem ofNat_injective {a b : Nat} (ha : a < 2 ^ 31) (hb : b < 2 ^ 31)
    (h : BitVec.ofNat 32 a = BitVec.ofNat 32 b) : a = b := by
  have := congrArg BitVec.toNat h
  simp only [BitVec.toNat_ofNat] at this
  omega

theorem ofNat_half (hn : n < 2 ^ 31) : BitVec.ofNat 32 n >>> 1 = BitVec.ofNat 32 (n / 2) := by
  apply BitVec.eq_of_toNat_eq
  simp [Nat.shiftRight_one]
  omega

theorem ofNat_parity (n : Nat) : BitVec.ofNat 32 n &&& 1#32 = BitVec.ofNat 32 (n % 2) := by
  apply BitVec.eq_of_toNat_eq
  simp [Nat.and_one_is_mod]
  omega

theorem ofNat_mirror {x : Nat} (hx : x < n) :
    BitVec.ofNat 32 (n - 1 - x) = BitVec.ofNat 32 n - 1#32 - BitVec.ofNat 32 x := by
  have h : BitVec.ofNat 32 n = BitVec.ofNat 32 (n - 1 - x) + BitVec.ofNat 32 1 + BitVec.ofNat 32 x := by
    rw [← BitVec.ofNat_add, ← BitVec.ofNat_add]
    congr 1
    omega
  rw [h]
  ring

theorem word_mul (n a : Nat) :
    word (n * a) = zext (BitVec.ofNat 32 n * BitVec.ofNat 32 a) := by
  rw [word, BitVec.ofNat_mul]

theorem word_index (n a b : Nat) :
    word (n * a + b) = zext (BitVec.ofNat 32 n * BitVec.ofNat 32 a + BitVec.ofNat 32 b) := by
  rw [word, BitVec.ofNat_add, BitVec.ofNat_mul]

/-- A square input and output. -/
structure Square (L : Layout) (n : Nat) : Prop where
  inp : L.inp.width = n ∧ L.inp.height = n
  out : L.out.width = n ∧ L.out.height = n

theorem Square.lt (h : Square L n) (hv : L.Valid) : n < 2 ^ 31 := by
  rw [← h.inp.1]
  exact hv.inp.width

theorem Square.load (h : Square L n) {a b : Nat} (ha : a < n) (hb : b < n) :
    n * a + b < L.inp.size := by
  rw [Img.size, h.inp.1, h.inp.2, Nat.mul_comm n a]
  exact index_lt ha hb

theorem Square.store (h : Square L n) {a b : Nat} (ha : a < n) (hb : b < n) :
    n * a + b < L.out.size := by
  rw [Img.size, h.out.1, h.out.2, Nat.mul_comm n a]
  exact index_lt ha hb

/-- A store of the pixel in `eax` to row `a` and column `b`. -/
theorem wp_place {r : Regs} {fl : Option Flags} {m : Mem} {is : List (Instr Label)}
    {Q : Outcome Label → Prop} {x : Reg} {a b : Nat} (hv : L.Valid) (hs : Square L n)
    (hm : Holds L m 11 A) (ha : a < n) (hb : b < n) (hr8 : r.r8 = L.out.data)
    (hx : r.get x = zext (BitVec.ofNat 32 n * BitVec.ofNat 32 a + BitVec.ofNat 32 b))
    (hnext : ∀ m, Holds L m 11 (A.store (n * a + b) (low r.rax)) →
      WP (program text) is ⟨r, fl, m, acc ++ [⟨true, L.out.data, word (n * a + b)⟩]⟩ Q) :
    WP (program text) (movl eax (.sib .r8 x 4) :: is) ⟨r, fl, m, acc⟩ Q :=
  wp_store hv hm (by decide) hr8 (hx.trans (word_index n a b).symm) (Img.room (hs.store ha hb)) hnext

theorem even_body (hv : L.Valid) (hs : Square L n) (hi : i ≤ j) (hj : j < n / 2)
    {p : Nat → Pixel} {s : State} (h : KCols L (A.paint p) acc rbx n n half i j s) :
    ∃ s', Goes (program text) (.evenColLoop, s) (.evenColLoop, s') ∧
      KCols L (A.paint (kaleidoCell evenStores n A.inPix p (i, j)))
        (acc ++ kaleidoAccesses evenStores L n (i, j)) rbx n n half i (j + 1) s' := by
  obtain ⟨r, fl, m, acc'⟩ := s
  obtain ⟨⟨hrbx, hrdi, hrsi, hr10, hr11, hr12, hr14, hr15, hrsp, hacc, hm⟩, hr13⟩ := h
  simp only at hrbx hrdi hrsi hr10 hr11 hr12 hr14 hr15 hrsp hacc hm hr13
  subst hacc
  have hn := hs.lt hv
  have hmi := ofNat_mirror (n := n) (x := i) (by omega)
  have hmj := ofNat_mirror (n := n) (x := j) (by omega)
  apply goes_of_wp
  simp [program, chunk, evenColLoop, hr13, hr14]
  refine wp_jcc_passed rfl ?_ ?_
  · simp
    omega
  simp [hr10, hr12, hr13, hrdi, hrsi, hm.inp.data, hm.out.data, ofNat_index]
  rw [hm.load_word hv (hs.load (by omega) (by omega))]
  refine wp_place hv hs hm (by omega) (by omega) rfl (word_index n i j) fun m hm => ?_
  simp at hm ⊢
  refine wp_place hv hs hm (by omega) (by omega) rfl rfl fun m hm => ?_
  simp at hm ⊢
  refine wp_place (a := i) (b := n - 1 - j) hv hs hm (by omega) (by omega) rfl ?_ fun m hm => ?_
  · rw [hmj]
    exact congrArg zext (by ring)
  simp at hm ⊢
  refine wp_place (a := j) (b := n - 1 - i) hv hs hm (by omega) (by omega) rfl ?_ fun m hm => ?_
  · rw [hmi]
    exact congrArg zext (by ring)
  simp at hm ⊢
  refine wp_place (a := n - 1 - i) (b := j) hv hs hm (by omega) (by omega) rfl ?_ fun m hm => ?_
  · rw [hmi]
    exact congrArg zext (by ring)
  simp at hm ⊢
  refine wp_place (a := n - 1 - j) (b := i) hv hs hm (by omega) (by omega) rfl ?_ fun m hm => ?_
  · rw [hmj]
    exact congrArg zext (by ring)
  simp at hm ⊢
  refine wp_place (a := n - 1 - j) (b := n - 1 - i) hv hs hm (by omega) (by omega) rfl ?_ fun m hm => ?_
  · rw [hmi, hmj]
    exact congrArg zext (by ring)
  simp at hm ⊢
  refine wp_place (a := n - 1 - i) (b := n - 1 - j) hv hs hm (by omega) (by omega) rfl ?_ fun m hm => ?_
  · rw [hmi, hmj]
    exact congrArg zext (by ring)
  simp [ofNat_succ] at hm ⊢
  exact wp_jmp ⟨rfl, ⟨⟨hrbx, rfl, rfl, rfl, hr11, rfl, hr14, hr15, hrsp, rfl, hm⟩, rfl⟩⟩

/-- On the odd path the mirror image of `x` is `n - x`. -/
theorem ofNat_odd_mirror {x : Nat} (hx : x ≤ n) :
    BitVec.ofNat 32 (n + 1) - 1#32 - BitVec.ofNat 32 x = BitVec.ofNat 32 (n - x) := by
  rw [← ofNat_mirror (by omega), Nat.add_sub_cancel]

theorem succ_lt_of_mul_self_lt (h : n * n < 2 ^ 31) : n + 1 < 2 ^ 31 := by
  by_contra hn
  have := Nat.mul_le_mul (show 2 ^ 16 ≤ n by omega) (show 2 ^ 16 ≤ n by omega)
  omega

theorem odd_sizes (hv : L.Valid) (hs : Square L n) : n + 1 < 2 ^ 31 ∧ n * n < 2 ^ 31 := by
  have hsize := hv.inp.size
  rw [Img.size, hs.inp.1, hs.inp.2] at hsize
  exact ⟨succ_lt_of_mul_self_lt hsize, hsize⟩

/-- The test whether a mirror image is in range; it borrows `edi`. -/
theorem wp_mirror_test {r : Regs} {fl : Option Flags} {m : Mem} {is : List (Instr Label)}
    {Q : Outcome Label → Prop} {x : Nat} (hv : L.Valid) (hm : Holds L m 11 A)
    (hrsp : r.rsp = L.slot 11) (hr10 : r.r10 = word n) (hr11 : r.r11 = word (n + 1)) {c : Reg}
    (hc : c = .r12 ∨ c = .r13) (hx : r.get c = word x) (hxn : x ≤ n)
    (hnext : ∀ m, Holds L m 11 A → WP (program text) is
      ⟨r, some (.ofSub (BitVec.ofNat 32 (n - x)) (BitVec.ofNat 32 n)), m, acc⟩ Q) :
    WP (program text) (.pushq .rdi :: .pushq .rsi :: movl r11d edi :: decl edi :: subl c edi ::
      cmpl r10d edi :: .popq .rsi :: .popq .rdi :: is) ⟨r, fl, m, acc⟩ Q := by
  refine wp_push hv hm (by decide) hrsp fun m hm => ?_
  refine wp_push hv hm (by decide) rfl fun m hm => ?_
  have hback : Regs.set { r with rsp := L.slot 11 } .rdi r.rdi = r := by
    rw [← hrsp]
    rfl
  rcases hc with rfl | rfl
  all_goals
    simp at hx
    simp [hr10, hr11, hx, ofNat_odd_mirror hxn] at hm ⊢
    refine wp_pop hm rfl ?_
    refine wp_pop (hm.mono (by decide)) rfl ?_
    have hnext := hnext m hm.forget.forget
    rw [← hback] at hnext
    simpa [hr10, hr11, hx] using hnext

/-- The three tests at the head of the inner loop. -/
theorem wp_odd_head {s : State} {Q : Outcome Label → Prop} (hn : n + 1 < 2 ^ 31) (hi : i ≤ j)
    (hj : j < n / 2 + 1) (h : KCols L A acc rbx n (n + 1) (n / 2 + 1) i j s)
    (hnext : ∀ s, KCols L A acc rbx n (n + 1) (n / 2 + 1) i j s →
      WP (program text) (oddimColLoop.drop 6) s Q) :
    WP (program text) oddimColLoop s Q := by
  simp [oddimColLoop, h.r13, h.r15]
  refine wp_jcc_passed rfl ?_ ?_
  · simp
    omega
  simp [h.r11, h.r12]
  refine wp_jcc_passed rfl ?_ ?_
  · simp [toInt_ofNat hn, toInt_ofNat (show i < 2 ^ 31 by omega)]
    omega
  simp [h.r11, h.r13]
  refine wp_jcc_passed rfl ?_ (hnext ⟨s.regs, _, s.mem, s.accesses⟩ ?_)
  · simp [toInt_ofNat hn, toInt_ofNat (show j < 2 ^ 31 by omega)]
    omega
  · exact ⟨⟨h.rbx, h.rdi, h.rsi, h.r10, h.r11, h.r12, h.r14, h.r15, h.rsp, h.accesses, h.mem⟩, h.r13⟩

/-- One round of the odd loops with `i ≠ 0`: both mirror images are in range. -/
theorem odd_body_inner (hv : L.Valid) (hs : Square L n) (h0 : 0 < i) (hi : i ≤ j)
    (hj : j < n / 2 + 1) {p : Nat → Pixel} {s : State}
    (h : KCols L (A.paint p) acc rbx n (n + 1) (n / 2 + 1) i j s) :
    ∃ s', Goes (program text) (.oddimColLoop, s) (.oddimColLoop, s') ∧
      KCols L (A.paint (kaleidoCell oddStores n A.inPix p (i, j)))
        (acc ++ kaleidoAccesses oddStores L n (i, j)) rbx n (n + 1) (n / 2 + 1) i (j + 1) s' := by
  obtain ⟨hn, -⟩ := odd_sizes hv hs
  have hmi := ofNat_odd_mirror (n := n) (x := i) (by omega)
  have hmj := ofNat_odd_mirror (n := n) (x := j) (by omega)
  have htest {x : Nat} (h0 : 0 < x) (hx : x ≤ n) :
      Cond.ge.holds (.ofSub (BitVec.ofNat 32 (n - x)) (BitVec.ofNat 32 n)) = false := by
    simp [toInt_ofNat (show n < 2 ^ 31 by omega), toInt_ofNat (show n - x < 2 ^ 31 by omega)]
    omega
  apply goes_of_wp
  refine wp_odd_head hn hi hj h fun s h => ?_
  obtain ⟨r, fl, m, acc'⟩ := s
  obtain ⟨⟨hrbx, hrdi, hrsi, hr10, hr11, hr12, hr14, hr15, hrsp, hacc, hm⟩, hr13⟩ := h
  simp only at hrbx hrdi hrsi hr10 hr11 hr12 hr14 hr15 hrsp hacc hm hr13
  subst hacc
  refine wp_mirror_test hv hm hrsp hr10 hr11 (.inl rfl) hr12 (by omega) fun m hm => ?_
  refine wp_jcc_passed rfl (htest h0 (by omega)) ?_
  refine wp_mirror_test hv hm hrsp hr10 hr11 (.inr rfl) hr13 (by omega) fun m hm => ?_
  refine wp_jcc_passed rfl (htest (by omega) (by omega)) ?_
  simp [hr10, hr12, hr13, hrdi, hrsi, hm.inp.data, hm.out.data, ofNat_index]
  rw [hm.load_word hv (hs.load (by omega) (by omega))]
  refine wp_place hv hs hm (by omega) (by omega) rfl (word_index n i j) fun m hm => ?_
  simp at hm ⊢
  refine wp_place hv hs hm (by omega) (by omega) rfl rfl fun m hm => ?_
  simp [hr11] at hm ⊢
  refine wp_place (a := i) (b := n - j) hv hs hm (by omega) (by omega) rfl ?_ fun m hm => ?_
  · rw [← hmj]
    exact congrArg zext (by ring)
  simp at hm ⊢
  refine wp_place (a := j) (b := n - i) hv hs hm (by omega) (by omega) rfl ?_ fun m hm => ?_
  · rw [← hmi]
    exact congrArg zext (by ring)
  simp at hm ⊢
  refine wp_place (a := n - i) (b := j) hv hs hm (by omega) (by omega) rfl ?_ fun m hm => ?_
  · rw [← hmi]
    exact congrArg zext (by ring)
  simp at hm ⊢
  refine wp_place (a := n - j) (b := i) hv hs hm (by omega) (by omega) rfl ?_ fun m hm => ?_
  · rw [← hmj]
    exact congrArg zext (by ring)
  simp at hm ⊢
  refine wp_place (a := n - i) (b := n - j) hv hs hm (by omega) (by omega) rfl ?_ fun m hm => ?_
  · rw [← hmi, ← hmj]
    exact congrArg zext (by ring)
  simp at hm ⊢
  refine wp_place (a := n - j) (b := n - i) hv hs hm (by omega) (by omega) rfl ?_ fun m hm => ?_
  · rw [← hmi, ← hmj]
    exact congrArg zext (by ring)
  simp [ofNat_succ] at hm ⊢
  refine wp_jmp ⟨rfl, ⟨⟨hrbx, rfl, rfl, rfl, rfl, rfl, hr14, hr15, hrsp, ?_, ?_⟩, rfl⟩⟩
  · simp [kaleidoAccesses, oddStores, h0.ne']
  · simpa [kaleidoCell, oddStores, h0.ne', storeAll] using hm

/-- The first row: the mirror image of row 0 is row `n`. -/
theorem odd_body_first (hv : L.Valid) (hs : Square L n) (hodd : n % 2 = 1) (hj : j < n / 2 + 1)
    {p : Nat → Pixel} {s : State}
    (h : KCols L (A.paint p) acc rbx n (n + 1) (n / 2 + 1) 0 j s) :
    ∃ s', Goes (program text) (.oddimColLoop, s) (.oddimColLoop, s') ∧
      KCols L (A.paint (kaleidoCell oddStores n A.inPix p (0, j)))
        (acc ++ kaleidoAccesses oddStores L n (0, j)) rbx n (n + 1) (n / 2 + 1) 0 (j + 1) s' := by
  obtain ⟨hn, hsq⟩ := odd_sizes hv hs
  have hmj := ofNat_odd_mirror (n := n) (x := j) (by omega)
  have hroom {x : Nat} (hx : x ≤ n * n) : 4 * x + 4 ≤ L.out.bytes := by
    have hsize : L.out.size = n * n := by rw [Img.size, hs.out.1, hs.out.2]
    have hmod : n * n % 2 = 1 := by simp [Nat.mul_mod, hodd]
    unfold Img.bytes
    omega
  have hcheck : ∃ s', Goes (program text) (.oddimColLoop, s) (.oddimChkI, s') ∧
      KCols L (A.paint p) acc rbx n (n + 1) (n / 2 + 1) 0 j s' := by
    apply goes_of_wp
    refine wp_odd_head hn (Nat.zero_le j) hj h fun s h => ?_
    refine wp_mirror_test (x := 0) hv h.mem h.rsp h.r10 h.r11 (.inl rfl) h.r12 (by omega) fun m hm => ?_
    exact wp_jcc_taken rfl (by simp) ⟨rfl, ⟨⟨h.rbx, h.rdi, h.rsi, h.r10, h.r11, h.r12, h.r14, h.r15,
      h.rsp, h.accesses, hm⟩, h.r13⟩⟩
  obtain ⟨s1, g1, h1⟩ := hcheck
  have hspecial : ∃ s', Goes (program text) (.oddimChkI, s1) (.oddimSpecialI, s') ∧
      KCols L (A.paint p) acc rbx n (n + 1) (n / 2 + 1) 0 j s' := by
    apply goes_of_wp
    simp [program, chunk, oddimChkI, h1.r12]
    exact wp_jcc_taken rfl (by simp) ⟨rfl, ⟨⟨h1.rbx, h1.rdi, h1.rsi, h1.r10, h1.r11, h1.r12, h1.r14,
      h1.r15, h1.rsp, h1.accesses, h1.mem⟩, h1.r13⟩⟩
  obtain ⟨⟨r, fl, m, acc⟩, g2, ⟨hrbx, hrdi, hrsi, hr10, hr11, hr12, hr14, hr15, hrsp, hacc, hm⟩,
    hr13⟩ := hspecial
  simp only at hrbx hrdi hrsi hr10 hr11 hr12 hr14 hr15 hrsp hacc hm hr13
  subst hacc
  have hround : ∃ s', Goes (program text) (.oddimSpecialI, ⟨r, fl, m, acc⟩) (.oddimColLoop, s') ∧
      KCols L (A.paint (kaleidoCell oddStores n A.inPix p (0, j)))
        (acc ++ kaleidoAccesses oddStores L n (0, j)) rbx n (n + 1) (n / 2 + 1) 0 (j + 1) s' := by
    apply goes_of_wp
    simp [program, chunk, oddimSpecialI, hr13, hr15]
    refine wp_jcc_passed rfl ?_ ?_
    · simp
      omega
    simp [hr10, hr12, hr13, hrdi, hrsi, hm.inp.data, hm.out.data]
    rw [hm.load_word hv (by simpa using hs.load (a := 0) (b := j) (by omega) (by omega))]
    have hjn : n * (n - j) ≤ n * n := Nat.mul_le_mul_left n (Nat.sub_le n j)
    have hnj : n * j ≤ n * n := Nat.mul_le_mul_left n (by omega)
    have hnn : n ≤ n * n := Nat.le_mul_self n
    refine wp_store hv hm (by decide) rfl rfl (hroom (by omega)) fun m hm => ?_
    simp at hm ⊢
    refine wp_store hv hm (by decide) rfl (word_mul n j).symm (hroom hnj) fun m hm => ?_
    simp [hr11] at hm ⊢
    refine wp_store hv hm (by decide) rfl (congrArg zext hmj) (hroom (by omega)) fun m hm => ?_
    simp at hm ⊢
    refine wp_store (n := n * (n - j)) hv hm (by decide) rfl ?_ (hroom hjn) fun m hm => ?_
    · rw [word_mul, ← hmj]
      exact congrArg zext (by ring)
    simp [ofNat_succ] at hm ⊢
    refine wp_jmp ⟨rfl, ⟨⟨hrbx, rfl, rfl, rfl, rfl, rfl, hr14, hr15, hrsp, ?_, ?_⟩, rfl⟩⟩
    · simp [kaleidoAccesses, oddStores]
    · simpa [kaleidoCell, oddStores, storeAll] using hm
  obtain ⟨s', g3, h3⟩ := hround
  exact ⟨s', (g1.trans g2).trans g3, h3⟩

/-! ## Runs of the loops -/

/-- The rounds before `(i, j)`. -/
def wedgeTo (half i j : Nat) : List (Nat × Nat) :=
  ((List.range i).flatMap fun i => (List.range' i (half - i)).map fun j => (i, j)) ++
    (List.range' i (j - i)).map fun j => (i, j)

theorem wedgeTo_start (half i : Nat) :
    wedgeTo half i i = (List.range i).flatMap fun i => (List.range' i (half - i)).map fun j => (i, j) := by
  simp [wedgeTo]

theorem wedgeTo_succ (hi : i ≤ j) : wedgeTo half i (j + 1) = wedgeTo half i j ++ [(i, j)] := by
  have hlen : j + 1 - i = (j - i) + 1 := by omega
  have hlast : i + (j - i) = j := by omega
  simp [wedgeTo, hlen, List.range'_1_concat, hlast]

theorem wedgeTo_row (half i : Nat) : wedgeTo half i half = wedgeTo half (i + 1) (i + 1) := by
  simp [wedgeTo, List.range_succ]

theorem wedgeTo_half (half : Nat) : wedgeTo half half half = wedge half := wedgeTo_start half half

/-- The loops, given their three parts. -/
theorem kaleido_loops (row col : Label) {stores : Nat → Nat → Nat → List (Nat × Nat)}
    (henter : ∀ i < half, ∀ A acc s, KRows L A acc rbx n W half i s →
      ∃ s', Goes (program text) (row, s) (col, s') ∧ KCols L A acc rbx n W half i i s')
    (hbody : ∀ i < half, ∀ j < half, i ≤ j → ∀ p acc s, KCols L (A.paint p) acc rbx n W half i j s →
      ∃ s', Goes (program text) (col, s) (col, s') ∧
        KCols L (A.paint (kaleidoCell stores n A.inPix p (i, j)))
          (acc ++ kaleidoAccesses stores L n (i, j)) rbx n W half i (j + 1) s')
    (hleave : ∀ i < half, ∀ A acc s, KCols L A acc rbx n W half i half s →
      ∃ s', Goes (program text) (col, s) (row, s') ∧ KRows L A acc rbx n W half (i + 1) s')
    {p : Nat → Pixel} {s : State} (h : KRows L (A.paint p) acc rbx n W half 0 s) :
    ∃ s', Goes (program text) (row, s) (row, s') ∧
      KRows L (A.paint ((wedge half).foldl (kaleidoCell stores n A.inPix) p))
        (acc ++ (wedge half).flatMap (kaleidoAccesses stores L n)) rbx n W half half s' := by
  rw [← wedgeTo_half]
  refine Goes.nested (f := fun i => i) (m := half)
    (R := fun i s => KRows L (A.paint ((wedgeTo half i i).foldl (kaleidoCell stores n A.inPix) p))
      (acc ++ (wedgeTo half i i).flatMap (kaleidoAccesses stores L n)) rbx n W half i s)
    (C := fun i j s => KCols L (A.paint ((wedgeTo half i j).foldl (kaleidoCell stores n A.inPix) p))
      (acc ++ (wedgeTo half i j).flatMap (kaleidoAccesses stores L n)) rbx n W half i j s)
    (fun _ hi => Nat.le_of_lt hi) (fun i hi s hr => henter i hi _ _ s hr) ?_ ?_
    (by simpa [wedgeTo] using h)
  · intro i hi j hj hij s hc
    rw [wedgeTo_succ (show i ≤ j from hij), List.foldl_append, List.flatMap_append, ← List.append_assoc]
    simpa using hbody i hi j hj hij _ _ s hc
  · intro i hi s hc
    rw [← wedgeTo_row]
    exact hleave i hi _ _ s hc

/-- The end of a row: the test of the inner loop fails. -/
theorem leave_row {row col endCol : Label} {rest : List (Instr Label)} {lim : Reg} {s : State}
    (hcol : chunk col = cmpl lim Reg.r13 :: jae endCol :: rest)
    (hend : chunk endCol = [incl Reg.r12, .jmp row]) (hlim : s.regs.get lim = word half)
    (h : KCols L A acc rbx n W half i half s) :
    ∃ s', Goes (program text) (col, s) (row, s') ∧ KRows L A acc rbx n W half (i + 1) s' := by
  have htest : ∃ s', Goes (program text) (col, s) (endCol, s') ∧ KRows L A acc rbx n W half i s' := by
    apply goes_of_wp
    show WP (program text) (chunk col) _ _
    rw [hcol]
    have hr13 : s.regs.get .r13 = word half := h.r13
    simp [-Regs.get, hlim, hr13]
    exact wp_jcc_taken rfl (by simp)
      ⟨rfl, ⟨h.rbx, h.rdi, h.rsi, h.r10, h.r11, h.r12, h.r14, h.r15, h.rsp, h.accesses, h.mem⟩⟩
  obtain ⟨s1, g1, h1⟩ := htest
  have hnext : ∃ s', Goes (program text) (endCol, s1) (row, s') ∧
      KRows L A acc rbx n W half (i + 1) s' := by
    apply goes_of_wp
    show WP (program text) (chunk endCol) _ _
    rw [hend]
    simp [h1.r12, ofNat_succ]
    exact wp_jmp ⟨rfl, ⟨h1.rbx, h1.rdi, h1.rsi, h1.r10, h1.r11, rfl, h1.r14, h1.r15, h1.rsp,
      h1.accesses, h1.mem⟩⟩
  obtain ⟨s', g2, h2⟩ := hnext
  exact ⟨s', g1.trans g2, h2⟩

theorem even_loops (hv : L.Valid) (hs : Square L n) {p : Nat → Pixel} {s : State}
    (h : KRows L (A.paint p) acc rbx n n (n / 2) 0 s) :
    ∃ s', Goes (program text) (.evenRowLoop, s) (.evenRowLoop, s') ∧
      KRows L (A.paint ((wedge (n / 2)).foldl (kaleidoCell evenStores n A.inPix) p))
        (acc ++ (wedge (n / 2)).flatMap (kaleidoAccesses evenStores L n)) rbx n n (n / 2) (n / 2)
        s' := by
  have hn := hs.lt hv
  refine kaleido_loops .evenRowLoop .evenColLoop ?_ ?_ ?_ h
  · intro i hi A acc s h
    have htest : ∃ s', Goes (program text) (.evenRowLoop, s) (.evenProceedRow, s') ∧
        KRows L A acc rbx n n (n / 2) i s' := by
      apply goes_of_wp
      simp [program, chunk, evenRowLoop, h.r12, h.r15]
      refine wp_jcc_taken rfl ?_
        ⟨rfl, ⟨h.rbx, h.rdi, h.rsi, h.r10, h.r11, rfl, h.r14, rfl, h.rsp, h.accesses, h.mem⟩⟩
      rw [holds_s, BitVec.toInt_sub, toInt_ofNat (by omega), toInt_ofNat (by omega),
        Int.bmod_def]
      simp only [decide_eq_true_eq]
      omega
    obtain ⟨s1, g1, h1⟩ := htest
    have hset : ∃ s', Goes (program text) (.evenProceedRow, s1) (.evenColLoop, s') ∧
        KCols L A acc rbx n n (n / 2) i i s' := by
      apply goes_of_wp
      simp [program, chunk, evenProceedRow, h1.r12]
      exact wp_nil ⟨rfl, ⟨⟨h1.rbx, h1.rdi, h1.rsi, h1.r10, h1.r11, rfl, h1.r14, h1.r15, h1.rsp,
        h1.accesses, h1.mem⟩, rfl⟩⟩
    obtain ⟨s', g2, h2⟩ := hset
    exact ⟨s', g1.trans g2, h2⟩
  · intro i _ j hj hij p acc s h
    exact even_body hv hs hij hj h
  · intro i _ A acc s h
    exact leave_row rfl rfl h.r14 h

theorem odd_loops (hv : L.Valid) (hs : Square L n) (hodd : n % 2 = 1) {p : Nat → Pixel} {s : State}
    (h : KRows L (A.paint p) acc rbx n (n + 1) (n / 2 + 1) 0 s) :
    ∃ s', Goes (program text) (.oddimRowLoop, s) (.oddimRowLoop, s') ∧
      KRows L (A.paint ((wedge (n / 2 + 1)).foldl (kaleidoCell oddStores n A.inPix) p))
        (acc ++ (wedge (n / 2 + 1)).flatMap (kaleidoAccesses oddStores L n)) rbx n (n + 1)
        (n / 2 + 1) (n / 2 + 1) s' := by
  obtain ⟨hn, -⟩ := odd_sizes hv hs
  refine kaleido_loops .oddimRowLoop .oddimColLoop ?_ ?_ ?_ h
  · intro i hi A acc s h
    apply goes_of_wp
    simp [program, chunk, oddimRowLoop, h.r12, h.r15]
    refine wp_jcc_passed rfl ?_ ?_
    · simp
      omega
    simp [h.r12]
    exact wp_nil ⟨rfl, ⟨⟨h.rbx, h.rdi, h.rsi, h.r10, h.r11, rfl, h.r14, h.r15, h.rsp, h.accesses,
      h.mem⟩, rfl⟩⟩
  · intro i _ j hj hij p acc s h
    rcases Nat.eq_zero_or_pos i with rfl | h0
    · exact odd_body_first hv hs hodd hj h
    · exact odd_body_inner hv hs h0 hij hj h
  · intro i _ A acc s h
    exact leave_row rfl rfl h.r15 h

/-! ## The whole routine -/

/-- The prologue leaves four words of the stack, 4 to 7, as they are. -/
def saved (A : Contents) (r : Regs) : Contents :=
  ((((((A.put 1 r.rbp).put 2 r.r12).put 3 r.r13).put 8 r.r14).put 9 r.r10).put 10 r.r11).put 11 r.r15

theorem slot_sub_frame (L : Layout) (k : Nat) : L.slot k - 32#64 = L.slot (k + 4) := by
  unfold Layout.slot
  rw [Nat.mul_add, BitVec.ofNat_add, BitVec.sub_sub]

theorem slot_add_frame (L : Layout) (k : Nat) : L.slot (k + 4) + 32#64 = L.slot k := by
  rw [← slot_sub_frame, BitVec.sub_add_cancel]

section
variable {s : State} {r : Regs} {fl : Option Flags} {m : Mem} {Q : Outcome Label → Prop}

theorem wp_prologue (hv : L.Valid) (hm : Holds L m 11 A) (hrsp : r.rsp = L.slot 0)
    (hnext : ∀ m fl, Holds L m 11 (saved A r) → WP (program text) (Asm.imgprocKaleidoscope.drop 9)
      ⟨{ r with rbp := L.slot 3, rsp := L.slot 11 }, fl, m, acc⟩ Q) :
    WP (program text) Asm.imgprocKaleidoscope ⟨r, fl, m, acc⟩ Q := by
  simp only [Asm.imgprocKaleidoscope]
  refine wp_push_slot (k := 0) hv hm (by decide) (by decide) hrsp fun m hm => ?_
  refine wp_push_slot (k := 1) hv hm (by decide) (by decide) rfl fun m hm => ?_
  refine wp_push_slot (k := 2) hv hm (by decide) (by decide) rfl fun m hm => ?_
  simp [slot_sub_frame] at hm ⊢
  refine wp_push_slot (k := 7) hv hm (by decide) (by decide) rfl fun m hm => ?_
  refine wp_push_slot (k := 8) hv hm (by decide) (by decide) rfl fun m hm => ?_
  refine wp_push_slot (k := 9) hv hm (by decide) (by decide) rfl fun m hm => ?_
  refine wp_push_slot (k := 10) hv hm (by decide) (by decide) rfl fun m hm => ?_
  exact hnext _ _ hm

/-- Back in the caller, with `value` returned and other words than `s` had in `r12` to `r15`. -/
structure Exit (L : Layout) (s : State) (value : BitVec 32) (w12 w13 w14 w15 : BitVec 64)
    (new : List Access) (pix : Nat → Pixel) (s' : State) : Prop where
  rbx : s'.regs.rbx = s.regs.rbx
  rbp : s'.regs.rbp = s.regs.rbp
  r12 : s'.regs.r12 = w12
  r13 : s'.regs.r13 = w13
  r14 : s'.regs.r14 = w14
  r15 : s'.regs.r15 = w15
  rsp : s'.regs.rsp = s.regs.rsp + 8#64
  rax : s'.regs.rax = zext value
  accesses : s'.accesses = s.accesses ++ new
  mem : Holds L s'.mem 0 ((L.contents s.mem).paint pix)

theorem holds_saved {p : Nat → Pixel} (h : Holds L m 11 ((saved A r).paint p)) :
    Holds L m 0 (A.paint p) := by
  refine ⟨fun j hj => ?_, h.inp, h.out⟩
  obtain rfl : j = 0 := Nat.le_zero.mp hj
  exact h.stack 0 (Nat.zero_le 11)

/-- A pop, with `rsp` set last. -/
theorem wp_restore {x : Reg} {is : List (Instr Label)} {k : Nat} (hx : x ≠ .rsp)
    (h : Holds L m 11 A) (hk : k < 11)
    (hnext : WP (program text) is ⟨(r.set x (A.stack (k + 1))).set .rsp (L.slot k), fl, m, acc⟩ Q) :
    WP (program text) (.popq x :: is) ⟨r.set .rsp (L.slot (k + 1)), fl, m, acc⟩ Q := by
  refine wp_pop (h.mono hk) rfl ?_
  rwa [Regs.set_rsp_comm _ hx]

theorem wp_leave {v : BitVec 64} {I : Addr → State → Prop} {r0 : Regs} {p : Nat → Pixel}
    (h : Holds L m 11 ((saved A r0).paint p))
    (hI : ∀ fl, I (A.stack 0)
      ⟨{ r with rbp := r0.rbp, rax := zext (low v), rsp := L.sp + 8#64 }, fl, m, acc⟩) :
    WP (program text) [addq 32 .rsp, .popq .rbp, movl (.imm v) eax, .ret]
      ⟨r.set .rsp (L.slot 5), fl, m, acc⟩ (Ends I) := by
  simp [slot_add_frame L 1]
  refine wp_pop (k := 0) (h.mono (by decide)) rfl ?_
  simp
  exact wp_return (holds_saved h) L.slot_zero.symm (hI _)

/-- The three exits differ in the order of their pops. -/
theorem wp_epilogue {a b c d e f : Reg} {v : BitVec 64} {I : Addr → State → Prop}
    (hx : ∀ x ∈ [a, b, c, d, e, f], x ≠ .rsp) {r0 : Regs} {p : Nat → Pixel}
    (h : Holds L m 11 ((saved A r0).paint p)) (hrsp : r.rsp = L.slot 11)
    (hI : ∀ fl, I (A.stack 0) ⟨{ (((((r.set a r0.r15).set b r0.r11).set c r0.r10).set d r0.r14).set e
      (A.stack 7)).set f (A.stack 6) with
        rbp := r0.rbp, rax := zext (low v), rsp := L.sp + 8#64 }, fl, m, acc⟩) :
    WP (program text) [.popq a, .popq b, .popq c, .popq d, .popq e, .popq f, addq 32 .rsp,
      .popq .rbp, movl (.imm v) eax, .ret] ⟨r, fl, m, acc⟩ (Ends I) := by
  have hr : r = r.set .rsp (L.slot (10 + 1)) := by
    rw [← hrsp]
    rfl
  rw [hr]
  simp only [List.mem_cons, List.not_mem_nil, or_false, forall_eq_or_imp, forall_eq] at hx
  obtain ⟨ha, hb, hc, hd, he, hf⟩ := hx
  refine wp_restore ha h (by decide) ?_
  refine wp_restore hb h (by decide) ?_
  refine wp_restore hc h (by decide) ?_
  refine wp_restore hd h (by decide) ?_
  refine wp_restore he h (by decide) ?_
  refine wp_restore hf h (by decide) ?_
  exact wp_leave h hI

variable (text) in
/-- The last part of every path: at one of the exits, with the images done. -/
theorem exit_returns (l : Label) {a b c d e f : Reg} {v : BitVec 64} {s1 : State}
    {new : List Access} {p : Nat → Pixel}
    (hl : chunk l = [.popq a, .popq b, .popq c, .popq d, .popq e, .popq f, addq 32 Reg.rsp,
      .popq .rbp, movl (.imm v) Reg.rax, .ret])
    (hx : ∀ x ∈ [a, b, c, d, e, f], x ≠ .rsp ∧ x ≠ .rbx) (hc : Called L s)
    (hrbx : s1.regs.rbx = s.regs.rbx) (hrsp : s1.regs.rsp = L.slot 11)
    (hacc : s1.accesses = s.accesses ++ new)
    (hm : Holds L s1.mem 11 ((saved (L.contents s.mem) s.regs).paint p)) :
    let q := (((((s1.regs.set a s.regs.r15).set b s.regs.r11).set c s.regs.r10).set d
      s.regs.r14).set e ((L.contents s.mem).stack 7)).set f ((L.contents s.mem).stack 6)
    ∃ s', Returns (program text) l s1 s.top s' ∧ Exit L s (low v) q.r12 q.r13 q.r14 q.r15 new p s' := by
  intro q
  obtain ⟨ra, s', hr, rfl, h⟩ : ∃ ra s', Returns (program text) l s1 ra s' ∧
      ra = (L.contents s.mem).stack 0 ∧ Exit L s (low v) q.r12 q.r13 q.r14 q.r15 new p s' := by
    apply returns_of_ends
    show WP (program text) (chunk l) _ _
    rw [hl]
    refine wp_epilogue (fun x h => (hx x h).1) hm hrsp fun fl => ⟨rfl, ?_⟩
    have hq : q.rbx = s.regs.rbx := by
      have hne : ∀ x ∈ [a, b, c, d, e, f], Reg.rbx ≠ x := fun x h => (hx x h).2.symm
      simp only [List.mem_cons, List.not_mem_nil, or_false, forall_eq_or_imp, forall_eq] at hne
      obtain ⟨ha, hb, hc, hd, he, hf⟩ := hne
      show q.get .rbx = _
      simp only [q, Regs.get_set, ha, hb, hc, hd, he, hf, if_false]
      exact hrbx
    exact ⟨hq, rfl, rfl, rfl, rfl, rfl, by simp [hc.rsp], rfl, hacc, holds_saved hm⟩
  rw [hc.top]
  exact ⟨s', hr, h⟩

theorem mismatch_returns (hc : Called L s) (hne : L.inp.width ≠ L.inp.height) :
    ∃ s', Returns (program text) .imgprocKaleidoscope s s.top s' ∧
      Exit L s 0 ((L.contents s.mem).stack 7) s.regs.r14 ((L.contents s.mem).stack 6) s.regs.r11 []
        (L.contents s.mem).outPix s' := by
  have hv := hc.valid
  have hstart : ∃ s', Goes (program text) (.imgprocKaleidoscope, s) (.dimMismatch, s') ∧
      s'.regs.rbx = s.regs.rbx ∧ s'.regs.rsp = L.slot 11 ∧ s'.accesses = s.accesses ∧
      Holds L s'.mem 11 (saved (L.contents s.mem) s.regs) := by
    apply goes_of_wp
    refine wp_prologue hv (hc.holds 11) (by simpa using hc.rsp) fun m fl hm => ?_
    simp [Asm.imgprocKaleidoscope, hc.rdi, hm.inp.width, hm.inp.height]
    refine wp_jcc_taken rfl ?_ ⟨rfl, rfl, rfl, rfl, hm⟩
    simpa using fun h => hne (ofNat_injective hv.inp.height hv.inp.width h).symm
  obtain ⟨s1, g, hrbx, hrsp, hacc, hm⟩ := hstart
  obtain ⟨s', hr, h⟩ := exit_returns text .dimMismatch (p := (L.contents s.mem).outPix) rfl
    (by decide) hc hrbx hrsp (hacc.trans (List.append_nil _).symm) hm
  exact ⟨s', g.returns hr, h⟩

variable (text) in
/-- A square input gets to the parity test. -/
theorem square_starts (hc : Called L s) (hs : Square L n) :
    ∃ s', Goes (program text) (.imgprocKaleidoscope, s)
        (if n % 2 = 0 then .evenRowLoop else .oddimPath, s') ∧
      KRows L ((saved (L.contents s.mem) s.regs).paint (L.contents s.mem).outPix) s.accesses
        s.regs.rbx n n (n / 2) 0 s' := by
  have hv := hc.valid
  apply goes_of_wp
  refine wp_prologue hv (hc.holds 11) (by simpa using hc.rsp) fun m fl hm => ?_
  simp [Asm.imgprocKaleidoscope, hc.rdi, hm.inp.width, hm.inp.height, hs.inp.1, hs.inp.2]
  refine wp_jcc_passed rfl (by simp) ?_
  simp [ofNat_half (hs.lt hv), ofNat_parity]
  rcases Nat.mod_two_eq_zero_or_one n with heven | hodd
  · rw [heven]
    refine wp_jcc_passed rfl (by simp) (wp_nil ⟨rfl, ?_⟩)
    exact ⟨rfl, rfl, hc.rsi, rfl, rfl, rfl, rfl, rfl, rfl, rfl, hm⟩
  · rw [hodd]
    refine wp_jcc_taken rfl (by simp) ⟨rfl, ?_⟩
    exact ⟨rfl, rfl, hc.rsi, rfl, rfl, rfl, rfl, rfl, rfl, rfl, hm⟩

theorem even_returns (hc : Called L s) (hs : Square L n) (heven : n % 2 = 0) :
    ∃ s', Returns (program text) .imgprocKaleidoscope s s.top s' ∧
      Exit L s 1 ((L.contents s.mem).stack 6) ((L.contents s.mem).stack 7) s.regs.r14 s.regs.r10
        ((wedge (n / 2)).flatMap (kaleidoAccesses evenStores L n))
        ((wedge (n / 2)).foldl (kaleidoCell evenStores n (L.contents s.mem).inPix)
          (L.contents s.mem).outPix) s' := by
  obtain ⟨s1, g1, h1⟩ := square_starts text hc hs
  rw [if_pos heven] at g1
  obtain ⟨s2, g2, h2⟩ := even_loops hc.valid hs h1
  have htest : ∃ s', Goes (program text) (.evenRowLoop, s2) (.evenEndRow, s') ∧
      s'.regs.rbx = s2.regs.rbx ∧ s'.regs.rsp = s2.regs.rsp ∧ s'.accesses = s2.accesses ∧
      s'.mem = s2.mem := by
    apply goes_of_wp
    simp [program, chunk, evenRowLoop, h2.r12, h2.r15]
    refine wp_jcc_passed rfl ?_ (wp_jmp ⟨rfl, rfl, rfl, rfl, rfl⟩)
    simp [holds_s]
  obtain ⟨s3, g3, hrbx, hrsp, hacc, hm⟩ := htest
  obtain ⟨s', hr, h⟩ := exit_returns text .evenEndRow rfl (by decide) hc
    (hrbx.trans h2.rbx) (hrsp.trans h2.rsp) (hacc.trans h2.accesses) (hm ▸ h2.mem)
  exact ⟨s', g1.returns (g2.returns (g3.returns hr)), h⟩

theorem odd_returns (hc : Called L s) (hs : Square L n) (hodd : n % 2 = 1) :
    ∃ s', Returns (program text) .imgprocKaleidoscope s s.top s' ∧
      Exit L s 1 s.regs.r11 ((L.contents s.mem).stack 7) ((L.contents s.mem).stack 6) s.regs.r14
        ((wedge (n / 2 + 1)).flatMap (kaleidoAccesses oddStores L n))
        ((wedge (n / 2 + 1)).foldl (kaleidoCell oddStores n (L.contents s.mem).inPix)
          (L.contents s.mem).outPix) s' := by
  obtain ⟨s1, g1, h1⟩ := square_starts text hc hs
  rw [if_neg (by omega)] at g1
  -- mirroring at `n` instead of `n - 1`, up to the middle
  have hpath : ∃ s', Goes (program text) (.oddimPath, s1) (.oddimRowLoop, s') ∧
      KRows L ((saved (L.contents s.mem) s.regs).paint (L.contents s.mem).outPix) s.accesses
        s.regs.rbx n (n + 1) (n / 2 + 1) 0 s' := by
    obtain ⟨hrbx, hrdi, hrsi, hr10, hr11, hr12, hr14, hr15, hrsp, hacc, hm⟩ := h1
    apply goes_of_wp
    simp [program, chunk, oddimPath, hr11, hr15, ofNat_succ]
    exact wp_nil ⟨rfl, ⟨hrbx, hrdi, hrsi, hr10, rfl, hr12, hr14, rfl, hrsp, hacc, hm⟩⟩
  obtain ⟨s2, g2, h2⟩ := hpath
  obtain ⟨s3, g3, h3⟩ := odd_loops hc.valid hs hodd h2
  have htest : ∃ s', Goes (program text) (.oddimRowLoop, s3) (.oddimEndRow, s') ∧
      s'.regs.rbx = s3.regs.rbx ∧ s'.regs.rsp = s3.regs.rsp ∧ s'.accesses = s3.accesses ∧
      s'.mem = s3.mem := by
    apply goes_of_wp
    simp [program, chunk, oddimRowLoop, h3.r12, h3.r15]
    exact wp_jcc_taken rfl (by simp) ⟨rfl, rfl, rfl, rfl, rfl⟩
  obtain ⟨s4, g4, hrbx, hrsp, hacc, hm⟩ := htest
  obtain ⟨s', hr, h⟩ := exit_returns text .oddimEndRow rfl (by decide) hc
    (hrbx.trans h3.rbx) (hrsp.trans h3.rsp) (hacc.trans h3.accesses) (hm ▸ h3.mem)
  exact ⟨s', g1.returns (g2.returns (g3.returns (g4.returns hr))), h⟩

end

end CsfAssignments.Imgproc
