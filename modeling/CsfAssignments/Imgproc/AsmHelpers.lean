import CsfAssignments.Imgproc.CModel
import CsfAssignments.Imgproc.Layout
/-!
# The helper routines (`asm_imgproc_fns.S:17-273`)

`Helper` is the contract of a routine that is called inside another one: it returns to its caller
with given registers, and of the memory only the free part of the stack may change. One lemma for
each routine says which registers; `wp_helper` steps over a call by the contract.
-/

namespace X86

open Memory

@[simp] theorem State.top_push (s : State) (v : BitVec 64) : (s.push v).top = v :=
  read64_write64 ..

end X86

namespace CsfAssignments.Imgproc

open Memory X86 Asm

variable {text : List (Instr Label) → Addr} {L : Layout} {k : Nat} {A : Contents} {r : Regs}

/-- Control is back at `ra` with registers in `G`. -/
def Back (L : Layout) (k : Nat) (A : Contents) (G : Regs → Prop) (acc : List Access) (ra : Addr) :
    Outcome Label → Prop
  | .ret a s =>
    a = ra ∧ (∃ g, G g ∧ s.regs = { g with rsp := L.slot k }) ∧ s.accesses = acc ∧
      Holds L s.mem k A
  | _ => False

/-- Called with the registers `r` and `k` slots in use, the routine at `f` returns with registers in
`G`. -/
def Helper (text : List (Instr Label) → Addr) (L : Layout) (f : Label) (k : Nat) (A : Contents)
    (r : Regs) (G : Regs → Prop) : Prop :=
  ∀ m fl acc ra, Holds L m (k + 1) (A.put (k + 1) ra) →
    WP (program text) (chunk f) ⟨r.set .rsp (L.slot (k + 1)), fl, m, acc⟩ (Back L k A G acc ra)

/-! ## Stack and calls -/

section
variable {is : List (Instr Label)} {fl : Option Flags} {m : Mem} {acc : List Access}
  {Q : Outcome Label → Prop}

theorem wp_push {x : Reg} (hv : L.Valid) (h : Holds L m k A) (hk : k < Layout.depth)
    (hsp : r.rsp = L.slot k)
    (hnext : ∀ m, Holds L m (k + 1) (A.put (k + 1) (r.get x)) →
      WP (program text) is ⟨r.set .rsp (L.slot (k + 1)), fl, m, acc⟩ Q) :
    WP (program text) (.pushq x :: is) ⟨r, fl, m, acc⟩ Q := by
  have hm := hnext _ (h.push hv (r.get x) hk)
  rw [wp_pushq]
  simpa only [State.push, Regs.set, hsp, Layout.slot_sub] using hm

/-- A push into a slot that counts as in use already. -/
theorem wp_push_slot {d : Nat} {x : Reg} (hv : L.Valid) (h : Holds L m d A) (hk : k < d)
    (hd : d ≤ Layout.depth) (hsp : r.rsp = L.slot k)
    (hnext : ∀ m, Holds L m d (A.put (k + 1) (r.get x)) →
      WP (program text) is ⟨r.set .rsp (L.slot (k + 1)), fl, m, acc⟩ Q) :
    WP (program text) (.pushq x :: is) ⟨r, fl, m, acc⟩ Q := by
  have hm := hnext _ (h.write_slot hv (r.get x) hk hd)
  rw [wp_pushq]
  simpa only [State.push, Regs.set, hsp, Layout.slot_sub] using hm

theorem wp_pop {x : Reg} (h : Holds L m (k + 1) A) (hsp : r.rsp = L.slot (k + 1))
    (hnext : WP (program text) is
      ⟨(r.set .rsp (L.slot k)).set x (A.stack (k + 1)), fl, m, acc⟩ Q) :
    WP (program text) (.popq x :: is) ⟨r, fl, m, acc⟩ Q := by
  rw [wp_popq, State.top, hsp, h.stack _ (Nat.le_refl _)]
  simpa only [State.drop, State.set, Regs.set, hsp, Layout.slot_add] using hnext

/-- The pushes that save registers. -/
theorem wp_pushAll {xs : List Reg} (hx : .rsp ∉ xs) (hv : L.Valid) (h : Holds L m k A)
    (hk : k + xs.length ≤ Layout.depth) (hsp : r.rsp = L.slot k)
    (hnext : ∀ m, Holds L m (k + xs.length) (A.putAll k (xs.map r.get)) →
      WP (program text) is ⟨r.set .rsp (L.slot (k + xs.length)), fl, m, acc⟩ Q) :
    WP (program text) (xs.map .pushq ++ is) ⟨r, fl, m, acc⟩ Q := by
  induction xs generalizing k A r m with
  | nil =>
    have hr : r.set .rsp (L.slot k) = r := by
      rw [← hsp]
      rfl
    have hnext := hnext m h
    rwa [List.length_nil, Nat.add_zero, hr] at hnext
  | cons x xs ih =>
    simp only [List.mem_cons, not_or] at hx
    rw [List.length_cons] at hk
    have hget : xs.map (r.set .rsp (L.slot (k + 1))).get = xs.map r.get := by
      refine List.map_congr_left fun y hy => ?_
      rw [Regs.get_set, if_neg]
      rintro rfl
      exact hx.2 hy
    have hlen : k + (x :: xs).length = k + 1 + xs.length := by
      rw [List.length_cons]
      omega
    rw [hlen] at hnext
    refine wp_push hv h (by omega) hsp fun m hm => ih hx.2 hm (by omega) rfl fun m hm => ?_
    rw [hget] at hm
    exact hnext m hm

/-- The pops that restore them, in the other order. -/
theorem wp_popAll {xs : List Reg} {r0 : Regs} (hx : .rsp ∉ xs)
    (h : Holds L m (k + xs.length) (A.putAll k (xs.map r0.get)))
    (hsp : r.rsp = L.slot (k + xs.length))
    (hnext : Holds L m k A → WP (program text) is ⟨(r.restore r0 xs).set .rsp (L.slot k), fl, m, acc⟩ Q) :
    WP (program text) ((xs.map .popq).reverse ++ is) ⟨r, fl, m, acc⟩ Q := by
  induction xs generalizing k A is with
  | nil =>
    have hr : r.set .rsp (L.slot k) = r := by
      rw [← show r.rsp = L.slot k from hsp]
      rfl
    have hnext := hnext h
    rwa [Regs.restore, hr] at hnext
  | cons x xs ih =>
    simp only [List.mem_cons, not_or] at hx
    have hlen : k + (x :: xs).length = k + 1 + xs.length := by
      rw [List.length_cons]
      omega
    rw [hlen] at h hsp
    rw [List.map_cons, List.reverse_cons, List.append_assoc]
    refine ih hx.2 h hsp fun hm => ?_
    refine wp_pop hm rfl ?_
    rw [Regs.set_rsp_comm _ (Ne.symm hx.1), Contents.put_stack, Function.update_self]
    exact hnext hm.forget

/-- A call of a helper. -/
theorem wp_helper {f : Label} {G : Regs → Prop} (hf : Helper text L f k A r G) (hv : L.Valid)
    (h : Holds L m k A) (hk : k < Layout.depth) (hsp : r.rsp = L.slot k)
    (hnext : ∀ g, G g → ∀ m fl, Holds L m k A →
      WP (program text) is ⟨g.set .rsp (L.slot k), fl, m, acc⟩ Q) :
    WP (program text) (.call f :: is) ⟨r, fl, m, acc⟩ Q := by
  obtain ⟨o, he, hback⟩ := hf _ fl acc (text is) (h.push hv (text is) hk)
  have hpush : State.push ⟨r, fl, m, acc⟩ (text is) =
      ⟨r.set .rsp (L.slot (k + 1)), fl, write64 m (L.slot (k + 1)) (text is), acc⟩ := by
    simp only [State.push, Regs.set, hsp, Layout.slot_sub]
  cases o with
  | next s' => exact hback.elim
  | jump l s' => exact hback.elim
  | ret a s' =>
    obtain ⟨rfl, ⟨g, hg, hregs⟩, hacc, hm⟩ := hback
    have hcall : Returns (program text) f (State.push ⟨r, fl, m, acc⟩ (text is)) (text is) s' := by
      apply returns_of_wp
      rw [hpush]
      exact ⟨_, he, rfl⟩
    refine wp_call hcall ?_
    have hnext' := hnext g hg s'.mem s'.flags hm
    have hset : g.set .rsp (L.slot k) = s'.regs := hregs.symm
    rwa [hset, ← hacc] at hnext'

/-- The end of a helper. -/
theorem wp_back {G : Regs → Prop} {g : Regs} {ra : Addr}
    (h : Holds L m (k + 1) (A.put (k + 1) ra)) (hsp : r.rsp = L.slot (k + 1)) (hg : G g)
    (hr : r.set .rsp (L.slot k) = { g with rsp := L.slot k }) :
    WP (program text) [.ret] ⟨r, fl, m, acc⟩ (Back L k A G acc ra) := by
  refine wp_ret ⟨?_, ⟨g, hg, ?_⟩, rfl, h.forget⟩
  · rw [State.top, hsp, h.newest]
  · rw [← hr, State.drop, hsp, Layout.slot_add]
    rfl

end

/-! ## Pixels -/

/-- A component scaled by two factors of up to 10^6. -/
def scaled (gradrow gradcol : BitVec 64) (c : BitVec 32) : BitVec 32 :=
  low (zext c * (gradcol * gradrow) / 1000000000000#64)

/-- What `fade_pixel` computes. -/
def fadePixel (gradrow gradcol : BitVec 64) (pixel : Pixel) : Pixel :=
  makePixel (scaled gradrow gradcol (getR pixel)) (scaled gradrow gradcol (getG pixel))
    (scaled gradrow gradcol (getB pixel)) (getA pixel)

attribute [grind =] chunk

theorem helper_getR : Helper text L .getR k A r (· = r.set .rax (zext (getR (low r.rdi)))) := by
  intro m fl acc ra hm
  simp [chunk, Asm.getR]
  exact wp_back hm rfl rfl rfl

theorem helper_getG : Helper text L .getG k A r (· = r.set .rax (zext (getG (low r.rdi)))) := by
  intro m fl acc ra hm
  simp [chunk, Asm.getG]
  exact wp_back hm rfl rfl rfl

theorem helper_getB : Helper text L .getB k A r (· = r.set .rax (zext (getB (low r.rdi)))) := by
  intro m fl acc ra hm
  simp [chunk, Asm.getB]
  exact wp_back hm rfl rfl rfl

theorem helper_getA : Helper text L .getA k A r (· = r.set .rax (zext (getA (low r.rdi)))) := by
  intro m fl acc ra hm
  simp [chunk, Asm.getA]
  exact wp_back hm rfl rfl rfl

/-- The components shifted in one by one. -/
theorem makePixel_horner (r g b a : BitVec 32) :
    (((r <<< 8 ||| g) <<< 8 ||| b) <<< 8 ||| a) = makePixel r g b a := by
  simp only [makePixel, BitVec.shiftLeft_or_distrib, ← BitVec.shiftLeft_add]

theorem helper_makePixel : Helper text L .makePixel k A r
    (· = r.set .rax (zext (makePixel (low r.rdi) (low r.rsi) (low r.rdx) (low r.rcx)))) := by
  intro m fl acc ra hm
  simp [chunk, Asm.makePixel, makePixel_horner]
  exact wp_back hm rfl rfl rfl

/-- The mean with the weights summed in another order, and a shift in place of the division. -/
theorem luma_shift (p : Pixel) :
    (getR p * 79#32 + getG p * 128#32 + getB p * 49#32) >>> 8 = luma p := by
  rw [luma, BitVec.mul_comm 79, BitVec.mul_comm 128, BitVec.mul_comm 49]
  exact (BitVec.udiv_twoPow_eq_of_lt (w := 32) (k := 8) (by decide)).symm

theorem helper_toGrayscale (hv : L.Valid) (hk : k + 6 ≤ Layout.depth) {p : Pixel}
    (hp : low r.rdi = p) :
    Helper text L .toGrayscale k A r
      (· = { r with
        rax := zext (toGrayscale p)
        rdi := zext (luma p)
        rsi := zext (luma p)
        rdx := zext (luma p)
        rcx := zext (getA p)
        r10 := zext (luma p) }) := by
  intro m fl acc ra hm
  simp only [chunk, Asm.toGrayscale]
  refine wp_push hv hm (by omega) rfl fun _ hm => ?_
  refine wp_push hv hm (by omega) rfl fun _ hm => ?_
  refine wp_push hv hm (by omega) rfl fun _ hm => ?_
  refine wp_push hv hm (by omega) rfl fun _ hm => ?_
  simp
  refine wp_helper helper_getR hv hm (by omega) rfl ?_
  rintro _ rfl _ _ hm
  simp
  refine wp_helper helper_getG hv hm (by omega) rfl ?_
  rintro _ rfl _ _ hm
  simp
  refine wp_helper helper_getB hv hm (by omega) rfl ?_
  rintro _ rfl _ _ hm
  simp
  refine wp_helper helper_getA hv hm (by omega) rfl ?_
  rintro _ rfl _ _ hm
  simp
  refine wp_helper helper_makePixel hv hm (by omega) rfl ?_
  rintro _ rfl _ _ hm
  simp [hp, luma_shift]
  refine wp_pop hm rfl ?_
  refine wp_pop (hm.mono (by omega)) rfl ?_
  refine wp_pop (hm.mono (by omega)) rfl ?_
  refine wp_pop (hm.mono (by omega)) rfl ?_
  refine wp_back hm.forget.forget.forget.forget rfl rfl ?_
  simp [toGrayscale]

/-! ## Indices and factors -/

theorem helper_computeIndex {I : Img} (hI : r.rdi = I.ptr)
    (hw : ∀ m, Holds L m k A → read32 m I.ptr = BitVec.ofNat 32 I.width) :
    Helper text L .computeIndex k A r
      (· = { r with
        rax := zext (low r.rdx * BitVec.ofNat 32 I.width + low r.rsi)
        r10 := zext (BitVec.ofNat 32 I.width) }) := by
  intro m fl acc ra hm
  simp [chunk, Asm.computeIndex, hI, hw m hm.forget]
  exact wp_back hm rfl rfl rfl

/-- After `gradient`: `rax` and `r8` are the factor, `rcx` and `rdx` are lost. -/
def GradientRegs (r g : Regs) : Prop :=
  ∃ v rcx rdx, v = gradient r.rdi r.rsi ∧ g = { r with rax := v, rcx := rcx, rdx := rdx, r8 := v }

theorem helper_gradient (hv : L.Valid) (hk : k + 2 ≤ Layout.depth)
    (hmax : 0 < (1000000#64 * r.rsi).toInt) :
    Helper text L .gradient k A r (GradientRegs r) := by
  intro m fl acc ra hm
  simp only [chunk, Asm.gradient]
  refine wp_push hv hm (by omega) rfl fun _ hm => ?_
  refine wp_imul3 fun num hnum => ?_
  simp at hnum ⊢
  refine wp_imul3 fun den hden => ?_
  simp at hden ⊢
  rw [BitVec.mul_comm] at hnum hden
  refine wp_idivq rfl (by simpa [hden] using hmax) fun quot rem hquot => ?_
  simp at hquot ⊢
  -- Names for the kernel again: `generalize` would put the values back.
  obtain ⟨square, hsquare⟩ : ∃ x, quot - 1000#64 = x := ⟨_, rfl⟩
  rw [hsquare]
  obtain ⟨v, hv⟩ : ∃ x, 1000000#64 - square * square = x := ⟨_, rfl⟩
  rw [hv]
  have hfactor : v = gradient r.rdi r.rsi := by
    rw [← hv, ← hsquare, hquot, hnum, hden, gradient]
  refine wp_pop hm rfl ?_
  refine wp_back hm.forget rfl ⟨v, den, rem, hfactor, rfl⟩ ?_
  simp

/-- After `fade_pixel`: `rax` is the pixel, the arguments are lost. -/
def FadePixelRegs (r g : Regs) : Prop :=
  ∃ v rdi rsi rdx rcx, v = fadePixel r.rdi r.rsi (low r.rdx) ∧
    g = { r with rax := zext v, rdi := rdi, rsi := rsi, rdx := rdx, rcx := rcx }

theorem helper_fadePixel (hv : L.Valid) (hk : k + 8 ≤ Layout.depth) :
    Helper text L .fadePixel k A r (FadePixelRegs r) := by
  intro m fl acc ra hm
  simp only [chunk, Asm.fadePixel]
  refine wp_push hv hm (by omega) rfl fun _ hm => ?_
  refine wp_push hv hm (by omega) rfl fun _ hm => ?_
  refine wp_push hv hm (by omega) rfl fun _ hm => ?_
  refine wp_push hv hm (by omega) rfl fun _ hm => ?_
  refine wp_push hv hm (by omega) rfl fun _ hm => ?_
  refine wp_push hv hm (by omega) rfl fun _ hm => ?_
  simp
  refine wp_helper helper_getR hv hm (by omega) rfl ?_
  rintro _ rfl _ _ hm
  simp
  refine wp_divq (by simp) (by simp) fun red _ hred => ?_
  simp at hred ⊢
  refine wp_helper helper_getG hv hm (by omega) rfl ?_
  rintro _ rfl _ _ hm
  simp
  refine wp_divq (by simp) (by simp) fun green _ hgreen => ?_
  simp at hgreen ⊢
  refine wp_helper helper_getB hv hm (by omega) rfl ?_
  rintro _ rfl _ _ hm
  simp
  refine wp_divq (by simp) (by simp) fun blue _ hblue => ?_
  simp at hblue ⊢
  refine wp_helper helper_getA hv hm (by omega) rfl ?_
  rintro _ rfl _ _ hm
  simp
  have hscaled {c : BitVec 32} {v : BitVec 64}
      (h : v = zext c * (r.rsi * r.rdi) / 1000000000000#64) : low v = scaled r.rdi r.rsi c := by
    rw [h, scaled]
  have hpixel : makePixel (low red) (low green) (low blue) (getA (low r.rdx)) =
      fadePixel r.rdi r.rsi (low r.rdx) := by
    rw [hscaled hred, hscaled hgreen, hscaled hblue, fadePixel]
  refine wp_helper helper_makePixel hv hm (by omega) rfl ?_
  rintro _ rfl _ _ hm
  simp
  refine wp_pop hm rfl ?_
  refine wp_pop (hm.mono (by omega)) rfl ?_
  refine wp_pop (hm.mono (by omega)) rfl ?_
  refine wp_pop (hm.mono (by omega)) rfl ?_
  refine wp_pop (hm.mono (by omega)) rfl ?_
  refine wp_pop (hm.mono (by omega)) rfl ?_
  refine wp_back hm.forget.forget.forget.forget.forget.forget rfl
    ⟨_, red, green, blue, zext (getA (low r.rdx)), hpixel, rfl⟩ ?_
  simp

end CsfAssignments.Imgproc
