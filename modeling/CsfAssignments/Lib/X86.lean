import CsfAssignments.Lib.Memory
import Mathlib.Logic.Relation
/-!
# A subset of x86-64

Instructions take their operands in AT&T order, source first. A program is a set of labelled chunks
in the order of the text: a chunk ends in a jump or a `ret`, or falls into the next one.

| | |
| --- | --- |
| `Instr.effect` | what an instruction does that transfers no control |
| `exec`         | a chunk up to its first transfer out |
| `run`          | from a label to the `ret` that leaves it, with a bound on jumps and calls |
| `Returns`      | `run` with some bound: the routine terminates |
| `WP`           | `exec`, as a predicate transformer |

Only comparisons and subtractions leave flags that a jump may look at; after any other arithmetic
the flags count as undefined. `none` is a fault: undefined flags, a division error, or a `ret` that
does not find the address its `call` has pushed. `accesses` logs the accesses through a scaled
index. No instruction reads it.
-/

namespace X86

open Memory

inductive Reg where
  | rax | rbx | rcx | rdx | rsi | rdi | rbp | rsp
  | r8 | r9 | r10 | r11 | r12 | r13 | r14 | r15
deriving DecidableEq, Repr

structure Regs where
  rax : BitVec 64
  rbx : BitVec 64
  rcx : BitVec 64
  rdx : BitVec 64
  rsi : BitVec 64
  rdi : BitVec 64
  rbp : BitVec 64
  rsp : BitVec 64
  r8 : BitVec 64
  r9 : BitVec 64
  r10 : BitVec 64
  r11 : BitVec 64
  r12 : BitVec 64
  r13 : BitVec 64
  r14 : BitVec 64
  r15 : BitVec 64
deriving DecidableEq, Repr

def Regs.get (r : Regs) : Reg → BitVec 64
  | .rax => r.rax | .rbx => r.rbx | .rcx => r.rcx | .rdx => r.rdx
  | .rsi => r.rsi | .rdi => r.rdi | .rbp => r.rbp | .rsp => r.rsp
  | .r8 => r.r8 | .r9 => r.r9 | .r10 => r.r10 | .r11 => r.r11
  | .r12 => r.r12 | .r13 => r.r13 | .r14 => r.r14 | .r15 => r.r15

def Regs.set (r : Regs) (x : Reg) (v : BitVec 64) : Regs :=
  match x with
  | .rax => { r with rax := v } | .rbx => { r with rbx := v }
  | .rcx => { r with rcx := v } | .rdx => { r with rdx := v }
  | .rsi => { r with rsi := v } | .rdi => { r with rdi := v }
  | .rbp => { r with rbp := v } | .rsp => { r with rsp := v }
  | .r8 => { r with r8 := v } | .r9 => { r with r9 := v }
  | .r10 => { r with r10 := v } | .r11 => { r with r11 := v }
  | .r12 => { r with r12 := v } | .r13 => { r with r13 := v }
  | .r14 => { r with r14 := v } | .r15 => { r with r15 := v }

/-- `r`, with the registers of the list as in `r0`. -/
def Regs.restore (r r0 : Regs) : List Reg → Regs
  | [] => r
  | x :: xs => (r.restore r0 xs).set x (r0.get x)

theorem Regs.get_set (r : Regs) (x y : Reg) (v : BitVec 64) :
    (r.set x v).get y = if y = x then v else r.get y := by
  cases x <;> cases y <;> rfl

/-- The stack pointer is set on its own. -/
theorem Regs.set_rsp_comm (r : Regs) {x : Reg} (hx : x ≠ .rsp) (u v w : BitVec 64) :
    ((r.set .rsp u).set .rsp v).set x w = (r.set x w).set .rsp v := by
  cases x <;> first | rfl | contradiction

theorem Regs.get_restore (r r0 : Regs) (xs : List Reg) (y : Reg) :
    (r.restore r0 xs).get y = if y ∈ xs then r0.get y else r.get y := by
  induction xs with
  | nil => rfl
  | cons x xs ih =>
    rw [restore, get_set, ih]
    by_cases hy : y = x
    · rw [if_pos hy, if_pos (hy ▸ List.mem_cons_self ..), hy]
    · rw [if_neg hy]
      simp only [List.mem_cons, hy, false_or]

/-- The low half of a register, and the register a 32-bit result leaves. -/
def low (v : BitVec 64) : BitVec 32 := v.setWidth 32
def zext (v : BitVec 32) : BitVec 64 := v.setWidth 64

@[simp] theorem low_zext (v : BitVec 32) : low (zext v) = v := by
  simp [low, zext]

@[simp] theorem low_ofNat (n : Nat) : low (BitVec.ofNat 64 n) = BitVec.ofNat 32 n := by
  rw [low, BitVec.setWidth_ofNat_of_le (by decide)]

@[simp] theorem toNat_zext (v : BitVec 32) : (zext v).toNat = v.toNat := by
  rw [zext, BitVec.toNat_setWidth, Nat.mod_eq_of_lt (Nat.lt_trans v.isLt (by decide))]

/-! ## Flags -/

structure Flags where
  zf : Bool
  sf : Bool
  cf : Bool
  of : Bool
deriving DecidableEq, Repr

/-- The flags of `a - b`. -/
def Flags.ofSub {n : Nat} (a b : BitVec n) : Flags :=
  ⟨a - b = 0, (a - b).msb, a.ult b, (a - b).toInt ≠ a.toInt - b.toInt⟩

inductive Cond where
  | e | ne | l | ge | ae | s
deriving DecidableEq, Repr

def Cond.holds : Cond → Flags → Bool
  | .e, f => f.zf
  | .ne, f => !f.zf
  | .l, f => f.sf != f.of
  | .ge, f => f.sf == f.of
  | .ae, f => !f.cf
  | .s, f => f.sf

section
variable (a b : BitVec 32)

@[simp] theorem holds_e : Cond.e.holds (.ofSub a b) = decide (a = b) := by
  have : a - b = 0 ↔ a = b := sub_eq_zero
  simp only [Cond.holds, Flags.ofSub, this]

@[simp] theorem holds_ne : Cond.ne.holds (.ofSub a b) = decide (a ≠ b) := by
  have := holds_e a b
  simp_all [Cond.holds]

@[simp] theorem holds_ae : Cond.ae.holds (.ofSub a b) = decide (b.toNat ≤ a.toNat) := by
  simp only [Cond.holds, Flags.ofSub, BitVec.ult]
  rw [← decide_not]
  simp only [Nat.not_lt]

/-- The sign of a difference, corrected by the overflow, is the signed order. -/
@[simp] theorem holds_l : Cond.l.holds (.ofSub a b) = decide (a.toInt < b.toInt) := by
  have ha := a.toInt_lt
  have ha' := a.le_toInt
  have hb := b.toInt_lt
  have hb' := b.le_toInt
  have hsub : (a - b).toInt = _ := BitVec.toInt_sub
  simp only [Int.bmod] at hsub
  simp only [Cond.holds, Flags.ofSub, BitVec.msb_eq_toInt]
  generalize (a - b).toInt = z at *
  generalize a.toInt = x at *
  generalize b.toInt = y at *
  by_cases h : x < y <;> by_cases hz : z < 0 <;> by_cases hof : z = x - y <;>
    simp [h, hz, hof] <;> (split at hsub <;> omega)

@[simp] theorem holds_ge : Cond.ge.holds (.ofSub a b) = decide (b.toInt ≤ a.toInt) := by
  have := holds_l a b
  simp only [Cond.holds, bne] at this
  have hnot : Cond.ge.holds (.ofSub a b) = !decide (a.toInt < b.toInt) := by
    rw [← this]; simp [Cond.holds]
  rw [hnot, ← decide_not]
  simp only [Int.not_lt]

theorem holds_s : Cond.s.holds (.ofSub a b) = decide ((a - b).toInt < 0) := by
  simp only [Cond.holds, Flags.ofSub, BitVec.msb_eq_toInt]

end

/-! ## Machine state -/

/-- An access through a base and a scaled index. -/
structure Access where
  store : Bool
  base : Addr
  index : BitVec 64
deriving DecidableEq, Repr

structure State where
  regs : Regs
  flags : Option Flags
  mem : Mem
  accesses : List Access

inductive Width where
  | l | q
deriving DecidableEq, Repr

inductive Operand where
  | imm (v : BitVec 64)
  | reg (r : Reg)
  | mem (disp : Nat) (base : Reg)
  | sib (base index : Reg) (scale : Nat)
deriving DecidableEq, Repr

instance : Coe Reg Operand := ⟨.reg⟩

instance (n : Nat) : OfNat Operand n := ⟨.imm (BitVec.ofNat 64 n)⟩

namespace State

def set (s : State) (r : Reg) (v : BitVec 64) : State := { s with regs := s.regs.set r v }

def set32 (s : State) (r : Reg) (v : BitVec 32) : State := s.set r (zext v)

def log (s : State) (store : Bool) : Operand → State
  | .sib base index _ =>
    { s with accesses := s.accesses ++ [⟨store, s.regs.get base, s.regs.get index⟩] }
  | _ => s

def addr (s : State) : Operand → Addr
  | .mem disp base => s.regs.get base + BitVec.ofNat 64 disp
  | .sib base index scale => s.regs.get base + BitVec.ofNat 64 scale * s.regs.get index
  | _ => 0

/-- The value of a source operand. -/
def src64 (s : State) : Operand → BitVec 64
  | .imm v => v
  | .reg r => s.regs.get r
  | o => read64 s.mem (s.addr o)

def src32 (s : State) : Operand → BitVec 32
  | .imm v => low v
  | .reg r => low (s.regs.get r)
  | o => read32 s.mem (s.addr o)

/-- Stores to a destination operand. -/
def put64 (s : State) (v : BitVec 64) : Operand → Option State
  | .imm _ => none
  | .reg r => some (s.set r v)
  | o => some { s.log true o with mem := write64 s.mem (s.addr o) v }

def put32 (s : State) (v : BitVec 32) : Operand → Option State
  | .imm _ => none
  | .reg r => some (s.set32 r v)
  | o => some { s.log true o with mem := write32 s.mem (s.addr o) v }

def push (s : State) (v : BitVec 64) : State :=
  { s with
    regs := { s.regs with rsp := s.regs.rsp - 8#64 }
    mem := write64 s.mem (s.regs.rsp - 8#64) v }

/-- The word on top of the stack, and the state without it. -/
def top (s : State) : BitVec 64 := read64 s.mem s.regs.rsp

def drop (s : State) : State := { s with regs := { s.regs with rsp := s.regs.rsp + 8#64 } }

end State

/-! ## Instructions -/

inductive Alu where
  | add | sub | and | or | xor | imul | shl | shr | inc | dec
deriving DecidableEq, Repr

/-- `dst` op `src`; a shift count counts modulo the width. -/
def Alu.eval {n : Nat} (op : Alu) (dst src : BitVec n) : BitVec n :=
  match op with
  | .add => dst + src
  | .sub => dst - src
  | .and => dst &&& src
  | .or => dst ||| src
  | .xor => dst ^^^ src
  | .imul => dst * src
  | .shl => dst <<< (src.toNat % n)
  | .shr => dst >>> (src.toNat % n)
  | .inc => dst + src
  | .dec => dst - src

/-- Only a subtraction leaves flags to look at. -/
def Alu.flags {n : Nat} (op : Alu) (dst src : BitVec n) : Option Flags :=
  match op with
  | .sub => some (.ofSub dst src)
  | _ => none

inductive Instr (L : Type) where
  | mov (w : Width) (src dst : Operand)
  | alu (w : Width) (op : Alu) (src : Operand) (dst : Reg)
  | imul3 (factor src : Operand) (dst : Reg)
  | cmp (w : Width) (src : Operand) (dst : Reg)
  | cqo
  | idivq (src : Reg)
  | divq (src : Reg)
  | pushq (src : Reg)
  | popq (dst : Reg)
  | jmp (target : L)
  | jcc (cond : Cond) (target : L)
  | call (target : L)
  | ret

/-! ### Mnemonics -/

abbrev eax := Reg.rax
abbrev ebx := Reg.rbx
abbrev ecx := Reg.rcx
abbrev edx := Reg.rdx
abbrev esi := Reg.rsi
abbrev edi := Reg.rdi
abbrev ebp := Reg.rbp
abbrev r9d := Reg.r9
abbrev r10d := Reg.r10
abbrev r11d := Reg.r11
abbrev r12d := Reg.r12
abbrev r13d := Reg.r13
abbrev r14d := Reg.r14
abbrev r15d := Reg.r15

section
variable {L : Type}

abbrev movl (src dst : Operand) : Instr L := .mov .l src dst
abbrev movq (src dst : Operand) : Instr L := .mov .q src dst
abbrev addl (src : Operand) (dst : Reg) : Instr L := .alu .l .add src dst
abbrev addq (src : Operand) (dst : Reg) : Instr L := .alu .q .add src dst
abbrev subl (src : Operand) (dst : Reg) : Instr L := .alu .l .sub src dst
abbrev subq (src : Operand) (dst : Reg) : Instr L := .alu .q .sub src dst
abbrev andl (src : Operand) (dst : Reg) : Instr L := .alu .l .and src dst
abbrev orl (src : Operand) (dst : Reg) : Instr L := .alu .l .or src dst
abbrev xorl (src : Operand) (dst : Reg) : Instr L := .alu .l .xor src dst
abbrev xorq (src : Operand) (dst : Reg) : Instr L := .alu .q .xor src dst
abbrev imull (src : Operand) (dst : Reg) : Instr L := .alu .l .imul src dst
abbrev imulq (src : Operand) (dst : Reg) : Instr L := .alu .q .imul src dst
abbrev imulq3 (factor src : Operand) (dst : Reg) : Instr L := .imul3 factor src dst
abbrev shll (count : Operand) (dst : Reg) : Instr L := .alu .l .shl count dst
abbrev shrl (count : Operand) (dst : Reg) : Instr L := .alu .l .shr count dst
abbrev incl (dst : Reg) : Instr L := .alu .l .inc 1 dst
abbrev decl (dst : Reg) : Instr L := .alu .l .dec 1 dst
abbrev cmpl (src : Operand) (dst : Reg) : Instr L := .cmp .l src dst
abbrev je (target : L) : Instr L := .jcc .e target
abbrev jne (target : L) : Instr L := .jcc .ne target
abbrev jl (target : L) : Instr L := .jcc .l target
abbrev jge (target : L) : Instr L := .jcc .ge target
abbrev jae (target : L) : Instr L := .jcc .ae target
abbrev js (target : L) : Instr L := .jcc .s target

end

/-- `rdx:rax / d`, signed: quotient and remainder. -/
def sdiv (hi lo d : BitVec 64) : Option (BitVec 64 × BitVec 64) :=
  let n := hi.toInt * 2 ^ 64 + lo.toNat
  let quot := n.tdiv d.toInt
  if d = 0 ∨ quot < -2 ^ 63 ∨ 2 ^ 63 ≤ quot then none
  else some (BitVec.ofInt 64 quot, BitVec.ofInt 64 (n.tmod d.toInt))

/-- `rdx:rax / d`, unsigned. -/
def udiv (hi lo d : BitVec 64) : Option (BitVec 64 × BitVec 64) :=
  let n := hi.toNat * 2 ^ 64 + lo.toNat
  if d = 0 ∨ 2 ^ 64 ≤ n / d.toNat then none
  else some (BitVec.ofNat 64 (n / d.toNat), BitVec.ofNat 64 (n % d.toNat))

/-- What `cqo` makes of a word is the word again. -/
theorem toInt_dividend (a : BitVec 64) :
    (a.sshiftRight 63).toInt * 2 ^ 64 + a.toNat = a.toInt := by
  have h1 := a.toInt_lt
  have h2 := a.le_toInt
  have h3 := a.isLt
  rw [BitVec.toInt_sshiftRight, Int.shiftRight_eq_div_pow, BitVec.toInt_eq_toNat_cond]
  split <;> omega

theorem sdiv_dividend {a d : BitVec 64} (hd : 0 < d.toInt) :
    sdiv (a.sshiftRight 63) a d = some (a.sdiv d, a.srem d) := by
  have h1 := a.toInt_lt
  have h2 := a.le_toInt
  have hne : d ≠ 0 := by rintro rfl; simp at hd
  have habs := Int.natAbs_tdiv_le_natAbs a.toInt d.toInt
  have hneg : a.toInt < 0 → a.toInt.tdiv d.toInt ≤ 0 := by
    intro h
    have := Int.tdiv_nonneg (a := -a.toInt) (b := d.toInt) (by omega) (by omega)
    rw [Int.neg_tdiv] at this
    omega
  have hfit : ¬ (d = 0 ∨ a.toInt.tdiv d.toInt < -2 ^ 63 ∨ 2 ^ 63 ≤ a.toInt.tdiv d.toInt) := by
    rintro (h | h)
    · exact hne h
    · omega
  rw [sdiv, toInt_dividend, if_neg hfit]
  congr 2
  · apply BitVec.eq_of_toInt_eq
    rw [BitVec.toInt_sdiv, BitVec.toInt_ofInt]
  · rw [← BitVec.toInt_srem, BitVec.ofInt_toInt]

theorem udiv_word {a d : BitVec 64} (hd : d ≠ 0) : udiv 0 a d = some (a / d, a % d) := by
  have ha := a.isLt
  have hq := Nat.div_le_self a.toNat d.toNat
  have hfit : ¬ (d = 0 ∨ 2 ^ 64 ≤ a.toNat / d.toNat) := by
    rintro (h | h)
    · exact hd h
    · omega
  have hzero : (0 : BitVec 64).toNat * 2 ^ 64 + a.toNat = a.toNat := by
    simp
  rw [udiv, hzero, if_neg hfit, BitVec.udiv_def, BitVec.umod_def]

/-- A division leaves no flags. -/
def State.divide (s : State) (result : Option (BitVec 64 × BitVec 64)) : Option State :=
  match result with
  | none => none
  | some (quot, rem) => some { s with regs := { s.regs with rax := quot, rdx := rem }, flags := none }

variable {L : Type}

def Instr.effect : Instr L → State → Option State
  | .mov .l src dst, s => (s.log false src).put32 (s.src32 src) dst
  | .mov .q src dst, s => (s.log false src).put64 (s.src64 src) dst
  | .alu .l op src dst, s =>
    let a := low (s.regs.get dst)
    let b := s.src32 src
    some { (s.log false src).set32 dst (op.eval a b) with flags := op.flags a b }
  | .alu .q op src dst, s =>
    let a := s.regs.get dst
    let b := s.src64 src
    some { (s.log false src).set dst (op.eval a b) with flags := op.flags a b }
  | .imul3 factor src dst, s =>
    some { (s.log false src).set dst (s.src64 src * s.src64 factor) with flags := none }
  | .cmp .l src dst, s =>
    some { s.log false src with flags := some (.ofSub (low (s.regs.get dst)) (s.src32 src)) }
  | .cmp .q src dst, s =>
    some { s.log false src with flags := some (.ofSub (s.regs.get dst) (s.src64 src)) }
  | .cqo, s => some { s with regs := { s.regs with rdx := s.regs.rax.sshiftRight 63 } }
  | .idivq src, s => s.divide (sdiv s.regs.rdx s.regs.rax (s.regs.get src))
  | .divq src, s => s.divide (udiv s.regs.rdx s.regs.rax (s.regs.get src))
  | .pushq src, s => some (s.push (s.regs.get src))
  | .popq dst, s => some (s.drop.set dst s.top)
  | .jmp _, _ => none
  | .jcc _ _, _ => none
  | .call _, _ => none
  | .ret, _ => none

/-! ## Programs -/

structure Program (L : Type) where
  chunk : L → List (Instr L)
  /-- The label a chunk falls into. -/
  next : L → Option L
  /-- The address of the code that follows a call. -/
  text : List (Instr L) → Addr

/-- How control leaves a chunk. -/
inductive Outcome (L : Type) where
  | next (s : State)
  | jump (l : L) (s : State)
  | ret (a : Addr) (s : State)

section
variable (callee : L → State → Option (Addr × State)) (text : List (Instr L) → Addr)

/-- A chunk, `callee` being what a call does from its first instruction to its `ret`. -/
def exec : List (Instr L) → State → Option (Outcome L)
  | [], s => some (.next s)
  | .jmp l :: _, s => some (.jump l s)
  | .jcc c l :: is, s =>
    match s.flags with
    | none => none
    | some f => if c.holds f then some (.jump l s) else exec is s
  | .call l :: is, s =>
    match callee l (s.push (text is)) with
    | none => none
    | some (a, s') => if a = text is then exec is s' else none
  | .ret :: _, s => some (.ret s.top s.drop)
  | i :: is, s =>
    match i.effect s with
    | none => none
    | some s' => exec is s'

end

variable {P : Program L}

/-- From label `l` to the `ret` that leaves: the address it pops and the state. `bound` limits the
jumps and the depth of the calls. -/
def run (P : Program L) : Nat → L → State → Option (Addr × State)
  | 0, _, _ => none
  | bound + 1, l, s =>
    match exec (run P bound) P.text (P.chunk l) s with
    | none => none
    | some (.ret a s') => some (a, s')
    | some (.jump l' s') => run P bound l' s'
    | some (.next s') =>
      match P.next l with
      | none => none
      | some l' => run P bound l' s'

/-- The routine at `l` terminates: it returns to `a` in state `s'`. -/
def Returns (P : Program L) (l : L) (s : State) (a : Addr) (s' : State) : Prop :=
  ∃ bound, run P bound l s = some (a, s')

/-! ## Rules -/

section
variable {c c' : L → State → Option (Addr × State)} {text : List (Instr L) → Addr}

theorem exec_effect {i : Instr L} {s s' : State} (h : i.effect s = some s') (is : List (Instr L)) :
    exec c text (i :: is) s = exec c text is s' := by
  cases i with
  | jmp | jcc | call | ret => simp [Instr.effect] at h
  | _ => simp [exec, h]

theorem exec_mono (hc : ∀ l s r, c l s = some r → c' l s = some r) :
    ∀ (is : List (Instr L)) (s : State) {o : Outcome L}, exec c text is s = some o →
      exec c' text is s = some o
  | [], s, o, h => by simpa [exec] using h
  | i :: is, s, o, h => by
    cases he : i.effect s with
    | some s' =>
      rw [exec_effect he] at h ⊢
      exact exec_mono hc is s' h
    | none =>
      cases i with
      | jmp => simpa [exec] using h
      | ret => simpa [exec] using h
      | jcc cond l =>
        simp only [exec] at h ⊢
        cases hf : s.flags with
        | none => simp [hf] at h
        | some f =>
          simp only [hf] at h ⊢
          split at h
          · rename_i hh; simpa [hh] using h
          · rename_i hh; simpa [hh] using exec_mono hc is s h
      | call l =>
        simp only [exec] at h ⊢
        cases hr : c l (s.push (text is)) with
        | none => simp [hr] at h
        | some r =>
          simp only [hr] at h
          rw [hc _ _ _ hr]
          dsimp only
          split at h
          · rename_i hh; rw [if_pos hh]; exact exec_mono hc is _ h
          · cases h
      | _ => simp [exec, he] at h

end

theorem run_mono {bound : Nat} {l : L} {s : State} {r : Addr × State}
    (h : run P bound l s = some r) : run P (bound + 1) l s = some r := by
  induction bound generalizing l s r with
  | zero => cases h
  | succ bound ih =>
    rw [run] at h ⊢
    cases he : exec (run P bound) P.text (P.chunk l) s with
    | none => simp [he] at h
    | some o =>
      rw [exec_mono (fun _ _ _ => ih) _ _ he]
      rw [he] at h
      cases o with
      | ret a s' => exact h
      | jump l' s' => exact ih h
      | next s' =>
        dsimp only at h ⊢
        cases hn : P.next l with
        | none => simp [hn] at h
        | some l' => simp only [hn] at h ⊢; exact ih h

theorem run_le {bound bound' : Nat} (hle : bound ≤ bound') {l : L} {s : State} {r : Addr × State}
    (h : run P bound l s = some r) : run P bound' l s = some r := by
  induction hle with
  | refl => exact h
  | step _ ih => exact run_mono ih

/-- **Determinism**. -/
theorem Returns.unique {l : L} {s t t' : State} {a a' : Addr} (h : Returns P l s a t)
    (h' : Returns P l s a' t') : a = a' ∧ t = t' := by
  obtain ⟨n, hn⟩ := h
  obtain ⟨n', hn'⟩ := h'
  have h1 := run_le (Nat.le_max_left n n') hn
  rw [run_le (Nat.le_max_right n n') hn'] at h1
  simpa [eq_comm] using h1

/-- The chunk suffix `is` runs from `s` to the outcome `o`. -/
def Exec (P : Program L) (is : List (Instr L)) (s : State) (o : Outcome L) : Prop :=
  ∃ bound, exec (run P bound) P.text is s = some o

/-- The chunk suffix `is` runs from `s` to an outcome with `Q`. -/
def WP (P : Program L) (is : List (Instr L)) (s : State) (Q : Outcome L → Prop) : Prop :=
  ∃ o, Exec P is s o ∧ Q o

section
variable {is : List (Instr L)} {s s' : State} {Q : Outcome L → Prop} {l : L}

theorem wp_nil (h : Q (.next s)) : WP P [] s Q := ⟨_, ⟨0, rfl⟩, h⟩

theorem wp_jmp (h : Q (.jump l s)) : WP P (.jmp l :: is) s Q := ⟨_, ⟨0, rfl⟩, h⟩

theorem wp_ret (h : Q (.ret s.top s.drop)) : WP P (.ret :: is) s Q := ⟨_, ⟨0, rfl⟩, h⟩

theorem wp_effect {i : Instr L} (hi : i.effect s = some s') : WP P (i :: is) s Q ↔ WP P is s' Q := by
  simp only [WP, Exec, exec_effect hi]

attribute [simp] Regs.get Regs.set State.log State.set State.set32 State.addr State.src32 State.src64
  Alu.eval Alu.flags

section
variable {src : Operand} {x : Reg} {op : Alu}

@[simp] theorem wp_movl : WP P (.mov .l src (.reg x) :: is) s Q ↔
    WP P is ((s.log false src).set32 x (s.src32 src)) Q := wp_effect rfl

@[simp] theorem wp_movq : WP P (.mov .q src (.reg x) :: is) s Q ↔
    WP P is ((s.log false src).set x (s.src64 src)) Q := wp_effect rfl

theorem wp_movl_store {b i : Reg} {k : Nat} : WP P (.mov .l (.reg x) (.sib b i k) :: is) s Q ↔
    WP P is { s.log true (.sib b i k) with
      mem := write32 s.mem (s.addr (.sib b i k)) (low (s.regs.get x)) } Q := wp_effect rfl

@[simp] theorem wp_alul : WP P (.alu .l op src x :: is) s Q ↔
    WP P is { (s.log false src).set32 x (op.eval (low (s.regs.get x)) (s.src32 src)) with
      flags := op.flags (low (s.regs.get x)) (s.src32 src) } Q := wp_effect rfl

@[simp] theorem wp_aluq : WP P (.alu .q op src x :: is) s Q ↔
    WP P is { (s.log false src).set x (op.eval (s.regs.get x) (s.src64 src)) with
      flags := op.flags (s.regs.get x) (s.src64 src) } Q := wp_effect rfl

@[simp] theorem wp_cmpl : WP P (.cmp .l src x :: is) s Q ↔
    WP P is { s.log false src with
      flags := some (.ofSub (low (s.regs.get x)) (s.src32 src)) } Q := wp_effect rfl

/-! A product or a quotient gets a name: the kernel would compute with large constants. -/

theorem wp_imul3 {factor : Operand}
    (h : ∀ v, v = s.src64 src * s.src64 factor →
      WP P is { (s.log false src).set x v with flags := none } Q) :
    WP P (.imul3 factor src x :: is) s Q := (wp_effect rfl).mpr (h _ rfl)

/-- Signed, after `cqo`, by a positive number. -/
theorem wp_idivq {r : Regs} {fl : Option Flags} {m : Mem} {acc : List Access}
    (hs : r.rdx = r.rax.sshiftRight 63) (hpos : 0 < (r.get x).toInt)
    (h : ∀ quot rem, quot = r.rax.sdiv (r.get x) →
      WP P is ⟨(r.set .rax quot).set .rdx rem, none, m, acc⟩ Q) :
    WP P (.idivq x :: is) ⟨r, fl, m, acc⟩ Q := by
  refine (wp_effect ?_).mpr (h _ (r.rax.srem (r.get x)) rfl)
  rw [Instr.effect, hs, sdiv_dividend hpos]
  rfl

/-- Unsigned, of one word. -/
theorem wp_divq {r : Regs} {fl : Option Flags} {m : Mem} {acc : List Access}
    (hz : r.rdx = 0) (hne : r.get x ≠ 0)
    (h : ∀ quot rem, quot = r.rax / r.get x →
      WP P is ⟨(r.set .rax quot).set .rdx rem, none, m, acc⟩ Q) :
    WP P (.divq x :: is) ⟨r, fl, m, acc⟩ Q := by
  refine (wp_effect ?_).mpr (h _ (r.rax % r.get x) rfl)
  rw [Instr.effect, hz, udiv_word hne]
  rfl

@[simp] theorem wp_cqo : WP P (.cqo :: is) s Q ↔
    WP P is { s with regs := { s.regs with rdx := s.regs.rax.sshiftRight 63 } } Q := wp_effect rfl

theorem wp_pushq : WP P (.pushq x :: is) s Q ↔ WP P is (s.push (s.regs.get x)) Q := wp_effect rfl

theorem wp_popq : WP P (.popq x :: is) s Q ↔ WP P is (s.drop.set x s.top) Q := wp_effect rfl

end

theorem wp_jcc {cond : Cond} {f : Flags} (hf : s.flags = some f)
    (hjump : cond.holds f = true → Q (.jump l s)) (hfall : cond.holds f = false → WP P is s Q) :
    WP P (.jcc cond l :: is) s Q := by
  cases hc : cond.holds f with
  | true => exact ⟨_, ⟨0, by simp [exec, hf, hc]⟩, hjump hc⟩
  | false =>
    obtain ⟨o, ⟨n, hn⟩, hQ⟩ := hfall hc
    exact ⟨o, ⟨n, by simp [exec, hf, hc, hn]⟩, hQ⟩

theorem wp_jcc_taken {cond : Cond} {f : Flags} (hf : s.flags = some f)
    (hc : cond.holds f = true) (h : Q (.jump l s)) : WP P (.jcc cond l :: is) s Q :=
  wp_jcc hf (fun _ => h) fun hn => by rw [hc] at hn; cases hn

theorem wp_jcc_passed {cond : Cond} {f : Flags} (hf : s.flags = some f)
    (hc : cond.holds f = false) (h : WP P is s Q) : WP P (.jcc cond l :: is) s Q :=
  wp_jcc hf (fun hj => by rw [hc] at hj; cases hj) fun _ => h

/-- A call steps by what its routine does. -/
theorem wp_call (hr : Returns P l (s.push (P.text is)) (P.text is) s') (h : WP P is s' Q) :
    WP P (.call l :: is) s Q := by
  obtain ⟨n, hn⟩ := hr
  obtain ⟨o, ⟨n', hn'⟩, hQ⟩ := h
  refine ⟨o, ⟨max n n', ?_⟩, hQ⟩
  have hrun := run_le (Nat.le_max_left n n') hn
  simp only [exec, hrun, if_true]
  exact exec_mono (fun _ _ _ => run_le (Nat.le_max_right n n')) _ _ hn'

/-- A routine that is one straight chunk. -/
theorem returns_of_wp {a : Addr} (h : WP P (P.chunk l) s fun o => o = .ret a s') :
    Returns P l s a s' := by
  obtain ⟨o, ⟨n, hn⟩, rfl⟩ := h
  exact ⟨n + 1, by simp [run, hn]⟩

end

/-- From one label to the next. -/
def Hop (P : Program L) (x y : L × State) : Prop :=
  Exec P (P.chunk x.1) x.2 (.jump y.1 y.2) ∨
    (Exec P (P.chunk x.1) x.2 (.next y.2) ∧ P.next x.1 = some y.1)

/-- From one label to another, over any number of chunks. -/
def Goes (P : Program L) : L × State → L × State → Prop := Relation.ReflTransGen (Hop P)

/-- A chunk ends at label `x` with `I`. -/
def Leaves (P : Program L) (l x : L) (I : State → Prop) : Outcome L → Prop
  | .jump l' s => l' = x ∧ I s
  | .next s => P.next l = some x ∧ I s
  | .ret _ _ => False

/-- A chunk ends the routine, with `I`. -/
def Ends (I : Addr → State → Prop) : Outcome L → Prop
  | .ret a s => I a s
  | _ => False

theorem returns_of_ends {l : L} {s : State} {I : Addr → State → Prop}
    (h : WP P (P.chunk l) s (Ends I)) : ∃ a s', Returns P l s a s' ∧ I a s' := by
  obtain ⟨o, he, hI⟩ := h
  cases o with
  | ret a s' => exact ⟨a, s', returns_of_wp ⟨_, he, rfl⟩, hI⟩
  | next s' => exact hI.elim
  | jump l' s' => exact hI.elim

theorem Goes.refl (x : L × State) : Goes P x x := Relation.ReflTransGen.refl

theorem Goes.trans {x y z : L × State} (h : Goes P x y) (h' : Goes P y z) : Goes P x z :=
  Relation.ReflTransGen.trans h h'

theorem goes_of_wp {l x : L} {s : State} {I : State → Prop}
    (h : WP P (P.chunk l) s (Leaves P l x I)) : ∃ s', Goes P (l, s) (x, s') ∧ I s' := by
  obtain ⟨o, he, hI⟩ := h
  cases o with
  | jump l' s' =>
    obtain ⟨rfl, hI⟩ := hI
    exact ⟨s', .single (.inl he), hI⟩
  | next s' =>
    obtain ⟨hn, hI⟩ := hI
    exact ⟨s', .single (.inr ⟨he, hn⟩), hI⟩
  | ret a s' => exact hI.elim

theorem Hop.returns {x y : L × State} {a : Addr} {t : State} (h : Hop P x y)
    (hr : Returns P y.1 y.2 a t) : Returns P x.1 x.2 a t := by
  obtain ⟨m, hm⟩ := hr
  rcases h with ⟨n, hn⟩ | ⟨⟨n, hn⟩, hnext⟩
  · have he := exec_mono (fun _ _ _ => run_le (Nat.le_max_left n m)) _ _ hn
    exact ⟨max n m + 1, by simp [run, he, run_le (Nat.le_max_right n m) hm]⟩
  · have he := exec_mono (fun _ _ _ => run_le (Nat.le_max_left n m)) _ _ hn
    exact ⟨max n m + 1, by simp [run, he, hnext, run_le (Nat.le_max_right n m) hm]⟩

theorem Goes.returns {x y : L × State} {a : Addr} {t : State} (h : Goes P x y)
    (hr : Returns P y.1 y.2 a t) : Returns P x.1 x.2 a t := by
  induction h using Relation.ReflTransGen.head_induction_on with
  | refl => exact hr
  | head hop _ ih => exact hop.returns ih

/-- **Loop rule**: `n` rounds from a label back to it. -/
theorem Goes.iterate {l : L} {I : Nat → State → Prop} {n : Nat}
    (hstep : ∀ k < n, ∀ s, I k s → ∃ s', Goes P (l, s) (l, s') ∧ I (k + 1) s') {k : Nat}
    (hk : k ≤ n) {s : State} (h : I k s) : ∃ s', Goes P (l, s) (l, s') ∧ I n s' := by
  induction hk using Nat.decreasingInduction generalizing s with
  | self => exact ⟨s, .refl _, h⟩
  | of_succ k hk ih =>
    obtain ⟨s', h1, h2⟩ := hstep k hk s h
    obtain ⟨s'', h3, h4⟩ := ih h2
    exact ⟨s'', h1.trans h3, h4⟩

/-- **Nested loops**: row `i` starts at column `f i`. -/
theorem Goes.nested {row col : L} {R : Nat → State → Prop} {C : Nat → Nat → State → Prop}
    {n m : Nat} {f : Nat → Nat} (hf : ∀ i < n, f i ≤ m)
    (henter : ∀ i < n, ∀ s, R i s → ∃ s', Goes P (row, s) (col, s') ∧ C i (f i) s')
    (hcell : ∀ i < n, ∀ j < m, f i ≤ j → ∀ s, C i j s →
      ∃ s', Goes P (col, s) (col, s') ∧ C i (j + 1) s')
    (hleave : ∀ i < n, ∀ s, C i m s → ∃ s', Goes P (col, s) (row, s') ∧ R (i + 1) s')
    {s : State} (h : R 0 s) : ∃ s', Goes P (row, s) (row, s') ∧ R n s' := by
  refine Goes.iterate (fun i hi s hR => ?_) (Nat.zero_le n) h
  obtain ⟨s1, g1, hC⟩ := henter i hi s hR
  have hcell' : ∀ j < m, ∀ s, f i ≤ j ∧ C i j s →
      ∃ s', Goes P (col, s) (col, s') ∧ f i ≤ j + 1 ∧ C i (j + 1) s' := by
    rintro j hj s ⟨hfj, hC⟩
    obtain ⟨s', g, hC'⟩ := hcell i hi j hj hfj s hC
    exact ⟨s', g, Nat.le_succ_of_le hfj, hC'⟩
  obtain ⟨s2, g2, -, hC2⟩ := Goes.iterate hcell' (hf i hi) ⟨Nat.le_refl _, hC⟩
  obtain ⟨s3, g3, hR3⟩ := hleave i hi s2 hC2
  exact ⟨s3, (g1.trans g2).trans g3, hR3⟩

end X86
