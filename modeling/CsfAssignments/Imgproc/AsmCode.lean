import CsfAssignments.Lib.X86
/-!
# The text of `csf_assign02/asm_imgproc_fns.S`

The file chunk by chunk, in its order and under its labels; an empty line of the source starts a new
line here. `program` puts the chunks together, for any addresses that the linker may choose.
-/

namespace CsfAssignments.Imgproc.Asm

open X86 X86.Reg

/-- The labels of the file. -/
inductive Label where
  | getR | getG | getB | getA | makePixel | toGrayscale | gradient | computeIndex | fadePixel
  | imgprocRgb | rowLoopRgb | colLoopRgb | colCondRgb | rowCondRgb
  | imgprocGrayscale | rowLoopGrayscale | colLoopGrayscale | colCondGrayscale | rowCondGrayscale
  | imgprocFade | rowLoop | colLoop | endCols | endRows
  | imgprocKaleidoscope | evenRowLoop | evenProceedRow | evenColLoop | evenEndCol | evenEndRow
  | oddimPath | oddimRowLoop | oddimColLoop | oddimChkI | oddimChkJ | oddimSpecialI
  | oddimSpecialJ | oddimEndCol | oddimEndRow | dimMismatch
deriving DecidableEq, Repr

/-! ## Helper functions -/

/-- `asm_imgproc_fns.S:23`. -/
def getR : List (Instr Label) :=
  [ movl edi eax, andl 0xFF000000 eax, shrl 24 eax, .ret ]

def getG : List (Instr Label) :=
  [ movl edi eax, andl 0x00FF0000 eax, shrl 16 eax, .ret ]

def getB : List (Instr Label) :=
  [ movl edi eax, andl 0x0000FF00 eax, shrl 8 eax, .ret ]

def getA : List (Instr Label) :=
  [ movl edi eax, andl 0x000000FF eax, .ret ]

def makePixel : List (Instr Label) :=
  [ movl edi eax, shll 8 eax, orl esi eax, shll 8 eax, orl edx eax, shll 8 eax, orl ecx eax, .ret ]

/-- `asm_imgproc_fns.S:94`. -/
def toGrayscale : List (Instr Label) :=
  [ .pushq r12, .pushq r13, .pushq r14, .pushq r15,
    movl edi r15d,
    .call .getR, movl eax r12d,
    movl r15d edi, .call .getG, movl eax r13d,
    movl r15d edi, .call .getB, movl eax r14d,
    movl r15d edi, .call .getA, movl eax r15d,
    imull 79 r12d, imull 128 r13d, imull 49 r14d,
    movl 0 r10d, addl r12d r10d, addl r13d r10d, addl r14d r10d, shrl 8 r10d,
    movl r10d edi, movl r10d esi, movl r10d edx, movl r15d ecx, .call .makePixel,
    .popq r15, .popq r14, .popq r13, .popq r12,
    .ret ]

/-- `asm_imgproc_fns.S:148`. -/
def gradient : List (Instr Label) :=
  [ .pushq rbx,
    imulq3 2000000000 rdi rax, .cqo,
    imulq3 1000000 rsi rcx, .idivq rcx,
    subq 1000 rax, movq rax rbx,
    movq rbx rax, imulq rbx rax,
    movq 1000000 r8, subq rax r8, movq r8 rax,
    .popq rbx, .ret ]

/-- `asm_imgproc_fns.S:182`. -/
def computeIndex : List (Instr Label) :=
  [ movl (.mem 0 rdi) r10d, movq 0 rax, addl edx eax, imull r10d eax, addl esi eax, .ret ]

/-- `asm_imgproc_fns.S:211`. -/
def fadePixel : List (Instr Label) :=
  [ .pushq rbp, .pushq rbx, .pushq r12, .pushq r13, .pushq r14, .pushq r15,
    movq rdx rbx,
    imulq rdi rsi,
    movq 1000000000000 rcx,
    movq rbx rdi, .call .getR, imulq rsi rax, xorq rdx rdx, .divq rcx, movq rax r12,
    movq rbx rdi, .call .getG, imulq rsi rax, xorq rdx rdx, .divq rcx, movq rax r13,
    movq rbx rdi, .call .getB, imulq rsi rax, xorq rdx rdx, .divq rcx, movq rax r14,
    movq rbx rdi, .call .getA, movq rax r15,
    movq r12 rdi, movq r13 rsi, movq r14 rdx, movq r15 rcx, .call .makePixel,
    .popq r15, .popq r14, .popq r13, .popq r12, .popq rbx, .popq rbp, .ret ]

/-! ## `imgproc_rgb` -/

/-- `asm_imgproc_fns.S:313`. -/
def imgprocRgb : List (Instr Label) :=
  [ .pushq rbx, .pushq rbp, .pushq r12, .pushq r13, .pushq r14, .pushq r15,
    movq rdi r12, movq rsi r13,
    movq 0 rbx, .jmp .rowCondRgb ]

def rowLoopRgb : List (Instr Label) :=
  [ movq 0 rbp, .jmp .colCondRgb ]

def colLoopRgb : List (Instr Label) :=
  [ movq r12 rdi, movl ebp esi, movl ebx edx, .call .computeIndex,
    movq (.mem 8 r12) r10, movl (.sib r10 rax 4) r14d,
    movq r13 rdi, movl ebp esi, movl ebx edx, .call .computeIndex,
    movq (.mem 8 r13) r10, movl r14d (.sib r10 rax 4),
    movl r14d edi, .call .getA, movl eax r15d,
    movl r14d edi, .call .getR,
    movl eax edi, movl 0 esi, movl 0 edx, movl r15d ecx, .call .makePixel, .pushq r15,
    movl eax r15d,
    movq r13 rdi, movl ebp esi, addl (.mem 0 r12) esi, movl ebx edx, .call .computeIndex,
    movq (.mem 8 r13) r10, movl r15d (.sib r10 rax 4),
    movl r14d edi, .call .getG,
    .popq r15, movl 0 edi, movl eax esi, movl 0 edx, movl r15d ecx, .call .makePixel, .pushq r15,
    movl eax r15d,
    movq r13 rdi, movl ebp esi, movl ebx edx, addl (.mem 4 r12) edx, .call .computeIndex,
    movq (.mem 8 r13) r10, movl r15d (.sib r10 rax 4),
    movl r14d edi, .call .getB,
    .popq r15, movl 0 edi, movl 0 esi, movl eax edx, movl r15d ecx, .call .makePixel,
    movl eax r15d,
    movq r13 rdi, movl ebp esi, addl (.mem 0 r12) esi, movl ebx edx, addl (.mem 4 r12) edx,
    .call .computeIndex,
    movq (.mem 8 r13) r10, movl r15d (.sib r10 rax 4),
    incl ebp ]

def colCondRgb : List (Instr Label) :=
  [ movl (.mem 0 r12) eax, cmpl eax ebp, jl .colLoopRgb,
    incl ebx ]

def rowCondRgb : List (Instr Label) :=
  [ movl (.mem 4 r12) eax, cmpl eax ebx, jl .rowLoopRgb,
    .popq r15, .popq r14, .popq r13, .popq r12, .popq rbp, .popq rbx,
    .ret ]

/-! ## `imgproc_grayscale` -/

/-- `asm_imgproc_fns.S:452`. -/
def imgprocGrayscale : List (Instr Label) :=
  [ .pushq rbx, .pushq rbp, .pushq r12, .pushq r13, .pushq r14,
    movq rdi r12, movq rsi r13,
    movq 0 rbx, .jmp .rowCondGrayscale ]

def rowLoopGrayscale : List (Instr Label) :=
  [ movq 0 rbp, .jmp .colCondGrayscale ]

def colLoopGrayscale : List (Instr Label) :=
  [ movq r12 rdi, movl ebp esi, movl ebx edx, .call .computeIndex, movq 0 r14, movl eax r14d,
    movq (.mem 8 r12) r10, movl (.sib r10 r14 4) edi, .call .toGrayscale,
    movq (.mem 8 r13) r10, movl eax (.sib r10 r14 4),
    incl ebp ]

def colCondGrayscale : List (Instr Label) :=
  [ movl (.mem 0 r12) eax, cmpl eax ebp, jl .colLoopGrayscale,
    incl ebx ]

def rowCondGrayscale : List (Instr Label) :=
  [ movl (.mem 4 r12) eax, cmpl eax ebx, jl .rowLoopGrayscale,
    .popq r14, .popq r13, .popq r12, .popq rbp, .popq rbx,
    .ret ]

/-! ## `imgproc_fade` -/

/-- `asm_imgproc_fns.S:519`. -/
def imgprocFade : List (Instr Label) :=
  [ .pushq rbp, movq rsp rbp, subq 8 rsp,
    movl (.mem 0 rdi) r10d, movl (.mem 4 rdi) r11d,
    movq rsi r15, movq rdi r14,
    xorl r13d r13d, xorl r12d r12d ]

def rowLoop : List (Instr Label) :=
  [ cmpl r11d r12d, jae .endRows, xorl r13d r13d ]

def colLoop : List (Instr Label) :=
  [ cmpl r10d r13d, jae .endCols,
    movl r12d edx, movq r14 rdi, movl r13d esi, .call .computeIndex, movl eax r9d,
    .pushq rbx, movq (.mem 8 r14) r8, movl (.sib r8 r9 4) ebx,
    movq r11 rsi, movq r12 rdi, .pushq r11, .pushq r12, .call .gradient, .popq r12, .popq r11,
    .pushq rax,
    movq r10 rsi, movq r13 rdi, .pushq r10, .pushq r13, .call .gradient, .popq r13, .popq r10,
    .pushq rax,
    .popq rsi, .popq rdi, movq rbx rdx, .call .fadePixel,
    .popq rbx,
    movq (.mem 8 r15) r8, movl eax (.sib r8 r9 4),
    incl r13d, .jmp .colLoop ]

def endCols : List (Instr Label) :=
  [ incl r12d, .jmp .rowLoop ]

def endRows : List (Instr Label) :=
  [ addq 8 rsp, .popq rbp, .ret ]

/-! ## `imgproc_kaleidoscope` -/

/-- `asm_imgproc_fns.S:649`. -/
def imgprocKaleidoscope : List (Instr Label) :=
  [ .pushq rbp, .pushq r12, .pushq r13, movq rsp rbp, subq 32 rsp,
    .pushq r14, .pushq r10, .pushq r11, .pushq r15,
    movl 0 r12d,
    movl (.mem 0 rdi) r10d, movl (.mem 4 rdi) r11d,
    cmpl r10d r11d, jne .dimMismatch,
    movl r10d r14d, shrl 1 r14d, movl r11d r15d, shrl 1 r15d,
    movl r10d r9d, andl 1 r9d, cmpl 1 r9d, je .oddimPath ]

def evenRowLoop : List (Instr Label) :=
  [ movl r12d ecx, subl r15d ecx, js .evenProceedRow, .jmp .evenEndRow ]

def evenProceedRow : List (Instr Label) :=
  [ movl r12d r13d ]

def evenColLoop : List (Instr Label) :=
  [ cmpl r14d r13d, jae .evenEndCol,
    movl r10d edx, imull r12d edx, addl r13d edx, movl edx r9d,
    movq rdi r8, addq 8 r8, movq (.mem 0 r8) r8, movl (.sib r8 r9 4) eax,
    movq rsi r8, addq 8 r8, movq (.mem 0 r8) r8, movl eax (.sib r8 r9 4),
    movl r10d edx, imull r13d edx, addl r12d edx, movl eax (.sib r8 rdx 4),
    movl r10d edx, imull r12d edx, addl r10d edx, subl 1 edx, subl r13d edx, movl edx r9d,
    movl eax (.sib r8 r9 4),
    movl r10d edx, imull r13d edx, addl r10d edx, subl 1 edx, subl r12d edx,
    movl eax (.sib r8 rdx 4),
    movl r10d edx, subl 1 edx, subl r12d edx, imull r10d edx, addl r13d edx,
    movl eax (.sib r8 rdx 4),
    movl r10d edx, subl 1 edx, subl r13d edx, imull r10d edx, addl r12d edx,
    movl eax (.sib r8 rdx 4),
    movl r10d edx, subl 1 edx, subl r13d edx, imull r10d edx, subl 1 edx, subl r12d edx,
    addl r10d edx, movl edx r9d, movl eax (.sib r8 r9 4),
    movl r10d edx, subl 1 edx, subl r12d edx, imull r10d edx, subl 1 edx, subl r13d edx,
    addl r10d edx, movl eax (.sib r8 rdx 4),
    incl r13d, .jmp .evenColLoop ]

def evenEndCol : List (Instr Label) :=
  [ incl r12d, .jmp .evenRowLoop ]

def evenEndRow : List (Instr Label) :=
  [ .popq r11, .popq r10, .popq r15, .popq r14, .popq r13, .popq r12, addq 32 rsp, .popq rbp,
    movl 1 eax, .ret ]

def oddimPath : List (Instr Label) :=
  [ incl r15d, incl r11d ]

def oddimRowLoop : List (Instr Label) :=
  [ cmpl r15d r12d, jae .oddimEndRow,
    movl r12d r13d ]

def oddimColLoop : List (Instr Label) :=
  [ cmpl r15d r13d, jae .oddimEndCol, cmpl r11d r12d, jge .oddimEndCol, cmpl r11d r13d,
    jge .oddimEndCol,
    .pushq rdi, .pushq rsi, movl r11d edi, decl edi, subl r12d edi, cmpl r10d edi, .popq rsi,
    .popq rdi, jge .oddimChkI,
    .pushq rdi, .pushq rsi, movl r11d edi, decl edi, subl r13d edi, cmpl r10d edi, .popq rsi,
    .popq rdi, jge .oddimChkJ,
    movl r10d edx, imull r12d edx, addl r13d edx, movl edx r9d,
    movq rdi r8, addq 8 r8, movq (.mem 0 r8) r8, movl (.sib r8 r9 4) eax,
    movq rsi r8, addq 8 r8, movq (.mem 0 r8) r8, movl eax (.sib r8 r9 4),
    movl r10d edx, imull r13d edx, addl r12d edx, movl eax (.sib r8 rdx 4),
    movl r10d edx, imull r12d edx, addl r11d edx, decl edx, subl r13d edx, movl edx r9d,
    movl eax (.sib r8 r9 4),
    movl r10d edx, imull r13d edx, addl r11d edx, decl edx, subl r12d edx, movl edx r9d,
    movl eax (.sib r8 r9 4),
    movl r11d edx, decl edx, subl r12d edx, imull r10d edx, addl r13d edx, movl edx r9d,
    movl eax (.sib r8 r9 4),
    movl r11d edx, decl edx, subl r13d edx, imull r10d edx, addl r12d edx, movl edx r9d,
    movl eax (.sib r8 r9 4),
    movl r11d edx, decl edx, subl r12d edx, imull r10d edx, addl r11d edx, decl edx,
    subl r13d edx, movl edx r9d, movl eax (.sib r8 r9 4),
    movl r11d edx, decl edx, subl r13d edx, imull r10d edx, addl r11d edx, decl edx,
    subl r12d edx, movl edx r9d, movl eax (.sib r8 r9 4),
    incl r13d, .jmp .oddimColLoop ]

def oddimChkI : List (Instr Label) :=
  [ cmpl 0 r12d, je .oddimSpecialI,
    incl r13d, .jmp .oddimColLoop ]

def oddimChkJ : List (Instr Label) :=
  [ cmpl 0 r13d, je .oddimSpecialJ,
    incl r13d, .jmp .oddimColLoop ]

def oddimSpecialI : List (Instr Label) :=
  [ cmpl r15d r13d, jae .oddimEndCol,
    movl r10d edx, imull r12d edx, addl r13d edx, movl edx r9d,
    movq rdi r8, addq 8 r8, movq (.mem 0 r8) r8, movl (.sib r8 r9 4) eax,
    movq rsi r8, addq 8 r8, movq (.mem 0 r8) r8, movl eax (.sib r8 r9 4),
    movl r10d edx, imull r13d edx, addl r12d edx, movl edx r9d, movl eax (.sib r8 r9 4),
    movl r10d edx, imull r12d edx, addl r11d edx, decl edx, subl r13d edx, movl edx r9d,
    movl eax (.sib r8 r9 4),
    movl r11d edx, decl edx, subl r13d edx, imull r10d edx, addl r12d edx, movl edx r9d,
    movl eax (.sib r8 r9 4),
    incl r13d, .jmp .oddimColLoop ]

def oddimSpecialJ : List (Instr Label) :=
  [ cmpl r15d r12d, jae .oddimEndRow,
    movl r10d edx, imull r12d edx, addl r13d edx, movl edx r9d,
    movq rdi r8, addq 8 r8, movq (.mem 0 r8) r8, movl (.sib r8 r9 4) eax,
    incl r13d, .jmp .oddimColLoop ]

def oddimEndCol : List (Instr Label) :=
  [ incl r12d, .jmp .oddimRowLoop ]

def oddimEndRow : List (Instr Label) :=
  [ .popq r11, .popq r12, .popq r10, .popq r15, .popq r13, .popq r14, addq 32 rsp, .popq rbp,
    movl 1 eax, .ret ]

def dimMismatch : List (Instr Label) :=
  [ .popq r11, .popq r15, .popq r10, .popq r13, .popq r12, .popq r14, addq 32 rsp, .popq rbp,
    movl 0 eax, .ret ]

/-! ## The program -/

/-- The instructions from a label to the next one. -/
def chunk : Label → List (Instr Label)
  | .getR => getR
  | .getG => getG
  | .getB => getB
  | .getA => getA
  | .makePixel => makePixel
  | .toGrayscale => toGrayscale
  | .gradient => gradient
  | .computeIndex => computeIndex
  | .fadePixel => fadePixel
  | .imgprocRgb => imgprocRgb
  | .rowLoopRgb => rowLoopRgb
  | .colLoopRgb => colLoopRgb
  | .colCondRgb => colCondRgb
  | .rowCondRgb => rowCondRgb
  | .imgprocGrayscale => imgprocGrayscale
  | .rowLoopGrayscale => rowLoopGrayscale
  | .colLoopGrayscale => colLoopGrayscale
  | .colCondGrayscale => colCondGrayscale
  | .rowCondGrayscale => rowCondGrayscale
  | .imgprocFade => imgprocFade
  | .rowLoop => rowLoop
  | .colLoop => colLoop
  | .endCols => endCols
  | .endRows => endRows
  | .imgprocKaleidoscope => imgprocKaleidoscope
  | .evenRowLoop => evenRowLoop
  | .evenProceedRow => evenProceedRow
  | .evenColLoop => evenColLoop
  | .evenEndCol => evenEndCol
  | .evenEndRow => evenEndRow
  | .oddimPath => oddimPath
  | .oddimRowLoop => oddimRowLoop
  | .oddimColLoop => oddimColLoop
  | .oddimChkI => oddimChkI
  | .oddimChkJ => oddimChkJ
  | .oddimSpecialI => oddimSpecialI
  | .oddimSpecialJ => oddimSpecialJ
  | .oddimEndCol => oddimEndCol
  | .oddimEndRow => oddimEndRow
  | .dimMismatch => dimMismatch

/-- A chunk that ends in neither a `jmp` nor a `ret` falls into the next. -/
def next : Label → Option Label
  | .colLoopRgb => some .colCondRgb
  | .colCondRgb => some .rowCondRgb
  | .colLoopGrayscale => some .colCondGrayscale
  | .colCondGrayscale => some .rowCondGrayscale
  | .imgprocFade => some .rowLoop
  | .rowLoop => some .colLoop
  | .imgprocKaleidoscope => some .evenRowLoop
  | .evenProceedRow => some .evenColLoop
  | .oddimPath => some .oddimRowLoop
  | .oddimRowLoop => some .oddimColLoop
  | _ => none

/-- The file, loaded at some address. -/
def program (text : List (Instr Label) → Memory.Addr) : Program Label := ⟨chunk, next, text⟩

end CsfAssignments.Imgproc.Asm
