import CsfAssignments.Lib.Words
/-!
# `UInt256` (`csf_assign01/uint256.c`)

| here | there |
| --- | --- |
| `UInt256`        | the array of eight words, the least significant first |
| `createFromHex`  | `uint256_create_from_hex` (`:31`) |
| `formatAsHex`    | `uint256_format_as_hex` (`:48`); the outer `none` is an access outside an array, the inner one `NULL` |
| `getBits`, `isBitSet` | `uint256_get_bits` (`:71`), `uint256_is_bit_set` (`:76`) |
| `add`, `sub`, `negate`, `mul` | `:85`, `:97`, `:103`, `:112` |
| `lshift`         | `:128`: `none` is a failed assert, an access outside the array, or a word shifted by 32 or more |
| `strtoul`, `strncpy`, `sprintf` | the C library, in base 16, and with the format `%08x` |

A C string is the list of its characters before the NUL. The rounds of a loop are functions of their own
(`addUnit`, `mulRound`), so that what a loop does up to a round can be stated.
-/

namespace CsfAssignments.Uint256

@[ext]
structure UInt256 where
  data : Fin 8 → BitVec 32
deriving DecidableEq

/-- The number that the words denote. -/
def UInt256.toNat (val : UInt256) : Nat := Nat.ofDigits (2 ^ 32) (List.ofFn fun i => (val.data i).toNat)

theorem UInt256.toNat_lt (val : UInt256) : val.toNat < 2 ^ 256 := Words.value_lt val.data

theorem UInt256.toNat_injective {a b : UInt256} (h : a.toNat = b.toNat) : a = b :=
  UInt256.ext (Words.value_injective h)

abbrev CString := List Char

def nul : Char := '\x00'

/-! ## The C library -/

/-- The value of a hexadecimal digit, upper or lower case. -/
def digitValue (c : Char) : Option Nat :=
  if '0' ≤ c ∧ c ≤ '9' then some (c.toNat - 48)
  else if 'a' ≤ c ∧ c ≤ 'f' then some (c.toNat - 87)
  else if 'A' ≤ c ∧ c ≤ 'F' then some (c.toNat - 55)
  else none

def isSpace (c : Char) : Bool := c = ' ' ∨ ('\t' ≤ c ∧ c ≤ '\r')

/-- The digits up to the first other character. -/
def leadingDigits : CString → List Nat
  | [] => []
  | c :: s =>
    match digitValue c with
    | some d => d :: leadingDigits s
    | none => []

/-- After the sign: `0x` is skipped when a digit follows. -/
def skipBase : CString → CString
  | '0' :: x :: c :: s =>
    if (x = 'x' ∨ x = 'X') ∧ (digitValue c).isSome then c :: s else '0' :: x :: c :: s
  | s => s

/-- `strtoul(s, NULL, 16)`. -/
def strtoul (s : CString) : BitVec 64 :=
  let magnitude (s : CString) := Nat.ofDigits 16 (leadingDigits (skipBase s)).reverse
  let clamp (n : Nat) (v : BitVec 64) := if 2 ^ 64 ≤ n then BitVec.allOnes 64 else v
  match s.dropWhile isSpace with
  | '-' :: s => clamp (magnitude s) (-BitVec.ofNat 64 (magnitude s))
  | '+' :: s => clamp (magnitude s) (BitVec.ofNat 64 (magnitude s))
  | s => clamp (magnitude s) (BitVec.ofNat 64 (magnitude s))

/-- At most `n` characters, into a zeroed buffer. -/
def strncpy (src : CString) (n : Nat) : CString := src.take n

/-- `%08x`. -/
def sprintf (unit : BitVec 32) : CString :=
  let digits := Nat.toDigits 16 unit.toNat
  List.replicate (8 - digits.length) '0' ++ digits

/-- Stores `s` at an index of a buffer: `none` when it does not fit. -/
def writeAt (buf : List Char) (pos : Nat) (s : List Char) : Option (List Char) :=
  if pos + s.length ≤ buf.length then some (buf.take pos ++ s ++ buf.drop (pos + s.length)) else none

/-! ## The functions -/

def getBits (val : UInt256) (index : Nat) : Option (BitVec 32) :=
  if h : index < 8 then some (val.data ⟨index, h⟩) else none

/-- The loop of `uint256_create_from_hex`. -/
def hexLoop (hex : CString) (i : Int) (cnt : Nat) (units : Fin 8 → BitVec 32) : Fin 8 → BitVec 32 :=
  if h : 0 ≤ i ∧ cnt < 8 then
    let unitStart := if i - 7 < 0 then 0 else i - 7
    let unitLen := i - unitStart + 1
    let unit := strncpy (hex.drop unitStart.toNat) unitLen.toNat
    hexLoop hex (i - 8) (cnt + 1) (Function.update units ⟨cnt, h.2⟩ ((strtoul unit).setWidth 32))
  else units
termination_by 8 - cnt

def createFromHex (hex : CString) : UInt256 :=
  let hexLen := (BitVec.ofNat 32 hex.length).toInt
  ⟨hexLoop hex (hexLen - 1) 0 fun _ => 0#32⟩

/-- The loop over `hex_buf_start`. -/
def skipZeros (hexBuf : List Char) (start : Nat) : Nat :=
  if hexBuf[start]? = some '0' ∧ start < 63 then skipZeros hexBuf (start + 1) else start
termination_by 63 - start

/-- `malloc` says whether there are so many bytes. -/
def formatAsHex (malloc : Nat → Bool) (val : UInt256) : Option (Option CString) := do
  let hexBuf ← (List.range 8).foldlM (fun buf i => do
    let unit ← getBits val (7 - i)
    writeAt buf (i * 8) (sprintf unit ++ [nul])) (List.replicate 65 nul)
  let hexBufStart := skipZeros hexBuf 0
  let hexLen := 64 - hexBufStart
  if malloc (hexLen + 1) then
    let src := (hexBuf.drop hexBufStart).takeWhile (· ≠ nul)
    let hex ← writeAt (List.replicate (hexLen + 1) nul) 0 (src ++ [nul])
    return some ((hex.set hexLen nul).takeWhile (· ≠ nul))
  else return none

/-! ## Arithmetic -/

/-- `:10`. -/
def createFromU32 (val : BitVec 32) : UInt256 :=
  ⟨fun i => if i = 0 then val else 0#32⟩

/-- `:76`. -/
def isBitSet (val : UInt256) (index : Nat) : Option Bool := do
  let index32bits := index / 32
  let bitPosition := index - index32bits * 32
  let targetBits ← getBits val index32bits
  let mask := 1#32 <<< bitPosition
  return (targetBits &&& mask) != 0#32

/-- The 64-bit sum of a round of `uint256_add` (`:88`). -/
def unitSum (left right : UInt256) (carry : BitVec 32) (i : Fin 8) : BitVec 64 :=
  (left.data i).setWidth 64 + (right.data i).setWidth 64 + carry.setWidth 64

/-- A round of `uint256_add`, on `sum` and `carry`. -/
def addUnit (left right : UInt256) (s : UInt256 × BitVec 32) (i : Fin 8) : UInt256 × BitVec 32 :=
  let unitSum := unitSum left right s.2 i
  (⟨Function.update s.1.data i ((unitSum &&& 0xFFFFFFFF#64).setWidth 32)⟩, (unitSum >>> 32).setWidth 32)

/-- `sum` and `carry` after `k` rounds. -/
def addRounds (left right : UInt256) (k : Nat) : UInt256 × BitVec 32 :=
  ((List.finRange 8).take k).foldl (addUnit left right) (createFromU32 0, 0)

def add (left right : UInt256) : UInt256 := (addRounds left right 8).1

def negate (val : UInt256) : UInt256 :=
  let result : UInt256 := ⟨fun i => ~~~val.data i⟩
  add result (createFromU32 1)

def sub (left right : UInt256) : UInt256 :=
  let rightComplement := negate right
  add left rightComplement

def setWord (val : UInt256) (index : Nat) (v : BitVec 32) : Option UInt256 :=
  if h : index < 8 then some ⟨Function.update val.data ⟨index, h⟩ v⟩ else none

/-- `<<` and `>>` of a `uint32_t`, for shifts that C defines. -/
def shl (x : BitVec 32) (s : Nat) : Option (BitVec 32) := if s < 32 then some (x <<< s) else none
def shr (x : BitVec 32) (s : Nat) : Option (BitVec 32) := if s < 32 then some (x >>> s) else none

/-- The first loop of `uint256_lshift`, down from 7 to `shift32`. -/
def moveWords (val : UInt256) (shift32 : Nat) (result : UInt256) : Option UInt256 :=
  ((List.range' shift32 (8 - shift32)).reverse).foldlM (fun result i => do
    setWord result i (← getBits val (i - shift32))) result

/-- A round of the second loop. -/
def moveBits (shiftBit : Nat) (result : UInt256) (i : Nat) : Option UInt256 := do
  let high ← shl (← getBits result i) shiftBit
  let low ← shr (← getBits result (i - 1)) (32 - shiftBit)
  setWord result i (high ||| low)

def lshift (val : UInt256) (shift : Nat) : Option UInt256 :=
  if shift < 256 then do
    let shift32 := shift >>> 5
    let shiftBit := shift &&& 31
    let result ← moveWords val shift32 ⟨fun _ => 0#32⟩
    if shiftBit ≠ 0 then
      let result ← ((List.range' 1 7).reverse).foldlM (moveBits shiftBit) result
      setWord result 0 (← shl (← getBits result 0) shiftBit)
    else return result
  else none

/-- A round of `uint256_mul`. -/
def mulRound (left right : UInt256) (product : UInt256) (i : Nat) : Option UInt256 := do
  if ← isBitSet left i then
    let term ← lshift right i
    return add product term
  else return product

/-- `product` after `k` rounds. -/
def mulRounds (left right : UInt256) (k : Nat) : Option UInt256 :=
  (List.range k).foldlM (mulRound left right) ⟨fun _ => 0#32⟩

def mul (left right : UInt256) : Option UInt256 := mulRounds left right 256

end CsfAssignments.Uint256
