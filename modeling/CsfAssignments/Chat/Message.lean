import Mathlib.Data.List.Basic
/-!
# Messages (`csf_assign05/message.h`, `message.cpp`)

| here | there |
| --- | --- |
| `Str`               | `std::string`: bytes |
| `Message.ofData`    | `Message(tag, rawdata)` (`message.cpp:10`) |
| `Message.ofLine`    | `Message(msg)` (`message.cpp:15`): `none` is the exception |
| `Message.toString`  | `to_string` (`message.h:26`) |
| `find`              | `std::string::find` of one character: `none` is `npos` |
-/

namespace CsfAssignments.Chat

abbrev Str := List UInt8

/-- A string literal. -/
def str (s : String) : Str := s.toList.map fun c => c.toNat.toUInt8

def newline : UInt8 := 10
def carriageReturn : UInt8 := 13
def space : UInt8 := 32
def colon : UInt8 := 58

def find (s : Str) (c : UInt8) : Option Nat := s.idxOf? c

/-- Drops a final `c`. -/
def dropEnd (c : UInt8) (s : Str) : Str := if s.getLast? = some c then s.dropLast else s

/-- `message.cpp:3`. -/
def stripend (s : Str) : Str := dropEnd carriageReturn (dropEnd newline s)

structure Message where
  tag : Str
  data : Str
deriving DecidableEq, Repr

namespace Message

/-- `message.h:16`. -/
def maxLen : Nat := 255

def ofData (tag rawdata : Str) : Message := ⟨tag, stripend rawdata⟩

def ofLine (msg : Str) : Option Message :=
  match find msg colon with
  | none => none
  | some colonPos => some ⟨msg.take colonPos, stripend (msg.drop (colonPos + 1))⟩

def toString (msg : Message) : Str := msg.tag ++ [colon] ++ msg.data ++ [newline]

end Message

/-! ## Tags -/

def tagErr : Str := str "err"
def tagOk : Str := str "ok"
def tagSlogin : Str := str "slogin"
def tagRlogin : Str := str "rlogin"
def tagJoin : Str := str "join"
def tagLeave : Str := str "leave"
def tagSendall : Str := str "sendall"
def tagQuit : Str := str "quit"
def tagDelivery : Str := str "delivery"

/-! ## Decoding -/

theorem dropEnd_of_ne {c : UInt8} {s : Str} (h : s.getLast? ≠ some c) : dropEnd c s = s := if_neg h

@[simp] theorem dropEnd_append (c : UInt8) (s : Str) : dropEnd c (s ++ [c]) = s := by
  simp [dropEnd]

theorem stripend_newline {s : Str} (h : s.getLast? ≠ some carriageReturn) :
    stripend (s ++ [newline]) = s := by
  rw [stripend, dropEnd_append, dropEnd_of_ne h]

theorem stripend_of_ne {s : Str} (hn : newline ∉ s) (h : s.getLast? ≠ some carriageReturn) :
    stripend s = s := by
  have hlast : s.getLast? ≠ some newline := fun hl => hn (List.mem_of_getLast? hl)
  rw [stripend, dropEnd_of_ne hlast, dropEnd_of_ne h]

theorem find_append {c : UInt8} {s : Str} (h : c ∉ s) (rest : Str) :
    find (s ++ c :: rest) c = some s.length := by
  unfold find
  induction s with
  | nil => simp [List.idxOf?_cons]
  | cons d s ih =>
    simp only [List.mem_cons, not_or] at h
    simp [List.idxOf?_cons, Ne.symm h.1, ih h.2]

/-- The first colon splits tag from data. -/
theorem ofLine_append {tag : Str} (h : colon ∉ tag) (rest : Str) :
    Message.ofLine (tag ++ colon :: rest) = some ⟨tag, stripend rest⟩ := by
  simp [Message.ofLine, find_append h]

/-! ## Decoding undoes encoding -/

/-- The messages that the constructors build. -/
inductive Constructed : Message → Prop
  | ofData {tag : Str} (h : colon ∉ tag) (rawdata : Str) : Constructed (.ofData tag rawdata)
  | ofLine {line : Str} {msg : Message} (h : Message.ofLine line = some msg) : Constructed msg

/-- No constructor puts a colon into the tag. -/
theorem Constructed.colon_not_mem {msg : Message} (h : Constructed msg) : colon ∉ msg.tag := by
  cases h with
  | ofData h rawdata => exact h
  | @ofLine line _ h =>
    unfold Message.ofLine at h
    split at h
    · cases h
    · rename_i colonPos hfind
      cases h
      intro hmem
      obtain ⟨_, _, hfirst⟩ := List.idxOf?_eq_some_iff.mp hfind
      obtain ⟨j, hj, hcolon⟩ := List.mem_take_iff_getElem.mp hmem
      exact hfirst j (by omega) hcolon

/-- `to_string` ends a line; a carriage return before its end is taken for part of the line ending. -/
theorem ofLine_toString {msg : Message} (h : colon ∉ msg.tag) :
    Message.ofLine msg.toString = some ⟨msg.tag, dropEnd carriageReturn msg.data⟩ := by
  have hline : msg.toString = msg.tag ++ colon :: (msg.data ++ [newline]) := by
    simp [Message.toString]
  rw [hline, ofLine_append h, stripend, dropEnd_append]

theorem dropEnd_eq_self {c : UInt8} {s : Str} : dropEnd c s = s ↔ s.getLast? ≠ some c := by
  constructor
  · intro h hlast
    have hlen := congrArg List.length h
    cases s with
    | nil => simp at hlast
    | cons d s => simp [dropEnd, hlast] at hlen
  · exact dropEnd_of_ne

/-- **Decoding undoes encoding**, up to a carriage return at the end of the data. -/
theorem decode_encode {msg : Message} (h : Constructed msg) :
    Message.ofLine msg.toString = some ⟨msg.tag, dropEnd carriageReturn msg.data⟩ ∧
      (Message.ofLine msg.toString = some msg ↔ msg.data.getLast? ≠ some carriageReturn) := by
  have hdecode := ofLine_toString h.colon_not_mem
  refine ⟨hdecode, ?_⟩
  obtain ⟨tag, data⟩ := msg
  rw [hdecode, Option.some.injEq, Message.mk.injEq, eq_self, true_and, dropEnd_eq_self]

/-- A line of a file with CR LF line ends, and one more carriage return. -/
def crcrlf : Message := .ofData (str "sendall") (str "hi\r\r\n")

theorem decode_encode_crcrlf :
    Message.ofLine crcrlf.toString = some ⟨crcrlf.tag, dropEnd carriageReturn crcrlf.data⟩ ∧
      (Message.ofLine crcrlf.toString = some crcrlf ↔
        crcrlf.data.getLast? ≠ some carriageReturn) :=
  decode_encode (.ofData (by decide) _)

theorem decode_loses_cr :
    Constructed crcrlf ∧ crcrlf.data = str "hi\r" ∧
      Message.ofLine crcrlf.toString = some ⟨str "sendall", str "hi"⟩ :=
  ⟨.ofData (by decide) _, by decide, by decide⟩

end CsfAssignments.Chat
