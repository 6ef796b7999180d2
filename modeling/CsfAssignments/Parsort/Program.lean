import CsfAssignments.Parsort.Interleaving
/-!
# The programs `parsort`, `seqsort` and `is_sorted` (`csf_assign04/`)

| here | there |
| --- | --- |
| `elements`, `bytesOf` | a file as an array of `int64_t`, on a little-endian machine |
| `scanUnsignedLong` | `sscanf(s, "%lu", ..)` of `parsort.c:23` |
| `mmap`, `ParsortRun` | `main` of `parsort.c` (`:21`), in any interleaving of the tree of processes |
| `seqsortMain` | `seqsort.cpp:11`, `:45` |
| `isSortedMain` | `is_sorted.c:5` |

The mapping is shared, so the file is what the mapping holds, and the bytes behind the last whole element. The
array is its whole elements: an access outside counts as an abnormal end, whatever the kernel has mapped there.
The root of the tree is the process of `main`; processes that outlive it still write.
-/

namespace CsfAssignments.Parsort

abbrev Bytes := List UInt8

/-! ## Elements of a file -/

/-- Eight bytes as an `int64_t`, the low byte first. -/
def word (b0 b1 b2 b3 b4 b5 b6 b7 : UInt8) : Int64 :=
  (UInt64.ofNat (b0.toNat + 256 * (b1.toNat + 256 * (b2.toNat + 256 * (b3.toNat + 256 * (b4.toNat +
    256 * (b5.toNat + 256 * (b6.toNat + 256 * b7.toNat)))))))).toInt64

/-- Byte `i` of an element. -/
def byteAt (x : Int64) (i : Nat) : UInt8 := UInt8.ofNat (x.toUInt64.toNat / 256 ^ i % 256)

def bytesOf (x : Int64) : Bytes :=
  [byteAt x 0, byteAt x 1, byteAt x 2, byteAt x 3, byteAt x 4, byteAt x 5, byteAt x 6, byteAt x 7]

/-- `fread(&elt, sizeof(int64_t), 1, in)`: the element, and what is left of the file. -/
def freadElt : Bytes → Option (Int64 × Bytes)
  | b0 :: b1 :: b2 :: b3 :: b4 :: b5 :: b6 :: b7 :: rest => some (word b0 b1 b2 b3 b4 b5 b6 b7, rest)
  | _ => none

/-- The whole elements of a file. -/
def elements : Bytes → List Int64
  | b0 :: b1 :: b2 :: b3 :: b4 :: b5 :: b6 :: b7 :: rest => word b0 b1 b2 b3 b4 b5 b6 b7 :: elements rest
  | _ => []

theorem byteAt_toNat (x : Int64) (i : Nat) : (byteAt x i).toNat = x.toUInt64.toNat / 256 ^ i % 256 := by
  unfold byteAt
  rw [UInt8.toNat_ofNat']
  omega

theorem word_bytesOf (x : Int64) :
    word (byteAt x 0) (byteAt x 1) (byteAt x 2) (byteAt x 3) (byteAt x 4) (byteAt x 5) (byteAt x 6)
      (byteAt x 7) = x := by
  have hlt := x.toUInt64.toNat_lt
  unfold word
  simp only [byteAt_toNat]
  have hsum : x.toUInt64.toNat / 256 ^ 0 % 256 + 256 * (x.toUInt64.toNat / 256 ^ 1 % 256 +
      256 * (x.toUInt64.toNat / 256 ^ 2 % 256 + 256 * (x.toUInt64.toNat / 256 ^ 3 % 256 +
      256 * (x.toUInt64.toNat / 256 ^ 4 % 256 + 256 * (x.toUInt64.toNat / 256 ^ 5 % 256 +
      256 * (x.toUInt64.toNat / 256 ^ 6 % 256 + 256 * (x.toUInt64.toNat / 256 ^ 7 % 256))))))) =
      x.toUInt64.toNat := by omega
  rw [hsum, UInt64.ofNat_toNat]
  rfl

theorem byteAt_word (b0 b1 b2 b3 b4 b5 b6 b7 : UInt8) :
    bytesOf (word b0 b1 b2 b3 b4 b5 b6 b7) = [b0, b1, b2, b3, b4, b5, b6, b7] := by
  have h0 := b0.toNat_lt
  have h1 := b1.toNat_lt
  have h2 := b2.toNat_lt
  have h3 := b3.toNat_lt
  have h4 := b4.toNat_lt
  have h5 := b5.toNat_lt
  have h6 := b6.toNat_lt
  have h7 := b7.toNat_lt
  have hword : (word b0 b1 b2 b3 b4 b5 b6 b7).toUInt64.toNat = b0.toNat + 256 * (b1.toNat +
      256 * (b2.toNat + 256 * (b3.toNat + 256 * (b4.toNat + 256 * (b5.toNat + 256 * (b6.toNat +
      256 * b7.toNat)))))) := by
    unfold word
    rw [UInt64.toUInt64_toInt64, UInt64.toNat_ofNat']
    omega
  have hbyte : ∀ (b : UInt8) (i : Nat), (word b0 b1 b2 b3 b4 b5 b6 b7).toUInt64.toNat / 256 ^ i % 256 = b.toNat →
      byteAt (word b0 b1 b2 b3 b4 b5 b6 b7) i = b := by
    intro b i h
    apply UInt8.toNat_inj.1
    rw [byteAt_toNat, h]
  unfold bytesOf
  rw [hbyte b0 0 (by rw [hword]; omega), hbyte b1 1 (by rw [hword]; omega), hbyte b2 2 (by rw [hword]; omega),
    hbyte b3 3 (by rw [hword]; omega), hbyte b4 4 (by rw [hword]; omega), hbyte b5 5 (by rw [hword]; omega),
    hbyte b6 6 (by rw [hword]; omega), hbyte b7 7 (by rw [hword]; omega)]

theorem elements_append (x : Int64) (rest : Bytes) : elements (bytesOf x ++ rest) = x :: elements rest := by
  show word _ _ _ _ _ _ _ _ :: elements rest = _
  rw [word_bytesOf]

theorem elements_short {tail : Bytes} (h : tail.length < 8) : elements tail = [] := by
  unfold elements
  split
  · simp at h
    omega
  · rfl

/-- What is written is read. -/
theorem elements_flatMap (l : List Int64) {tail : Bytes} (h : tail.length < 8) :
    elements (l.flatMap bytesOf ++ tail) = l := by
  induction l with
  | nil => exact elements_short h
  | cons x l ih => rw [List.flatMap_cons, List.append_assoc, elements_append, ih]

theorem length_flatMap_bytesOf (l : List Int64) : (l.flatMap bytesOf).length = 8 * l.length := by
  induction l with
  | nil => rfl
  | cons x l ih =>
    rw [List.flatMap_cons, List.length_append, ih, List.length_cons]
    show 8 + _ = _
    omega

/-- A file is its elements, and fewer than eight bytes behind them. -/
theorem elements_spec (file : Bytes) :
    (elements file).flatMap bytesOf ++ file.drop (8 * (elements file).length) = file ∧
      (file.drop (8 * (elements file).length)).length < 8 ∧ (elements file).length = file.length / 8 := by
  fun_induction elements file with
  | case1 b0 b1 b2 b3 b4 b5 b6 b7 rest ih =>
    obtain ⟨h1, h2, h3⟩ := ih
    have hdrop : (b0 :: b1 :: b2 :: b3 :: b4 :: b5 :: b6 :: b7 :: rest).drop
        (8 * (word b0 b1 b2 b3 b4 b5 b6 b7 :: elements rest).length) = rest.drop (8 * (elements rest).length) := by
      rw [List.length_cons, Nat.mul_succ, Nat.add_comm, ← List.drop_drop]
      rfl
    rw [hdrop]
    refine ⟨?_, h2, ?_⟩
    · rw [List.flatMap_cons, byteAt_word, List.append_assoc, h1]
      rfl
    · simp only [List.length_cons, h3]
      omega
  | case2 file hshort =>
    have hlen : file.length < 8 := by
      by_contra hlong
      obtain ⟨b0, b1, b2, b3, b4, b5, b6, b7, rest, rfl⟩ :
          ∃ b0 b1 b2 b3 b4 b5 b6 b7 rest, file = b0 :: b1 :: b2 :: b3 :: b4 :: b5 :: b6 :: b7 :: rest := by
        match file, hlong with
        | b0 :: b1 :: b2 :: b3 :: b4 :: b5 :: b6 :: b7 :: rest, _ => exact ⟨_, _, _, _, _, _, _, _, _, rfl⟩
        | [], h | [_], h | [_, _], h | [_, _, _], h | [_, _, _, _], h | [_, _, _, _, _], h
        | [_, _, _, _, _, _], h | [_, _, _, _, _, _, _], h => simp at h
      exact hshort _ _ _ _ _ _ _ _ _ rfl
    exact ⟨rfl, hlen, by rw [Nat.div_eq_of_lt hlen]; rfl⟩

/-! ## `parsort` -/

/-- The value of the digits in front. -/
def leadingNumber : List Char → Nat → Nat
  | [], n => n
  | c :: s, n => if c.isDigit then leadingNumber s (10 * n + (c.toNat - '0'.toNat)) else n

/-- `sscanf(s, "%lu", ..)`: white space, a sign, and at least one digit; `ULONG_MAX` on overflow. -/
def scanUnsignedLong (s : List Char) : Option UInt64 :=
  let number (s : List Char) (negative : Bool) : Option UInt64 :=
    if (s.headD ' ').isDigit then
      let n := leadingNumber s 0
      some <| if 2 ^ 64 ≤ n then UInt64.ofNat (2 ^ 64 - 1)
        else if negative then 0 - UInt64.ofNat n else UInt64.ofNat n
    else none
  match s.dropWhile fun c => c == ' ' || ('\t' ≤ c && c ≤ '\r') with
  | '-' :: s => number s true
  | '+' :: s => number s false
  | s => number s false

/-- A regular file: `st_size` is an `off_t`. -/
structure File where
  bytes : Bytes
  fits : bytes.length < 2 ^ 63

/-- `mmap` with `MAP_SHARED`, as an array of `num_elements` elements. -/
def File.mmap (file : File) : Mapping where
  elems := elements file.bytes
  fits := by
    have hlen := (elements_spec file.bytes).2.2
    have hfits := file.fits
    omega

/-- The file, when the mapping holds `arr`. -/
def File.shared (file : File) (arr : Mapping) : Bytes :=
  arr.elems.flatMap bytesOf ++ file.bytes.drop (8 * (elements file.bytes).length)

/-- How the system calls of `main` go. -/
structure ParsortOs where
  opens : Bool
  stats : Bool
  maps : Bool

/-- `parsort.c:21-52`: what `quicksort` is called with, or the message before `exit(1)`. An empty file
cannot be mapped. -/
def parsortBegin (os : ParsortOs) (argv : List String) (file : File) : Except String (Mapping × UInt64) :=
  match argv with
  | [_, _, threshold] =>
    match scanUnsignedLong threshold.toList with
    | none => .error "Usage: parsort <file> <par threshold>\n"
    | some parThreshold =>
      if !os.opens then .error "Error: file couldn't be opened!\n"
      else if !os.stats then .error "Error: file stats couldn't be read!\n"
      else if !os.maps || file.bytes.isEmpty then .error "Error: data couldn't be mapped!\n"
      else .ok (file.mmap, parThreshold)
  | _ => .error "Usage: parsort <file> <par threshold>\n"

/-- `parsort.c:56-66`: the exit status; `none` when a signal has ended `main`. -/
def exitStatus : Outcome → Option Int32
  | .returned success => some (if success = 0 then 1 else 0)
  | .abnormal _ => none

/-- A run of `parsort` on a file: its exit status, and what the file holds when it has ended or at any
later moment. -/
inductive ParsortRun (q : Qsort) (os : ParsortOs) (argv : List String) (file : File) :
    Option Int32 → Bytes → Prop
  | refused {message : String} (hbegin : parsortBegin os argv file = .error message) :
      ParsortRun q os argv file (some 1) file.bytes
  | ended {arr : Mapping} {parThreshold : UInt64} {acts : List Action} {s : System} {outcome : Outcome}
      (hbegin : parsortBegin os argv file = .ok (arr, parThreshold))
      (hrun : System.Reached q parThreshold arr 0 (UInt64.ofNat arr.length) acts s)
      (hended : s.wait [] = some outcome) :
      ParsortRun q os argv file (exitStatus outcome) (file.shared s.arr)

/-! ## `seqsort` -/

/-- How the streams of `seqsort` go; `lost` is what the file holds after a failed write. -/
structure SeqsortOs where
  opens : Bool
  sized : Bool
  reads : Bool
  lost : Option Bytes

/-- `seqsort.cpp:45`: the exit status and the file. -/
def seqsortMain (os : SeqsortOs) (argv : List String) (file : Bytes) : Int32 × Bytes :=
  match argv with
  | [_, _] =>
    if os.opens && os.sized && os.reads then
      match os.lost with
      | none => (0, ((elements file).mergeSort fun a b => decide (a ≤ b)).flatMap bytesOf)
      | some left => (1, left)
    else (1, file)
  | _ => (1, file)

/-! ## `is_sorted` -/

inductive Report where
  | usage
  | cannotOpen
  | noFirst
  | notSorted (numElts : Nat)
  | sorted
deriving DecidableEq, Repr

/-- What is printed. -/
def Report.text (program filename : String) : Report → String
  | .usage => "Usage: " ++ program ++ " <data file>\n"
  | .cannotOpen => "Couldn't open " ++ filename ++ "\n"
  | .noFirst => "Could not read first data value (file is empty?)\n"
  | .notSorted numElts => "Data values are not sorted! (element " ++ toString numElts ++
      " is less than element " ++ toString (numElts - 1) ++ ")\n"
  | .sorted => "Data values are sorted!\n"

def Report.exit : Report → Int32
  | .usage | .cannotOpen | .notSorted _ => 1
  | .noFirst | .sorted => 0

theorem freadElt_some {file rest : Bytes} {x : Int64} (h : freadElt file = some (x, rest)) :
    elements file = x :: elements rest ∧ rest.length < file.length := by
  unfold freadElt at h
  split at h
  · cases h
    refine ⟨rfl, ?_⟩
    simp only [List.length_cons]
    omega
  · cases h

theorem freadElt_none {file : Bytes} (h : freadElt file = none) : elements file = [] := by
  unfold freadElt at h
  split at h
  · cases h
  · rename_i hno
    unfold elements
    split
    · exact (hno _ _ _ _ _ _ _ _ _ rfl).elim
    · rfl

/-- The `while` of `is_sorted.c:34`. -/
def isSortedLoop (prev : Int64) (numElts : Nat) (file : Bytes) : Report :=
  match h : freadElt file with
  | none => .sorted
  | some (curr, rest) =>
    if curr < prev then .notSorted (numElts + 1) else isSortedLoop curr (numElts + 1) rest
termination_by file.length
decreasing_by exact (freadElt_some h).2

/-- `is_sorted.c:5`. -/
def isSortedMain (opens : Bool) (argv : List String) (file : Bytes) : Report :=
  match argv with
  | [_, _] =>
    if opens then
      match freadElt file with
      | none => .noFirst
      | some (prev, rest) => isSortedLoop prev 1 rest
    else .cannotOpen
  | _ => .usage

/-- The first `n + 1` elements are in order, and the next one is less than the last of them. -/
def FirstDescent (l : List Int64) (n : Nat) : Prop :=
  ∃ before x y after, l = before ++ x :: y :: after ∧ (before ++ [x]).Pairwise (· ≤ ·) ∧ y < x ∧
    n = before.length

theorem FirstDescent.not_pairwise {l : List Int64} {n : Nat} (h : FirstDescent l n) :
    ¬l.Pairwise (· ≤ ·) := by
  obtain ⟨before, x, y, after, rfl, -, hlt, -⟩ := h
  intro hsorted
  have hxy := (List.pairwise_cons.1 (List.pairwise_append.1 hsorted).2.1).1 y (List.mem_cons_self ..)
  exact Int64.not_lt.2 hxy hlt

theorem FirstDescent.le {l : List Int64} {m n : Nat} (hm : FirstDescent l m) (hn : FirstDescent l n) :
    m ≤ n := by
  by_contra hlt
  obtain ⟨before, x, y, after, heq, hsorted, -, rfl⟩ := hm
  obtain ⟨before', x', y', after', heq', -, hlt', rfl⟩ := hn
  -- the other descent is inside what is in order here
  have hlong : before ++ [x] <+: l := ⟨y :: after, by rw [heq, List.append_assoc]; rfl⟩
  have hshort : before' ++ [x', y'] <+: l := ⟨after', by rw [heq', List.append_assoc]; rfl⟩
  have hprefix := List.prefix_of_prefix_length_le hshort hlong (by simp; omega)
  have hpair := (List.pairwise_append.1 (hsorted.sublist hprefix.sublist)).2.1
  exact Int64.not_lt.2 ((List.pairwise_cons.1 hpair).1 y' (List.mem_cons_self ..)) hlt'

theorem isSortedLoop_spec (prev : Int64) (numElts : Nat) (file : Bytes) :
    (isSortedLoop prev numElts file = .sorted ∧ (prev :: elements file).Pairwise (· ≤ ·)) ∨
      ∃ n, FirstDescent (prev :: elements file) n ∧
        isSortedLoop prev numElts file = .notSorted (numElts + 1 + n) := by
  fun_induction isSortedLoop prev numElts file with
  | case1 prev numElts file h =>
    refine .inl ⟨rfl, ?_⟩
    rw [freadElt_none h]
    exact List.pairwise_singleton _ _
  | case2 prev numElts file curr rest h hlt =>
    rw [(freadElt_some h).1]
    exact .inr ⟨0, ⟨[], prev, curr, elements rest, rfl, List.pairwise_singleton _ _, hlt, rfl⟩, rfl⟩
  | case3 prev numElts file curr rest h hle ih =>
    have hle' := Int64.not_lt.1 hle
    rw [(freadElt_some h).1]
    have hcons : ∀ l, (curr :: l).Pairwise (· ≤ ·) → (prev :: curr :: l).Pairwise (· ≤ ·) := by
      intro l hsorted
      refine List.pairwise_cons.2 ⟨fun z hz => ?_, hsorted⟩
      rcases List.mem_cons.1 hz with rfl | hz
      · exact hle'
      · exact Int64.le_trans hle' ((List.pairwise_cons.1 hsorted).1 z hz)
    rcases ih with ⟨hreport, hsorted⟩ | ⟨n, ⟨before, x, y, after, heq, hsorted, hlt, rfl⟩, hreport⟩
    · exact .inl ⟨hreport, hcons _ hsorted⟩
    · refine .inr ⟨before.length + 1, ⟨prev :: before, x, y, after, by rw [heq]; rfl, ?_, hlt, rfl⟩, ?_⟩
      · cases before with
        | nil =>
          obtain ⟨rfl, -⟩ := List.cons.inj heq
          exact hcons _ hsorted
        | cons b before =>
          obtain ⟨rfl, -⟩ := List.cons.inj heq
          exact hcons _ hsorted
      · rw [hreport]
        congr 1
        omega

/-- What `is_sorted` reports on a file that it can read. -/
theorem isSortedMain_cases (program filename : String) (file : Bytes) :
    (isSortedMain true [program, filename] file = .noFirst ∧ elements file = []) ∨
    (isSortedMain true [program, filename] file = .sorted ∧ elements file ≠ [] ∧
      (elements file).Pairwise (· ≤ ·)) ∨
    ∃ n, FirstDescent (elements file) n ∧ isSortedMain true [program, filename] file = .notSorted (n + 2) := by
  unfold isSortedMain
  dsimp only
  rw [if_pos rfl]
  cases h : freadElt file with
  | none => exact .inl ⟨rfl, freadElt_none h⟩
  | some read =>
    obtain ⟨prev, rest⟩ := read
    rw [(freadElt_some h).1]
    refine .inr ?_
    rcases isSortedLoop_spec prev 1 rest with ⟨hreport, hsorted⟩ | ⟨n, hdescent, hreport⟩
    · exact .inl ⟨hreport, by simp, hsorted⟩
    · refine .inr ⟨n, hdescent, ?_⟩
      dsimp only
      rw [hreport]
      congr 1
      omega

/-- **`is_sorted`** on a file that it can read: it names the first element that is less than the one in front
of it, and finds the values sorted when there is none. -/
theorem isSortedMain_exact (program filename : String) (file : Bytes) :
    (isSortedMain true [program, filename] file = .noFirst ↔ elements file = []) ∧
    (isSortedMain true [program, filename] file = .sorted ↔
      elements file ≠ [] ∧ (elements file).Pairwise (· ≤ ·)) ∧
    ∀ numElts, isSortedMain true [program, filename] file = .notSorted numElts ↔
      ∃ n, FirstDescent (elements file) n ∧ numElts = n + 2 := by
  rcases isSortedMain_cases program filename file with ⟨hreport, hnil⟩ | ⟨hreport, hne, hsorted⟩ |
    ⟨n, hdescent, hreport⟩
  · rw [hreport, hnil]
    refine ⟨by simp, by simp, fun numElts => ⟨nofun, ?_⟩⟩
    rintro ⟨n, hdescent, -⟩
    exact absurd List.Pairwise.nil hdescent.not_pairwise
  · rw [hreport]
    refine ⟨by simp [hne], by simp [hne, hsorted], fun numElts => ⟨nofun, ?_⟩⟩
    rintro ⟨n, hdescent, -⟩
    exact absurd hsorted hdescent.not_pairwise
  · rw [hreport]
    refine ⟨⟨nofun, fun hnil => ?_⟩, ⟨nofun, fun h => ?_⟩, fun numElts => ?_⟩
    · rw [hnil] at hdescent
      exact absurd List.Pairwise.nil hdescent.not_pairwise
    · exact absurd h.2 hdescent.not_pairwise
    · constructor
      · intro h
        cases h
        exact ⟨n, hdescent, rfl⟩
      · rintro ⟨m, hdescent', rfl⟩
        rw [Nat.le_antisymm (hdescent.le hdescent') (hdescent'.le hdescent)]

theorem region_whole (l : List Int64) : Rearrange.region l 0 l.length = l := by
  unfold Rearrange.region
  rw [List.drop_zero, Nat.sub_zero, List.take_length]

/-- The one way to put a list in order. -/
theorem mergeSort_eq {l l' : List Int64} (hperm : l'.Perm l) (hsorted : l'.Pairwise (· ≤ ·)) :
    l.mergeSort (fun a b => decide (a ≤ b)) = l' := by
  have hmerge : (l.mergeSort fun a b => decide (a ≤ b)).Pairwise (· ≤ ·) := by
    refine (List.pairwise_mergeSort ?_ ?_ l).imp fun h => of_decide_eq_true h
    · intro a b c hab hbc
      exact decide_eq_true (Int64.le_trans (of_decide_eq_true hab) (of_decide_eq_true hbc))
    · intro a b
      rw [Bool.or_eq_true, decide_eq_true_eq, decide_eq_true_eq]
      exact Int64.le_total a b
  exact List.Perm.eq_of_pairwise' hmerge hsorted ((List.mergeSort_perm l _).trans hperm.symm)

section
variable {file : File} {arr : Mapping}

/-- The mapping never changes the length of the file, nor what is behind the last element. -/
theorem File.shared_frame (h : arr.length = file.mmap.length) :
    (file.shared arr).length = file.bytes.length ∧
      (file.shared arr).take (8 * (elements file.bytes).length) = arr.elems.flatMap bytesOf ∧
      (file.shared arr).drop (8 * (elements file.bytes).length) =
        file.bytes.drop (8 * (elements file.bytes).length) := by
  have hlen : (arr.elems.flatMap bytesOf).length = 8 * (elements file.bytes).length := by
    rw [length_flatMap_bytesOf]
    exact congrArg (8 * ·) h
  have hspec := (elements_spec file.bytes).2.2
  refine ⟨?_, List.take_left' hlen, List.drop_left' hlen⟩
  unfold File.shared
  rw [List.length_append, hlen, List.length_drop]
  omega

theorem File.elements_shared : elements (file.shared arr) = arr.elems :=
  elements_flatMap arr.elems (elements_spec file.bytes).2.1

theorem parsortBegin_mmap {os : ParsortOs} {argv : List String} {parThreshold : UInt64}
    (h : parsortBegin os argv file = .ok (arr, parThreshold)) : arr = file.mmap := by
  unfold parsortBegin at h
  split at h
  · split at h
    · cases h
    · split at h
      · cases h
      · split at h
        · cases h
        · split at h <;> cases h
          rfl
  · cases h

end

/-- **`parsort` is a parallel `seqsort`.** In every interleaving of its processes, whatever fails (an access outside
the mapped array being the end of the process): the file keeps its length and what is behind its last element;
and if `parsort` exits with 0, then its elements are and stay those that `seqsort` would have written, and
`is_sorted` does not object. -/
theorem parsortRun_correct (q : Qsort) (hq : q.Lawful) (os : ParsortOs) (argv : List String) (file : File)
    (status : Option Int32) (bytes : Bytes) (h : ParsortRun q os argv file status bytes)
    (program filename : String) :
    bytes.length = file.bytes.length ∧
    bytes.drop (8 * (elements file.bytes).length) = file.bytes.drop (8 * (elements file.bytes).length) ∧
    (status = some 0 →
      seqsortMain ⟨true, true, true, none⟩ [program, filename] file.bytes =
        (0, bytes.take (8 * (elements file.bytes).length)) ∧
      (isSortedMain true [program, filename] bytes).exit = 0) := by
  cases h with
  | refused hbegin => exact ⟨rfl, rfl, fun h => by cases h⟩
  | ended hbegin hrun hended =>
    rename_i arr parThreshold acts s outcome
    cases parsortBegin_mmap hbegin
    have hlen : (UInt64.ofNat file.mmap.length).toNat = file.mmap.length := by
      have hfits := file.mmap.fits
      unfold Mapping.length
      rw [UInt64.toNat_ofNat']
      omega
    have hsound := hrun.sound hq (UInt64.le_iff_toNat_le.2 (Nat.zero_le _)) (Nat.le_of_eq hlen)
    obtain ⟨hlength, htake, hdrop⟩ := File.shared_frame hsound.spares.length_eq
    refine ⟨hlength, hdrop, fun hexit => ?_⟩
    have hone : outcome = .returned 1 := by
      obtain ⟨st, en, hroot⟩ := System.wait_eq_some.1 hended
      cases outcome with
      | abnormal why => cases hexit
      | returned value =>
        rcases (hsound.inv _ _ hroot).shape.2 with rfl | ⟨rfl, -⟩
        · cases hexit
        · rfl
    rw [hone] at hended
    have hsorts := hsound.sorts hended
    have hsorted : s.arr.elems.Pairwise (· ≤ ·) := by
      have hwhole := hsorts.sorted
      unfold Rearrange.SortedOn at hwhole
      rw [hlen, UInt64.toNat_zero, show file.mmap.length = s.arr.elems.length from
        hsorts.rearranged.length_eq.symm, region_whole] at hwhole
      exact hwhole
    refine ⟨?_, ?_⟩
    · rw [htake, ← mergeSort_eq hsorts.rearranged.perm hsorted]
      rfl
    · rcases isSortedMain_cases program filename (file.shared s.arr) with ⟨hreport, -⟩ | ⟨hreport, -, -⟩ |
        ⟨n, hdescent, -⟩
      · rw [hreport]
        rfl
      · rw [hreport]
        rfl
      · rw [File.elements_shared] at hdescent
        exact absurd hsorted hdescent.not_pairwise

/-- Four elements and a byte. -/
def smallFile : File := ⟨[2, 3, 4, 1].flatMap bytesOf ++ [7], by decide⟩

theorem parsortRun_correct_small : ∃ bytes,
    ParsortRun mergeQsort ⟨true, true, true⟩ ["parsort", "data", "3"] smallFile (some 0) bytes ∧
      bytes.length = 33 ∧
      seqsortMain ⟨true, true, true, none⟩ ["seqsort", "data"] smallFile.bytes = (0, bytes.take 32) ∧
      (isSortedMain true ["seqsort", "data"] bytes).exit = 0 := by
  have helems : elements smallFile.bytes = [2, 3, 4, 1] := elements_flatMap _ (by decide)
  have hmmap : smallFile.mmap = ⟨[2, 3, 4, 1], by decide⟩ := Mapping.ext helems
  have hbegin : parsortBegin ⟨true, true, true⟩ ["parsort", "data", "3"] smallFile =
      .ok (⟨[2, 3, 4, 1], by decide⟩, 3) := by
    rw [← hmmap]
    rfl
  obtain ⟨acts, s, hreached, hret⟩ := reached_2341
  have hrun : ParsortRun mergeQsort ⟨true, true, true⟩ ["parsort", "data", "3"] smallFile (some 0)
      (smallFile.shared s.arr) := .ended hbegin hreached hret
  obtain ⟨hlength, -, hzero⟩ := parsortRun_correct mergeQsort mergeQsort_lawful _ _ _ _ _ hrun "seqsort" "data"
  obtain ⟨hseqsort, hsorted⟩ := hzero rfl
  rw [helems] at hseqsort
  exact ⟨_, hrun, hlength, hseqsort, hsorted⟩

end CsfAssignments.Parsort
