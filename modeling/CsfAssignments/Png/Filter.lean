import Mathlib.Data.BitVec
import CsfAssignments.Png.Model
/-!
# Filters

What the PNG format stores of a byte is its difference from a guess, and the guess is a function of the bytes
to the left, above and above left of it (`Filter.guess`). `png_unfilter` adds the guesses back line by line,
reading the line above out of the buffer it fills (`unfilter_filtered`).

With 16 bits a sample, it turns the two bytes of each sample around first and guesses in that order. The
neighbours of a byte are in the same half of their samples, so the result is turned around, too, and
nothing else (`reconstruct_swapPairs`).
-/

namespace CsfAssignments.Png

open Predictive

inductive Filter where
  | none
  | sub
  | up
  | average
  | paeth
deriving DecidableEq, Repr

namespace Filter

def code : Filter → Byte
  | none => 0
  | sub => 1
  | up => 2
  | average => 3
  | paeth => 4

/-- From the bytes to the left, above and above left. -/
def guess : Filter → Byte → Byte → Byte → Byte
  | none, _, _, _ => 0
  | sub, a, _, _ => a
  | up, _, b, _ => b
  | average, a, b, _ => BitVec.ofNat 8 ((a.toNat + b.toNat) / 2)
  | paeth, a, b, c => pngPaeth a b c

def predict (f : Filter) (stride : Nat) (prevLine : Option Bytes) (out : Bytes) : Byte :=
  f.guess (leftOf stride out) (aboveOf prevLine out) (aboveLeftOf stride prevLine out)

/-- A line as the format stores it. -/
def encode (f : Filter) (stride : Nat) (prevLine : Option Bytes) (line : Bytes) : Bytes :=
  residuals (f.predict stride prevLine) [] line

@[simp] theorem length_encode (f : Filter) (stride : Nat) (prevLine : Option Bytes) (line : Bytes) :
    (f.encode stride prevLine line).length = line.length := length_residuals ..

end Filter

theorem filterLoop_eq (added : Bytes → Byte) (input : Bytes) :
    filterLoop added input = reconstruct added [] input := rfl

/-- Nothing is added. -/
theorem reconstruct_zero (input : Bytes) : reconstruct (fun _ => (0 : Byte)) [] input = input := by
  symm
  rw [eq_reconstruct_iff]
  simp

/-! ## One line -/

variable {buf data filtered : Bytes} {pos : Nat} {row outpos : BitVec 32}

theorem lineAt_eq (hrow : row.toNat < 2 ^ 31) : lineAt buf pos row = slice buf pos row.toNat := by
  have hpos : ¬row.toInt < 0 := by
    rw [BitVec.toInt_eq_toNat_of_lt (by omega)]
    omega
  rw [lineAt, if_neg hpos]

/-- What `png_unfilter` takes for the line above. -/
theorem prevLineAt_eq (hrow : row.toNat < 2 ^ 31) (hle : row.toNat ≤ outpos.toNat)
    (hdata : outpos.toNat ≤ data.length) (hne : outpos ≠ 0) :
    prevLineAt data outpos row = some (some ((data.drop (outpos.toNat - row.toNat)).take row.toNat)) := by
  have hpos : ¬row.toInt < 0 := by
    rw [BitVec.toInt_eq_toNat_of_lt (by omega)]
    omega
  rw [prevLineAt, if_neg hne, if_neg hpos, if_neg (by omega), slice, if_pos (by omega)]
  rfl

/-- **One line**: whatever the filter, the guesses are added to the bytes of the line. -/
theorem unfilterLine_eq (f : Filter) {stride : Nat} {input : Bytes} {prevLine : Option Bytes}
    (hrow : row.toNat < 2 ^ 31) (hin : slice filtered pos row.toNat = some input)
    (hprev : prevLineAt data outpos row = some prevLine) :
    unfilterLine stride f.code filtered pos data outpos row =
      some (some (reconstruct (f.predict stride prevLine) [] input)) := by
  have hline : lineAt filtered pos row = some input := (lineAt_eq hrow).trans hin
  have hpos : ¬row.toInt < 0 := by
    rw [BitVec.toInt_eq_toNat_of_lt (by omega)]
    omega
  cases f with
  | none =>
    have hzero : (Filter.none.predict stride prevLine) = fun _ => 0 := rfl
    rw [hzero, reconstruct_zero]
    simp [unfilterLine, Filter.code, hin]
  | sub =>
    simp [unfilterLine, Filter.code, hline, pngFilterSub, filterLoop_eq]
    rfl
  | up =>
    cases prevLine with
    | none =>
      have hzero : (Filter.up.predict stride none) = fun _ => 0 := by
        funext out
        simp [Filter.predict, Filter.guess, aboveOf]
      rw [hzero, reconstruct_zero]
      simp [unfilterLine, Filter.code, hin, hprev, hpos, pngFilterUp]
    | some line =>
      simp [unfilterLine, Filter.code, hline, hprev, pngFilterUp, filterLoop_eq]
      rfl
  | average =>
    simp [unfilterLine, Filter.code, hline, hprev, pngFilterAverage, filterLoop_eq]
    rfl
  | paeth =>
    simp [unfilterLine, Filter.code, hline, hprev, pngFilterPaeth, filterLoop_eq]
    rfl

/-! ## Two bytes a sample -/

/-- The other byte of the sample. -/
def partner (i : Nat) : Nat := if i % 2 = 0 then i + 1 else i - 1

@[simp] theorem length_swapPairs (l : Bytes) : (swapPairs l).length = l.length := by
  fun_induction swapPairs l <;> simp_all

theorem getElem?_swapPairs (l : Bytes) (heven : l.length % 2 = 0) (i : Nat) :
    (swapPairs l)[i]? = l[partner i]? := by
  fun_induction swapPairs l generalizing i with
  | case1 a b l ih =>
    have hl : l.length % 2 = 0 := by
      simp only [List.length_cons] at heven
      omega
    match i with
    | 0 => simp [partner]
    | 1 => simp [partner]
    | i + 2 =>
      have hpartner : partner (i + 2) = partner i + 2 := by
        simp only [partner, Nat.add_mod_right]
        split <;> omega
      rw [hpartner]
      simpa using ih hl i
  | case2 l hl =>
    match l with
    | [] => simp
    | [a] => simp at heven
    | a :: b :: l => exact absurd rfl (hl a b l)

theorem partner_lt {i n : Nat} (hn : n % 2 = 0) : partner i < n ↔ i < n := by
  unfold partner
  split <;> omega

/-- The neighbours at an even distance are in the same half of their samples. -/
theorem partner_sub {i stride : Nat} (hs : stride % 2 = 0) (hle : stride ≤ i) :
    partner (i - stride) = partner i - stride := by
  unfold partner
  split <;> split <;> omega

theorem le_partner {i stride : Nat} (hs : stride % 2 = 0) : stride ≤ partner i ↔ stride ≤ i := by
  unfold partner
  split <;> omega

section
variable {l : Bytes} {i stride : Nat} {prevLine : Option Bytes}

theorem leftOf_take (hi : i ≤ l.length) (hpos : 0 < stride) :
    leftOf stride (l.take i) = if stride ≤ i then l.getD (i - stride) 0 else 0 := by
  rw [leftOf, List.length_take, Nat.min_eq_left hi]
  split
  · have hlt : i - stride < i := by omega
    simp [List.getD_eq_getElem?_getD, List.getElem?_take_of_lt hlt]
  · rfl

theorem aboveOf_take (hi : i ≤ l.length) : aboveOf prevLine (l.take i) = (prevLine.getD []).getD i 0 := by
  rw [aboveOf, List.length_take, Nat.min_eq_left hi]

theorem aboveLeftOf_take (hi : i ≤ l.length) :
    aboveLeftOf stride prevLine (l.take i) =
      if stride ≤ i then (prevLine.getD []).getD (i - stride) 0 else 0 := by
  rw [aboveLeftOf, List.length_take, Nat.min_eq_left hi]

theorem getD_swapPairs (heven : l.length % 2 = 0) (i : Nat) :
    (swapPairs l).getD i 0 = l.getD (partner i) 0 := by
  rw [List.getD_eq_getElem?_getD, List.getD_eq_getElem?_getD, getElem?_swapPairs l heven]

/-- The guess for a byte of the turned line is the guess for its partner. -/
theorem predict_swapPairs (f : Filter) (hi : i < l.length) (hl : l.length % 2 = 0)
    (hs : stride % 2 = 0) (hpos : 0 < stride) (hprev : ∀ p ∈ prevLine, p.length % 2 = 0) :
    f.predict stride (prevLine.map swapPairs) ((swapPairs l).take i) =
      f.predict stride prevLine (l.take (partner i)) := by
  have hi' : partner i ≤ l.length := Nat.le_of_lt ((partner_lt hl).mpr hi)
  have hlen : i ≤ (swapPairs l).length := by simpa using Nat.le_of_lt hi
  have habove : ∀ j, ((prevLine.map swapPairs).getD []).getD j 0 = (prevLine.getD []).getD (partner j) 0 := by
    intro j
    cases prevLine with
    | none => simp
    | some p => exact getD_swapPairs (hprev p rfl) j
  rw [Filter.predict, Filter.predict, leftOf_take hlen hpos, leftOf_take hi' hpos, aboveOf_take hlen,
    aboveOf_take hi', aboveLeftOf_take hlen, aboveLeftOf_take hi', habove, habove]
  by_cases hle : stride ≤ i
  · rw [if_pos hle, if_pos ((le_partner hs).mpr hle), if_pos hle, if_pos ((le_partner hs).mpr hle),
      getD_swapPairs hl, partner_sub hs hle]
  · rw [if_neg hle, if_neg (mt (le_partner hs).mp hle), if_neg hle, if_neg (mt (le_partner hs).mp hle)]

/-- **Turning the bytes of the samples around** before the guesses are added, and in the line above, turns
them around in the result. -/
theorem reconstruct_swapPairs (f : Filter) (hl : l.length % 2 = 0) (hs : stride % 2 = 0)
    (hpos : 0 < stride) (hprev : ∀ p ∈ prevLine, p.length % 2 = 0) :
    reconstruct (f.predict stride (prevLine.map swapPairs)) [] (swapPairs (f.encode stride prevLine l)) =
      swapPairs l := by
  have henc : (f.encode stride prevLine l).length % 2 = 0 := by simpa using hl
  have hline : l = reconstruct (f.predict stride prevLine) [] (f.encode stride prevLine l) :=
    (reconstruct_residuals (f.predict stride prevLine) [] l).symm
  obtain ⟨-, heq⟩ := (eq_reconstruct_iff _).mp hline
  symm
  rw [eq_reconstruct_iff]
  refine ⟨by simp, ?_⟩
  intro i hi hi'
  rw [length_swapPairs] at hi hi'
  have hp : partner i < l.length := (partner_lt hl).mpr hi
  have hp' : partner i < (f.encode stride prevLine l).length := by simpa using hp
  have hleft : (swapPairs l)[i]? = some l[partner i] := by
    rw [getElem?_swapPairs l hl, List.getElem?_eq_getElem hp]
  have hright : (swapPairs (f.encode stride prevLine l))[i]? =
      some (f.encode stride prevLine l)[partner i] := by
    rw [getElem?_swapPairs _ henc, List.getElem?_eq_getElem hp']
  rw [(List.getElem?_eq_some_iff.mp hleft).2, (List.getElem?_eq_some_iff.mp hright).2,
    predict_swapPairs f hi hl hs hpos hprev]
  exact heq (partner i) hp hp'

end

/-! ## All lines -/

/-- The lines of an image as the format stores them, below `prevLine`. -/
def filteredLines (stride : Nat) : Option Bytes → List (Filter × Bytes) → Bytes
  | _, [] => []
  | prevLine, (f, line) :: lines =>
    f.code :: f.encode stride prevLine line ++ filteredLines stride (some line) lines

/-- A line in the byte order of the machine. -/
def Header.machine (header : Header) (line : Bytes) : Bytes :=
  if header.depth = 16 then swapPairs line else line

/-- A supported depth, and samples of that many bits. -/
structure Header.Sampled (header : Header) : Prop where
  depth : header.depth = 8 ∨ header.depth = 16
  stride : 0 < (pngGetBpp header).toNat
  even : header.depth = 16 → (pngGetBpp header).toNat % 2 = 0

/-- The bytes of a line. -/
def Header.lineBytes (header : Header) : BitVec 32 := header.width * (pngGetBpp header).zeroExtend 32

variable {header : Header}

@[simp] theorem length_machine (line : Bytes) : (header.machine line).length = line.length := by
  unfold Header.machine
  split <;> simp

/-- The lines of a 16-bit image have an even number of bytes. -/
theorem Header.Sampled.lineBytes_even (h : header.Sampled) (hdepth : header.depth = 16) :
    header.lineBytes.toNat % 2 = 0 := by
  have heven := h.even hdepth
  rw [Header.lineBytes, BitVec.toNat_mul, BitVec.toNat_setWidth,
    Nat.mod_eq_of_lt (Nat.lt_of_lt_of_le (pngGetBpp header).isLt (by decide)),
    Nat.mod_mod_of_dvd _ (by decide : 2 ∣ 2 ^ 32), Nat.mul_mod, heven]
  simp

theorem reconstruct_machine (h : header.Sampled) (f : Filter) {line : Bytes} {prevLine : Option Bytes}
    (hline : line.length = header.lineBytes.toNat) (hprev : ∀ p ∈ prevLine, p.length = header.lineBytes.toNat) :
    reconstruct (f.predict (pngGetBpp header).toNat (prevLine.map header.machine)) []
        (header.machine (f.encode (pngGetBpp header).toNat prevLine line)) = header.machine line := by
  by_cases hdepth : header.depth = 16
  · have hmachine : header.machine = swapPairs := by
      funext l
      rw [Header.machine, if_pos hdepth]
    have hrow := h.lineBytes_even hdepth
    rw [hmachine]
    exact reconstruct_swapPairs f (hline ▸ hrow) (h.even hdepth) h.stride
      fun p hp => hprev p hp ▸ hrow
  · have hmachine : header.machine = id := by
      funext l
      rw [Header.machine, if_neg hdepth]
      rfl
    rw [hmachine, Option.map_id]
    exact reconstruct_residuals _ [] line

/-- The bytes of the line, in the order of the machine; the lines below are not touched. -/
theorem machine_line (h : header.Sampled) {n : Nat} {line rest : Bytes}
    (hline : line.length = header.lineBytes.toNat) (hn : n ≤ filtered.length)
    (hdrop : filtered.drop n = line ++ rest) :
    ∃ filtered', swapLine header filtered n header.lineBytes = some filtered' ∧
      filtered'.length = filtered.length ∧ filtered'.drop n = header.machine line ++ rest := by
  by_cases hdepth : header.depth = 16
  · have heven := h.lineBytes_even hdepth
    have hround : (header.lineBytes.toNat + 1) / 2 * 2 = line.length := by omega
    have hswap : swapLine header filtered n header.lineBytes =
        some (filtered.take n ++ swapPairs line ++ rest) := by
      rw [swapLine, if_pos hdepth, hround, slice_of_drop hn hdrop]
      exact writeAt_of_drop hn hdrop (length_swapPairs line)
    have hlen := length_of_drop hn hdrop
    refine ⟨_, hswap, ?_, ?_⟩
    · simp only [List.length_append, List.length_take, length_swapPairs]
      omega
    · rw [Header.machine, if_pos hdepth, List.append_assoc, List.drop_left' (by simp [hn])]
  · exact ⟨filtered, by rw [swapLine, if_neg hdepth], rfl, by rw [hdrop, Header.machine, if_neg hdepth]⟩

/-- What is done so far ends in the line above, if there is one. -/
def Above (header : Header) : Option Bytes → Bytes → Prop
  | none, done => done = []
  | some p, done => p.length = header.lineBytes.toNat ∧ ∃ front, done = front ++ header.machine p

theorem Above.length {prevLine : Option Bytes} {done : Bytes} (h : Above header prevLine done) :
    ∀ p ∈ prevLine, p.length = header.lineBytes.toNat := by
  rintro p rfl
  exact h.1

/-- `png_unfilter` finds the line above where it has put it. Lines of no bytes are not told apart. -/
theorem Above.prevLineAt {prevLine : Option Bytes} {done : Bytes} (h : Above header prevLine done)
    (hsmall : header.lineBytes.toNat < 2 ^ 31) (hout : outpos.toNat = done.length) (rest : Bytes) :
    prevLineAt (done ++ rest) outpos header.lineBytes = some (prevLine.map header.machine) ∨
      header.lineBytes.toNat = 0 ∧ prevLineAt (done ++ rest) outpos header.lineBytes = some none := by
  by_cases hzero : outpos = 0
  · have hdone : done = [] := by
      rw [hzero] at hout
      exact List.length_eq_zero_iff.mp hout.symm
    have hnone : Png.prevLineAt (done ++ rest) outpos header.lineBytes = some none := by
      rw [Png.prevLineAt, if_pos hzero]
    cases prevLine with
    | none => exact .inl hnone
    | some p =>
      obtain ⟨hp, front, hfront⟩ := h
      refine .inr ⟨?_, hnone⟩
      have := congrArg List.length (hfront.symm.trans hdone)
      simp only [List.length_append, length_machine, List.length_nil] at this
      omega
  · cases prevLine with
    | none =>
      have hdone : done = [] := h
      refine absurd (BitVec.eq_of_toNat_eq ?_) hzero
      rw [hout, hdone]
      rfl
    | some p =>
      obtain ⟨hp, front, rfl⟩ := h
      simp only [List.length_append, length_machine] at hout
      refine .inl ?_
      rw [prevLineAt_eq hsmall (by omega) (by simp only [List.length_append, length_machine]; omega) hzero,
        show outpos.toNat - header.lineBytes.toNat = front.length by omega, List.append_assoc,
        List.drop_left, List.take_left' (by simp [hp])]
      rfl

/-- **One line** of the format, read back. -/
theorem unfilterLine_encode (h : header.Sampled) (hsmall : header.lineBytes.toNat < 2 ^ 31) (f : Filter)
    {line done : Bytes} {prevLine : Option Bytes} (hline : line.length = header.lineBytes.toNat)
    (habove : Above header prevLine done) (hout : outpos.toNat = done.length) (rest : Bytes)
    (hin : slice filtered pos header.lineBytes.toNat =
      some (header.machine (f.encode (pngGetBpp header).toNat prevLine line))) :
    unfilterLine (pngGetBpp header).toNat f.code filtered pos (done ++ rest) outpos header.lineBytes =
      some (some (header.machine line)) := by
  rcases habove.prevLineAt hsmall hout rest with hprev | ⟨hzero, hprev⟩
  · rw [unfilterLine_eq f hsmall hin hprev, reconstruct_machine h f hline habove.length]
  · have hempty : ∀ l : Bytes, l.length = line.length → header.machine l = [] := by
      intro l hl
      apply List.length_eq_zero_iff.mp
      rw [length_machine]
      omega
    rw [unfilterLine_eq f hsmall hin hprev, hempty _ (Filter.length_encode ..), hempty _ rfl]
    rfl

/-- **All lines.** From the first one that is left, the loop takes the bytes of the format apart. -/
theorem unfilterLoop_lines (h : header.Sampled) {datalen : BitVec 32} {lines : List (Filter × Bytes)}
    (hsmall : lines ≠ [] → header.lineBytes.toNat < 2 ^ 31)
    (hlines : ∀ l ∈ lines, l.2.length = header.lineBytes.toNat) {prevLine : Option Bytes}
    {pos outpos : BitVec 32} {filtered done rest : Bytes} (habove : Above header prevLine done)
    (hpos : pos.toNat + lines.length * (header.lineBytes.toNat + 1) = datalen.toNat)
    (hlen : filtered.length = datalen.toNat)
    (hfiltered : filtered.drop pos.toNat = filteredLines (pngGetBpp header).toNat prevLine lines)
    (hout : outpos.toNat = done.length) (hroom : lines.length * header.lineBytes.toNat ≤ rest.length)
    (hfit : done.length + lines.length * header.lineBytes.toNat < 2 ^ 32) :
    unfilterLoop header datalen lines.length pos outpos filtered (done ++ rest) =
      some (.noError, done ++ (lines.map fun l => header.machine l.2).flatten ++
        rest.drop (lines.length * header.lineBytes.toNat)) := by
  induction lines generalizing prevLine pos outpos filtered done rest with
  | nil =>
    have hend : ¬pos < datalen := by
      rw [BitVec.lt_def]
      simp only [List.length_nil] at hpos
      omega
    unfold unfilterLoop
    rw [List.length_nil, if_neg hend]
    simp
  | cons l lines ih =>
    obtain ⟨f, line⟩ := l
    simp only [List.mem_cons, forall_eq_or_imp] at hlines
    obtain ⟨hline, hlines⟩ := hlines
    replace hsmall := hsmall (by simp)
    simp only [List.length_cons, Nat.succ_mul] at hpos hroom hfit
    have hlt : pos < datalen := by
      rw [BitVec.lt_def]
      omega
    have hnext : (pos + 1).toNat = pos.toNat + 1 := by
      rw [BitVec.toNat_add]
      exact Nat.mod_eq_of_lt (by have := datalen.isLt; simp; omega)
    rw [filteredLines, List.cons_append] at hfiltered
    have hfilter : filtered[pos.toNat]? = some f.code := by
      have := congrArg (·[0]?) hfiltered
      simpa using this
    have hrest : filtered.drop (pos + 1).toNat = f.encode (pngGetBpp header).toNat prevLine line ++
        filteredLines (pngGetBpp header).toNat (some line) lines := by
      rw [hnext, ← List.drop_drop, hfiltered]
      rfl
    obtain ⟨filtered', hswap, hlen', hdrop'⟩ :=
      machine_line h ((Filter.length_encode ..).trans hline) (by omega) hrest
    have hmachine : (header.machine line).length = line.length := length_machine line
    have hin : slice filtered' (pos + 1).toNat header.lineBytes.toNat =
        some (header.machine (f.encode (pngGetBpp header).toNat prevLine line)) := by
      have hslice := slice_of_drop (by omega) hdrop'
      rwa [length_machine, Filter.length_encode, hline] at hslice
    have hunfilter := unfilterLine_encode h hsmall f hline habove hout rest hin
    have hwrite : writeAt (done ++ rest) outpos.toNat (header.machine line) =
        some (done ++ header.machine line ++ rest.drop header.lineBytes.toNat) := by
      rw [hout, writeAt_of_drop (by simp) (a := rest.take header.lineBytes.toNat)
        (b := rest.drop header.lineBytes.toNat) (by simp) (by simp; omega), List.take_left]
    have hstep : unfilterLoop header datalen (lines.length + 1) pos outpos filtered (done ++ rest) =
        unfilterLoop header datalen lines.length (pos + 1 + header.lineBytes)
          (outpos + header.lineBytes) filtered'
          (done ++ header.machine line ++ rest.drop header.lineBytes.toNat) := by
      rw [unfilterLoop, if_pos hlt]
      change (filtered[pos.toNat]?).bind _ = _
      rw [hfilter, Option.bind_some]
      change Option.bind (swapLine header filtered (pos + 1).toNat header.lineBytes) _ = _
      rw [hswap, Option.bind_some]
      change Option.bind (unfilterLine (pngGetBpp header).toNat f.code filtered' (pos + 1).toNat
        (done ++ rest) outpos header.lineBytes) _ = _
      rw [hunfilter, Option.bind_some]
      change Option.bind (writeAt (done ++ rest) outpos.toNat (header.machine line)) _ = _
      rw [hwrite, Option.bind_some]
      rfl
    have hpos' : (pos + 1 + header.lineBytes).toNat = pos.toNat + 1 + header.lineBytes.toNat := by
      rw [BitVec.toNat_add, hnext]
      exact Nat.mod_eq_of_lt (by have := datalen.isLt; omega)
    have hout' : (outpos + header.lineBytes).toNat = (done ++ header.machine line).length := by
      rw [BitVec.toNat_add, List.length_append, hmachine, hline, hout]
      exact Nat.mod_eq_of_lt (by omega)
    have hdrop : filtered'.drop (pos + 1 + header.lineBytes).toNat =
        filteredLines (pngGetBpp header).toNat (some line) lines := by
      rw [hpos', ← hnext, ← List.drop_drop, hdrop', List.drop_left' (by simp [hline])]
    have habove' : Above header (some line) (done ++ header.machine line) := ⟨hline, done, rfl⟩
    have hroom' : lines.length * header.lineBytes.toNat ≤ (rest.drop header.lineBytes.toNat).length := by
      rw [List.length_drop]
      omega
    have hfit' : (done ++ header.machine line).length + lines.length * header.lineBytes.toNat < 2 ^ 32 := by
      rw [List.length_append, hmachine]
      omega
    rw [List.length_cons, hstep, ih (fun _ => hsmall) hlines habove' (by omega) (by omega) hdrop hout' hroom' hfit']
    simp only [List.map_cons, List.flatten_cons, List.append_assoc, List.drop_drop, Nat.add_one_mul,
      Nat.add_comm header.lineBytes.toNat]

theorem length_filteredLines {stride n : Nat} {prevLine : Option Bytes} {lines : List (Filter × Bytes)}
    (hlines : ∀ l ∈ lines, l.2.length = n) :
    (filteredLines stride prevLine lines).length = lines.length * (n + 1) := by
  induction lines generalizing prevLine with
  | nil => simp [filteredLines]
  | cons l lines ih =>
    simp only [List.mem_cons, forall_eq_or_imp] at hlines
    simp only [filteredLines, List.length_append, List.length_cons, Filter.length_encode, hlines.1,
      ih hlines.2, Nat.succ_mul]
    omega

/-- **Unfiltering**: the lines of the image come out of what the format stores of them, whatever the
filters; with 16 bits a sample, in the byte order of the machine. -/
theorem unfilter_filtered (h : header.Sampled) {datalen : BitVec 32} {lines : List (Filter × Bytes)}
    (hheight : lines.length = header.height.toNat)
    (hlines : ∀ l ∈ lines, l.2.length = header.lineBytes.toNat)
    (hsmall : lines ≠ [] → header.lineBytes.toNat < 2 ^ 31)
    (hdatalen : lines.length * (header.lineBytes.toNat + 1) = datalen.toNat) {data : Bytes}
    (hroom : lines.length * header.lineBytes.toNat ≤ data.length) :
    pngUnfilter header datalen (filteredLines (pngGetBpp header).toNat none lines) data =
      some (.noError, (lines.map fun l => header.machine l.2).flatten ++
        data.drop (lines.length * header.lineBytes.toNat)) := by
  have hmul := Nat.mul_add_one lines.length header.lineBytes.toNat
  rw [pngUnfilter, ← hheight]
  have hnone : Above header none [] := rfl
  refine unfilterLoop_lines h hsmall hlines hnone ?_ ?_ rfl rfl hroom ?_
  · simpa using hdatalen
  · rw [length_filteredLines hlines, hdatalen]
  · have := datalen.isLt
    simp only [List.length_nil]
    omega

end CsfAssignments.Png
