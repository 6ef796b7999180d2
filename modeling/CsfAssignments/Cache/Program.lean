import CsfAssignments.Cache.Tally
import CsfAssignments.Lib.Lines
import CsfAssignments.Uint256.Hex
/-!
# `csim` (`csf_assign03/main.cpp`)

From the command line and the trace on standard input to the report.

| here | there |
| --- | --- |
| `stoul`      | `std::stoul(s, nullptr, 16)` (`main.cpp:18`): `none` is an exception, which nobody catches |
| `parseLine`  | one line of the trace (`main.cpp:17-19`) |
| `accessLoop` | the loop (`main.cpp:16-24`); `none` when an exception or a trap ends the program |
| `report`     | `main.cpp:28-34` |

The pieces of `strtoul` are those of `Uint256.Model`.
-/

namespace CsfAssignments.CacheSim

open Uint256 (isSpace leadingDigits skipBase)

/-- No digit to read is `std::invalid_argument`, a value of `2^64` or more is `std::out_of_range`. -/
def magnitude (s : List Char) : Option Nat :=
  let digits := leadingDigits (skipBase s)
  let n := Nat.ofDigits 16 digits.reverse
  if digits.isEmpty || 2 ^ 64 ≤ n then none else some n

def stoul (s : List Char) : Option UInt64 :=
  match s.dropWhile isSpace with
  | '-' :: s => (magnitude s).map fun n => -UInt64.ofNat n
  | '+' :: s => (magnitude s).map UInt64.ofNat
  | s => (magnitude s).map UInt64.ofNat

def parseLine (line : List Char) : Option Access :=
  -- `substr` throws `std::out_of_range` behind the end
  if line.length < 2 then none
  else (stoul ((line.drop 2).take 10)).map fun address => ⟨line.head? ≠ some 'l', address.toUInt32⟩

def accessLoop (cache : Cache) : List (List Char) → Option Cache
  | [] => some cache
  | line :: lines => do
    let a ← parseLine line
    let cache ← cache.access a
    accessLoop cache lines

def report (stats : CacheStats) : String :=
  "Total loads: " ++ toString stats.totalLoads.toNat ++ "\n" ++
  "Total stores: " ++ toString stats.totalStores.toNat ++ "\n" ++
  "Load hits: " ++ toString stats.loadHits.toNat ++ "\n" ++
  "Load misses: " ++ toString stats.loadMisses.toNat ++ "\n" ++
  "Store hits: " ++ toString stats.storeHits.toNat ++ "\n" ++
  "Store misses: " ++ toString stats.storeMisses.toNat ++ "\n" ++
  "Total cycles: " ++ toString stats.totalCycles.toNat ++ "\n"

/-- `main.cpp:6`: the exit status, standard output and standard error. -/
def csimMain (argv : List String) (fifoCounter : UInt64) (stdin : List Char) : Option (Int32 × String × String) :=
  match parseArgs argv with
  | .error message => some (1, "", message ++ "\n")
  | .ok config =>
    (accessLoop (Cache.new config fifoCounter) (Lines.linesOf '\n' stdin)).map fun cache => (0, report cache.stats, "")

/-- The accesses of a trace; `none` when a line is none. -/
def parseTrace (stdin : List Char) : Option (List Access) := (Lines.linesOf '\n' stdin).mapM parseLine

/-- A line that no access comes from ends the program, whether it is read before a trap or behind it. -/
theorem accessLoop_eq (lines : List (List Char)) (cache : Cache) :
    accessLoop cache lines = (lines.mapM parseLine).bind cache.run := by
  induction lines generalizing cache with
  | nil => rfl
  | cons line lines ih =>
    rw [accessLoop, List.mapM_cons]
    cases parseLine line with
    | none => rfl
    | some a =>
      simp only [Option.bind_eq_bind, Option.bind_some, ih]
      cases lines.mapM parseLine with
      | none => cases cache.access a <;> rfl
      | some trace =>
        cases hacc : cache.access a with
        | none => simp [Cache.run, hacc]
        | some c => exact (run_cons hacc).symm

/-- **From trace to report**: the program ends if and only if every line gives an access, and then it prints the
statistics of the textbook cache. -/
theorem csimMain_eq {argv : List String} {config : CacheConfig} (h : parseArgs argv = .ok config)
    (hfit : config.numSets.toNat * config.blockSize.toNat < 2 ^ 32) (hcost : 100 * config.blockSize.toNat < 2 ^ 32)
    (fifo : UInt64) (stdin : List Char)
    (hstamps : config.isLru = false → ∀ trace, parseTrace stdin = some trace →
      ∀ s ∈ (Cache.new config fifo).stamps trace, s.toNat < 2 ^ 32) :
    csimMain argv fifo stdin = (parseTrace stdin).map fun trace => (0, report ((config.tally trace).stats config), "") := by
  have g : Geometry config := ⟨parseArgs_accepted h, hfit⟩
  simp only [csimMain, h, accessLoop_eq]
  change ((parseTrace stdin).bind _).map _ = _
  cases htrace : parseTrace stdin with
  | none => rfl
  | some trace =>
    obtain ⟨c, hrun, hstats⟩ := run_tally g hcost fifo fun hlru => hstamps hlru trace htrace
    simp only [Option.bind_some, hrun, Option.map_some, hstats]

def smallTrace : List Char := "s 0x00000000 1\nl 0x00000004 1\nl 0x00000000 7\nl 0x00000008".toList

/-- A FIFO cache of two blocks, whose first block goes out dirty. -/
theorem csimMain_eq_smallTrace :
    csimMain ["csim", "1", "2", "4", "write-allocate", "write-back", "fifo"] 5 smallTrace =
      (parseTrace smallTrace).map fun trace =>
        (0, report ((CacheConfig.tally ⟨1, 2, 4, true, false, false⟩ trace).stats ⟨1, 2, 4, true, false, false⟩), "") := by
  have hparse : parseTrace smallTrace = some [⟨true, 0⟩, ⟨false, 4⟩, ⟨false, 0⟩, ⟨false, 8⟩] := by decide
  have hstamps : ∀ s ∈ (Cache.new ⟨1, 2, 4, true, false, false⟩ 5).stamps
      [⟨true, 0⟩, ⟨false, 4⟩, ⟨false, 0⟩, ⟨false, 8⟩], s.toNat < 2 ^ 32 := fun s hs =>
    of_decide_eq_true <| List.all_eq_true.mp (show List.all _ (fun s => decide (s.toNat < 2 ^ 32)) = true from rfl) s hs
  refine csimMain_eq
    (show parseArgs ["csim", "1", "2", "4", "write-allocate", "write-back", "fifo"] = .ok _ from rfl)
    (by decide) (by decide) 5 smallTrace fun _ trace htrace => ?_
  obtain rfl := Option.some.inj (hparse.symm.trans htrace)
  exact hstamps

/-- What it prints: the last load writes a block back. -/
example : csimMain ["csim", "1", "2", "4", "write-allocate", "write-back", "fifo"] 5 smallTrace =
    some (0, "Total loads: 3\nTotal stores: 1\nLoad hits: 1\nLoad misses: 2\nStore hits: 0\n" ++
      "Store misses: 1\nTotal cycles: 404\n", "") := by decide

/-! ## Trace files -/

/-- A line of a trace file: the access in eight digits, and what `main` does not read. -/
def traceLine (a : Access) (rest : List Char) : List Char :=
  (if a.store then 's' else 'l') :: ' ' :: '0' :: 'x' :: Uint256.sprintf a.address.toBitVec ++ rest

theorem stoul_sprintf (address : UInt32) :
    stoul ('0' :: 'x' :: Uint256.sprintf address.toBitVec) = some (UInt64.ofNat address.toNat) := by
  obtain ⟨hlen, hlower, hval⟩ := Uint256.sprintf_spec address.toBitVec
  have hhex : ∀ c ∈ Uint256.sprintf address.toBitVec, Uint256.IsHexDigit c := fun c hc =>
    Uint256.isHexDigit_of_lower (hlower c hc)
  generalize Uint256.sprintf address.toBitVec = s at *
  have hbase : skipBase ('0' :: 'x' :: s) = s := by
    cases s with
    | nil => simp at hlen
    | cons c s => simp [skipBase, show (Uint256.digitValue c).isSome = true from hhex c (by simp)]
  have hvalue : Nat.ofDigits 16 (leadingDigits s).reverse = address.toNat := by
    rw [Uint256.leadingDigits_eq hhex, ← List.map_reverse]
    exact hval
  have hdigits : (leadingDigits s).isEmpty = false := by
    rw [Uint256.leadingDigits_eq hhex]
    cases s with
    | nil => simp at hlen
    | cons c s => rfl
  have hlt := address.toNat_lt
  have hspace : ('0' :: 'x' :: s).dropWhile isSpace = '0' :: 'x' :: s := by simp [isSpace]
  have hmagnitude : magnitude ('0' :: 'x' :: s) = some address.toNat := by
    unfold magnitude
    simp only [hbase, hvalue, hdigits, Bool.false_or]
    rw [if_neg (by simp; omega)]
  rw [stoul, hspace]
  exact congrArg (Option.map UInt64.ofNat) hmagnitude

theorem parseLine_traceLine (a : Access) (rest : List Char) : parseLine (traceLine a rest) = some a := by
  have haddress : ((traceLine a rest).drop 2).take 10 = '0' :: 'x' :: Uint256.sprintf a.address.toBitVec := by
    have hlen := (Uint256.sprintf_spec a.address.toBitVec).1
    simp [traceLine, hlen]
  have hlong : ¬(traceLine a rest).length < 2 := by simp [traceLine]
  unfold parseLine
  rw [if_neg hlong, haddress, stoul_sprintf]
  obtain ⟨store, address⟩ := a
  cases store <;> simp [traceLine]

/-- **Round trip**: a trace file is read as the accesses it was written from. -/
theorem parseTrace_render {lines : List (Access × List Char)} (h : ∀ line ∈ lines, '\n' ∉ line.2) :
    parseTrace (Lines.unlines '\n' (lines.map fun line => traceLine line.1 line.2)) = some (lines.map Prod.fst) := by
  have hends : ∀ line ∈ lines.map fun line => traceLine line.1 line.2, '\n' ∉ line := by
    intro line hline
    obtain ⟨⟨a, rest⟩, hmem, rfl⟩ := List.mem_map.1 hline
    have hdigits : '\n' ∉ Uint256.sprintf a.address.toBitVec := fun hc =>
      absurd ((Uint256.sprintf_spec a.address.toBitVec).2.1 _ hc) (by decide)
    have hrest := h _ hmem
    cases hstore : a.store <;> simp [traceLine, hstore, hdigits, hrest]
  rw [parseTrace, Lines.linesOf_unlines hends]
  clear hends h
  induction lines with
  | nil => rfl
  | cons line lines ih => simp [parseLine_traceLine, ih]

theorem parseTrace_render_two :
    parseTrace (Lines.unlines '\n' ([(⟨true, 0x1fffff50⟩, " 1".toList), (⟨false, 0xaa40⟩, [])].map
      fun line : Access × List Char => traceLine line.1 line.2)) = some [⟨true, 0x1fffff50⟩, ⟨false, 0xaa40⟩] :=
  parseTrace_render (by decide)

end CsfAssignments.CacheSim
