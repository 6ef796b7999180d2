import Mathlib.Algebra.Group.Int.Defs
import Mathlib.Algebra.Group.Nat.Defs
import Mathlib.Data.List.Nodup
/-!
# Cache simulator (`csf_assign03/cache.h`, `cache.cpp`, `args.cpp`)

| here | there |
| --- | --- |
| `Slot`, `CacheSet`, `Cache`  | `struct Slot`, `class Set`, `class Cache` (`cache.h:9-36`, `:60-81`); `std::vector` is a list |
| `findHit`, `findVictimSlot`, `updateLru` | `cache.cpp:3-38`; the `-1` of `find_hit` is `none` |
| `markInsertionFifo`          | `cache.h:25-28`: the 64-bit stamp is stored into the 32-bit `access_order` |
| `getTag`, `getIndex`         | `cache.h:66-71`: `none` is the trap of a division by zero |
| `loadSet`, `saveSet`         | the bodies of `Cache::load`, `Cache::save` (`cache.cpp:53-85`, `:99-153`) on the located set |
| `parseArgs`                  | `parse_args` (`args.cpp:11-77`); the text of the `cerr` line is the error |

`Set::Set` does not initialise `fifo_counter` (`cache.h:24`) and `Cache::Cache` copies one such set
`num_sets` times, so `Cache.new` takes the value the counters happen to hold.
-/

namespace CsfAssignments.CacheSim

structure Slot where
  tag : UInt32
  dirty : Bool
  /-- LRU: 0 is the most recently used slot. FIFO: the insertion stamp. -/
  accessOrder : UInt32
  insertionTime : UInt64
deriving DecidableEq, Repr, Inhabited

/-- `slots(size)` value-initialises every slot. -/
def Slot.zero : Slot := ⟨0, false, 0, 0⟩

/-- `class Set`: the valid slots are the first `validCount` ones. -/
structure CacheSet where
  slots : List Slot
  validCount : Nat
  fifoCounter : UInt64
deriving DecidableEq, Repr

structure CacheConfig where
  numSets : UInt32
  numBlocks : UInt32
  blockSize : UInt32
  writeAllocate : Bool
  writeThrough : Bool
  isLru : Bool
deriving DecidableEq, Repr

structure CacheStats where
  totalLoads : UInt32
  totalStores : UInt32
  loadHits : UInt32
  loadMisses : UInt32
  storeHits : UInt32
  storeMisses : UInt32
  totalCycles : UInt64
deriving DecidableEq, Repr

structure Cache where
  sets : List CacheSet
  stats : CacheStats
  config : CacheConfig
deriving DecidableEq, Repr

/-! ## `class Set` -/

/-- `set[i]`, unchecked in the source. -/
def CacheSet.slot (set : CacheSet) (i : Nat) : Slot := set.slots.getD i Slot.zero

def CacheSet.modifySlot (set : CacheSet) (i : Nat) (f : Slot → Slot) : CacheSet :=
  { set with slots := set.slots.modify i f }

/-- `Set::Set(size)`. -/
def CacheSet.new (size : Nat) (fifoCounter : UInt64) : CacheSet :=
  ⟨List.replicate size Slot.zero, 0, fifoCounter⟩

/-- `cache.cpp:3`. -/
def CacheSet.findHit (set : CacheSet) (tag : UInt32) : Option Nat :=
  (List.range set.validCount).find? fun i => (set.slot i).tag == tag

/-- The scan of `find_victim_slot`: `best` moves to `i` when slot `i` beats slot `best`. -/
def CacheSet.scan (set : CacheSet) (beats : UInt32 → UInt32 → Bool) : Nat :=
  (List.range set.validCount).foldl
    (fun best i => if beats (set.slot i).accessOrder (set.slot best).accessOrder then i else best) 0

/-- `cache.cpp:9`: the slot to overwrite, and the set with `valid_count++` when it had room. -/
def CacheSet.findVictimSlot (set : CacheSet) (isLru : Bool) : Nat × CacheSet :=
  if set.validCount = set.slots.length then
    if isLru then (set.scan fun a b => a > b, set)
    else (set.scan fun a b => a < b, set)
  else (set.validCount, { set with validCount := set.validCount + 1 })

/-- `cache.cpp:32`. -/
def CacheSet.updateLru (set : CacheSet) (reference : UInt32) : CacheSet :=
  { set with
    slots := set.slots.mapIdx fun i s =>
      if i < set.validCount ∧ s.accessOrder < reference then
        { s with accessOrder := s.accessOrder + 1 }
      else s }

/-- `cache.h:25`. -/
def CacheSet.markInsertionFifo (set : CacheSet) (i : Nat) : CacheSet :=
  let set' := set.modifySlot i fun s => { s with accessOrder := set.fifoCounter.toUInt32 }
  { set' with fifoCounter := set.fifoCounter + 1 }

/-- The LRU update of a hit (`cache.cpp:59-61`, `:121-122`). -/
def CacheSet.touch (set : CacheSet) (i : Nat) : CacheSet :=
  (set.updateLru (set.slot i).accessOrder).modifySlot i fun s => { s with accessOrder := 0 }

/-- Overwriting the victim (`cache.cpp:73-80`, `:133-140`). -/
def CacheSet.install (set : CacheSet) (config : CacheConfig) (i : Nat) (tag : UInt32) : CacheSet :=
  if config.isLru then
    (set.updateLru config.numBlocks).modifySlot i fun _ => ⟨tag, false, 0, 0⟩
  else
    (set.markInsertionFifo i).modifySlot i fun s => { s with tag := tag, dirty := false }

/-! ## `class Cache` -/

def divU32 (a b : UInt32) : Option UInt32 := if b = 0 then none else some (a / b)

def CacheConfig.getTag (config : CacheConfig) (address : UInt32) : Option UInt32 :=
  divU32 address (config.numSets * config.blockSize)

def CacheConfig.getIndex (config : CacheConfig) (address : UInt32) : Option Nat := do
  let block ← divU32 address config.blockSize
  if config.numSets = 0 then none else some (block % config.numSets).toNat

/-- `total_cycles += n`. -/
def CacheStats.charge (stats : CacheStats) (n : UInt64) : CacheStats :=
  { stats with totalCycles := stats.totalCycles + n }

/-- `Cache::load` on the located set. -/
def loadSet (config : CacheConfig) (tag : UInt32) (set : CacheSet) (stats : CacheStats) :
    CacheSet × CacheStats :=
  match set.findHit tag with
  | some i =>
    let stats := { stats with loadHits := stats.loadHits + 1 }.charge 1
    (if config.isLru then set.touch i else set, stats)
  | none =>
    let stats := { stats with loadMisses := stats.loadMisses + 1 }
    let (i, set) := set.findVictimSlot config.isLru
    let stats :=
      if (set.slot i).dirty && !config.writeThrough then
        stats.charge (100 * config.blockSize.toUInt64 / 4)
      else stats
    let set := set.install config i tag
    (set, stats.charge (1 + 100 * config.blockSize.toUInt64 / 4))

/-- `Cache::save` on the located set. Its two memory costs are computed in `uint32_t`
(`cache.cpp:131`, `:144`), those of `load` in `unsigned long long`. -/
def saveSet (config : CacheConfig) (tag : UInt32) (set : CacheSet) (stats : CacheStats) :
    CacheSet × CacheStats :=
  match set.findHit tag with
  | some i =>
    let stats := { stats with storeHits := stats.storeHits + 1 }
    let (set, stats) :=
      if config.writeThrough then
        let stats := stats.charge 100
        (set, if config.writeAllocate then stats.charge 1 else stats)
      else (set.modifySlot i fun s => { s with dirty := true }, stats.charge 1)
    (if config.isLru then set.touch i else set, stats)
  | none =>
    let stats := { stats with storeMisses := stats.storeMisses + 1 }
    if !config.writeAllocate then (set, stats.charge 100)
    else
      let (i, set) := set.findVictimSlot config.isLru
      let stats :=
        if (set.slot i).dirty && !config.writeThrough then
          stats.charge (100 * config.blockSize / 4).toUInt64
        else stats
      let set := set.install config i tag
      let set := set.modifySlot i fun s => { s with tag := tag, dirty := false }
      let stats := stats.charge (100 * config.blockSize / 4).toUInt64
      if config.writeThrough then
        (set.modifySlot i fun s => { s with dirty := false }, stats.charge 101)
      else (set.modifySlot i fun s => { s with dirty := true }, stats.charge 1)

/-- `Cache::Cache`. -/
def Cache.new (config : CacheConfig) (fifoCounter : UInt64) : Cache :=
  ⟨List.replicate config.numSets.toNat (CacheSet.new config.numBlocks.toNat fifoCounter),
    ⟨0, 0, 0, 0, 0, 0, 0⟩, config⟩

def Cache.load (c : Cache) (address : UInt32) : Option Cache := do
  let stats := { c.stats with totalLoads := c.stats.totalLoads + 1 }
  let tag ← c.config.getTag address
  let index ← c.config.getIndex address
  let set ← c.sets[index]?
  let r := loadSet c.config tag set stats
  some { c with sets := c.sets.set index r.1, stats := r.2 }

def Cache.save (c : Cache) (address : UInt32) : Option Cache := do
  let stats := { c.stats with totalStores := c.stats.totalStores + 1 }
  let tag ← c.config.getTag address
  let index ← c.config.getIndex address
  let set ← c.sets[index]?
  let r := saveSet c.config tag set stats
  some { c with sets := c.sets.set index r.1, stats := r.2 }

/-- One line of a trace (`main.cpp:18-26`): `l` is a load, anything else a store. -/
structure Access where
  store : Bool
  address : UInt32
deriving DecidableEq, Repr

def Cache.access (c : Cache) (a : Access) : Option Cache :=
  if a.store then c.save a.address else c.load a.address

/-- The access loop of `main` (`main.cpp:18`); `none` once an access trapped. -/
def Cache.run (c : Cache) (trace : List Access) : Option Cache := trace.foldlM Cache.access c

/-! ## `parse_args` -/

/-- The digits `strtol` reads after the sign. -/
def digits : List Char → Nat → Nat
  | [], n => n
  | c :: cs, n => if c.isDigit then digits cs (10 * n + (c.toNat - '0'.toNat)) else n

/-- `std::atoi`: white space, an optional sign, digits, and whatever follows is ignored. As in
glibc the value is that of `strtol` (clamped to 64 bits) narrowed to `int`. -/
def atoi (s : String) : Int32 :=
  let cs := s.toList.dropWhile fun c => c == ' ' || ('\t' ≤ c && c ≤ '\r')
  let v : Int := match cs with
    | '-' :: cs => -(digits cs 0 : Int)
    | '+' :: cs => digits cs 0
    | cs => digits cs 0
  Int32.ofInt (max (-2 ^ 63) (min v (2 ^ 63 - 1)))

/-- `args.cpp:6`. -/
def isPowerOf2 (n : Int32) : Bool := 0 < n && n &&& (n - 1) == 0

/-- The two-way string options of `args.cpp:35-74`. -/
def parseFlag (value yes no error : String) : Except String Bool :=
  if value == yes then .ok true else if value == no then .ok false else .error error

/-- `args.cpp:11`; `argc` is the length of `argv`. -/
def parseArgs (argv : List String) : Except String CacheConfig :=
  match argv with
  | [_, sets, blocks, blocksize, alloc, write, replacement] =>
    let numSets := (atoi sets).toUInt32
    let numBlocks := (atoi blocks).toUInt32
    let blockSize := (atoi blocksize).toUInt32
    if !isPowerOf2 numSets.toInt32 || !isPowerOf2 numBlocks.toInt32 ||
        !isPowerOf2 blockSize.toInt32 then
      .error "Error: Sets, blocks, and block size must be powers of 2"
    else if blockSize < 4 then .error "Error: Block size must be at least 4 bytes"
    else do
      let writeAllocate ← parseFlag alloc "write-allocate" "no-write-allocate"
        "Error: Invalid write-allocate option"
      let writeThrough ← parseFlag write "write-through" "write-back"
        "Error: Invalid write-through option"
      if !writeAllocate && !writeThrough then
        .error "Error: Cannot combine no-write-allocate with write-back"
      else
        let isLru ← parseFlag replacement "lru" "fifo" "Error: Invalid replacement policy"
        .ok ⟨numSets, numBlocks, blockSize, writeAllocate, writeThrough, isLru⟩
  | argv =>
    .error ("Usage: " ++ argv.headD "" ++
      " <sets> <blocks> <blocksize> <write-allocate|no-write-allocate> " ++
      "<write-through|write-back> <lru|fifo>")

end CsfAssignments.CacheSim
