import Mathlib.Logic.Function.Basic
import CsfAssignments.Parsort.Quicksort
/-!
# The processes of `quicksort`, step by step (`csf_assign04/parsort.c:180-256`)

`Quicksort` runs one child after the other. Here every process of the tree goes from one system call to
the next on its own, in any order, and whether a call fails is part of the run.

| here | there |
| --- | --- |
| `Pid`         | a process, by its way up to the root call: `side :: pid` is the child of `pid` |
| `Pc`          | the next call of a process in `quicksort`, `spawn_child` (`:222`) or `wait_children` (`:229`) |
| `System.next` | the process does it, and goes on to the next one |
| `System.kill` | `SIGTERM` is pending; it ends the process at any later moment, or comes too late |
| `System.wait` | `waitpid`, which has no result while the child runs |

Once a process has forked it leaves its region to its children, and the regions of two children are
disjoint. So what a process does to the array between two calls (`partition`, `qsort`) is one step. An access
outside the array counts as an abnormal end of the process that makes it, as in `Partition`.
-/

namespace CsfAssignments.Parsort

abbrev Pid := List Side

inductive Pc where
  | entry
  | forkLeft (mid : UInt64)
  | forkRight (mid : UInt64)
  /-- `parsort.c:211`: `kill` and `waitpid` after a failed second fork. -/
  | killLeft
  | reapLeft
  | waitLeft
  /-- `parsort.c:237`: the same after a failed `waitpid`. -/
  | killRight
  | reapRight
  | waitRight (leftSuccess : Int32)
  | leave (value : Int32)
deriving DecidableEq, Repr

inductive Status where
  | running (pc : Pc) (sigterm : Bool)
  /-- Of the root, that its call of `quicksort` has returned. -/
  | ended (outcome : Outcome)
deriving DecidableEq, Repr

def Status.isRunning : Status → Bool
  | .running _ _ => true
  | .ended _ => false

structure Proc where
  start : UInt64
  end_ : UInt64
  status : Status
deriving DecidableEq, Repr

structure System where
  arr : Mapping
  procs : Pid → Option Proc

namespace System

/-- The root call. -/
def init (arr : Mapping) (start end_ : UInt64) : System :=
  ⟨arr, fun pid => if pid = [] then some ⟨start, end_, .running .entry false⟩ else none⟩

def put (s : System) (pid : Pid) (proc : Proc) : System :=
  { s with procs := Function.update s.procs pid (some proc) }

def running (s : System) (pid : Pid) : Bool :=
  match s.procs pid with
  | some proc => proc.status.isRunning
  | none => false

def wait (s : System) (pid : Pid) : Option Outcome :=
  match s.procs pid with
  | some ⟨_, _, .ended outcome⟩ => some outcome
  | _ => none

def kill (s : System) (pid : Pid) : System :=
  match s.procs pid with
  | some ⟨start, end_, .running pc _⟩ => s.put pid ⟨start, end_, .running pc true⟩
  | _ => s

/-- What a process does at `pc`. A `fork` or `waitpid` there succeeds if `ok`, and nothing else fails. -/
def next (q : Qsort) (parThreshold : UInt64) (s : System) (pid : Pid) (start end_ : UInt64)
    (sigterm : Bool) (pc : Pc) (ok : Bool) : Option System :=
  let goto (s : System) (pc : Pc) : System := s.put pid ⟨start, end_, .running pc sigterm⟩
  let finish (s : System) (outcome : Outcome) : System := s.put pid ⟨start, end_, .ended outcome⟩
  let spawn (s : System) (side : Side) (start end_ : UInt64) : System :=
    s.put (side :: pid) ⟨start, end_, .running .entry false⟩
  match pc, ok with
  | .entry, true => some <|
    if end_ ≥ start then
      let len := end_ - start
      if len < 2 then goto s (.leave 1)
      else if len ≤ parThreshold then
        goto { s with arr := s.arr.qsort q compare start.toNat end_.toNat } (.leave 1)
      else
        match partition s.arr start end_ with
        | .error why arr => finish { s with arr := arr } (.abnormal why)
        | .ok mid arr => goto { s with arr := arr } (.forkLeft mid)
    else finish s (.abnormal .assertFailed)
  | .forkLeft mid, true => some (spawn (goto s (.forkRight mid)) .left start mid)
  | .forkLeft _, false => some (goto s (.leave 0))
  | .forkRight mid, true => some (spawn (goto s .waitLeft) .right (mid + 1) end_)
  | .forkRight _, false => some (goto s .killLeft)
  | .killLeft, true => some ((goto s .reapLeft).kill (.left :: pid))
  | .reapLeft, true => (s.wait (.left :: pid)).map fun _ => goto s (.leave 0)
  | .reapLeft, false => some (goto s (.leave 0))
  | .waitLeft, true => (s.wait (.left :: pid)).map fun left => goto s (.waitRight left.childSuccess)
  | .waitLeft, false => some (goto s .killRight)
  | .killRight, true => some ((goto s .reapRight).kill (.right :: pid))
  | .reapRight, true => (s.wait (.right :: pid)).map fun _ => goto s (.leave (logicalAnd 0 0))
  | .reapRight, false => some (goto s (.leave (logicalAnd 0 0)))
  | .waitRight leftSuccess, true =>
    (s.wait (.right :: pid)).map fun right =>
      goto s (.leave (logicalAnd leftSuccess right.childSuccess))
  | .waitRight leftSuccess, false => some (goto s (.leave (logicalAnd leftSuccess 0)))
  | .leave value, true => some (finish s (.returned value))
  | _, false => none

end System

/-- One step of the run: a process goes on, its `fork` or `waitpid` fails, or its `SIGTERM` arrives. -/
inductive Kind where
  | goesOn
  | fails
  | dies
deriving DecidableEq, Repr

structure Action where
  pid : Pid
  kind : Kind
deriving DecidableEq, Repr

namespace System

def step (q : Qsort) (parThreshold : UInt64) (s : System) (a : Action) : Option System :=
  match s.procs a.pid with
  | some ⟨start, end_, .running pc sigterm⟩ =>
    match a.kind with
    | .goesOn => s.next q parThreshold a.pid start end_ sigterm pc true
    | .fails => s.next q parThreshold a.pid start end_ sigterm pc false
    | .dies =>
      if sigterm then some (s.put a.pid ⟨start, end_, .ended (.abnormal .killed)⟩) else none
  | _ => none

def run (q : Qsort) (parThreshold : UInt64) (s : System) (acts : List Action) : Option System :=
  acts.foldlM (step q parThreshold) s

end System

end CsfAssignments.Parsort
