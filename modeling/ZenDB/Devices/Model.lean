import Mathlib.Algebra.Group.Nat.Defs
import Mathlib.Data.List.AList
import ZenDB.Crdt.Stamp
import ZenDB.Lib.Search

namespace ZenDB

/-- `missing` are inclusive ranges of sequence numbers not seen yet. -/
structure ReceiptWindow where
  maxSeen : Nat
  missing : List (Nat × Nat)
  deriving DecidableEq, Repr

inductive ObserveOutcome where
  | new
  | duplicate
  deriving DecidableEq, Repr

namespace ReceiptWindow

def empty : ReceiptWindow := ⟨0, []⟩

/-- How `missing_index` compares a range with a sequence number. -/
def compareRange (sequence : Nat) (r : Nat × Nat) : Ordering :=
  if sequence < r.1 then .gt else if sequence > r.2 then .lt else .eq

def missingIndex (w : ReceiptWindow) (sequence : Nat) : Option Nat :=
  binarySearchBy (compareRange sequence) w.missing

/-- What is left of a missing range when one of its numbers arrives. -/
def splitRange (r : Nat × Nat) (sequence : Nat) : List (Nat × Nat) :=
  (if r.1 < sequence then [(r.1, sequence-1)] else []) ++
    (if sequence < r.2 then [(sequence+1, r.2)] else [])

/-- `None` is the error for sequence zero, which leaves the window as it is. -/
def observe (w : ReceiptWindow) (sequence : Nat) : ReceiptWindow × Option ObserveOutcome :=
  if sequence = 0 then (w, none)
  else if sequence > w.maxSeen then
    let gap := if sequence > w.maxSeen+1 then [(w.maxSeen+1, sequence-1)] else []
    (⟨sequence, w.missing ++ gap⟩, some .new)
  else
    match w.missingIndex sequence with
    | none => (w, some .duplicate)
    | some index =>
      match w.missing[index]? with
      | none => (w, some .duplicate)
      | some r =>
        ({w with
          missing := w.missing.take index ++ splitRange r sequence ++ w.missing.drop (index+1)},
          some .new)

end ReceiptWindow

structure EventClock where
  nextSequence : Nat
  lastTime : EventTime
  deriving DecidableEq, Repr

structure PeerState where
  receipts : ReceiptWindow
  clock : Option EventClock
  deriving DecidableEq, Repr

def u64Max : Nat := 2^64-1
def u32Max : Nat := 2^32-1

namespace EventClock

/-- The time of the next stamp; `None` when the logical counter is full. -/
def advance (c : EventClock) (wall : Nat) : Option EventTime :=
  if wall > c.lastTime.physicalMs then some ⟨wall, 0⟩
  else if c.lastTime.logical = u32Max then none
  else some ⟨c.lastTime.physicalMs, c.lastTime.logical+1⟩

/-- The time after hearing of `time`. -/
def hear (c : EventClock) (time : EventTime) (wall : Nat) : EventTime :=
  let physical := max (max wall c.lastTime.physicalMs) time.physicalMs
  let logical :=
    if physical > c.lastTime.physicalMs ∧ physical > time.physicalMs then 0
    else if physical = c.lastTime.physicalMs ∧ physical = time.physicalMs then
      max c.lastTime.logical time.logical
    else if physical = c.lastTime.physicalMs then c.lastTime.logical
    else time.logical
  ⟨physical, logical⟩

end EventClock

/-- The clock and receipts of a process that has the workspace open. The registry of devices and
their roles is left out. -/
structure Devices (P : Type) where
  localPeerId : P
  localState : PeerState
  localDirty : Bool
  others : AList (fun _ : P => PeerState)
  dirtyOthers : List P

inductive ClockError where
  | clockExhausted
  deriving DecidableEq

namespace Devices

variable {P : Type} [DecidableEq P]

/-- `mint` on the cache of the process, line by line: an error leaves the cache as it is by then.
`wall` is the reading of the wall clock; `None` where it cannot be represented. -/
def mintCache (wall : Option Nat) : ExceptT ClockError (StateM (Devices P)) (EventStamp P) := do
  let d ← get
  -- the local state always owns a clock
  let some clock := d.localState.clock | throw .clockExhausted
  if clock.nextSequence = u64Max then throw .clockExhausted
  let some wall := wall | throw .clockExhausted
  let some time := clock.advance wall | throw .clockExhausted
  let stamp : EventStamp P := ⟨⟨d.localPeerId, clock.nextSequence⟩, time⟩
  set {d with localState := {d.localState with clock := some ⟨clock.nextSequence+1, time⟩}}
  modify fun d => {d with localDirty := true}
  return stamp

/-- The outcome of `mint` for a caller that returns its error. -/
def mint (d : Devices P) (wall : Option Nat) : Option (Devices P × EventStamp P) :=
  match (mintCache wall).run d with
  | (.ok stamp, d) => some (d, stamp)
  | (.error _, _) => none

/-- Moves the clock behind a stamp that was observed. -/
def advanceClock (d : Devices P) (stamp : EventStamp P) (wall : Nat) : Devices P :=
  match d.localState.clock with
  | none => d
  | some clock =>
    let next := if stamp.id.peerId = d.localPeerId then
      max clock.nextSequence (stamp.id.sequence+1) else clock.nextSequence
    {d with
      localState := {d.localState with clock := some ⟨next, clock.hear stamp.time wall⟩}
      localDirty := true}

/-- The state of another peer, or a default one. -/
def known (d : Devices P) (peer : P) : PeerState := (d.others.lookup peer).getD ⟨.empty, none⟩

/-- An error leaves `None`; a peer that is heard of for the first time is entered even then. -/
def observe (d : Devices P) (stamp : EventStamp P) (wall : Option Nat) :
    Devices P × Option ObserveOutcome :=
  match wall with
  | none => (d, none)
  | some wall =>
    if stamp.id.peerId = d.localPeerId then
      if stamp.id.sequence = u64Max then (d, none)
      else
        match d.localState.receipts.observe stamp.id.sequence with
        | (_, none) => (d, none)
        | (w, some outcome) =>
          (advanceClock {d with localState := {d.localState with receipts := w}} stamp wall,
            some outcome)
    else
      let state := d.known stamp.id.peerId
      match state.receipts.observe stamp.id.sequence with
      | (_, none) => ({d with others := d.others.insert stamp.id.peerId state}, none)
      | (w, some outcome) =>
        let d := advanceClock
          {d with others := d.others.insert stamp.id.peerId {state with receipts := w}} stamp wall
        ({d with dirtyOthers := stamp.id.peerId :: d.dirtyOthers}, some outcome)

/-- `flush` and `sync` write the dirty states to `_peers`. -/
def checkpoint (d : Devices P) (disk : AList (fun _ : P => PeerState)) :
    Devices P × AList (fun _ : P => PeerState) :=
  let disk := if d.localDirty then disk.insert d.localPeerId d.localState else disk
  let disk := d.dirtyOthers.foldl (fun disk peer =>
    match d.others.lookup peer with
    | some state => disk.insert peer state
    | none => disk) disk
  ({d with localDirty := false, dirtyOthers := []}, disk)

/-- `create` records the first event of the registry, with sequence one. -/
def create (peer : P) (wall : Nat) : Devices P × EventStamp P :=
  ({ localPeerId := peer
     localState := ⟨⟨1, []⟩, some ⟨2, ⟨wall, 0⟩⟩⟩
     localDirty := true
     others := ∅
     dirtyOthers := [] }, ⟨⟨peer, 1⟩, ⟨wall, 0⟩⟩)

/-- `open` reads the checkpoint; a device without one starts from sequence one. -/
def openFrom (peer : P) (disk : AList (fun _ : P => PeerState)) (wall : Option Nat) :
    Option (Devices P) :=
  match disk.lookup peer with
  | some state =>
    if state.clock.isNone then none
    else some ⟨peer, state, false, disk.erase peer, []⟩
  | none => do
    let wall ← wall
    return ⟨peer, ⟨.empty, some ⟨1, ⟨wall, 0⟩⟩⟩, true, disk.erase peer, []⟩

end Devices

end ZenDB
