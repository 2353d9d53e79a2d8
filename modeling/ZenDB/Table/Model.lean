import ZenDB.Lib.Effects
import ZenDB.Lib.Rows
import ZenDB.Topic.Spec

namespace ZenDB

/-- The backend of a state; `capacity` is the bound of a skip list. -/
inductive StateKind where
  | ordered
  | unordered
  | inMemory (capacity : Option Nat)
  deriving DecidableEq, Repr

/-- A materialized state as the finite map its backend keeps. -/
structure State (K V : Type) where
  kind : StateKind
  rows : AList (fun _ : K => V)

namespace State

variable {K V : Type} [DecidableEq K]

/-- A bounded skip list refuses a new key when it is full. -/
def put (s : State K V) (key : K) (value : V) : Option (State K V) :=
  match s.kind with
  | .inMemory (some maxEntries) =>
    if (s.rows.lookup key).isSome ∨ s.rows.entries.length < maxEntries then
      some {s with rows := s.rows.insert key value}
    else none
  | _ => some {s with rows := s.rows.insert key value}

def delete (s : State K V) (key : K) : State K V := {s with rows := s.rows.erase key}

def isInMemory (s : State K V) : Bool :=
  match s.kind with
  | .inMemory _ => true
  | _ => false

/-- An in-memory state has no file to open. -/
def reopen (s : State K V) : State K V := if s.isInMemory then {s with rows := ∅} else s

end State

structure Change (E V : Type) where
  event : E
  previous : Option V
  current : Option V

/-- What `apply_walk` makes of a row. -/
inductive Applied (V : Type) where
  | error
  | unchanged
  | changed (current : V)

/-- The events a table takes: the row they address and their effect on its cell. -/
structure RowOps (K V E : Type) where
  key : E → K
  apply : Option V → E → Applied V

inductive InsertOutcome (E V : Type) where
  | ignored
  | applied (change : Change E V)
  | error

def recoveryConsumer : String := "__zendb_table_recovery"

/-- `topic` is the change topic together with all its consumers; the handle of the recovery
consumer belongs to the table. -/
structure Table (K V E : Type) where
  state : State K V
  cache : AList (fun _ : K => V)
  maxBuffered : Nat
  novelPending : Nat
  topic : TopicSpec String (Change E V)

/-- What a call does to the table, one store at a time, in program order. -/
inductive Effect (K V E : Type) where
  | put (key : K) (value : V)
  | remove (key : K)
  | clearCache
  | append (change : Change E V)
  | cachePut (key : K) (value : V)
  | countNovel
  | seek (offset : Nat)
  | next
  | commit
  | consumer (op : Topic.Op String (Change E V))

namespace TopicSpec

variable {Name T : Type} [DecidableEq Name]

/-- A crash drops all handles; the records and the committed offsets are on disk. -/
def crash (s : TopicSpec Name T) : TopicSpec Name T :=
  {s with consumers := insertAll ∅ (s.consumers.entries.map fun e => ⟨e.1, ⟨e.2.committed, none⟩⟩)}

end TopicSpec

/-- The calls that other holders of a topic handle can make. -/
def Topic.Op.foreign {T : Type} : Topic.Op String T → Bool
  | .compact => true
  | .register _ => true
  | .next name | .commit name | .reset name | .drop name | .delete name => name ≠ recoveryConsumer
  | .append _ => false
  | .reopen => false

namespace Table

variable {K V E : Type} [LinearOrder K] (ro : RowOps K V E)

def get (t : Table K V E) (key : K) : Option V := (t.cache.lookup key).or (t.state.rows.lookup key)

def perform (t : Table K V E) : Effect K V E → Option (Table K V E)
  | .put key value => do return {t with state := ← t.state.put key value}
  | .remove key => some {t with state := t.state.delete key}
  | .clearCache => some {t with cache := ∅, novelPending := 0}
  | .append change => some {t with topic := (t.topic.step (.append change)).1}
  | .cachePut key value =>
    if (t.cache.lookup key).isSome ∨ t.cache.entries.length < t.maxBuffered then
      some {t with cache := t.cache.insert key value}
    else none
  | .countNovel => some {t with novelPending := t.novelPending+1}
  | .seek offset => some {t with topic := t.topic.seek recoveryConsumer offset}
  | .next => some {t with topic := (t.topic.step (.next recoveryConsumer)).1}
  | .commit => some {t with topic := (t.topic.step (.commit recoveryConsumer)).1}
  | .consumer op => some {t with topic := (t.topic.step op).1}

def exec (t : Table K V E) (es : List (Effect K V E)) : Table K V E × Bool :=
  execEffects perform t es

/-- An empty cache is left alone; otherwise its rows go to the state in key order. -/
def drainCache (t : Table K V E) : List (Effect K V E) :=
  if t.cache.entries = [] then []
  else ((sortBy id (rows t.cache)).flatMap fun row => [.put row.1 row.2]) ++ [.clearCache]

def prepareCache (t : Table K V E) (key : K) : List (Effect K V E) :=
  if t.cache.entries.length ≥ t.maxBuffered ∧ (t.cache.lookup key).isNone then t.drainCache else []

def commitRecovery (t : Table K V E) : List (Effect K V E) :=
  if t.state.isInMemory then [] else [.commit]

/-- The part of `insert` behind `apply_walk`; `append` answers the number of records before it. -/
def recordChange (t : Table K V E) (event : E) (current : V) : List (Effect K V E) :=
  let key := ro.key event
  let previous := t.get key
  t.prepareCache key ++ [.append ⟨event, previous, some current⟩, .cachePut key current] ++
    (if previous.isNone then [.countNovel] else []) ++ [.seek (t.topic.log.length+1)]

def insert (t : Table K V E) (event : E) : Table K V E × InsertOutcome E V :=
  match ro.apply (t.get (ro.key event)) event with
  | .error => (t, .error)
  | .unchanged => (t, .ignored)
  | .changed current =>
    match t.exec (t.recordChange ro event current) with
    | (t', true) => (t', .applied ⟨event, t.get (ro.key event), some current⟩)
    | (t', false) => (t', .error)

/-- The flushes of the files behind the drain and the commit change no content. -/
def flush (t : Table K V E) : List (Effect K V E) := t.drainCache ++ t.commitRecovery

def sync (t : Table K V E) : List (Effect K V E) := t.drainCache ++ t.commitRecovery

def create (kind : StateKind) (maxBuffered : Nat) : Table K V E :=
  { state := ⟨kind, ∅⟩
    cache := ∅
    maxBuffered := maxBuffered
    novelPending := 0
    topic := (TopicSpec.step ⟨[], ∅⟩ (.register recoveryConsumer)).1 }

/-- The table of `open` before `replay_recovery`, on what a crash leaves behind. -/
def load (t : Table K V E) (maxBuffered : Nat) : Table K V E :=
  { state := t.state.reopen
    cache := ∅
    maxBuffered := maxBuffered
    novelPending := 0
    topic := (t.topic.crash.step (.register recoveryConsumer)).1 }

def replayChange (change : Change E V) : Effect K V E :=
  match change.current with
  | some value => .put (ro.key change.event) value
  | none => .remove (ro.key change.event)

def recoveryOffset (t : Table K V E) : Nat :=
  match t.topic.consumers.lookup recoveryConsumer with
  | some ⟨committed, reader⟩ => reader.getD committed
  | none => 0

/-- The records the recovery handle has in front of it, each read and then written to the state. -/
def replayRecovery (t : Table K V E) : List (Effect K V E) :=
  ((t.topic.log.drop t.recoveryOffset).flatMap fun change => [.next, replayChange ro change]) ++
    t.commitRecovery

def openTable (t : Table K V E) (maxBuffered : Nat) : Table K V E × Bool :=
  let loaded := t.load maxBuffered
  loaded.exec (loaded.replayRecovery ro)

end Table

end ZenDB
