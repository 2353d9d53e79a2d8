import Mathlib.Data.List.Basic
import Mathlib.Order.Compare
import ZenDB.Workspace.Config

namespace ZenDB

open Workspace (SkipListConfig)

namespace SkipList

/-- One link for each level, `[Option<usize>; MAX_LEVEL]`. No level of `maxLevel` or more is used. -/
abbrev Links := Nat → Option Nat

structure Stats where
  entries : Nat
  deriving DecidableEq, Repr

structure Node (K V : Type) where
  key : K
  value : Option V
  next : Links
  prev : Option Nat
  level : Nat

end SkipList

open SkipList in
/-- The arena-backed skip list. The last pushed slot of `free` is its head. -/
structure SkipList (K V : Type) where
  arena : List (Node K V)
  free : List Nat
  heads : Links
  tail : Option Nat
  height : Nat
  config : SkipListConfig
  stats : Stats

namespace SkipList

/-- What the source never returns from: a panic (an index outside the arena, a live node without
a value) or a loop over the links that does not end. -/
inductive Fault where
  | panic
  | endless
  deriving DecidableEq, Repr

/-- `ErrorKind::StorageFull`, with the number that its message gives. -/
structure StorageFull where
  maxEntries : Nat
  deriving DecidableEq, Repr

def maxLevel : Nat := 16

def noLinks : Links := fun _ => none

variable {K V : Type}

def new (config : SkipListConfig) : SkipList K V :=
  { arena := [], free := [], heads := noLinks, tail := none, height := 0, config, stats := ⟨0⟩ }

/-- `self.arena[index]` -/
def node (s : SkipList K V) (index : Nat) : Except Fault (Node K V) :=
  match s.arena[index]? with
  | some node => .ok node
  | none => .error .panic

/-- An assignment to (a field of) `self.arena[index]`. -/
def modify (s : SkipList K V) (index : Nat) (f : Node K V → Node K V) :
    Except Fault (SkipList K V) :=
  if index < s.arena.length then .ok { s with arena := s.arena.modify index f } else .error .panic

/-- `self.arena[index].value = value` -/
def setValue (s : SkipList K V) (index : Nat) (value : Option V) : Except Fault (SkipList K V) :=
  s.modify index fun node => { node with value }

/-- The link at a level behind a node, or behind the front of the list. -/
def follow (s : SkipList K V) (level : Nat) : Option Nat → Except Fault (Option Nat)
  | some previous => do return (← s.node previous).next level
  | none => .ok (s.heads level)

def setLink (s : SkipList K V) (level : Nat) (previous target : Option Nat) :
    Except Fault (SkipList K V) :=
  match previous with
  | some previous =>
    s.modify previous fun node => { node with next := Function.update node.next level target }
  | none => .ok { s with heads := Function.update s.heads level target }

def setBack (s : SkipList K V) (next target : Option Nat) : Except Fault (SkipList K V) :=
  match next with
  | some next => s.modify next fun node => { node with prev := target }
  | none => .ok { s with tail := target }

section Search

variable [LinearOrder K]

/-- The inner loop of `search`: the last node before the key, and the node of the key. -/
def walk (s : SkipList K V) (key : K) (level : Nat) :
    Nat → Option Nat → Option Nat → Except Fault (Option Nat × Option Nat)
  | 0, _, _ => .error .endless
  | _ + 1, previous, none => .ok (previous, none)
  | fuel + 1, previous, some index => do
    let node ← s.node index
    match compare node.key key with
    | .lt => s.walk key level fuel (some index) (node.next level)
    | .eq => return (previous, some index)
    | .gt => return (previous, none)

/-- The outer loop of `search`, from the level below the given one down to the lowest. -/
def searchLevels (s : SkipList K V) (key : K) :
    Nat → Links → Option Nat → Option Nat → Except Fault (Links × Option Nat)
  | 0, update, _, found => .ok (update, found)
  | level + 1, update, previous, found => do
    let current ← s.follow level previous
    let (previous, here) ← s.walk key level (s.arena.length + 1) previous current
    s.searchLevels key level (Function.update update level previous) previous (here.or found)

def search (s : SkipList K V) (key : K) : Except Fault (Links × Option Nat) :=
  s.searchLevels key s.height noLinks none none

def firstAtOrAfter (s : SkipList K V) (key : K) : Except Fault (Option Nat) := do
  let (update, found) ← s.search key
  match found with
  | some index => return some index
  | none => s.follow 0 (update 0)

end Search

/-- The node that `alloc` puts into a slot, without links yet. -/
def newNode (key : K) (value : V) (level : Nat) : Node K V :=
  { key, value := some value, next := noLinks, prev := none, level }

def alloc (s : SkipList K V) (key : K) (value : V) (level : Nat) :
    Except Fault (SkipList K V × Except StorageFull Nat) :=
  let node := newNode key value level
  match s.free with
  | index :: free => do
    let s ← { s with free }.modify index fun _ => node
    return (s, .ok index)
  | [] =>
    match s.config.capacity.bound with
    | some maxEntries =>
      if maxEntries ≤ s.arena.length then .ok (s, .error ⟨maxEntries⟩)
      else .ok ({ s with arena := s.arena ++ [node] }, .ok s.arena.length)
    | none => .ok ({ s with arena := s.arena ++ [node] }, .ok s.arena.length)

/-- The level of a new node: one more for each coin that shows heads, up to `maxLevel`. -/
def drawLevel (coins : Nat → Bool) : Nat :=
  ((List.range (maxLevel - 1)).takeWhile coins).length + 1

/-- One round of the loop in `insert_new`. -/
def linkLevel (s : SkipList K V) (update : Links) (index level : Nat) :
    Except Fault (SkipList K V) := do
  let next ← s.follow level (update level)
  let s ← s.setLink level (some index) next
  s.setLink level (update level) (some index)

def insertNew (s : SkipList K V) (key : K) (value : V) (update : Links) (coins : Nat → Bool) :
    Except Fault (SkipList K V × Except StorageFull Nat) := do
  let level := drawLevel coins
  match ← s.alloc key value level with
  | (s, .error e) => return (s, .error e)
  | (s, .ok index) =>
    let s := { s with height := max s.height level }
    let s ← s.setBack (some index) (update 0)
    let s ← (List.range level).foldlM (fun s level => s.linkLevel update index level) s
    let next ← s.follow 0 (some index)
    let s ← s.setBack next (some index)
    return ({ s with stats := ⟨s.stats.entries + 1⟩ }, .ok index)

/-- The height falls to the highest level that has a node. -/
def shrink (heads : Links) : Nat → Nat
  | 0 => 0
  | height + 1 => if (heads height).isNone then shrink heads height else height + 1

/-- One round of the loop in `remove_found`. -/
def unlinkLevel (s : SkipList K V) (update : Links) (index level : Nat) :
    Except Fault (SkipList K V) := do
  let successor ← s.follow level (some index)
  s.setLink level (update level) successor

/-- What stays in the slot of a removed node. -/
def cleared (node : Node K V) : Node K V :=
  { node with next := noLinks, prev := none, value := none }

def removeFound (s : SkipList K V) (update : Links) (index : Nat) :
    Except Fault (SkipList K V) := do
  let removed ← s.node index
  let s ← (List.range removed.level).foldlM (fun s level => s.unlinkLevel update index level) s
  let s ← s.setBack (removed.next 0) removed.prev
  let s := { s with height := shrink s.heads s.height }
  let s ← s.modify index cleared
  return { s with free := index :: s.free, stats := ⟨s.stats.entries - 1⟩ }

/-- `expect("live skip-list node has a value")` -/
def live (node : Node K V) : Except Fault V :=
  match node.value with
  | some value => .ok value
  | none => .error .panic

/-- Runs an iterator to its end: it stops at the end of the links, or in front of a key. -/
def collect (s : SkipList K V) (step : Node K V → Option Nat) (stop : K → Bool) :
    Nat → Option Nat → Except Fault (List (K × V))
  | 0, _ => .error .endless
  | _ + 1, none => .ok []
  | fuel + 1, some index => do
    let node ← s.node index
    if stop node.key then return []
    let value ← live node
    let rest ← s.collect step stop fuel (step node)
    return (node.key, value) :: rest

def size (s : SkipList K V) : Nat := s.stats.entries

def entries (s : SkipList K V) : Except Fault (List (K × V)) :=
  s.collect (fun node => node.next 0) (fun _ => false) (s.arena.length + 1) (s.heads 0)

def keys (s : SkipList K V) : Except Fault (List K) := do return (← s.entries).map Prod.fst

def values (s : SkipList K V) : Except Fault (List V) := do return (← s.entries).map Prod.snd

def entriesRev (s : SkipList K V) : Except Fault (List (K × V)) :=
  s.collect (fun node => node.prev) (fun _ => false) (s.arena.length + 1) s.tail

/-- The row of an end of the list, for `first` and `last`. -/
def endRow (s : SkipList K V) : Option Nat → Except Fault (Option (K × V))
  | some index => do
    let node ← s.node index
    return some (node.key, ← live node)
  | none => .ok none

def first (s : SkipList K V) : Except Fault (Option (K × V)) := s.endRow (s.heads 0)

def last (s : SkipList K V) : Except Fault (Option (K × V)) := s.endRow s.tail

def clear (s : SkipList K V) : SkipList K V :=
  { s with arena := [], free := [], heads := noLinks, tail := none, height := 0, stats := ⟨0⟩ }

section Reads

variable [LinearOrder K]

def get (s : SkipList K V) (key : K) : Except Fault (Option V) := do
  match (← s.search key).2 with
  | some index => return some (← live (← s.node index))
  | none => return none

def contains (s : SkipList K V) (key : K) : Except Fault Bool := do
  return (← s.search key).2.isSome

def range (s : SkipList K V) (start stop : K) : Except Fault (List (K × V)) := do
  let current ← s.firstAtOrAfter start
  s.collect (fun node => node.next 0) (fun key => stop ≤ key) (s.arena.length + 1) current

/-- Where `range_rev` starts: in front of the first node at the end of the range, or at the tail. -/
def lastBefore (s : SkipList K V) (stop : K) : Except Fault (Option Nat) := do
  let before ←
    match ← s.firstAtOrAfter stop with
    | some index => do pure (← s.node index).prev
    | none => pure none
  match before, s.tail with
  | some index, _ => return some index
  | none, some index => return if (← s.node index).key < stop then some index else none
  | none, none => return none

def rangeRev (s : SkipList K V) (start stop : K) : Except Fault (List (K × V)) := do
  let current ← s.lastBefore stop
  s.collect (fun node => node.prev) (fun key => key < start) (s.arena.length + 1) current

end Reads

section Writes

variable [LinearOrder K]

def put (s : SkipList K V) (key : K) (value : V) (coins : Nat → Bool) :
    Except Fault (SkipList K V × Except StorageFull Unit) := do
  let (update, found) ← s.search key
  match found with
  | some index => return (← s.setValue index (some value), .ok ())
  | none =>
    let (s, inserted) ← s.insertNew key value update coins
    return (s, inserted.map fun _ => ())

def putIfAbsent (s : SkipList K V) (key : K) (value : V) (coins : Nat → Bool) :
    Except Fault (SkipList K V × Except StorageFull Bool) := do
  let (update, found) ← s.search key
  match found with
  | some _ => return (s, .ok false)
  | none =>
    let (s, inserted) ← s.insertNew key value update coins
    return (s, inserted.map fun _ => true)

def replace (s : SkipList K V) (key : K) (value : V) (coins : Nat → Bool) :
    Except Fault (SkipList K V × Except StorageFull (Option V)) := do
  let (update, found) ← s.search key
  match found with
  | some index =>
    let old ← live (← s.node index)
    return (← s.setValue index (some value), .ok (some old))
  | none =>
    let (s, inserted) ← s.insertNew key value update coins
    return (s, inserted.map fun _ => none)

def delete (s : SkipList K V) (key : K) :
    Except Fault (SkipList K V × Except StorageFull Bool) := do
  let (update, found) ← s.search key
  match found with
  | some index => return (← s.removeFound update index, .ok true)
  | none => return (s, .ok false)

/-- `update_value` is called with the value taken out of its node. -/
def update (s : SkipList K V) (key : K) (updateValue : Option V → Option V) (coins : Nat → Bool) :
    Except Fault (SkipList K V × Except StorageFull Unit) := do
  let (update, found) ← s.search key
  match found with
  | some index =>
    let current := (← s.node index).value
    let s ← s.setValue index none
    match updateValue current with
    | some value => return (← s.setValue index (some value), .ok ())
    | none => return (← s.removeFound update index, .ok ())
  | none =>
    match updateValue none with
    | some value =>
      let (s, inserted) ← s.insertNew key value update coins
      return (s, inserted.map fun _ => ())
    | none => return (s, .ok ())

/-- The inner loop of the bulk operations: the nodes before the key are passed, and `update` has the
last one of them at each level. -/
def advance (s : SkipList K V) (key : K) :
    Nat → Links → Option Nat → Except Fault (Links × Option Nat)
  | 0, _, _ => .error .endless
  | _ + 1, update, none => .ok (update, none)
  | fuel + 1, update, some index => do
    let node ← s.node index
    if key ≤ node.key then return (update, some index)
    s.advance key fuel (fun level => if level < node.level then some index else update level)
      (node.next 0)

/-- The node at the cursor, if it has the key. -/
def atKey (s : SkipList K V) (key : K) : Option Nat → Except Fault (Option Nat)
  | some index => do return if (← s.node index).key = key then some index else none
  | none => .ok none

/-- The loop of `bulk_put_sorted`; each pair has the coins that it throws if it needs a new node. -/
def bulkPutFrom (s : SkipList K V) (update : Links) (current : Option Nat) :
    List (K × V × (Nat → Bool)) → Except Fault (SkipList K V × Except StorageFull Unit)
  | [] => .ok (s, .ok ())
  | (key, value, coins) :: sorted => do
    let (update, current) ← s.advance key (s.arena.length + 1) update current
    match ← s.atKey key current with
    | some index =>
      let s ← s.setValue index (some value)
      s.bulkPutFrom update current sorted
    | none =>
      match ← s.insertNew key value update coins with
      | (s, .error e) => return (s, .error e)
      | (s, .ok index) => s.bulkPutFrom update (some index) sorted

def bulkPutSorted (s : SkipList K V) (sorted : List (K × V × (Nat → Bool))) :
    Except Fault (SkipList K V × Except StorageFull Unit) :=
  s.bulkPutFrom noLinks (s.heads 0) sorted

/-- The loop of `bulk_delete_sorted`, with the number of nodes that it removes. -/
def bulkDeleteFrom (s : SkipList K V) (update : Links) (current : Option Nat) :
    List K → Except Fault (SkipList K V × Nat)
  | [] => .ok (s, 0)
  | key :: sorted => do
    let (update, current) ← s.advance key (s.arena.length + 1) update current
    match current with
    | none => return (s, 0)
    | some index =>
      let node ← s.node index
      if node.key = key then
        let s ← s.removeFound update index
        let (s, removed) ← s.bulkDeleteFrom update (node.next 0) sorted
        return (s, removed + 1)
      else s.bulkDeleteFrom update current sorted

def bulkDeleteSorted (s : SkipList K V) (sorted : List K) : Except Fault (SkipList K V × Nat) :=
  s.bulkDeleteFrom noLinks (s.heads 0) sorted

end Writes

end SkipList

end ZenDB
