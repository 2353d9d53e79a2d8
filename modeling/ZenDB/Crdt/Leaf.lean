import ZenDB.Crdt.Key
import ZenDB.Crdt.Stamp
import ZenDB.Lib.SortedMap

namespace ZenDB.Crdt

open SortedMap

/-! The leaf types. `P` are the peers, `S` the event stamps, `K` the primary keys and `V` the values
that a leaf holds and only copies and compares. A method returns what it leaves behind and its
answer: whether something changed, or an error. -/

section Counter

variable {P : Type} [LinearOrder P]

structure Counter (P : Type) where
  entries : List (P × (Nat × Nat))
  deriving DecidableEq

inductive CounterOp where
  | add (delta : Int)
  deriving DecidableEq

inductive CounterError where
  | overflow
  deriving DecidableEq

namespace Counter

def addAt (c : Counter P) (peer : P) (delta : Int) : Counter P × Except CounterError Bool :=
  let entry := (get c.entries peer).getD (0, 0)
  let entry' := if 0 < delta then (entry.1+delta.natAbs, entry.2) else (entry.1, entry.2+delta.natAbs)
  if entry'.1 < 2^64 ∧ entry'.2 < 2^64 then (⟨SortedMap.insert c.entries peer entry'⟩, .ok true)
  else (⟨SortedMap.insert c.entries peer entry⟩, .error .overflow)

def apply (c : Counter P) (op : CounterOp) (peer : P) : Counter P × Except CounterError Bool :=
  match op with
  | .add delta => if delta = 0 then (c, .ok false) else c.addAt peer delta

/-- Both components go up to the remote ones. -/
def mergePair (a b : Nat × Nat) : (Nat × Nat) × Bool :=
  ((max a.1 b.1, max a.2 b.2), decide (a.1 < b.1 ∨ a.2 < b.2))

def merge (c remote : Counter P) : Counter P × Bool :=
  let r := mergeTotal mergePair c.entries remote.entries
  (⟨r.1⟩, r.2)

/-- The sum of all contributions. -/
def value (c : Counter P) : Int := (c.entries.map fun e => (e.2.1 : Int)-e.2.2).sum

end Counter

end Counter

variable {S K V : Type} [LinearOrder S]

/-- A later stamp is written over the local one; `none` when the local one stays. -/
def raise (stamp : S) : Option S → Option S
  | none => some stamp
  | some existing => if existing < stamp then some stamp else none

/-- `merge_clock`: the local clock after it, and whether it changed. -/
def mergeClock (clock remote : Option S) : Option S × Bool :=
  match remote with
  | none => (clock, false)
  | some r => ((raise r clock).or clock, (raise r clock).isSome)

/-- `merge_required_clock`. -/
def mergeRequiredClock (clock remote : S) : S × Bool :=
  ((raise remote (some clock)).getD clock, (raise remote (some clock)).isSome)

/-- The stamps of removals go up to the remote ones. -/
def mergeRemovals (removed remote : List (S × S)) : List (S × S) × Bool :=
  mergeTotal mergeRequiredClock removed remote

def maxOf [Inhabited S] (stamps : List S) : S := stamps.foldl max default

section MvRegister

structure MvRegister (S V : Type) where
  entries : List (S × V)
  removed : List (S × S)
  deriving DecidableEq

inductive MvRegisterOp (S V : Type) where
  | assign (value : V) (replaces : List S)
  deriving DecidableEq

inductive MvRegisterError (S : Type) where
  | assignmentConflict (id : S)
  deriving DecidableEq

namespace MvRegister

variable [DecidableEq V]

/-- The loop over `replaces` works on both maps at each id; here it is written map by map. -/
def apply (r : MvRegister S V) (op : MvRegisterOp S V) (stamp : S) :
    MvRegister S V × Except (MvRegisterError S) Bool :=
  match op with
  | .assign value replaces =>
    if (get r.entries stamp).any (· ≠ value) then (r, .error (.assignmentConflict stamp))
    else
      let removed := updateAll (fun _ => raise stamp) r.removed replaces
      let entries := eraseAll r.entries replaces
      if contains removed.1 stamp then (⟨entries.1, removed.1⟩, .ok (removed.2 || entries.2))
      else (⟨SortedMap.insert entries.1 stamp value, removed.1⟩,
        .ok (removed.2 || entries.2 || !contains entries.1 stamp))

def merge (r remote : MvRegister S V) : MvRegister S V × Except (MvRegisterError S) Bool :=
  let removed := mergeRemovals r.removed remote.removed
  match mergeMap
      (fun id existing value =>
        (existing, if existing ≠ value then .error (.assignmentConflict id) else .ok false))
      r.entries (remote.entries.filter fun e => !contains removed.1 e.1) removed.2 with
  | (entries, .error e) => (⟨entries, removed.1⟩, .error e)
  | (entries, .ok changed) =>
    let kept := eraseAll entries (removed.1.map Prod.fst)
    (⟨kept.1, removed.1⟩, .ok (changed || kept.2))

def maxStamp [Inhabited S] (r : MvRegister S V) : S :=
  max (maxOf (r.entries.map Prod.fst)) (maxOf (r.removed.map Prod.snd))

/-- The visible values in the order of their assignments. -/
def values (r : MvRegister S V) : List V := r.entries.map Prod.snd

/-- The assignment that replaces everything visible here. -/
def assign (r : MvRegister S V) (value : V) : MvRegisterOp S V :=
  .assign value (r.entries.map Prod.fst)

end MvRegister

end MvRegister

section OrSet

variable [LinearOrder K]

structure OrSetEntry (S : Type) where
  adds : List (S × Unit)
  rems : List (S × S)
  deriving DecidableEq

structure OrSet (K S : Type) where
  entries : List (K × OrSetEntry S)
  deriving DecidableEq

inductive OrSetOp (K S : Type) where
  | add (key : K)
  | remove (key : K) (observed : List S)
  deriving DecidableEq

/-- An add tag survives if no remove has observed it. -/
def OrSetEntry.isLive (e : OrSetEntry S) : Bool := e.adds.any fun tag => !contains e.rems tag.1

namespace OrSet

def apply (o : OrSet K S) (op : OrSetOp K S) (stamp : S) : OrSet K S × Bool :=
  match op with
  | .add key =>
    let entry := (get o.entries key).getD ⟨[], []⟩
    (⟨SortedMap.insert o.entries key {entry with adds := SortedMap.insert entry.adds stamp ()}⟩,
      !contains entry.adds stamp)
  | .remove key observed =>
    let entry := (get o.entries key).getD ⟨[], []⟩
    let rems := updateAll (fun _ => raise stamp) entry.rems observed
    (⟨SortedMap.insert o.entries key {entry with rems := rems.1}⟩, rems.2)

def mergeEntry (l r : OrSetEntry S) : OrSetEntry S × Bool :=
  let adds := mergeTotal (fun _ _ => ((), false)) l.adds r.adds
  let rems := mergeRemovals l.rems r.rems
  (⟨adds.1, rems.1⟩, rems.2 || adds.2)

def merge (o remote : OrSet K S) : OrSet K S × Bool :=
  let r := mergeTotal mergeEntry o.entries remote.entries
  (⟨r.1⟩, r.2)

def maxStamp [Inhabited S] (o : OrSet K S) : S :=
  maxOf (o.entries.map fun e =>
    max (maxOf (e.2.adds.map Prod.fst)) (maxOf (e.2.rems.map Prod.snd)))

def contains (o : OrSet K S) (key : K) : Bool := (get o.entries key).any OrSetEntry.isLive

end OrSet

end OrSet

section PriorityQueue

inductive PqEntry (S V : Type) where
  | pendingPop (deletedAt : S)
  | present (priority : Int) (value : V) (deletedAt : Option S)
  deriving DecidableEq

structure PriorityQueue (S V : Type) where
  entries : List (S × PqEntry S V)
  deriving DecidableEq

inductive PqOp (S V : Type) where
  | push (priority : Int) (value : V)
  | pop (id : S)
  deriving DecidableEq

inductive PqError (S : Type) where
  | pushConflict (id : S)
  deriving DecidableEq

namespace PriorityQueue

variable [DecidableEq V]

def apply (q : PriorityQueue S V) (op : PqOp S V) (stamp : S) :
    PriorityQueue S V × Except (PqError S) Bool :=
  match op with
  | .push priority value =>
    match get q.entries stamp with
    | some (.present p v _) =>
      if p ≠ priority ∨ v ≠ value then (q, .error (.pushConflict stamp)) else (q, .ok false)
    | some (.pendingPop deletedAt) =>
      (⟨SortedMap.insert q.entries stamp (.present priority value (some deletedAt))⟩, .ok true)
    | none => (⟨SortedMap.insert q.entries stamp (.present priority value none)⟩, .ok true)
  | .pop id =>
    if stamp ≤ id then (q, .ok false)
    else
      match get q.entries id with
      | some (.pendingPop deletedAt) =>
        let clock := mergeRequiredClock deletedAt stamp
        (⟨SortedMap.insert q.entries id (.pendingPop clock.1)⟩, .ok clock.2)
      | some (.present p v deletedAt) =>
        let clock := mergeClock deletedAt (some stamp)
        (⟨SortedMap.insert q.entries id (.present p v clock.1)⟩, .ok clock.2)
      | none => (⟨SortedMap.insert q.entries id (.pendingPop stamp)⟩, .ok true)

def mergeEntry (id : S) : PqEntry S V → PqEntry S V → PqEntry S V × Except (PqError S) Bool
  | .pendingPop l, .pendingPop r =>
    (.pendingPop (mergeRequiredClock l r).1, .ok (mergeRequiredClock l r).2)
  | .pendingPop l, .present priority value deletedAt =>
    (.present priority value (mergeClock deletedAt (some l)).1, .ok true)
  | .present priority value deletedAt, .pendingPop r =>
    (.present priority value (mergeClock deletedAt (some r)).1, .ok (mergeClock deletedAt (some r)).2)
  | .present p v l, .present p' v' r =>
    if p ≠ p' ∨ v ≠ v' then (.present p v l, .error (.pushConflict id))
    else (.present p v (mergeClock l r).1, .ok (mergeClock l r).2)

def merge (q remote : PriorityQueue S V) : PriorityQueue S V × Except (PqError S) Bool :=
  let r := mergeMap mergeEntry q.entries remote.entries false
  (⟨r.1⟩, r.2)

def maxStamp [Inhabited S] (q : PriorityQueue S V) : S :=
  maxOf (q.entries.map fun e => max e.1 <|
    match e.2 with
    | .pendingPop deletedAt => deletedAt
    | .present _ _ deletedAt => deletedAt.getD default)

/-- The elements that are not deleted, under the priority and the id that order them. -/
def present (q : PriorityQueue S V) : List ((Int × S) × V) :=
  q.entries.filterMap fun e =>
    match e.2 with
    | .present priority value none => some ((priority, e.1), value)
    | _ => none

/-- All live elements in priority order. -/
def live (q : PriorityQueue S V) : List (Int × S × V) :=
  (sortBy toLex q.present).map fun e => (e.1.1, e.1.2, e.2)

/-- The pop operation for the least element. -/
def pop (q : PriorityQueue S V) : Option (PqOp S V) :=
  (q.present.map fun e => toLex e.1).min?.map fun key => .pop (ofLex key).2

end PriorityQueue

end PriorityQueue

section Set

variable [LinearOrder K]

structure Meta (S : Type) where
  updated : S
  deleted : S
  deriving DecidableEq

/-- The last-writer-wins set, `Set` in the source. -/
structure LwwSet (K S : Type) where
  entries : List (K × Meta S)
  deriving DecidableEq

inductive SetOp (K : Type) where
  | add (key : K)
  | remove (key : K)
  deriving DecidableEq

def Meta.isLive (m : Meta S) : Bool := m.deleted < m.updated

namespace LwwSet

def apply [Inhabited S] (s : LwwSet K S) (op : SetOp K) (stamp : S) : LwwSet K S × Bool :=
  match op with
  | .add key =>
    let entry := (get s.entries key).getD ⟨default, default⟩
    let clock := mergeRequiredClock entry.updated stamp
    (⟨SortedMap.insert s.entries key {entry with updated := clock.1}⟩, clock.2)
  | .remove key =>
    let entry := (get s.entries key).getD ⟨default, default⟩
    let clock := mergeRequiredClock entry.deleted stamp
    (⟨SortedMap.insert s.entries key {entry with deleted := clock.1}⟩, clock.2)

def mergeMeta (l r : Meta S) : Meta S × Bool :=
  let updated := mergeRequiredClock l.updated r.updated
  let deleted := mergeRequiredClock l.deleted r.deleted
  (⟨updated.1, deleted.1⟩, updated.2 || deleted.2)

def merge (s remote : LwwSet K S) : LwwSet K S × Bool :=
  let r := mergeTotal mergeMeta s.entries remote.entries
  (⟨r.1⟩, r.2)

def maxStamp [Inhabited S] (s : LwwSet K S) : S :=
  maxOf (s.entries.map fun e => max e.2.updated e.2.deleted)

def contains (s : LwwSet K S) (key : K) : Bool := (get s.entries key).any Meta.isLive

end LwwSet

end Set

section Text

/-- The stamp of the insert and the offset of the character in it. -/
structure TextId (S : Type) where
  stamp : S
  offset : Nat
  deriving DecidableEq

instance : LinearOrder (TextId S) :=
  LinearOrder.lift' (fun id => toLex (id.stamp, id.offset)) (by
    rintro ⟨a, b⟩ ⟨c, d⟩ h
    simpa using h)

structure TextContent (S : Type) where
  after : Option (TextId S)
  character : Char
  deriving DecidableEq

structure TextEntry (S V : Type) where
  content : Option (TextContent S)
  deletedAt : Option S
  attrs : List (String × (Option V × S))
  deriving DecidableEq

structure Text (S V : Type) where
  entries : List (TextId S × TextEntry S V)
  deriving DecidableEq

inductive TextOp (S V : Type) where
  | insert (after : Option (TextId S)) (text : String)
  | delete (ids : List (TextId S))
  | format (ids : List (TextId S)) (key : String) (value : Option V)
  deriving DecidableEq

/-- The errors of `apply` and `merge`; a format operation names its characters explicitly. -/
inductive TextError (S : Type) where
  | zeroClock
  | zeroId
  | selfAnchor
  | tooLong
  | insertConflict (id : TextId S)
  deriving DecidableEq

namespace Text

/-- The character that the one at `offset` of an insert stands behind. -/
def anchor (after : Option (TextId S)) (stamp : S) (offset : Nat) : Option (TextId S) :=
  if offset = 0 then after else some ⟨stamp, offset-1⟩

/-- A known character of the same insert operation that differs from what is inserted. -/
def conflicts (after : Option (TextId S)) (characters : List Char) (stamp : S)
    (e : TextId S × TextEntry S V) : Bool :=
  e.1.stamp = stamp && e.2.content.any fun content =>
    e.1.offset ≥ characters.length || content.after ≠ anchor after stamp e.1.offset ||
      some content.character ≠ characters[e.1.offset]?

/-- Writes the content of a character that is new or only has a placeholder. -/
def writeChar (after : Option (TextId S)) (characters : List Char) (id : TextId S)
    (entry : Option (TextEntry S V)) : Option (TextEntry S V) :=
  match characters[id.offset]? with
  | none => none
  | some character =>
    let content := some ⟨anchor after id.stamp id.offset, character⟩
    match entry with
    | none => some ⟨content, none, []⟩
    | some entry => if entry.content.isNone then some {entry with content := content} else none

/-- A placeholder stands for a character that is deleted before it is known. -/
def deleteChar (stamp : S) (id : TextId S) (entry : Option (TextEntry S V)) :
    Option (TextEntry S V) :=
  if stamp ≤ id.stamp then none
  else
    match entry with
    | none => some ⟨none, some stamp, []⟩
    | some entry =>
      let clock := mergeClock entry.deletedAt (some stamp)
      if clock.2 then some {entry with deletedAt := clock.1} else none

/-- An attribute that is removed stays as `none` with the stamp of its removal. -/
def formatChar (stamp : S) (key : String) (value : Option V) (entry : Option (TextEntry S V)) :
    Option (TextEntry S V) :=
  let entry := entry.getD ⟨none, none, []⟩
  match get entry.attrs key with
  | some (_, existing) =>
    if existing < stamp then some {entry with attrs := SortedMap.insert entry.attrs key (value, stamp)}
    else none
  | none => some {entry with attrs := SortedMap.insert entry.attrs key (value, stamp)}

def apply [Inhabited S] (t : Text S V) (op : TextOp S V) (stamp : S) :
    Text S V × Except (TextError S) Bool :=
  if stamp = default then (t, .error .zeroClock)
  else
    match op with
    | .insert after text =>
      if after.any (·.stamp = default) then (t, .error .zeroId)
      else if after.any (·.stamp = stamp) then (t, .error .selfAnchor)
      else if 2^32 ≤ text.toList.length then (t, .error .tooLong)
      else
        match t.entries.find? (conflicts after text.toList stamp) with
        | some e => (t, .error (.insertConflict e.1))
        | none =>
          let r := updateAll (writeChar after text.toList) t.entries
            ((List.range text.toList.length).map fun offset => ⟨stamp, offset⟩)
          (⟨r.1⟩, .ok r.2)
    | .delete ids =>
      if ids.any (·.stamp = default) then (t, .error .zeroId)
      else
        let r := updateAll (deleteChar stamp) t.entries ids
        (⟨r.1⟩, .ok r.2)
    | .format ids key value =>
      if ids.any (·.stamp = default) then (t, .error .zeroId)
      else
        let r := updateAll (fun _ => formatChar stamp key value) t.entries ids
        (⟨r.1⟩, .ok r.2)

/-- A later attribute of the remote entry replaces the local one. -/
def mergeAttr (l r : Option V × S) : (Option V × S) × Bool :=
  if r.2 ≤ l.2 then (l, false) else (r, true)

def mergeEntry (l r : TextEntry S V) : TextEntry S V × Bool :=
  let clock := mergeClock l.deletedAt r.deletedAt
  let attrs := mergeTotal mergeAttr l.attrs r.attrs
  (⟨l.content.or r.content, clock.1, attrs.1⟩,
    (l.content.isNone && r.content.isSome) || clock.2 || attrs.2)

/-- An entry of the remote text whose content differs from the local one. -/
def mergeConflicts (t : Text S V) (e : TextId S × TextEntry S V) : Bool :=
  match get t.entries e.1 with
  | none => false
  | some entry =>
    match entry.content, e.2.content with
    | some l, some r => l ≠ r
    | _, _ => false

/-- All conflicts are looked for before anything is written. -/
def merge (t remote : Text S V) : Text S V × Except (TextError S) Bool :=
  match remote.entries.find? (mergeConflicts t) with
  | some e => (t, .error (.insertConflict e.1))
  | none =>
    let r := mergeTotal mergeEntry t.entries remote.entries
    (⟨r.1⟩, .ok r.2)

def maxStamp [Inhabited S] (t : Text S V) : S :=
  maxOf (t.entries.map fun e =>
    max (max e.1.stamp (e.2.deletedAt.getD default)) (maxOf (e.2.attrs.map (·.2.2))))

end Text

end Text

end ZenDB.Crdt
