import ZenDB.Crdt.Value

namespace ZenDB.Crdt

open SortedMap

variable {P : Type}

abbrev RowCell (P : Type) := Cell (EventStamp P) (Value P)

abbrev RowEntry (P : Type) := ListEntry (EventStamp P) (Value P)

inductive RecordError (E : Type) where
  | child (error : E)

inductive ListError (S E : Type) where
  | zeroId
  | child (error : E)
  | positionConflict (id : S) (localAfter remoteAfter : Option S)

/-- The errors of types whose methods can fail. -/
inductive TypeError (P : Type) where
  | counter (error : CounterError)
  | mvRegister (error : MvRegisterError (EventStamp P))
  | priorityQueue (error : PqError (EventStamp P))
  | text (error : TextError (EventStamp P))
  | record (error : RecordError (TypeError P))
  | list (error : ListError (EventStamp P) (TypeError P))
  | typeMismatch (expected actual : TypeTag)
  | mergeConflict (current incoming : TypeTag)

inductive ListOp (P : Type) where
  | insert (after : Option (EventStamp P)) (value : Value P)
  | delete (id : EventStamp P)

/-- The operations of the types that have some; those of scalars and records are empty. -/
inductive TypeOp (P : Type) where
  | counter (op : CounterOp)
  | mvRegister (op : MvRegisterOp (EventStamp P) (Value P))
  | orSet (op : OrSetOp (PrimaryKey P) (EventStamp P))
  | priorityQueue (op : PqOp (EventStamp P) (Value P))
  | set (op : SetOp (PrimaryKey P))
  | text (op : TextOp (EventStamp P) (Value P))
  | list (op : ListOp P)

inductive Op (P : Type) where
  | type (op : TypeOp P)
  | delete
  | upsert (value : Value P)
  | merge (cell : RowCell P)

inductive Segment (P : Type) where
  | record (field : String)
  | list (id : EventStamp P)
  deriving DecidableEq

structure Event (P : Type) where
  primaryKey : PrimaryKey P
  path : List (Segment P)
  op : Op P
  stamp : EventStamp P

structure MergeStamps (P : Type) where
  current : EventStamp P
  incoming : EventStamp P

def TypeTag.emptyValue : TypeTag → Value P
  | .bool => .scalar (.bool false)
  | .int => .scalar (.int 0)
  | .string => .scalar (.string "")
  | .timestamp => .scalar (.timestamp 0)
  | .blob => .scalar (.blob [])
  | .float32 => .scalar (.float32 0)
  | .float64 => .scalar (.float64 0)
  | .counter => .counter ⟨[]⟩
  | .mvRegister => .mvRegister ⟨[], []⟩
  | .orSet => .orSet ⟨[]⟩
  | .priorityQueue => .priorityQueue ⟨[]⟩
  | .set => .set ⟨[]⟩
  | .text => .text ⟨[]⟩
  | .record => .record []
  | .list => .list []

def TypeOp.typeTag : TypeOp P → TypeTag
  | .counter _ => .counter
  | .mvRegister _ => .mvRegister
  | .orSet _ => .orSet
  | .priorityQueue _ => .priorityQueue
  | .set _ => .set
  | .text _ => .text
  | .list _ => .list

namespace Cell

def typeTag (c : RowCell P) : Option TypeTag := c.value.map Value.typeTag

/-- A cell that was never written. -/
def dummy [Inhabited P] (value : Option (Value P)) : RowCell P := ⟨value, default⟩

end Cell

def Op.typeTag : Op P → Option TypeTag
  | .type op => some op.typeTag
  | .upsert value => some value.typeTag
  | .merge cell => cell.typeTag
  | .delete => none

def Segment.typeTag : Segment P → TypeTag
  | .record _ => .record
  | .list _ => .list

namespace ListPosition

variable {S : Type}

def known : Option S → ListPosition S
  | none => .head
  | some id => .after id

def after? : ListPosition S → Option (Option S)
  | .unknown => none
  | .head => some none
  | .after id => some (some id)

end ListPosition

/-- An element keeps its first known position. -/
def resolvePosition [DecidableEq P] (entry : RowEntry P) (id : EventStamp P)
    (after : Option (EventStamp P)) :
    RowEntry P × Except (ListError (EventStamp P) (TypeError P)) Bool :=
  if entry.position = .unknown then ({entry with position := .known after}, .ok true)
  else if entry.position ≠ .known after then
    (entry, .error (.positionConflict id entry.position.after?.join after))
  else (entry, .ok false)

/-- A merge takes over a position that the remote entry knows. -/
def adoptPosition [DecidableEq P] (entry : RowEntry P) (id : EventStamp P)
    (remote : ListPosition (EventStamp P)) :
    RowEntry P × Except (ListError (EventStamp P) (TypeError P)) Bool :=
  match remote.after? with
  | none => (entry, .ok false)
  | some after => resolvePosition entry id after

section Stamps

variable [LinearOrder P] [Inhabited P]

mutual

def Value.maxStamp : Value P → EventStamp P
  | .scalar _ => default
  | .counter _ => default
  | .mvRegister r => r.maxStamp
  | .orSet o => o.maxStamp
  | .priorityQueue q => q.maxStamp
  | .set s => s.maxStamp
  | .text t => t.maxStamp
  | .record fields => maxStampFields fields
  | .list entries => maxStampEntries entries
termination_by structural v => v

def Cell.maxStamp : RowCell P → EventStamp P
  | ⟨none, stamp⟩ => stamp
  | ⟨some value, stamp⟩ => max stamp value.maxStamp
termination_by structural c => c

def maxStampFields : List (String × RowCell P) → EventStamp P
  | [] => default
  | (_, c) :: fields => max c.maxStamp (maxStampFields fields)
termination_by structural fields => fields

def maxStampEntries : List (EventStamp P × RowEntry P) → EventStamp P
  | [] => default
  | (_, ⟨_, c⟩) :: entries => max c.maxStamp (maxStampEntries entries)
termination_by structural entries => entries

end

end Stamps

section Merge

variable [LinearOrder P]

mutual

def Value.merge (current incoming : Value P) (stamps : MergeStamps P) :
    Value P × Except (TypeError P) Bool :=
  match current, incoming with
  | .scalar a, .scalar b =>
    if a.typeTag ≠ b.typeTag then (.scalar a, .error (.mergeConflict a.typeTag b.typeTag))
    else if stamps.current < stamps.incoming then (.scalar b, .ok true)
    else (.scalar a, .ok false)
  | .counter a, .counter b => (.counter (a.merge b).1, .ok (a.merge b).2)
  | .mvRegister a, .mvRegister b => (.mvRegister (a.merge b).1, (a.merge b).2.mapError .mvRegister)
  | .orSet a, .orSet b => (.orSet (a.merge b).1, .ok (a.merge b).2)
  | .priorityQueue a, .priorityQueue b =>
    (.priorityQueue (a.merge b).1, (a.merge b).2.mapError .priorityQueue)
  | .set a, .set b => (.set (a.merge b).1, .ok (a.merge b).2)
  | .text a, .text b => (.text (a.merge b).1, (a.merge b).2.mapError .text)
  | .record a, .record b => (.record (mergeFields a b false).1, (mergeFields a b false).2)
  | .list a, .list b => (.list (mergeEntries a b false).1, (mergeEntries a b false).2)
  | current, incoming => (current, .error (.mergeConflict current.typeTag incoming.typeTag))
termination_by structural incoming

/-- Tombstones and values of another type are replaced by the later cell, values of the same type
are merged. -/
def Cell.merge (c incoming : RowCell P) (stamps : MergeStamps P) :
    RowCell P × Except (TypeError P) Bool :=
  match c, incoming with
  | ⟨some current, stamp⟩, ⟨some value, stamp'⟩ =>
    if current.typeTag ≠ value.typeTag then
      if stamps.current < stamps.incoming then (⟨some value, stamp'⟩, .ok true)
      else (⟨some current, stamp⟩, .ok false)
    else
      match current.merge value stamps with
      | (v, .error e) => (⟨some v, stamp⟩, .error e)
      | (v, .ok changed) =>
        if stamps.current < stamps.incoming then (⟨some v, stamp'⟩, .ok true)
        else (⟨some v, stamp⟩, .ok changed)
  | c, incoming => if stamps.current < stamps.incoming then (incoming, .ok true) else (c, .ok false)
termination_by structural incoming

/-- `Record::merge`: the loop over the remote fields. -/
def mergeFields (fields : List (String × RowCell P)) : List (String × RowCell P) → Bool →
    List (String × RowCell P) × Except (TypeError P) Bool
  | [], changed => (fields, .ok changed)
  | (field, remote) :: rest, changed =>
    match get fields field with
    | some c =>
      match c.merge remote ⟨c.stamp, remote.stamp⟩ with
      | (c', .ok d) => mergeFields (SortedMap.insert fields field c') rest (changed || d)
      | (c', .error e) => (SortedMap.insert fields field c', .error (.record (.child e)))
    | none => mergeFields (SortedMap.insert fields field remote) rest true
termination_by structural remote => remote

/-- `List::merge`: the loop over the remote entries. -/
def mergeEntries (entries : List (EventStamp P × RowEntry P)) :
    List (EventStamp P × RowEntry P) → Bool →
    List (EventStamp P × RowEntry P) × Except (TypeError P) Bool
  | [], changed => (entries, .ok changed)
  | (id, ⟨position, remote⟩) :: rest, changed =>
    match get entries id with
    | some entry =>
      match adoptPosition entry id position with
      | (entry', .error e) => (SortedMap.insert entries id entry', .error (.list e))
      | (entry', .ok positioned) =>
        match entry'.cell.merge remote ⟨entry'.cell.stamp, remote.stamp⟩ with
        | (c, .ok d) =>
          mergeEntries (SortedMap.insert entries id ⟨entry'.position, c⟩) rest
            (changed || (positioned || d))
        | (c, .error e) =>
          (SortedMap.insert entries id ⟨entry'.position, c⟩, .error (.list (.child e)))
    | none => mergeEntries (SortedMap.insert entries id ⟨position, remote⟩) rest true
termination_by structural remote => remote

end

namespace Cell

/-- A merge with the cells' own stamps, as every caller makes it. -/
def join (c incoming : RowCell P) : RowCell P × Except (TypeError P) Bool :=
  c.merge incoming ⟨c.stamp, incoming.stamp⟩

end Cell

/-- The body of the loop in `mergeFields`. -/
def mergeField (_ : String) (c remote : RowCell P) : RowCell P × Except (TypeError P) Bool :=
  ((c.join remote).1, (c.join remote).2.mapError fun e => .record (.child e))

/-- The body of the loop in `mergeEntries`. -/
def mergeEntry (id : EventStamp P) (entry remote : RowEntry P) :
    RowEntry P × Except (TypeError P) Bool :=
  match adoptPosition entry id remote.position with
  | (entry', .error e) => (entry', .error (.list e))
  | (entry', .ok positioned) =>
    (⟨entry'.position, (entry'.cell.join remote.cell).1⟩,
      (entry'.cell.join remote.cell).2.map (positioned || ·) |>.mapError fun e => .list (.child e))

theorem mergeFields_eq (fields remote : List (String × RowCell P)) (changed : Bool) :
    mergeFields fields remote changed = mergeMap mergeField fields remote changed := by
  induction remote generalizing fields changed with
  | nil => rfl
  | cons e rest ih =>
    obtain ⟨field, remote⟩ := e
    rw [mergeFields, mergeMap]
    cases get fields field with
    | none => exact ih _ _
    | some c =>
      simp only [mergeField, Cell.join]
      rcases c.merge remote ⟨c.stamp, remote.stamp⟩ with ⟨c', d | d⟩
      · rfl
      · exact ih _ _

theorem mergeEntries_eq (entries remote : List (EventStamp P × RowEntry P)) (changed : Bool) :
    mergeEntries entries remote changed = mergeMap mergeEntry entries remote changed := by
  induction remote generalizing entries changed with
  | nil => rfl
  | cons e rest ih =>
    obtain ⟨id, position, remote⟩ := e
    rw [mergeEntries, mergeMap]
    cases get entries id with
    | none => exact ih _ _
    | some entry =>
      simp only [mergeEntry, Cell.join]
      rcases adoptPosition entry id position with ⟨entry', e | positioned⟩
      · rfl
      · dsimp only
        rcases entry'.cell.merge remote ⟨entry'.cell.stamp, remote.stamp⟩ with ⟨c, e | d⟩
        · rfl
        · exact ih _ _

end Merge

section Apply

variable [LinearOrder P] [Inhabited P]

/-- `List::apply` on the entries of a list. -/
def ListOp.apply (entries : List (EventStamp P × RowEntry P)) (op : ListOp P) (stamp : EventStamp P) :
    List (EventStamp P × RowEntry P) × Except (ListError (EventStamp P) (TypeError P)) Bool :=
  match op with
  | .insert after value =>
    if stamp = default then (entries, .error .zeroId)
    else
      match get entries stamp with
      | none => (SortedMap.insert entries stamp ⟨.known after, ⟨some value, stamp⟩⟩, .ok true)
      | some entry =>
        match resolvePosition entry stamp after with
        | (entry', .error e) => (SortedMap.insert entries stamp entry', .error e)
        | (entry', .ok positioned) =>
          let r := entry'.cell.join ⟨some value, stamp⟩
          (SortedMap.insert entries stamp ⟨entry'.position, r.1⟩,
            r.2.map (· || positioned) |>.mapError .child)
  | .delete id =>
    if id = default then (entries, .error .zeroId)
    else
      match get entries id with
      | none => (SortedMap.insert entries id ⟨.unknown, ⟨none, stamp⟩⟩, .ok true)
      | some entry =>
        let r := entry.cell.join ⟨none, stamp⟩
        (SortedMap.insert entries id ⟨entry.position, r.1⟩, r.2.mapError .child)

/-- The incoming stamp is all that the types use of the stamps. -/
def Value.apply (value : Value P) (op : TypeOp P) (stamp : EventStamp P) :
    Value P × Except (TypeError P) Bool :=
  match value, op with
  | .counter c, .counter op =>
    let r := c.apply op stamp.id.peerId
    (.counter r.1, r.2.mapError .counter)
  | .mvRegister m, .mvRegister op =>
    let r := m.apply op stamp
    (.mvRegister r.1, r.2.mapError .mvRegister)
  | .orSet o, .orSet op =>
    let r := o.apply op stamp
    (.orSet r.1, .ok r.2)
  | .priorityQueue q, .priorityQueue op =>
    let r := q.apply op stamp
    (.priorityQueue r.1, r.2.mapError .priorityQueue)
  | .set s, .set op =>
    let r := s.apply op stamp
    (.set r.1, .ok r.2)
  | .text t, .text op =>
    let r := t.apply op stamp
    (.text r.1, r.2.mapError .text)
  | .list entries, .list op =>
    let r := op.apply entries stamp
    (.list r.1, r.2.mapError .list)
  | value, op => (value, .error (.typeMismatch value.typeTag op.typeTag))

namespace Cell

/-- A cell of another type is emptied, if the operation is later than everything in it. -/
def ensureType (c : RowCell P) (expected : TypeTag) (incoming : EventStamp P) : RowCell P × Bool :=
  if c.typeTag = some expected then (c, true)
  else if c.maxStamp < incoming then (⟨some expected.emptyValue, incoming⟩, true)
  else (c, false)

def applyType (c : RowCell P) (op : TypeOp P) (incoming : EventStamp P) :
    RowCell P × Except (TypeError P) Bool :=
  match c.ensureType op.typeTag incoming with
  | (⟨some value, stamp⟩, true) =>
    match value.apply op incoming with
    | (v, .ok changed) => (⟨some v, if changed then max stamp incoming else stamp⟩, .ok changed)
    | (v, .error e) => (⟨some v, stamp⟩, .error e)
  | (c', _) => (c', .ok false)

def apply (c : RowCell P) (op : Op P) (incoming : EventStamp P) :
    RowCell P × Except (TypeError P) Bool :=
  match op with
  | .type op => c.applyType op incoming
  | .delete => if incoming ≤ c.stamp then (c, .ok false) else (⟨none, incoming⟩, .ok true)
  | .upsert value =>
    if incoming ≤ c.stamp then (c, .ok false) else (⟨some value, incoming⟩, .ok true)
  | .merge cell => c.join cell

/-- The cell of a child that is visited for the first time. -/
def newChild (childTag : Option TypeTag) : RowCell P := dummy (childTag.map TypeTag.emptyValue)

/-- The descent into a child: it is created and made of the type that the walk needs, then `walk`
goes on in it. -/
def enter (child : Option (RowCell P)) (childTag : Option TypeTag) (incoming : EventStamp P)
    (walk : RowCell P → RowCell P × Except (TypeError P) Bool) :
    RowCell P × Except (TypeError P) Bool :=
  let child := child.getD (newChild childTag)
  match childTag with
  | none => walk child
  | some tag =>
    match child.ensureType tag incoming with
    | (child', true) => walk child'
    | (child', false) => (child', .ok false)

/-- The type that the rest of the walk needs of a child. -/
def childTag (op : Op P) (path : List (Segment P)) : Option TypeTag :=
  (path.head?.map Segment.typeTag).or op.typeTag

def applyWalk (op : Op P) (incoming : EventStamp P) :
    List (Segment P) → RowCell P → RowCell P × Except (TypeError P) Bool
  | [], c => c.apply op incoming
  | segment :: path, c =>
    match c.ensureType segment.typeTag incoming, segment with
    | (⟨some (.record fields), stamp⟩, true), .record field =>
      let r := enter (get fields field) (childTag op path) incoming (applyWalk op incoming path)
      (⟨some (.record (SortedMap.insert fields field r.1)), stamp⟩,
        r.2.mapError fun e => .record (.child e))
    | (⟨some (.list entries), stamp⟩, true), .list id =>
      if id = default then (⟨some (.list entries), stamp⟩, .error (.list .zeroId))
      else
        let entry := get entries id
        let r := enter (entry.map (·.cell)) (childTag op path) incoming (applyWalk op incoming path)
        let position := (entry.map (·.position)).getD .unknown
        (⟨some (.list (SortedMap.insert entries id ⟨position, r.1⟩)), stamp⟩,
          r.2.mapError fun e => .list (.child e))
    | (c', _), _ => (c', .ok false)

end Cell

end Apply

end ZenDB.Crdt
