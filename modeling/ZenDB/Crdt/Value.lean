import ZenDB.Crdt.Leaf

namespace ZenDB.Crdt

/-- `some` is live data; `none` is a tombstone. -/
structure Cell (S V : Type) where
  value : Option V
  stamp : S
  deriving DecidableEq

inductive ListPosition (S : Type) where
  | unknown
  | head
  | after (id : S)
  deriving DecidableEq

structure ListEntry (S V : Type) where
  position : ListPosition S
  cell : Cell S V
  deriving DecidableEq

inductive TypeTag where
  | bool | int | string | timestamp | blob | float32 | float64
  | counter | mvRegister | orSet | priorityQueue | set | text
  | record | list
  deriving DecidableEq, Repr

/-- The last-writer-wins scalars; floats are kept as their bit patterns. -/
inductive Scalar where
  | bool (b : Bool)
  | int (i : Int)
  | string (s : String)
  | timestamp (ms : Nat)
  | blob (b : Bytes)
  | float32 (bits : UInt32)
  | float64 (bits : UInt64)
  deriving DecidableEq

def Scalar.typeTag : Scalar → TypeTag
  | .bool _ => .bool
  | .int _ => .int
  | .string _ => .string
  | .timestamp _ => .timestamp
  | .blob _ => .blob
  | .float32 _ => .float32
  | .float64 _ => .float64

/-- The types that are written as a whole. -/
def TypeTag.isScalar : TypeTag → Bool
  | .bool | .int | .string | .timestamp | .blob | .float32 | .float64 => true
  | _ => false

theorem Scalar.isScalar_typeTag (s : Scalar) : s.typeTag.isScalar = true := by cases s <;> rfl

inductive Value (P : Type) where
  | scalar (s : Scalar)
  | counter (c : Counter P)
  | mvRegister (r : MvRegister (EventStamp P) (Value P))
  | orSet (o : OrSet (PrimaryKey P) (EventStamp P))
  | priorityQueue (q : PriorityQueue (EventStamp P) (Value P))
  | set (s : LwwSet (PrimaryKey P) (EventStamp P))
  | text (t : Text (EventStamp P) (Value P))
  | record (fields : List (String × Cell (EventStamp P) (Value P)))
  | list (entries : List (EventStamp P × ListEntry (EventStamp P) (Value P)))

variable {P : Type}

section Equality

variable [DecidableEq P]

mutual

/-- The derived equality of values, by recursion over everything that holds a value. -/
def Value.beq : Value P → Value P → Bool
  | .scalar a, .scalar b => a == b
  | .counter a, .counter b => a == b
  | .mvRegister a, .mvRegister b => beqRegister a b
  | .orSet a, .orSet b => a == b
  | .priorityQueue a, .priorityQueue b => beqQueue a b
  | .set a, .set b => a == b
  | .text a, .text b => beqText a b
  | .record a, .record b => beqFields a b
  | .list a, .list b => beqList a b
  | _, _ => false
termination_by structural a => a

def beqRegister : MvRegister (EventStamp P) (Value P) → MvRegister (EventStamp P) (Value P) → Bool
  | ⟨a, r⟩, ⟨b, r'⟩ => beqValues a b && r == r'
termination_by structural a => a

def beqQueue : PriorityQueue (EventStamp P) (Value P) → PriorityQueue (EventStamp P) (Value P) → Bool
  | ⟨a⟩, ⟨b⟩ => beqPqEntries a b
termination_by structural a => a

def beqText : Text (EventStamp P) (Value P) → Text (EventStamp P) (Value P) → Bool
  | ⟨a⟩, ⟨b⟩ => beqTextEntries a b
termination_by structural a => a

def beqOption : Option (Value P) → Option (Value P) → Bool
  | none, none => true
  | some a, some b => a.beq b
  | _, _ => false
termination_by structural a => a

def beqCell : Cell (EventStamp P) (Value P) → Cell (EventStamp P) (Value P) → Bool
  | ⟨a, s⟩, ⟨b, s'⟩ => beqOption a b && s == s'
termination_by structural a => a

def beqValues : List (EventStamp P × Value P) → List (EventStamp P × Value P) → Bool
  | [], [] => true
  | (k, a) :: l, (k', b) :: l' => k == k' && a.beq b && beqValues l l'
  | _, _ => false
termination_by structural a => a

def beqPqEntry : PqEntry (EventStamp P) (Value P) → PqEntry (EventStamp P) (Value P) → Bool
  | .pendingPop a, .pendingPop b => a == b
  | .present p a d, .present p' b d' => p == p' && a.beq b && d == d'
  | _, _ => false
termination_by structural a => a

def beqPqEntries : List (EventStamp P × PqEntry (EventStamp P) (Value P)) →
    List (EventStamp P × PqEntry (EventStamp P) (Value P)) → Bool
  | [], [] => true
  | (k, a) :: l, (k', b) :: l' => k == k' && beqPqEntry a b && beqPqEntries l l'
  | _, _ => false
termination_by structural a => a

def beqAttrs : List (String × (Option (Value P) × EventStamp P)) →
    List (String × (Option (Value P) × EventStamp P)) → Bool
  | [], [] => true
  | (k, (a, s)) :: l, (k', (b, s')) :: l' => k == k' && beqOption a b && s == s' && beqAttrs l l'
  | _, _ => false
termination_by structural a => a

def beqTextEntry : TextEntry (EventStamp P) (Value P) → TextEntry (EventStamp P) (Value P) → Bool
  | ⟨c, d, a⟩, ⟨c', d', b⟩ => c == c' && d == d' && beqAttrs a b
termination_by structural a => a

def beqTextEntries : List (TextId (EventStamp P) × TextEntry (EventStamp P) (Value P)) →
    List (TextId (EventStamp P) × TextEntry (EventStamp P) (Value P)) → Bool
  | [], [] => true
  | (k, a) :: l, (k', b) :: l' => k == k' && beqTextEntry a b && beqTextEntries l l'
  | _, _ => false
termination_by structural a => a

def beqFields : List (String × Cell (EventStamp P) (Value P)) →
    List (String × Cell (EventStamp P) (Value P)) → Bool
  | [], [] => true
  | (k, a) :: l, (k', b) :: l' => k == k' && beqCell a b && beqFields l l'
  | _, _ => false
termination_by structural a => a

def beqListEntry : ListEntry (EventStamp P) (Value P) → ListEntry (EventStamp P) (Value P) → Bool
  | ⟨p, a⟩, ⟨p', b⟩ => p == p' && beqCell a b
termination_by structural a => a

def beqList : List (EventStamp P × ListEntry (EventStamp P) (Value P)) →
    List (EventStamp P × ListEntry (EventStamp P) (Value P)) → Bool
  | [], [] => true
  | (k, a) :: l, (k', b) :: l' => k == k' && beqListEntry a b && beqList l l'
  | _, _ => false
termination_by structural a => a
end

mutual

theorem Value.beq_iff : ∀ a b : Value P, a.beq b = true ↔ a = b
  | .scalar a, b => by cases b <;> simp [Value.beq]
  | .counter a, b => by cases b <;> simp [Value.beq]
  | .mvRegister a, b => by cases b <;> simp [Value.beq, beqRegister_iff a]
  | .orSet a, b => by cases b <;> simp [Value.beq]
  | .priorityQueue a, b => by cases b <;> simp [Value.beq, beqQueue_iff a]
  | .set a, b => by cases b <;> simp [Value.beq]
  | .text a, b => by cases b <;> simp [Value.beq, beqText_iff a]
  | .record a, b => by cases b <;> simp [Value.beq, beqFields_iff a]
  | .list a, b => by cases b <;> simp [Value.beq, beqList_iff a]
termination_by structural a => a

theorem beqRegister_iff : ∀ a b : MvRegister (EventStamp P) (Value P),
    beqRegister a b = true ↔ a = b
  | ⟨a, r⟩, ⟨b, r'⟩ => by simp [beqRegister, beqValues_iff a]
termination_by structural a => a

theorem beqQueue_iff : ∀ a b : PriorityQueue (EventStamp P) (Value P), beqQueue a b = true ↔ a = b
  | ⟨a⟩, ⟨b⟩ => by simp [beqQueue, beqPqEntries_iff a]
termination_by structural a => a

theorem beqText_iff : ∀ a b : Text (EventStamp P) (Value P), beqText a b = true ↔ a = b
  | ⟨a⟩, ⟨b⟩ => by simp [beqText, beqTextEntries_iff a]
termination_by structural a => a

theorem beqOption_iff : ∀ a b : Option (Value P), beqOption a b = true ↔ a = b
  | none, b => by cases b <;> simp [beqOption]
  | some a, b => by cases b <;> simp [beqOption, a.beq_iff]
termination_by structural a => a

theorem beqCell_iff : ∀ a b : Cell (EventStamp P) (Value P), beqCell a b = true ↔ a = b
  | ⟨a, s⟩, ⟨b, s'⟩ => by simp [beqCell, beqOption_iff a]
termination_by structural a => a

theorem beqValues_iff : ∀ a b : List (EventStamp P × Value P), beqValues a b = true ↔ a = b
  | [], b => by cases b <;> simp [beqValues]
  | (k, a) :: l, b => by
    cases b <;> simp [beqValues, a.beq_iff, beqValues_iff l, Prod.ext_iff]
termination_by structural a => a

theorem beqPqEntry_iff : ∀ a b : PqEntry (EventStamp P) (Value P), beqPqEntry a b = true ↔ a = b
  | .pendingPop a, b => by cases b <;> simp [beqPqEntry]
  | .present p a d, b => by cases b <;> simp [beqPqEntry, a.beq_iff, and_assoc]
termination_by structural a => a

theorem beqPqEntries_iff : ∀ a b : List (EventStamp P × PqEntry (EventStamp P) (Value P)),
    beqPqEntries a b = true ↔ a = b
  | [], b => by cases b <;> simp [beqPqEntries]
  | (k, a) :: l, b => by
    cases b <;> simp [beqPqEntries, beqPqEntry_iff a, beqPqEntries_iff l, Prod.ext_iff]
termination_by structural a => a

theorem beqAttrs_iff : ∀ a b : List (String × (Option (Value P) × EventStamp P)),
    beqAttrs a b = true ↔ a = b
  | [], b => by cases b <;> simp [beqAttrs]
  | (k, (a, s)) :: l, b => by
    cases b <;> simp [beqAttrs, beqOption_iff a, beqAttrs_iff l, Prod.ext_iff, and_assoc]
termination_by structural a => a

theorem beqTextEntry_iff : ∀ a b : TextEntry (EventStamp P) (Value P),
    beqTextEntry a b = true ↔ a = b
  | ⟨c, d, a⟩, ⟨c', d', b⟩ => by simp [beqTextEntry, beqAttrs_iff a, and_assoc]
termination_by structural a => a

theorem beqTextEntries_iff : ∀ a b : List (TextId (EventStamp P) × TextEntry (EventStamp P) (Value P)),
    beqTextEntries a b = true ↔ a = b
  | [], b => by cases b <;> simp [beqTextEntries]
  | (k, a) :: l, b => by
    cases b <;> simp [beqTextEntries, beqTextEntry_iff a, beqTextEntries_iff l, Prod.ext_iff]
termination_by structural a => a

theorem beqFields_iff : ∀ a b : List (String × Cell (EventStamp P) (Value P)),
    beqFields a b = true ↔ a = b
  | [], b => by cases b <;> simp [beqFields]
  | (k, a) :: l, b => by
    cases b <;> simp [beqFields, beqCell_iff a, beqFields_iff l, Prod.ext_iff]
termination_by structural a => a

theorem beqListEntry_iff : ∀ a b : ListEntry (EventStamp P) (Value P),
    beqListEntry a b = true ↔ a = b
  | ⟨p, a⟩, ⟨p', b⟩ => by simp [beqListEntry, beqCell_iff a]
termination_by structural a => a

theorem beqList_iff : ∀ a b : List (EventStamp P × ListEntry (EventStamp P) (Value P)),
    beqList a b = true ↔ a = b
  | [], b => by cases b <;> simp [beqList]
  | (k, a) :: l, b => by
    cases b <;> simp [beqList, beqListEntry_iff a, beqList_iff l, Prod.ext_iff]
termination_by structural a => a

end

instance : DecidableEq (Value P) := fun a b => decidable_of_iff _ (a.beq_iff b)

end Equality

namespace Value

def typeTag : Value P → TypeTag
  | .scalar s => s.typeTag
  | .counter _ => .counter
  | .mvRegister _ => .mvRegister
  | .orSet _ => .orSet
  | .priorityQueue _ => .priorityQueue
  | .set _ => .set
  | .text _ => .text
  | .record _ => .record
  | .list _ => .list

/-- The values that the code merges as a whole. -/
def isLeaf : Value P → Bool
  | .record _ => false
  | .list _ => false
  | _ => true

/-- Cases on two values of one type. -/
theorem sameTagCases {motive : ∀ v r : Value P, v.typeTag = r.typeTag → Prop}
    (scalar : ∀ (a b : Scalar) (h : a.typeTag = b.typeTag), motive (.scalar a) (.scalar b) h)
    (counter : ∀ a b, motive (.counter a) (.counter b) rfl)
    (mvRegister : ∀ a b, motive (.mvRegister a) (.mvRegister b) rfl)
    (orSet : ∀ a b, motive (.orSet a) (.orSet b) rfl)
    (priorityQueue : ∀ a b, motive (.priorityQueue a) (.priorityQueue b) rfl)
    (set : ∀ a b, motive (.set a) (.set b) rfl) (text : ∀ a b, motive (.text a) (.text b) rfl)
    (record : ∀ a b, motive (.record a) (.record b) rfl)
    (list : ∀ a b, motive (.list a) (.list b) rfl) (v r : Value P) (h : v.typeTag = r.typeTag) :
    motive v r h := by
  have hscalar : ∀ s : Scalar, ∀ tag : TypeTag, s.typeTag = tag → tag.isScalar = true := by
    rintro s tag rfl
    exact s.isScalar_typeTag
  cases v with
  | scalar a =>
    cases r with
    | scalar b => exact scalar a b h
    | _ => cases hscalar a _ h
  | counter a =>
    cases r with
    | scalar b => cases hscalar b _ h.symm
    | counter b => exact counter a b
    | _ => cases h
  | mvRegister a =>
    cases r with
    | scalar b => cases hscalar b _ h.symm
    | mvRegister b => exact mvRegister a b
    | _ => cases h
  | orSet a =>
    cases r with
    | scalar b => cases hscalar b _ h.symm
    | orSet b => exact orSet a b
    | _ => cases h
  | priorityQueue a =>
    cases r with
    | scalar b => cases hscalar b _ h.symm
    | priorityQueue b => exact priorityQueue a b
    | _ => cases h
  | set a =>
    cases r with
    | scalar b => cases hscalar b _ h.symm
    | set b => exact set a b
    | _ => cases h
  | text a =>
    cases r with
    | scalar b => cases hscalar b _ h.symm
    | text b => exact text a b
    | _ => cases h
  | record a =>
    cases r with
    | scalar b => cases hscalar b _ h.symm
    | record b => exact record a b
    | _ => cases h
  | list a =>
    cases r with
    | scalar b => cases hscalar b _ h.symm
    | list b => exact list a b
    | _ => cases h

theorem isLeaf_eq {v r : Value P} (h : v.typeTag = r.typeTag) : v.isLeaf = r.isLeaf := by
  induction v, r, h using sameTagCases <;> rfl

theorem eq_record {v : Value P} {fields : List (String × Cell (EventStamp P) (Value P))}
    (h : v.typeTag = (Value.record fields).typeTag) : ∃ fields', v = .record fields' := by
  cases v with
  | record fields' => exact ⟨fields', rfl⟩
  | scalar s => cases s <;> cases h
  | _ => cases h

theorem eq_list {v : Value P} {entries : List (EventStamp P × ListEntry (EventStamp P) (Value P))}
    (h : v.typeTag = (Value.list entries).typeTag) : ∃ entries', v = .list entries' := by
  cases v with
  | list entries' => exact ⟨entries', rfl⟩
  | scalar s => cases s <;> cases h
  | _ => cases h

section Induction

variable {motive : Value P → Prop} (leaf : ∀ v, v.isLeaf = true → motive v)
  (record : ∀ fields, (∀ e ∈ fields, ∀ v, e.2.value = some v → motive v) → motive (.record fields))
  (list : ∀ entries, (∀ e ∈ entries, ∀ v, e.2.cell.value = some v → motive v) →
    motive (.list entries))

include leaf record list

set_option linter.unusedSectionVars false in
mutual

/-- Induction over the containers of a value: the cells of records and lists. -/
theorem containerInduction : ∀ v, motive v
  | .scalar _ => leaf _ rfl
  | .counter _ => leaf _ rfl
  | .mvRegister _ => leaf _ rfl
  | .orSet _ => leaf _ rfl
  | .priorityQueue _ => leaf _ rfl
  | .set _ => leaf _ rfl
  | .text _ => leaf _ rfl
  | .record fields => record fields (fieldsInduction fields)
  | .list entries => list entries (entriesInduction entries)
termination_by structural v => v

theorem cellInduction :
    ∀ (c : Cell (EventStamp P) (Value P)) v, c.value = some v → motive v
  | ⟨none, _⟩, _, h => by cases h
  | ⟨some v, _⟩, _, h => by cases h; exact containerInduction v
termination_by structural c => c

theorem fieldsInduction : ∀ (fields : List (String × Cell (EventStamp P) (Value P))),
    ∀ e ∈ fields, ∀ v, e.2.value = some v → motive v
  | [], _, h => by cases h
  | (_, c) :: fields, e, h => by
    rcases List.mem_cons.mp h with rfl | h
    · exact cellInduction c
    · exact fieldsInduction fields e h
termination_by structural fields => fields

theorem entriesInduction :
    ∀ (entries : List (EventStamp P × ListEntry (EventStamp P) (Value P))),
    ∀ e ∈ entries, ∀ v, e.2.cell.value = some v → motive v
  | [], _, h => by cases h
  | (_, ⟨_, c⟩) :: entries, e, h => by
    rcases List.mem_cons.mp h with rfl | h
    · exact cellInduction c
    · exact entriesInduction entries e h
termination_by structural entries => entries

end

end Induction

end Value

end ZenDB.Crdt
