import ZenDB.Topic.Model

namespace ZenDB

/-- A consumer as its users see it: the offset it has committed and, while a handle is open, the
offset the handle reads next. -/
structure ConsumerSpec where
  committed : Nat
  reader : Option Nat
  deriving DecidableEq, Repr

/-- What a topic is for: a log of all records ever appended and consumers over it. -/
structure TopicSpec (Name T : Type) where
  log : List T
  consumers : AList (fun _ : Name => ConsumerSpec)

namespace Topic

variable {Name T : Type} [DecidableEq Name]

inductive Op (Name T : Type) where
  | append (value : T)
  | compact
  | register (name : Name)
  | next (name : Name)
  | commit (name : Name)
  | reset (name : Name)
  | drop (name : Name)
  | delete (name : Name)
  | reopen

/-- The consumer whose handle a call opens or uses. -/
def Op.consumer? : Op Name T → Option Name
  | .register name | .next name | .commit name | .reset name | .drop name | .delete name => some name
  | _ => none

/-- The record that a call leaves. -/
def Op.appended : Op Name T → List T
  | .append value => [value]
  | _ => []

/-- `refused` answers a second registration while a handle is open; it also answers calls there is
no handle to make on, and a close while handles are open. -/
inductive Ret (T : Type) where
  | done
  | refused
  | offset (n : Nat)
  | next (r : Next T)
  deriving DecidableEq, Repr

def step (tc : Codec T) (t : Topic Name) : Op Name T → Option (Topic Name × Ret T)
  | .append value => (t.append tc value).map fun r => (r.1, .offset r.2)
  | .compact => t.compact.map (·, .done)
  | .register name =>
    match t.consumer name with
    | some t' => some (t', .done)
    | none => some (t, .refused)
  | .next name =>
    if (t.readers.lookup name).isSome then (t.next tc name).map fun r => (r.1, .next r.2)
    else some (t, .refused)
  | .commit name =>
    if (t.readers.lookup name).isSome then (t.commit name).map (·, .done) else some (t, .refused)
  | .reset name =>
    if (t.readers.lookup name).isSome then (t.reset name).map (·, .done) else some (t, .refused)
  | .drop name =>
    if (t.readers.lookup name).isSome then (t.dropReader name).map (·, .done) else some (t, .refused)
  | .delete name =>
    if (t.readers.lookup name).isSome then some (t.delete name, .done) else some (t, .refused)
  | .reopen => if t.readers.entries = [] then t.reopen.map (·, .done) else some (t, .refused)

def run (tc : Codec T) (t : Topic Name) : List (Op Name T) → Option (Topic Name × List (Ret T))
  | [] => some (t, [])
  | op :: ops => do
    let (t, ret) ← t.step tc op
    let (t, rets) ← t.run tc ops
    return (t, ret :: rets)

end Topic

namespace TopicSpec

open Topic

variable {Name T : Type} [DecidableEq Name]

def setReader (s : TopicSpec Name T) (name : Name) (committed : Nat) (reader : Option Nat) :
    TopicSpec Name T :=
  {s with consumers := s.consumers.insert name ⟨committed, reader⟩}

/-- Runs `f` on the committed offset and the read offset of an open handle. -/
def withReader (s : TopicSpec Name T) (name : Name)
    (f : Nat → Nat → TopicSpec Name T × Ret T) : TopicSpec Name T × Ret T :=
  match s.consumers.lookup name with
  | some ⟨committed, some offset⟩ => f committed offset
  | _ => (s, .refused)

def step (s : TopicSpec Name T) : Op Name T → TopicSpec Name T × Ret T
  | .append value => ({s with log := s.log ++ [value]}, .offset s.log.length)
  | .compact => (s, .done)
  | .register name =>
    match s.consumers.lookup name with
    | none => (s.setReader name s.log.length (some s.log.length), .done)
    | some ⟨committed, none⟩ => (s.setReader name committed (some committed), .done)
    | some ⟨_, some _⟩ => (s, .refused)
  | .next name => s.withReader name fun committed offset =>
    match s.log[offset]? with
    | some value => (s.setReader name committed (some (offset+1)), .next (.item value))
    | none => (s, .next .none)
  | .commit name => s.withReader name fun _ offset =>
    (s.setReader name offset (some offset), .done)
  | .reset name => s.withReader name fun committed _ =>
    (s.setReader name committed (some committed), .done)
  | .drop name => s.withReader name fun committed _ => (s.setReader name committed none, .done)
  | .delete name => s.withReader name fun _ _ =>
    ({s with consumers := s.consumers.erase name}, .done)
  | .reopen => if s.consumers.entries.all fun e => e.2.reader.isNone then (s, .done) else (s, .refused)

/-- `seek` of an open handle. `Op` does not have it: in front of the committed offset records may be
gone. -/
def seek (s : TopicSpec Name T) (name : Name) (offset : Nat) : TopicSpec Name T :=
  (s.withReader name fun committed _ => (s.setReader name committed (some offset), .done)).1

def run (s : TopicSpec Name T) : List (Op Name T) → TopicSpec Name T × List (Ret T)
  | [] => (s, [])
  | op :: ops =>
    let (s, ret) := s.step op
    let (s, rets) := s.run ops
    (s, ret :: rets)

theorem log_withReader (s : TopicSpec Name T) (name : Name)
    {f : Nat → Nat → TopicSpec Name T × Ret T}
    (h : ∀ committed offset, (f committed offset).1.log = s.log) :
    (s.withReader name f).1.log = s.log := by
  rw [withReader]
  split
  · exact h _ _
  · rfl

/-- Only an append adds to the log of a topic. -/
theorem log_step (s : TopicSpec Name T) (op : Op Name T) :
    (s.step op).1.log = s.log ++ op.appended := by
  cases op with
  | append value => rfl
  | register name =>
    simp only [step, Op.appended, List.append_nil]
    split <;> rfl
  | next name =>
    simp only [step, Op.appended, List.append_nil]
    refine s.log_withReader name fun committed offset => ?_
    split <;> rfl
  | reopen =>
    simp only [step, Op.appended, List.append_nil]
    split_ifs <;> rfl
  | compact => exact (List.append_nil _).symm
  | _ =>
    simp only [step, Op.appended, List.append_nil]
    exact s.log_withReader _ fun _ _ => rfl

theorem length_run (s : TopicSpec Name T) (ops : List (Op Name T)) :
    (s.run ops).2.length = ops.length := by
  induction ops generalizing s with
  | nil => rfl
  | cons op ops ih => exact congrArg (·+1) (ih (s.step op).1)

theorem run_append (s : TopicSpec Name T) (ops later : List (Op Name T)) :
    s.run (ops ++ later) =
      (((s.run ops).1.run later).1, (s.run ops).2 ++ ((s.run ops).1.run later).2) := by
  induction ops generalizing s with
  | nil => rfl
  | cons op ops ih =>
    rw [List.cons_append, run, run]
    simp only [ih]
    rfl

theorem log_run (s : TopicSpec Name T) (ops : List (Op Name T)) :
    (s.run ops).1.log = s.log ++ ops.flatMap Op.appended := by
  induction ops generalizing s with
  | nil => exact (List.append_nil _).symm
  | cons op ops ih =>
    have htail := ih (s.step op).1
    rw [s.log_step op, List.append_assoc, ← List.flatMap_cons] at htail
    exact htail

theorem lookup_withReader (s : TopicSpec Name T) {name other : Name}
    {f : Nat → Nat → TopicSpec Name T × Ret T}
    (h : ∀ committed offset, (f committed offset).1.consumers.lookup other =
      s.consumers.lookup other) :
    (s.withReader name f).1.consumers.lookup other = s.consumers.lookup other := by
  rw [withReader]
  split
  · exact h _ _
  · rfl

/-- A call for one consumer leaves the others where they are. -/
theorem lookup_step (s : TopicSpec Name T) {op : Op Name T} {other : Name}
    (hop : op.consumer? ≠ some other) :
    (s.step op).1.consumers.lookup other = s.consumers.lookup other := by
  have hne : ∀ name, op.consumer? = some name → other ≠ name :=
    fun name hname heq => hop (heq ▸ hname)
  cases op with
  | append value => rfl
  | compact => rfl
  | register name =>
    rw [step]
    split
    · exact AList.lookup_insert_ne (hne name rfl)
    · exact AList.lookup_insert_ne (hne name rfl)
    · rfl
  | next name =>
    refine s.lookup_withReader fun committed offset => ?_
    split
    · exact AList.lookup_insert_ne (hne name rfl)
    · rfl
  | commit name => exact s.lookup_withReader fun _ _ => AList.lookup_insert_ne (hne name rfl)
  | reset name => exact s.lookup_withReader fun _ _ => AList.lookup_insert_ne (hne name rfl)
  | drop name => exact s.lookup_withReader fun _ _ => AList.lookup_insert_ne (hne name rfl)
  | delete name => exact s.lookup_withReader fun _ _ => AList.lookup_erase_ne (hne name rfl)
  | reopen =>
    rw [step]
    split_ifs <;> rfl

theorem lookup_run (s : TopicSpec Name T) {ops : List (Op Name T)} {other : Name}
    (hops : ∀ op ∈ ops, op.consumer? ≠ some other) :
    (s.run ops).1.consumers.lookup other = s.consumers.lookup other := by
  induction ops generalizing s with
  | nil => rfl
  | cons op ops ih =>
    have htail := ih (s.step op).1 fun op hop => hops op (List.mem_cons_of_mem _ hop)
    exact htail.trans (s.lookup_step (hops op (by simp)))

/-- A handle that reads on to the end yields all records from its offset on, and then nothing. -/
theorem run_nexts (s : TopicSpec Name T) {name : Name} {committed offset : Nat}
    (h : s.consumers.lookup name = some ⟨committed, some offset⟩) :
    (s.run (List.replicate ((s.log.drop offset).length+1) (.next name))).2 =
      (s.log.drop offset).map (fun v => .next (.item v)) ++ [.next .none] := by
  induction hrest : s.log.drop offset generalizing s offset with
  | nil =>
    have hnone : s.log[offset]? = none := List.getElem?_eq_none (List.drop_eq_nil_iff.mp hrest)
    have hstep : s.step (.next name) = (s, .next .none) := by
      rw [step, withReader, h]
      simp only [hnone]
    rw [List.length_nil, Nat.zero_add, List.replicate_one, run, hstep]
    rfl
  | cons v rest ih =>
    have hv : s.log[offset]? = some v := by
      rw [← List.head?_drop, hrest]
      rfl
    have hstep : s.step (.next name) =
        (s.setReader name committed (some (offset+1)), .next (.item v)) := by
      rw [step, withReader, h]
      simp only [hv]
    have hdrop : (s.setReader name committed (some (offset+1))).log.drop (offset+1) = rest := by
      rw [← List.tail_drop]
      exact congrArg List.tail hrest
    have htail := ih (s.setReader name committed (some (offset+1))) (AList.lookup_insert _) hdrop
    rw [List.length_cons, List.replicate_succ, run, hstep]
    simp only [htail]
    rfl

end TopicSpec

end ZenDB
