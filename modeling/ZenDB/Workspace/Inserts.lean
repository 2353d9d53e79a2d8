import ZenDB.Crdt.Quiet
import ZenDB.Devices.RegistryRuns
import ZenDB.Table.Accepts
import ZenDB.Workspace.Handle

namespace ZenDB

/-! The inserts of the local device, and the sequence numbers that they take. -/

open Crdt

namespace Devices

variable {P : Type}

/-- The stamp that `mint` hands out next; there is none once a component of the clock is full. -/
def nextStamp (d : Devices P) (wall : Option Nat) : Option (EventStamp P) :=
  d.localState.clock.bind fun clock =>
    if clock.nextSequence = u64Max then none
    else (wall.bind clock.advance).map fun time => ⟨⟨d.localPeerId, clock.nextSequence⟩, time⟩

/-- The receipts of the local device have no gap and go up to the last number of its clock. -/
def Unburned (d : Devices P) : Prop :=
  d.localState.receipts.missing = [] ∧
    ∃ clock, d.localState.clock = some clock ∧ d.localState.receipts.maxSeen+1 = clock.nextSequence

/-- The number of the next event. -/
def nextSequence (d : Devices P) : Nat := (d.localState.clock.map (·.nextSequence)).getD 0

/-- The devices behind a mint. -/
def minted (d : Devices P) (stamp : EventStamp P) : Devices P :=
  {d with
    localState := {d.localState with clock := some ⟨stamp.id.sequence+1, stamp.time⟩}
    localDirty := true}

theorem mint_eq (d : Devices P) (wall : Option Nat) :
    d.mint wall = (d.nextStamp wall).map fun stamp => (d.minted stamp, stamp) := by
  cases hc : d.localState.clock with
  | none =>
    obtain ⟨peer, ⟨receipts, _⟩, dirty, others, dirtyOthers⟩ := d
    subst hc
    rfl
  | some clock =>
    rw [mint, mintCache_run hc, nextStamp, hc, Option.bind_some]
    split_ifs
    · rfl
    · cases wall.bind clock.advance <;> rfl

theorem nextStamp_eq_some {d : Devices P} {wall : Option Nat} {stamp : EventStamp P}
    (h : d.nextStamp wall = some stamp) :
    ∃ clock, d.localState.clock = some clock ∧ clock.nextSequence ≠ u64Max ∧
      stamp.id = ⟨d.localPeerId, clock.nextSequence⟩ := by
  obtain ⟨clock, hclock, h⟩ := Option.bind_eq_some_iff.mp h
  split_ifs at h with hfull
  obtain ⟨time, -, rfl⟩ := Option.map_eq_some_iff.mp h
  exact ⟨clock, hclock, hfull, rfl⟩

end Devices

section Observe

variable {P : Type} {d : Devices P} {wall : Option Nat} {stamp : EventStamp P}

/-- A number that was taken and not observed is burned. -/
theorem Devices.not_unburned_minted (hd : d.Unburned) (h : d.nextStamp wall = some stamp) :
    ¬ (d.minted stamp).Unburned := by
  obtain ⟨-, clock, hclock, hnext⟩ := hd
  obtain ⟨c, hc, -, hid⟩ := nextStamp_eq_some h
  obtain rfl : clock = c := Option.some.inj (hclock.symm.trans hc)
  intro hburned
  obtain ⟨-, clock', hclock', hnext'⟩ := hburned
  cases hclock'
  have hseen : d.localState.receipts.maxSeen+1 = stamp.id.sequence+1 := hnext'
  have hseq : stamp.id.sequence = clock.nextSequence := by rw [hid]
  omega

/-- The receipt of a number that was just taken. -/
theorem Devices.unburned_observe [DecidableEq P] (hd : d.Unburned) (h : d.nextStamp wall = some stamp)
    (reading : Nat) : ((d.minted stamp).observe stamp (some reading)).1.Unburned ∧
      ((d.minted stamp).observe stamp (some reading)).1.nextSequence = d.nextSequence+1 := by
  obtain ⟨hmissing, clock, hclock, hnext⟩ := hd
  obtain ⟨c, hc, hfull, hid⟩ := nextStamp_eq_some h
  obtain rfl : clock = c := Option.some.inj (hclock.symm.trans hc)
  obtain ⟨id, time⟩ := stamp
  obtain rfl : id = ⟨d.localPeerId, clock.nextSequence⟩ := hid
  have hwindow : d.localState.receipts.observe clock.nextSequence =
      (⟨clock.nextSequence, []⟩, some .new) := by
    rw [ReceiptWindow.observe, if_neg (by omega), if_pos (by omega), hmissing]
    simp only [if_neg (show ¬ clock.nextSequence > d.localState.receipts.maxSeen+1 by omega),
      List.append_nil]
  have hmax : max (clock.nextSequence+1) (clock.nextSequence+1) = clock.nextSequence+1 := Nat.max_self _
  simp only [observe, minted, if_true, hfull, if_false, hwindow, advanceClock, hmax]
  refine ⟨⟨rfl, _, rfl, rfl⟩, ?_⟩
  simp [nextSequence, hclock]

end Observe

/-- `insert` with a failing file system: it breaks off behind `n` effects. -/
def Table.insertFaulty {K V E : Type} [LinearOrder K] (ro : RowOps K V E) (t : Table K V E) (event : E) :
    Option Nat → Table K V E × InsertOutcome E V
  | none => t.insert ro event
  | some n =>
    match ro.apply (t.get (ro.key event)) event with
    | .changed current => ((t.exec ((t.recordChange ro event current).take n)).1, .error)
    | _ => t.insert ro event

namespace Table

variable {K V E : Type} [LinearOrder K] {ro : RowOps K V E}

/-- An insert is applied when `apply` changes the row, the table has room and no file fails. -/
theorem insertFaulty_applied (t : Table K V E) (event : E) (fault : Option Nat) :
    (∃ change, (t.insertFaulty ro event fault).2 = .applied change) ↔
      (∃ current, ro.apply (t.get (ro.key event)) event = .changed current) ∧
        t.Accepts (ro.key event) ∧ fault = none := by
  cases fault with
  | some n =>
    refine iff_of_false ?_ (by simp)
    rw [insertFaulty, Table.insert]
    cases ro.apply (t.get (ro.key event)) event <;> simp
  | none =>
    rw [insertFaulty, Table.insert]
    cases ro.apply (t.get (ro.key event)) event with
    | error => simp
    | unchanged => simp
    | changed current =>
      rw [← exec_recordChange ro t event current]
      dsimp only
      rcases t.exec (t.recordChange ro event current) with ⟨t', _ | _⟩ <;> simp

/-- The rows behind an insert, also one that breaks off. -/
theorem insertFaulty_get (ro : RowOps K V E) (t : Table K V E) (event : E) (fault : Option Nat) :
    (∀ key, (t.insertFaulty ro event fault).1.get key = t.get key) ∨
      ∃ current, ro.apply (t.get (ro.key event)) event = .changed current ∧
        ∀ key, (t.insertFaulty ro event fault).1.get key =
          if key = ro.key event then some current else t.get key := by
  have hinsert := insert_get ro t event
  have hplain : (∀ key, (t.insert ro event).1.get key = t.get key) ∨
      ∃ current, ro.apply (t.get (ro.key event)) event = .changed current ∧
        ∀ key, (t.insert ro event).1.get key =
          if key = ro.key event then some current else t.get key := by
    rcases hrun : t.insert ro event with ⟨t', _ | change | _⟩ <;> rw [hrun] at hinsert
    · exact Or.inl hinsert.2
    · obtain ⟨current, happly, -, hget⟩ := hinsert
      exact Or.inr ⟨current, happly, hget⟩
    · exact Or.inl hinsert
  cases fault with
  | none => exact hplain
  | some n =>
    cases happly : ro.apply (t.get (ro.key event)) event with
    | error => simpa only [insertFaulty, happly] using hplain
    | unchanged => simpa only [insertFaulty, happly] using hplain
    | changed current =>
      obtain ⟨ok, hrecorded⟩ := (recordChange_recorded ro t event current).during n
      simp only [insertFaulty, happly]
      cases ok with
      | false => exact Or.inl fun key => (hrecorded.get key).trans (by simp)
      | true => exact Or.inr ⟨current, rfl, fun key => (hrecorded.get key).trans (by simp)⟩

/-- An insert adds to the topic; what was applied is in it. -/
theorem insertFaulty_log (ro : RowOps K V E) (t : Table K V E) (event : E) (fault : Option Nat) :
    t.topic.log <+: (t.insertFaulty ro event fault).1.topic.log ∧
      ∀ change, (t.insertFaulty ro event fault).2 = .applied change →
        change.event = event ∧ change ∈ (t.insertFaulty ro event fault).1.topic.log := by
  have hgrows : ∀ es : List (Effect K V E), t.topic.log <+: (t.exec es).1.topic.log := by
    intro es
    obtain ⟨done, -, -, hlog⟩ := t.exec_log es
    exact hlog ▸ List.prefix_append _ _
  have hplain : t.topic.log <+: (t.insert ro event).1.topic.log := by
    rw [insert_fst]
    exact hgrows _
  cases fault with
  | none => exact ⟨hplain, fun change hchange => mem_log_of_applied (Prod.ext rfl hchange)⟩
  | some n =>
    refine ⟨?_, fun change hchange => ?_⟩
    · rw [insertFaulty]
      split
      · exact hgrows _
      · exact hplain
    · have hfault := ((t.insertFaulty_applied event (some n)).mp ⟨change, hchange⟩).2.2
      cases hfault

end Table

namespace Workspace

variable {T P : Type} [DecidableEq T] [LinearOrder P] [Inhabited P]

namespace TableHandle

/-- `insert_internal`, where the file system may fail. -/
def insertInternalFaulty (h : TableHandle P) (delivery : Delivery P) (fault : Option Nat) :
    TableHandle P × Except HandleError (HandleOutcome P) :=
  match delivery.devices with
  | none => (h, .error .workspaceClosed)
  | some devices =>
    if devices.cache.hasAccess devices.localPeerId delivery.event.stamp.id.peerId h.requiredRole then
      match h.table.insertFaulty rowOps delivery.event fault with
      | (table, .ignored) => ({h with table := table}, .ok .ignored)
      | (table, .applied change) => ({h with table := table}, .ok (.applied change))
      | (table, .error) => ({h with table := table}, .error .storage)
    else (h, .error .permissionDenied)

theorem insertInternalFaulty_none (h : TableHandle P) (delivery : Delivery P) :
    h.insertInternalFaulty delivery none = h.insertInternal delivery := rfl

end TableHandle

/-- The devices and the tables of a workspace that is open. -/
structure LocalWriter (T P : Type) where
  devices : Devices P
  registry : RegistryCache P
  tables : T → TableHandle P

/-- A call of `insert`, with what it meets: a workspace that may be closed, the readings of the wall
clock by `mint` and by the receipt listener, and a failure of the file system. -/
structure InsertCall (T P : Type) where
  table : T
  primaryKey : PrimaryKey P
  path : List (Crdt.Segment P)
  op : Op P
  isOpen : Bool
  mintWall : Option Nat
  observeWall : Option Nat
  fault : Option Nat

inductive InsertError (T : Type) where
  | systemTableReadOnly (table : T)
  | workspaceClosed
  | permissionDenied
  | clockExhausted
  | handle (error : HandleError)

namespace LocalWriter

def hasAccess (s : LocalWriter T P) : Bool :=
  s.registry.hasAccess s.devices.localPeerId s.devices.localPeerId .contributor

/-- `TableHandle::insert`; behind an applied change the receipt listener drops the answer of
`observe`. -/
def insert (s : LocalWriter T P) (call : InsertCall T P) :
    LocalWriter T P × Except (InsertError T) (HandleOutcome P) :=
  if (s.tables call.table).isSystem then (s, .error (.systemTableReadOnly call.table))
  else if call.isOpen = false then (s, .error .workspaceClosed)
  else if s.hasAccess = false then (s, .error .permissionDenied)
  else
    match s.devices.mint call.mintWall with
    | none => (s, .error .clockExhausted)
    | some (devices, stamp) =>
      match (s.tables call.table).insertInternalFaulty
        ⟨some ⟨devices.localPeerId, s.registry⟩, ⟨call.primaryKey, call.path, call.op, stamp⟩⟩
        call.fault with
      | (handle, .ok (.applied change)) =>
        ({s with
          devices := (devices.observe change.event.stamp call.observeWall).1
          tables := Function.update s.tables call.table handle}, .ok (.applied change))
      | (handle, .ok .ignored) =>
        ({s with devices := devices, tables := Function.update s.tables call.table handle},
          .ok .ignored)
      | (handle, .error e) =>
        ({s with devices := devices, tables := Function.update s.tables call.table handle},
          .error (.handle e))

/-- A run of calls. -/
def run (s : LocalWriter T P) (calls : List (InsertCall T P)) : LocalWriter T P :=
  calls.foldl (fun s call => (s.insert call).1) s

theorem run_append (s : LocalWriter T P) (calls : List (InsertCall T P)) (call : InsertCall T P) :
    s.run (calls ++ [call]) = ((s.run calls).insert call).1 := by
  simp [run]

/-- The call is turned away before it takes a number. -/
def Refuses (s : LocalWriter T P) (call : InsertCall T P) : Prop :=
  (s.tables call.table).isSystem = true ∨ call.isOpen = false ∨ s.hasAccess = false ∨
    s.devices.nextStamp call.mintWall = none

/-- The operation has an effect on its row and is not an error there, the table has room for the row
and its files can be written, and the listener can read the wall clock. -/
structure Stores (s : LocalWriter T P) (call : InsertCall T P) (stamp : EventStamp P) : Prop where
  effective : ¬ Cell.Holds call.op stamp call.path
    (((s.tables call.table).table.get call.primaryKey).getD (Cell.dummy none))
  possible : ¬ Cell.Fails call.op stamp call.path
    (((s.tables call.table).table.get call.primaryKey).getD (Cell.dummy none))
  room : (s.tables call.table).table.Accepts call.primaryKey
  written : call.fault = none
  heard : call.observeWall ≠ none

/-- A call that takes a number stores an event under it. -/
def Keeps (s : LocalWriter T P) (call : InsertCall T P) : Prop :=
  s.Refuses call ∨ ∀ stamp, s.devices.nextStamp call.mintWall = some stamp → s.Stores call stamp

/-- Some table has recorded the event of the local device with this number. -/
def Recorded (s : LocalWriter T P) (sequence : Nat) : Prop :=
  ∃ table, ∃ change ∈ (s.tables table).table.topic.log,
    change.event.stamp.id = ⟨s.devices.localPeerId, sequence⟩

/-- No number is burned: the receipts are whole, and what was taken since `start` is recorded. -/
structure Gapless (start s : LocalWriter T P) : Prop where
  unburned : s.devices.Unburned
  recorded : ∀ n, start.devices.nextSequence ≤ n → n < s.devices.nextSequence → s.Recorded n

section Step

variable {s : LocalWriter T P} {call : InsertCall T P} {stamp : EventStamp P}

/-- All rows of all tables are well formed. -/
def WF (s : LocalWriter T P) : Prop := ∀ table, (s.tables table).WF

/-- What the call writes under a stamp. -/
def event (call : InsertCall T P) (stamp : EventStamp P) : Event P :=
  ⟨call.primaryKey, call.path, call.op, stamp⟩

theorem insert_refused (h : s.Refuses call) : (s.insert call).1 = s := by
  rw [insert]
  split_ifs with hsystem hopen haccess
  · rfl
  · rfl
  · rfl
  · have hnone : s.devices.nextStamp call.mintWall = none := by
      rcases h with h | h | h | h
      · exact absurd h hsystem
      · exact absurd h hopen
      · exact absurd h haccess
      · exact h
    rw [Devices.mint_eq, hnone]
    rfl

/-- A call that takes a number: what becomes of the table, and of the devices. -/
theorem insert_minted (h : ¬ s.Refuses call) (hstamp : s.devices.nextStamp call.mintWall = some stamp) :
    (s.insert call).1.registry = s.registry ∧
    (∀ table, table ≠ call.table → (s.insert call).1.tables table = s.tables table) ∧
    ((s.insert call).1.tables call.table).table =
      ((s.tables call.table).table.insertFaulty rowOps (event call stamp) call.fault).1 ∧
    ((s.insert call).1.devices = s.devices.minted stamp ∧
        (∀ change, ((s.tables call.table).table.insertFaulty rowOps (event call stamp)
          call.fault).2 ≠ .applied change) ∨
      (s.insert call).1.devices = ((s.devices.minted stamp).observe stamp call.observeWall).1 ∧
        ∃ change, ((s.tables call.table).table.insertFaulty rowOps (event call stamp)
          call.fault).2 = .applied change) := by
  obtain ⟨hsystem, hrest⟩ := not_or.mp h
  obtain ⟨hopen, hrest⟩ := not_or.mp hrest
  obtain ⟨haccess, -⟩ := not_or.mp hrest
  obtain ⟨clock, -, -, hid⟩ := Devices.nextStamp_eq_some hstamp
  -- the second check is of the same peer, for the same role
  have hagain : s.registry.hasAccess (s.devices.minted stamp).localPeerId
      (event call stamp).stamp.id.peerId (s.tables call.table).requiredRole = true := by
    have hrole : (s.tables call.table).requiredRole = .contributor := if_neg hsystem
    have hpeer : (event call stamp).stamp.id.peerId = s.devices.localPeerId := congrArg (·.peerId) hid
    have htrue : s.hasAccess = true := by simpa using haccess
    rw [hrole, hpeer]
    exact htrue
  have hhandle : (s.tables call.table).insertInternalFaulty
      ⟨some ⟨(s.devices.minted stamp).localPeerId, s.registry⟩, event call stamp⟩ call.fault =
      match (s.tables call.table).table.insertFaulty rowOps (event call stamp) call.fault with
      | (table, .ignored) => ({s.tables call.table with table := table}, .ok .ignored)
      | (table, .applied change) => ({s.tables call.table with table := table}, .ok (.applied change))
      | (table, .error) => ({s.tables call.table with table := table}, .error .storage) := if_pos hagain
  have hlog := (s.tables call.table).table.insertFaulty_log rowOps (event call stamp) call.fault
  simp only [insert, if_neg hsystem, if_neg hopen, if_neg haccess, Devices.mint_eq, hstamp,
    Option.map_some]
  rw [← event, hhandle]
  generalize (s.tables call.table).table.insertFaulty rowOps (event call stamp) call.fault = r at hlog ⊢
  obtain ⟨t, _ | change | _⟩ := r
  · exact ⟨rfl, fun table hne => Function.update_of_ne hne _ _, by simp, Or.inl ⟨rfl, by simp⟩⟩
  · obtain ⟨hevent, -⟩ := hlog.2 change rfl
    refine ⟨rfl, fun table hne => Function.update_of_ne hne _ _, by simp, Or.inr ⟨?_, change, rfl⟩⟩
    show ((s.devices.minted stamp).observe change.event.stamp call.observeWall).1 = _
    rw [hevent]
    rfl
  · exact ⟨rfl, fun table hne => Function.update_of_ne hne _ _, by simp, Or.inl ⟨rfl, by simp⟩⟩

/-- The walk changes the row where the row does not hold the effect and the operation can be done. -/
theorem rowOps_apply_changed (row : Option (RowCell P)) {event : Event P} (hop : event.op.WF)
    (hrow : (row.getD (Cell.dummy none)).WF) :
    (∃ current, rowOps.apply row event = .changed current) ↔
      ¬ Cell.Holds event.op event.stamp event.path (row.getD (Cell.dummy none)) ∧
        ¬ Cell.Fails event.op event.stamp event.path (row.getD (Cell.dummy none)) := by
  rw [← Cell.applyWalk_unchanged hop event.stamp event.path hrow, ← Cell.applyWalk_fails hop _ hrow]
  simp only [rowOps]
  rcases Cell.applyWalk event.op event.stamp event.path (row.getD (Cell.dummy none)) with
    ⟨c, e | _ | _⟩ <;> simp

omit [DecidableEq T] in
theorem wf_row (hwf : s.WF) (table : T) (key : PrimaryKey P) :
    (((s.tables table).table.get key).getD (Cell.dummy none)).WF := by
  cases hget : (s.tables table).table.get key with
  | none => exact trivial
  | some row => exact hwf table key row hget

omit [DecidableEq T] in
theorem applied_iff (hwf : s.WF) (hop : call.op.WF) (stamp : EventStamp P) :
    (∃ change, ((s.tables call.table).table.insertFaulty rowOps (event call stamp) call.fault).2 =
      .applied change) ∧ call.observeWall ≠ none ↔ s.Stores call stamp := by
  rw [Table.insertFaulty_applied, rowOps_apply_changed _ hop (wf_row hwf call.table _)]
  constructor
  · intro ⟨⟨⟨heffective, hpossible⟩, hroom, hwritten⟩, hheard⟩
    exact ⟨heffective, hpossible, hroom, hwritten, hheard⟩
  · intro h
    exact ⟨⟨⟨h.effective, h.possible⟩, h.room, h.written⟩, h.heard⟩

/-- The receipts stay whole over a call exactly when it takes no number or stores an event. -/
theorem unburned_insert (hwf : s.WF) (hop : call.op.WF) (hs : s.devices.Unburned) :
    (s.insert call).1.devices.Unburned ↔ s.Keeps call := by
  by_cases hrefuses : s.Refuses call
  · rw [insert_refused hrefuses]
    exact iff_of_true hs (Or.inl hrefuses)
  rw [Keeps, or_iff_right hrefuses]
  cases hstamp : s.devices.nextStamp call.mintWall with
  | none => exact absurd (Or.inr (Or.inr (Or.inr hstamp))) hrefuses
  | some stamp =>
    simp only [Option.some.injEq, forall_eq', ← applied_iff hwf hop]
    obtain ⟨-, -, -, ⟨hdevices, hnot⟩ | ⟨hdevices, happlied⟩⟩ := insert_minted hrefuses hstamp
    · rw [hdevices]
      refine iff_of_false (Devices.not_unburned_minted hs hstamp) ?_
      intro ⟨⟨change, hchange⟩, _⟩
      exact hnot change hchange
    · rw [hdevices, and_iff_right happlied]
      cases hwall : call.observeWall with
      | none => exact iff_of_false (Devices.not_unburned_minted hs hstamp) (by simp)
      | some reading => exact iff_of_true (Devices.unburned_observe hs hstamp reading).1 (by simp)

theorem localPeerId_insert (s : LocalWriter T P) (call : InsertCall T P) :
    (s.insert call).1.devices.localPeerId = s.devices.localPeerId := by
  by_cases hrefuses : s.Refuses call
  · rw [insert_refused hrefuses]
  cases hstamp : s.devices.nextStamp call.mintWall with
  | none => exact absurd (Or.inr (Or.inr (Or.inr hstamp))) hrefuses
  | some stamp =>
    obtain ⟨-, -, -, ⟨hdevices, -⟩ | ⟨hdevices, -⟩⟩ := insert_minted hrefuses hstamp
    · rw [hdevices]
      rfl
    · rw [hdevices, Devices.observe_localPeerId]
      rfl

/-- What a call does to the tables: nothing, or an insert into its own. -/
theorem insert_tables (s : LocalWriter T P) (call : InsertCall T P) :
    (s.insert call).1.tables = s.tables ∨ ∃ stamp,
      (∀ table, table ≠ call.table → (s.insert call).1.tables table = s.tables table) ∧
      ((s.insert call).1.tables call.table).table =
        ((s.tables call.table).table.insertFaulty rowOps (event call stamp) call.fault).1 := by
  by_cases hrefuses : s.Refuses call
  · rw [insert_refused hrefuses]
    exact Or.inl rfl
  cases hstamp : s.devices.nextStamp call.mintWall with
  | none => exact absurd (Or.inr (Or.inr (Or.inr hstamp))) hrefuses
  | some stamp =>
    obtain ⟨-, hother, hown, -⟩ := insert_minted hrefuses hstamp
    exact Or.inr ⟨stamp, hother, hown⟩

theorem WF.insert (hwf : s.WF) (hop : call.op.WF) : (s.insert call).1.WF := by
  intro table key row hget
  rcases s.insert_tables call with hsame | ⟨stamp, hother, hown⟩
  · rw [hsame] at hget
    exact hwf table key row hget
  by_cases htable : table = call.table
  · subst htable
    rw [hown] at hget
    rcases (s.tables call.table).table.insertFaulty_get rowOps (event call stamp) call.fault with
      hrows | ⟨current, happly, hrows⟩
    · rw [hrows] at hget
      exact hwf _ key row hget
    · rw [hrows] at hget
      split_ifs at hget
      · cases hget
        exact wf_rowOps_apply _ hop (wf_row hwf call.table _) happly
      · exact hwf _ key row hget
  · rw [hother table htable] at hget
    exact hwf table key row hget

/-- The topics only grow. -/
theorem Recorded.insert {n : Nat} (h : s.Recorded n) (call : InsertCall T P) :
    (s.insert call).1.Recorded n := by
  obtain ⟨table, change, hmem, hid⟩ := h
  refine ⟨table, change, ?_, hid.trans (by rw [localPeerId_insert])⟩
  rcases s.insert_tables call with hsame | ⟨stamp, hother, hown⟩
  · rw [hsame]
    exact hmem
  by_cases htable : table = call.table
  · subst htable
    rw [hown]
    exact ((s.tables call.table).table.insertFaulty_log rowOps (event call stamp) call.fault).1.subset hmem
  · rw [hother table htable]
    exact hmem

theorem Gapless.insert {start : LocalWriter T P} (h : start.Gapless s) (hwf : s.WF) (hop : call.op.WF)
    (hkeeps : s.Keeps call) : start.Gapless (s.insert call).1 := by
  refine ⟨(unburned_insert hwf hop h.unburned).mpr hkeeps, ?_⟩
  intro n hstart hlt
  by_cases hrefuses : s.Refuses call
  · rw [insert_refused hrefuses] at hlt ⊢
    exact h.recorded n hstart hlt
  cases hstamp : s.devices.nextStamp call.mintWall with
  | none => exact absurd (Or.inr (Or.inr (Or.inr hstamp))) hrefuses
  | some stamp =>
    have hstores := (hkeeps.resolve_left hrefuses) stamp hstamp
    obtain ⟨⟨change, hchange⟩, hheard⟩ := (applied_iff hwf hop stamp).mpr hstores
    obtain ⟨reading, hreading⟩ := Option.ne_none_iff_exists'.mp hheard
    obtain ⟨-, -, hown, ⟨-, hnot⟩ | ⟨hdevices, -⟩⟩ := insert_minted hrefuses hstamp
    · exact absurd hchange (hnot change)
    rw [hdevices, hreading, (Devices.unburned_observe h.unburned hstamp reading).2] at hlt
    by_cases hold : n < s.devices.nextSequence
    · exact (h.recorded n hstart hold).insert call
    · obtain ⟨hevent, hmem⟩ := ((s.tables call.table).table.insertFaulty_log rowOps (event call stamp)
        call.fault).2 change hchange
      obtain ⟨clock, hclock, -, hid⟩ := Devices.nextStamp_eq_some hstamp
      have hnext : s.devices.nextSequence = clock.nextSequence := by
        rw [Devices.nextSequence, hclock]
        rfl
      refine ⟨call.table, change, hown ▸ hmem, ?_⟩
      rw [hevent, localPeerId_insert]
      refine hid.trans ?_
      rw [show n = clock.nextSequence by omega]

end Step

theorem WF.run {s : LocalWriter T P} (hwf : s.WF) {calls : List (InsertCall T P)}
    (hops : ∀ call ∈ calls, call.op.WF) : (s.run calls).WF := by
  induction calls using List.reverseRecOn with
  | nil => exact hwf
  | append_singleton calls call ih =>
    rw [run_append]
    exact (ih fun c hc => hops c (List.mem_append_left _ hc)).insert (hops call (by simp))

/-- No number is burned in a run exactly when each of its calls takes none or stores an event. -/
theorem never_burned_iff {s : LocalWriter T P} (hwf : s.WF) (hs : s.devices.Unburned)
    {calls : List (InsertCall T P)} (hops : ∀ call ∈ calls, call.op.WF) :
    (∀ done, done <+: calls → s.Gapless (s.run done)) ↔
      ∀ done call, done ++ [call] <+: calls → (s.run done).Keeps call := by
  have hprefix : ∀ {done : List (InsertCall T P)} {call}, done ++ [call] <+: calls →
      done <+: calls ∧ call.op.WF ∧ (s.run done).WF := by
    intro done call hdone
    have hbefore := (List.prefix_append done [call]).trans hdone
    exact ⟨hbefore, hops call (hdone.subset (by simp)),
      hwf.run fun c hc => hops c (hbefore.subset hc)⟩
  constructor
  · intro hall done call hdone
    obtain ⟨hbefore, hop, hrows⟩ := hprefix hdone
    have hafter := (hall _ hdone).unburned
    rw [run_append] at hafter
    exact (unburned_insert hrows hop (hall done hbefore).unburned).mp hafter
  · intro hall done
    induction done using List.reverseRecOn with
    | nil => exact fun _ => ⟨hs, fun n hle hlt => absurd hlt (by simpa [run] using hle)⟩
    | append_singleton done call ih =>
      intro hdone
      obtain ⟨hbefore, hop, hrows⟩ := hprefix hdone
      rw [run_append]
      exact (ih hbefore).insert hrows hop (hall done call hdone)

/-- A new workspace with one table. -/
def newWorkspace : LocalWriter Unit Nat :=
  ⟨(Devices.create 1 3).1, TableHandle.adminView.cache, fun _ => TableHandle.create .ordered 8 false⟩

/-- An insert at the root of the first row. -/
def insertRow (op : Op Nat) (wall : Nat) : InsertCall Unit Nat :=
  ⟨(), .int 1, [], op, true, some wall, some wall, none⟩

theorem unburned_newWorkspace : newWorkspace.devices.Unburned := ⟨rfl, _, rfl, rfl⟩

/-- Two inserts, and between them one while the workspace is closed. -/
def upsertTwice : List (InsertCall Unit Nat) :=
  [insertRow (.upsert (.scalar (.int 5))) 5,
    {insertRow (.upsert (.scalar (.int 6))) 6 with isOpen := false},
    insertRow (.upsert (.scalar (.int 7))) 7]

theorem never_burned_iff_upsert :
    newWorkspace.devices.Unburned ∧ (newWorkspace.run upsertTwice).devices.localState.receipts = ⟨3, []⟩ ∧
      ∀ done, done <+: upsertTwice → newWorkspace.Gapless (newWorkspace.run done) := by
  refine ⟨unburned_newWorkspace, by decide +kernel, (never_burned_iff (fun _ => TableHandle.wf_create _ _ _)
    unburned_newWorkspace ?_).mpr ?_⟩
  · intro call hmem
    simp only [upsertTwice, List.mem_cons, List.not_mem_nil, or_false] at hmem
    rcases hmem with rfl | rfl | rfl <;> exact trivial
  · intro done call hdone
    obtain ⟨rest, hrest⟩ := hdone
    rcases done with _ | ⟨c₁, _ | ⟨c₂, _ | ⟨c₃, more⟩⟩⟩
    · obtain rfl : call = insertRow (.upsert (.scalar (.int 5))) 5 := (List.cons.inj hrest).1
      refine Or.inr fun stamp hstamp => ?_
      obtain rfl : (⟨⟨1, 2⟩, ⟨5, 0⟩⟩ : EventStamp Nat) = stamp := Option.some.inj hstamp
      refine ⟨?_, id, Or.inr (Or.inl (by decide)), rfl, by simp [insertRow]⟩
      exact not_le.mpr (by decide +kernel)
    · obtain ⟨-, htail⟩ := List.cons.inj hrest
      obtain rfl : call = {insertRow (.upsert (.scalar (.int 6))) 6 with isOpen := false} :=
        (List.cons.inj htail).1
      exact Or.inl (Or.inr (Or.inl rfl))
    · obtain ⟨rfl, htail⟩ := List.cons.inj hrest
      obtain ⟨rfl, hlast⟩ := List.cons.inj htail
      obtain rfl : call = insertRow (.upsert (.scalar (.int 7))) 7 := (List.cons.inj hlast).1
      refine Or.inr fun stamp hstamp => ?_
      have hnext : (newWorkspace.run (upsertTwice.take 2)).devices.nextStamp (some 7) =
          some ⟨⟨1, 3⟩, ⟨7, 0⟩⟩ := by decide +kernel
      obtain rfl : (⟨⟨1, 3⟩, ⟨7, 0⟩⟩ : EventStamp Nat) = stamp := Option.some.inj (hnext.symm.trans hstamp)
      refine ⟨?_, id, Or.inl (by decide +kernel), rfl, by simp [insertRow]⟩
      exact not_le.mpr (by decide +kernel)
    · have hlen := congrArg List.length hrest
      simp [upsertTwice] at hlen

/-- An addition of zero is ignored and has taken number two; the next insert leaves a gap. -/
theorem ignored_insert_burns :
    newWorkspace.devices.Unburned ∧
    (newWorkspace.run [insertRow (.type (.counter (.add 0))) 5]).devices.localState =
      ⟨⟨1, []⟩, some ⟨3, ⟨5, 0⟩⟩⟩ ∧
    (newWorkspace.run [insertRow (.type (.counter (.add 0))) 5,
      insertRow (.upsert (.scalar (.int 5))) 7]).devices.localState.receipts = ⟨3, [(2, 2)]⟩ :=
  ⟨unburned_newWorkspace, by decide +kernel, by decide +kernel⟩

end LocalWriter

end Workspace

end ZenDB
