import ZenDB.Crdt.Redelivery
import ZenDB.Devices.Registry
import ZenDB.Table.Settled

namespace ZenDB.Workspace

open Crdt

/-! The handle of a table, and events that are delivered to it more than once. -/

variable {P : Type} [LinearOrder P] [Inhabited P]

/-- What `insert_internal` reads of the devices. -/
structure DevicesView (P : Type) where
  localPeerId : P
  cache : RegistryCache P

/-- The listeners of a handle are called behind an insert; they change nothing in the table. -/
structure TableHandle (P : Type) where
  table : Table (PrimaryKey P) (RowCell P) (Event P)
  isSystem : Bool

inductive HandleError where
  | workspaceClosed
  | permissionDenied
  | storage
  deriving DecidableEq

inductive HandleOutcome (P : Type) where
  | ignored
  | applied (change : Change (Event P) (RowCell P))

/-- A call of `insert_internal`; `devices` is `none` once the workspace is closed. -/
structure Delivery (P : Type) where
  devices : Option (DevicesView P)
  event : Event P

namespace TableHandle

omit [LinearOrder P] [Inhabited P] in
def requiredRole (h : TableHandle P) : Role := if h.isSystem then .admin else .contributor

def insertUnchecked (h : TableHandle P) (event : Event P) :
    TableHandle P × Except HandleError (HandleOutcome P) :=
  match h.table.insert rowOps event with
  | (table, .ignored) => ({h with table := table}, .ok .ignored)
  | (table, .applied change) => ({h with table := table}, .ok (.applied change))
  | (table, .error) => ({h with table := table}, .error .storage)

def insertInternal (h : TableHandle P) (delivery : Delivery P) :
    TableHandle P × Except HandleError (HandleOutcome P) :=
  match delivery.devices with
  | none => (h, .error .workspaceClosed)
  | some devices =>
    if devices.cache.hasAccess devices.localPeerId delivery.event.stamp.id.peerId h.requiredRole then
      h.insertUnchecked delivery.event
    else (h, .error .permissionDenied)

/-- The handle after some deliveries, and the events that were applied. -/
def run (h : TableHandle P) : List (Delivery P) → TableHandle P × List (Event P)
  | [] => (h, [])
  | delivery :: deliveries =>
    match h.insertInternal delivery with
    | (h', .ok (.applied _)) => ((h'.run deliveries).1, delivery.event :: (h'.run deliveries).2)
    | (h', _) => h'.run deliveries

def create (kind : StateKind) (maxBuffered : Nat) (isSystem : Bool) : TableHandle P :=
  ⟨Table.create kind maxBuffered, isSystem⟩

/-- All rows are well formed. -/
def WF (h : TableHandle P) : Prop := ∀ key row, h.table.get key = some row → row.WF

/-- The row of an event as `insert` finds it. -/
def rowOf (h : TableHandle P) (event : Event P) : RowCell P :=
  (h.table.get event.primaryKey).getD (Cell.dummy none)

theorem WF.rowOf {h : TableHandle P} (hwf : h.WF) (event : Event P) : (h.rowOf event).WF := by
  rw [TableHandle.rowOf]
  cases hget : h.table.get event.primaryKey with
  | none => exact trivial
  | some row => exact hwf event.primaryKey row hget

end TableHandle

/-- `insert` leaves a row alone exactly when it holds the event. -/
theorem rowOps_apply_unchanged (row : Option (RowCell P)) {event : Event P} (hop : event.op.WF)
    (hrow : (row.getD (Cell.dummy none)).WF) :
    rowOps.apply row event = .unchanged ↔
      Cell.Holds event.op event.stamp event.path (row.getD (Cell.dummy none)) := by
  rw [← Cell.applyWalk_unchanged hop event.stamp event.path hrow]
  simp only [rowOps]
  rcases Cell.applyWalk event.op event.stamp event.path (row.getD (Cell.dummy none)) with
    ⟨c, e | _ | _⟩ <;> simp

theorem wf_rowOps_apply (row : Option (RowCell P)) {event : Event P} (hop : event.op.WF)
    (hrow : (row.getD (Cell.dummy none)).WF) {current : RowCell P}
    (h : rowOps.apply row event = .changed current) : current.WF := by
  have hwf := Cell.wf_applyWalk hop event.stamp event.path hrow
  simp only [rowOps] at h
  rcases hrun : Cell.applyWalk event.op event.stamp event.path (row.getD (Cell.dummy none)) with
    ⟨c, e | _ | _⟩ <;> rw [hrun] at h hwf <;> cases h
  exact hwf

namespace TableHandle

theorem insertUnchecked_ignored {h : TableHandle P} (hwf : h.WF) {event : Event P}
    (hop : event.op.WF) :
    (h.insertUnchecked event).2 = .ok .ignored ↔
      Cell.Holds event.op event.stamp event.path (h.rowOf event) := by
  have hrow := rowOps_apply_unchanged (h.table.get event.primaryKey) hop (hwf.rowOf event)
  rw [TableHandle.rowOf, ← hrow, insertUnchecked, Table.insert]
  cases happly : rowOps.apply (h.table.get event.primaryKey) event with
  | error => simp only [show rowOps.key event = event.primaryKey from rfl, happly, reduceCtorEq]
  | unchanged => simp only [show rowOps.key event = event.primaryKey from rfl, happly]
  | changed current =>
    simp only [show rowOps.key event = event.primaryKey from rfl, happly, reduceCtorEq, iff_false]
    rcases h.table.exec (h.table.recordChange rowOps event current) with ⟨t, _ | _⟩ <;> simp

/-- What an insert can do to the rows: nothing, or its own row gets the cell of the walk. -/
theorem insertUnchecked_get (h : TableHandle P) (event : Event P) :
    (∀ key, (h.insertUnchecked event).1.table.get key = h.table.get key) ∨
    ∃ current, rowOps.apply (h.table.get event.primaryKey) event = .changed current ∧
      (h.insertUnchecked event).1.table.get event.primaryKey = some current ∧
      ∀ key ≠ event.primaryKey, (h.insertUnchecked event).1.table.get key = h.table.get key := by
  have hinsert := Table.insert_get rowOps h.table event
  rw [insertUnchecked]
  rcases hrun : h.table.insert rowOps event with ⟨t, _ | change | _⟩ <;> rw [hrun] at hinsert
  · exact Or.inl hinsert.2
  · obtain ⟨current, happly, -, hget⟩ := hinsert
    refine Or.inr ⟨current, happly, (hget _).trans (if_pos rfl), ?_⟩
    intro key hkey
    exact (hget key).trans (if_neg hkey)
  · exact Or.inl hinsert

/-- A call that passes the access check inserts; any other leaves the handle alone. -/
theorem insertInternal_cases (h : TableHandle P) (delivery : Delivery P) :
    h.insertInternal delivery = h.insertUnchecked delivery.event ∨
      ∃ e, h.insertInternal delivery = (h, .error e) := by
  rw [insertInternal]
  cases delivery.devices with
  | none => exact Or.inr ⟨_, rfl⟩
  | some devices =>
    dsimp only
    split_ifs
    · exact Or.inl rfl
    · exact Or.inr ⟨_, rfl⟩

theorem WF.insertInternal {h : TableHandle P} (hwf : h.WF) {delivery : Delivery P}
    (hop : delivery.event.op.WF) : (h.insertInternal delivery).1.WF := by
  rcases h.insertInternal_cases delivery with heq | ⟨e, heq⟩
  · rw [heq]
    intro key row hget
    rcases h.insertUnchecked_get delivery.event with hsame | ⟨current, happly, hnew, hother⟩
    · rw [hsame] at hget
      exact hwf key row hget
    · by_cases hkey : key = delivery.event.primaryKey
      · rw [hkey, hnew] at hget
        cases hget
        exact wf_rowOps_apply _ hop (hwf.rowOf delivery.event) happly
      · rw [hother key hkey] at hget
        exact hwf key row hget
  · rw [heq]
    exact hwf

/-- One call more in front of a run. -/
theorem run_cons (h : TableHandle P) (delivery : Delivery P) (deliveries : List (Delivery P)) :
    (h.run (delivery :: deliveries)).1 = ((h.insertInternal delivery).1.run deliveries).1 ∧
      ∀ event ∈ (h.run (delivery :: deliveries)).2, event = delivery.event ∨
        event ∈ ((h.insertInternal delivery).1.run deliveries).2 := by
  rw [run]
  rcases h.insertInternal delivery with ⟨h', e | _ | change⟩
  · exact ⟨rfl, fun event hmem => Or.inr hmem⟩
  · exact ⟨rfl, fun event hmem => Or.inr hmem⟩
  · exact ⟨rfl, fun event hmem => List.mem_cons.mp hmem⟩

theorem WF.run {h : TableHandle P} (hwf : h.WF) {deliveries : List (Delivery P)}
    (hops : ∀ delivery ∈ deliveries, delivery.event.op.WF) : (h.run deliveries).1.WF := by
  induction deliveries generalizing h with
  | nil => exact hwf
  | cons delivery deliveries ih =>
    rw [(run_cons h delivery deliveries).1]
    have hstep := hwf.insertInternal (hops delivery (by simp))
    exact ih hstep fun d hd => hops d (List.mem_cons_of_mem _ hd)

/-- Only events that were delivered are applied. -/
theorem mem_run {h : TableHandle P} {deliveries : List (Delivery P)} {event : Event P}
    (hmem : event ∈ (h.run deliveries).2) : ∃ delivery ∈ deliveries, delivery.event = event := by
  induction deliveries generalizing h with
  | nil => cases hmem
  | cons delivery deliveries ih =>
    rcases (run_cons h delivery deliveries).2 event hmem with rfl | hmem
    · exact ⟨delivery, by simp, rfl⟩
    · obtain ⟨d, hd, heq⟩ := ih hmem
      exact ⟨d, List.mem_cons_of_mem _ hd, heq⟩

omit [Inhabited P] in
theorem wf_create (kind : StateKind) (maxBuffered : Nat) (isSystem : Bool) :
    (create kind maxBuffered isSystem : TableHandle P).WF := by
  intro key row hget
  cases hget

/-- A second delivery of an applied event is ignored and changes no row exactly when its peer has
access and the row holds the effect of the event. -/
theorem redelivery_ignored_iff (kind : StateKind) (maxBuffered : Nat) (isSystem : Bool)
    (deliveries : List (Delivery P)) (hops : ∀ delivery ∈ deliveries, delivery.event.op.WF)
    (event : Event P) (devices : DevicesView P)
    (happlied : event ∈ ((create kind maxBuffered isSystem).run deliveries).2) :
    let h := ((create kind maxBuffered isSystem).run deliveries).1
    ((h.insertInternal ⟨some devices, event⟩).2 = .ok .ignored ∧
      ∀ key, (h.insertInternal ⟨some devices, event⟩).1.table.get key = h.table.get key) ↔
    devices.cache.hasAccess devices.localPeerId event.stamp.id.peerId h.requiredRole = true ∧
      Cell.Holds event.op event.stamp event.path (h.rowOf event) := by
  intro h
  have hwf : h.WF := (wf_create kind maxBuffered isSystem).run hops
  have hop : event.op.WF := by
    obtain ⟨delivery, hmem, rfl⟩ := mem_run happlied
    exact hops delivery hmem
  by_cases haccess :
      devices.cache.hasAccess devices.localPeerId event.stamp.id.peerId h.requiredRole = true
  · have hcall : h.insertInternal ⟨some devices, event⟩ = h.insertUnchecked event := if_pos haccess
    rw [hcall, insertUnchecked_ignored hwf hop, and_iff_right haccess, and_iff_left_iff_imp]
    intro hholds
    have hrow := (rowOps_apply_unchanged (h.table.get event.primaryKey) hop (hwf.rowOf event)).mpr
      hholds
    rcases h.insertUnchecked_get event with hsame | ⟨current, happly, -⟩
    · exact hsame
    · rw [hrow] at happly
      cases happly
  · have hcall : h.insertInternal ⟨some devices, event⟩ = (h, .error .permissionDenied) :=
      if_neg haccess
    rw [hcall]
    simp [haccess]

/-- The device of these events is an administrator. -/
def adminView : DevicesView Nat := ⟨1, ⟨[(1, ⟨"admin", some .admin⟩)], some .admin⟩⟩

/-- A first event of the administrator. -/
def firstUpsert : Event Nat := ⟨.int 1, [], .upsert (.scalar (.int 5)), ⟨⟨1, 1⟩, ⟨3, 0⟩⟩⟩

/-- The row is written again, and a device without access is turned away, before the first event comes
a second time. -/
def redelivered : List (Delivery Nat) :=
  [⟨some adminView, firstUpsert⟩,
    ⟨some adminView, ⟨.int 1, [], .upsert (.scalar (.int 6)), ⟨⟨1, 2⟩, ⟨4, 0⟩⟩⟩⟩,
    ⟨some adminView, ⟨.int 1, [], .delete, ⟨⟨9, 1⟩, ⟨8, 0⟩⟩⟩⟩]

/-- The row holds a root `Upsert` when a later one has replaced its value. -/
theorem redelivery_ignored_iff_upsert :
    let h := ((create .ordered 8 false).run redelivered).1
    h.table.get (.int 1) = some ⟨some (.scalar (.int 6)), ⟨⟨1, 2⟩, ⟨4, 0⟩⟩⟩ ∧
    (h.insertInternal ⟨some adminView, firstUpsert⟩).2 = .ok .ignored ∧
      ∀ key, (h.insertInternal ⟨some adminView, firstUpsert⟩).1.table.get key = h.table.get key := by
  have hops : ∀ delivery ∈ redelivered, delivery.event.op.WF := by
    intro delivery hmem
    simp only [redelivered, List.mem_cons, List.not_mem_nil, or_false] at hmem
    rcases hmem with rfl | rfl | rfl <;> exact trivial
  have happlied : firstUpsert ∈ ((create .ordered 8 false).run redelivered).2 := List.mem_cons_self
  have hrow : ((create .ordered 8 false).run redelivered).1.table.get (.int 1) =
      some ⟨some (.scalar (.int 6)), ⟨⟨1, 2⟩, ⟨4, 0⟩⟩⟩ := by decide +kernel
  refine ⟨hrow, (redelivery_ignored_iff .ordered 8 false redelivered hops firstUpsert adminView
    happlied).mpr ⟨by decide +kernel, ?_⟩⟩
  have hstamp : (((create .ordered 8 false).run redelivered).1.rowOf firstUpsert).stamp =
      ⟨⟨1, 2⟩, ⟨4, 0⟩⟩ := congrArg (fun row => (row.getD (Cell.dummy none)).stamp) hrow
  exact (show firstUpsert.stamp ≤ ⟨⟨1, 2⟩, ⟨4, 0⟩⟩ by decide).trans hstamp.ge

/-- A second delivery of an addition counts it twice. -/
theorem counter_counts_redelivery :
    let event : Event Nat := ⟨.int 1, [], .type (.counter (.add 1)), ⟨⟨1, 1⟩, ⟨3, 0⟩⟩⟩
    let h := ((create .ordered 8 false).run [⟨some adminView, event⟩]).1
    event.stamp ∈ ((create .ordered 8 false).run [⟨some adminView, event⟩]).2.map (·.stamp) ∧
    h.table.get (.int 1) = some ⟨some (.counter ⟨[(1, (1, 0))]⟩), event.stamp⟩ ∧
      (h.insertInternal ⟨some adminView, event⟩).1.table.get (.int 1) =
        some ⟨some (.counter ⟨[(1, (2, 0))]⟩), event.stamp⟩ := by
  decide +kernel

end TableHandle

end ZenDB.Workspace
