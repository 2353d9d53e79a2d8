import ZenDB.Crdt.Applied
import ZenDB.Lib.Replica

namespace ZenDB.Crdt

open SortedMap

/-! The list as a function of its inserts and deletes. -/

variable {P : Type} [LinearOrder P] [Inhabited P]

namespace ListOp

variable {U ops ops' : Set (ListOp P × EventStamp P)} {id : EventStamp P}

/-- The conditions on the stamp and the target of an operation, and how inserted values are made. -/
def Valid (e : ListOp P × EventStamp P) : Prop :=
  e.2 ≠ default ∧
    match e.1 with
    | .insert _ value => Built value
    | .delete id => id ≠ default

/-- What operations write about an element. -/
def writesTo (ops : Set (ListOp P × EventStamp P)) (id : EventStamp P) : Set (RowEntry P) :=
  {w | ∃ e ∈ ops, e.1.target e.2 = id ∧ w = e.1.written e.2}

/-- What a list has under an id after `ops`: the latest cell, and the position of the insert. -/
def EntryOf (ops : Set (ListOp P × EventStamp P)) (id : EventStamp P) : Option (RowEntry P) → Prop
  | none => writesTo ops id = ∅
  | some entry =>
    (∃ w ∈ writesTo ops id, entry.cell = w.cell) ∧
    (∀ w ∈ writesTo ops id, w.cell.stamp ≤ entry.cell.stamp) ∧
    ∀ position, position ≠ .unknown →
      (entry.position = position ↔ ∃ w ∈ writesTo ops id, w.position = position)

def Of (ops : Set (ListOp P × EventStamp P)) (entries : List (EventStamp P × RowEntry P)) : Prop :=
  MapOf EntryOf ops entries

theorem target_ne_default {e : ListOp P × EventStamp P} (h : Valid e) : e.1.target e.2 ≠ default := by
  obtain ⟨op, stamp⟩ := e
  cases op with
  | insert after value => exact h.1
  | delete id => exact h.2

omit [LinearOrder P] [Inhabited P] in
theorem stamp_written (op : ListOp P) (stamp : EventStamp P) : (op.written stamp).cell.stamp = stamp := by
  cases op <;> rfl

theorem tidy_written {e : ListOp P × EventStamp P} (h : Valid e) : (e.1.written e.2).cell.Tidy := by
  obtain ⟨op, stamp⟩ := e
  cases op with
  | insert after value => exact Built.tidy h.2
  | delete id => exact trivial

section Writes

omit [LinearOrder P] [Inhabited P]

/-- Writes with one stamp are one write. -/
theorem written_eq (hU : DistinctStamps U) {w w' : RowEntry P} (hw : w ∈ writesTo U id)
    (hw' : w' ∈ writesTo U id) (hstamp : w.cell.stamp = w'.cell.stamp) : w = w' := by
  obtain ⟨e, he, -, rfl⟩ := hw
  obtain ⟨e', he', -, rfl⟩ := hw'
  rw [stamp_written, stamp_written] at hstamp
  rw [hU e he e' he' hstamp]

theorem writesTo_mono (h : ops ⊆ ops') : writesTo ops id ⊆ writesTo ops' id := by
  rintro w ⟨e, he, hid, rfl⟩
  exact ⟨e, h he, hid, rfl⟩

theorem writesTo_union : writesTo (ops ∪ ops') id = writesTo ops id ∪ writesTo ops' id := by
  ext w
  simp only [writesTo, Set.mem_union, Set.mem_ofPred_eq, or_and_right, exists_or]

/-- At most one of the writes about an element has a value: the insert. -/
theorem insert_of_value {w : RowEntry P} (hw : w ∈ writesTo U id) {v : Value P}
    (hv : w.cell.value = some v) : w.cell.stamp = id := by
  obtain ⟨⟨op, stamp⟩, he, hid, rfl⟩ := hw
  cases op with
  | insert after value => exact hid
  | delete id => cases hv

theorem insert_of_position {w : RowEntry P} (hw : w ∈ writesTo U id) (hpos : w.position ≠ .unknown) :
    w.cell.stamp = id := by
  obtain ⟨⟨op, stamp⟩, he, hid, rfl⟩ := hw
  cases op with
  | insert after value => exact hid
  | delete id => exact absurd rfl hpos

end Writes

theorem join_writes (hU : DistinctStamps U) (hvalid : ∀ e ∈ U, Valid e) {w w' : RowEntry P}
    (hw : w ∈ writesTo U id) (hw' : w' ∈ writesTo U id) :
    Succeeds (w.cell.join w'.cell) ∧
      (w.cell.join w'.cell).1 = if w.cell.stamp < w'.cell.stamp then w'.cell else w.cell := by
  by_cases hsame : w.cell.SameType w'.cell
  · obtain ⟨v, v', hv, hv', -⟩ := hsame
    -- both are the insert of the element
    have hstamp : w.cell.stamp = w'.cell.stamp :=
      (insert_of_value hw hv).trans (insert_of_value hw' hv').symm
    obtain rfl := written_eq hU hw hw' hstamp
    obtain ⟨e, he, -, rfl⟩ := hw
    rw [(tidy_written (hvalid e he)).join_self, if_neg (lt_irrefl _)]
    exact ⟨⟨false, rfl⟩, rfl⟩
  · rw [Cell.join_of_not_sameType hsame]
    split_ifs
    · exact ⟨⟨true, rfl⟩, rfl⟩
    · exact ⟨⟨false, rfl⟩, rfl⟩

omit [Inhabited P] in
/-- Without a conflict of positions an entry gets the position that one of the two knows. -/
theorem mergeEntry_of_positions (id : EventStamp P) {entry remote : RowEntry P}
    (hagree : entry.position ≠ .unknown → remote.position ≠ .unknown →
      entry.position = remote.position) :
    (Succeeds (mergeEntry id entry remote) ↔ Succeeds (entry.cell.join remote.cell)) ∧
      (mergeEntry id entry remote).1.cell = (entry.cell.join remote.cell).1 ∧
      ∀ position, position ≠ .unknown → ((mergeEntry id entry remote).1.position = position ↔
        entry.position = position ∨ remote.position = position) := by
  have hsucceeds : ∀ positioned : Bool, ∀ position,
      Succeeds ((⟨position, (entry.cell.join remote.cell).1⟩ : RowEntry P),
        ((entry.cell.join remote.cell).2.map (positioned || ·)).mapError
          fun e => (.list (.child e) : TypeError P)) ↔ Succeeds (entry.cell.join remote.cell) := by
    intro positioned position
    cases h : (entry.cell.join remote.cell).2 <;> simp [Succeeds, h, Except.map, Except.mapError]
  rw [mergeEntry]
  rcases adoptPosition_cases entry id remote.position with ⟨hpos, h⟩ | ⟨hne, hpos, h⟩ | ⟨hne, hne', hpos, -⟩
  · rw [h]
    refine ⟨hsucceeds _ _, rfl, fun position hposition => ?_⟩
    rcases hpos with hunknown | heq
    · rw [hunknown]
      exact (or_iff_left hposition.symm).symm
    · rw [heq]
      exact (or_self_iff).symm
  · rw [h]
    refine ⟨hsucceeds _ _, rfl, fun position hposition => ?_⟩
    rw [hpos]
    exact (or_iff_right hposition.symm).symm
  · exact absurd (hagree hne' hne) hpos

theorem mergeEntry_of_writes (hU : DistinctStamps U) (hvalid : ∀ e ∈ U, Valid e) (hops : ops ⊆ U)
    (hops' : ops' ⊆ U) {entry remote : RowEntry P} (h : EntryOf ops id (some entry))
    (h' : EntryOf ops' id (some remote)) :
    Succeeds (mergeEntry id entry remote) ∧ EntryOf (ops ∪ ops') id (some (mergeEntry id entry remote).1) := by
  obtain ⟨⟨w, hw, hcell⟩, hlatest, hposition⟩ := h
  obtain ⟨⟨w', hw', hcell'⟩, hlatest', hposition'⟩ := h'
  obtain ⟨hjoin, hvalue⟩ := join_writes hU hvalid (writesTo_mono hops hw) (writesTo_mono hops' hw')
  rw [← hcell, ← hcell'] at hjoin hvalue
  have hagree : entry.position ≠ .unknown → remote.position ≠ .unknown →
      entry.position = remote.position := by
    intro hne hne'
    obtain ⟨x, hx, hxpos⟩ := (hposition _ hne).mp rfl
    obtain ⟨y, hy, hypos⟩ := (hposition' _ hne').mp rfl
    have hx' := insert_of_position hx (hxpos ▸ hne)
    have hy' := insert_of_position hy (hypos ▸ hne')
    rw [← hxpos, ← hypos,
      written_eq hU (writesTo_mono hops hx) (writesTo_mono hops' hy) (hx'.trans hy'.symm)]
  obtain ⟨hok, hmerged, hpositions⟩ := mergeEntry_of_positions id hagree
  refine ⟨hok.mpr hjoin, ?_⟩
  rw [EntryOf, writesTo_union, hmerged, hvalue]
  refine ⟨?_, ?_, ?_⟩
  · split_ifs
    · exact ⟨w', Or.inr hw', hcell'⟩
    · exact ⟨w, Or.inl hw, hcell⟩
  · rintro x (hx | hx)
    · have hle := hlatest x hx
      split_ifs with hlt
      · exact hle.trans hlt.le
      · exact hle
    · have hle := hlatest' x hx
      split_ifs with hlt
      · exact hle
      · exact hle.trans (not_lt.mp hlt)
  · intro position hne
    rw [hpositions position hne, hposition position hne, hposition' position hne]
    simp only [Set.mem_union, or_and_right, exists_or]

omit [Inhabited P] in
theorem entryOf_union_left {v : Option (RowEntry P)} (h : EntryOf ops id v)
    (hempty : writesTo ops' id = ∅) : EntryOf (ops ∪ ops') id v := by
  cases v <;> simpa only [EntryOf, writesTo_union, hempty, Set.union_empty] using h

theorem entryOf_merge (hU : DistinctStamps U) (hvalid : ∀ e ∈ U, Valid e) (hops : ops ⊆ U)
    (hops' : ops' ⊆ U) {v v' : Option (RowEntry P)} (h : EntryOf ops id v) (h' : EntryOf ops' id v') :
    EntryOf (ops ∪ ops') id (SortedMap.mergeEntry mergeEntry id v v') := by
  cases v with
  | none =>
    rw [Set.union_comm]
    exact entryOf_union_left h' h
  | some entry =>
    cases v' with
    | none => exact entryOf_union_left h h'
    | some remote => exact (mergeEntry_of_writes hU hvalid hops hops' h h').2

theorem of_merge (hU : DistinctStamps U) (hvalid : ∀ e ∈ U, Valid e) (hops : ops ⊆ U)
    (hops' : ops' ⊆ U) {entries entries' : List (EventStamp P × RowEntry P)} (h : Of ops entries)
    (h' : Of ops' entries') :
    Succeeds (mergeMap mergeEntry entries entries' false) ∧
      Of (ops ∪ ops') (mergeMap mergeEntry entries entries' false).1 :=
  h.mergeMap h' (fun _ _ _ hl hr => (mergeEntry_of_writes hU hvalid hops hops' hl hr).1)
    fun _ _ _ => entryOf_merge hU hvalid hops hops'

omit [Inhabited P] in
/-- The list with a single element that one operation makes. -/
theorem of_singleton (e : ListOp P × EventStamp P) : Of {e} [(e.1.target e.2, e.1.written e.2)] := by
  have hwrites : ∀ id, writesTo {e} id = {w | e.1.target e.2 = id ∧ w = e.1.written e.2} := by
    intro id
    ext w
    simp [writesTo]
  refine ⟨List.pairwise_singleton _ _, fun id => ?_⟩
  rw [SortedMap.get]
  split_ifs with hid
  · rw [EntryOf, hwrites]
    have hmem : ∀ w, w ∈ {w | e.1.target e.2 = id ∧ w = e.1.written e.2} ↔ w = e.1.written e.2 :=
      fun w => and_iff_right hid.symm
    refine ⟨⟨_, (hmem _).mpr rfl, rfl⟩, fun w hw => ?_, fun position _ => ?_⟩
    · rw [(hmem w).mp hw]
    · simp only [hmem, exists_eq_left]
  · rw [get_nil, EntryOf, hwrites, Set.eq_empty_iff_forall_notMem]
    exact fun w hw => hid hw.1.symm

theorem of_apply (hU : DistinctStamps U) (hvalid : ∀ e ∈ U, Valid e) (hops : ops ⊆ U)
    {e : ListOp P × EventStamp P} (he : e ∈ U) {entries : List (EventStamp P × RowEntry P)}
    (h : Of ops entries) :
    Succeeds (e.1.apply entries e.2) ∧ Of (Insert.insert e ops) (e.1.apply entries e.2).1 := by
  have htarget := target_ne_default (hvalid e he)
  obtain ⟨hok, hof⟩ := of_merge hU hvalid hops (Set.singleton_subset_iff.mpr he) h (of_singleton e)
  rw [succeeds_apply, (apply_eq entries htarget).1, ← Set.union_singleton]
  exact ⟨⟨htarget, hok⟩, hof⟩

omit [Inhabited P] in
theorem entryOf_unique (hops : DistinctStamps ops) (id : EventStamp P) (v v' : Option (RowEntry P))
    (h : EntryOf ops id v) (h' : EntryOf ops id v') : v = v' := by
  cases v with
  | none =>
    cases v' with
    | none => rfl
    | some entry =>
      obtain ⟨w, hw, -⟩ := h'.1
      rw [show writesTo ops id = ∅ from h] at hw
      cases hw
  | some entry =>
    cases v' with
    | none =>
      obtain ⟨w, hw, -⟩ := h.1
      rw [show writesTo ops id = ∅ from h'] at hw
      cases hw
    | some entry' =>
      obtain ⟨⟨w, hw, hcell⟩, hlatest, hposition⟩ := h
      obtain ⟨⟨w', hw', hcell'⟩, hlatest', hposition'⟩ := h'
      have hcells : entry.cell = entry'.cell := by
        have hle := hlatest w' hw'
        have hle' := hlatest' w hw
        rw [hcell] at hle ⊢
        rw [hcell'] at hle' ⊢
        rw [written_eq hops hw hw' (le_antisymm hle' hle)]
      have hpositions : entry.position = entry'.position := by
        by_cases hne : entry.position = .unknown
        · by_contra hdiff
          have hne' : entry'.position ≠ .unknown := fun heq => hdiff (hne.trans heq.symm)
          exact hdiff ((hposition _ hne').mpr ((hposition' _ hne').mp rfl))
        · exact ((hposition' _ hne).mpr ((hposition _ hne).mp rfl)).symm
      cases entry
      cases entry'
      cases hcells
      cases hpositions
      rfl

/-- The lists among the values. -/
def ValueOf (ops : Set (ListOp P × EventStamp P)) (v : Value P) : Prop :=
  ∃ entries, v = .list entries ∧ Of ops entries

/-- The merge of lists does not look at the stamps of the cells that they are in. -/
def mergeLists (v remote : Value P) : Value P × Except (TypeError P) Bool :=
  v.merge remote ⟨default, default⟩

theorem determined (hU : DistinctStamps U) (hvalid : ∀ e ∈ U, Valid e) :
    Determined (.list []) (applyStamped fun v op stamp => Value.apply v (.list op) stamp) mergeLists U
      ValueOf := by
  refine ⟨?_, ?_, ?_, ?_⟩
  · refine ⟨[], rfl, MapOf.empty fun id => ?_⟩
    rw [EntryOf, Set.eq_empty_iff_forall_notMem]
    rintro w ⟨e, he, -⟩
    cases he
  · rintro ops v e hops he ⟨entries, rfl, hof⟩
    obtain ⟨hok, hof'⟩ := of_apply hU hvalid hops he hof
    exact ⟨Value.succeeds_apply_list.mpr hok, _, rfl, hof'⟩
  · rintro ops ops' v v' hops hops' ⟨entries, rfl, hof⟩ ⟨entries', rfl, hof'⟩
    have hmerge := of_merge hU hvalid hops hops' hof hof'
    rw [← mergeEntries_eq] at hmerge
    rw [mergeLists, Value.merge]
    exact ⟨hmerge.1, _, rfl, hmerge.2⟩
  · rintro ops v v' hops ⟨entries, rfl, hof⟩ ⟨entries', rfl, hof'⟩
    have hdistinct : DistinctStamps ops := fun e he e' he' => hU e (hops he) e' (hops he')
    rw [hof.unique (entryOf_unique hdistinct) hof']

/-- The replica of a list that a history leads to. -/
def replica (h : History (ListOp P × EventStamp P)) : Option (Value P) :=
  h.run (.list []) (applyStamped fun v op stamp => Value.apply v (.list op) stamp) mergeLists

end ListOp

/-- A list is a function of its inserts and deletes: every apply and merge goes through, and replicas
with the same operations are equal, whatever the order, repetitions and merges were. -/
theorem list_determined_by_operations (h : History (ListOp P × EventStamp P))
    (hdistinct : DistinctStamps {e | e ∈ h.events}) (hvalid : ∀ e ∈ h.events, ListOp.Valid e) :
    ∃ v, ListOp.replica h = some v ∧
      ∀ h', (∀ e, e ∈ h.events ↔ e ∈ h'.events) → ListOp.replica h' = some v := by
  have hD := ListOp.determined hdistinct hvalid
  obtain ⟨v, hv, -⟩ := hD.run_eq_some h fun _ he => he
  refine ⟨v, hv, fun h' hsame => ?_⟩
  rw [← hv]
  exact (hD.run_eq_run h h' (fun _ he => he) hsame).symm

/-- A counter that was counted up, as the value of an element. -/
def countedUp : Value Nat := ((TypeTag.emptyValue .counter).apply (.counter (.add 2)) ⟨⟨1, 1⟩, ⟨2, 0⟩⟩).1

/-- An element that is deleted before its insert arrives, twice and by a merge. -/
def deletedFirst : History (ListOp Nat × EventStamp Nat) :=
  .merge (.apply .empty (.delete ⟨⟨1, 2⟩, ⟨3, 0⟩⟩, ⟨⟨2, 1⟩, ⟨5, 0⟩⟩))
    (.apply (.apply .empty (.insert none countedUp, ⟨⟨1, 2⟩, ⟨3, 0⟩⟩))
      (.insert none countedUp, ⟨⟨1, 2⟩, ⟨3, 0⟩⟩))

theorem list_determined_by_operations_deleted_first :
    ∃ v, ListOp.replica deletedFirst = some v ∧
      ListOp.replica (.apply (.apply .empty (.insert none countedUp, ⟨⟨1, 2⟩, ⟨3, 0⟩⟩))
        (.delete ⟨⟨1, 2⟩, ⟨3, 0⟩⟩, ⟨⟨2, 1⟩, ⟨5, 0⟩⟩)) = some v := by
  have hbuilt : Built countedUp := Built.apply (Built.empty .counter) (by simp) ⟨true, rfl⟩
  have hdistinct : DistinctStamps {e | e ∈ deletedFirst.events} := by
    simp [DistinctStamps, deletedFirst, History.events]
  have hvalid : ∀ e ∈ deletedFirst.events, ListOp.Valid e := by
    have hdefault : (default : EventStamp Nat) = ⟨⟨0, 0⟩, ⟨0, 0⟩⟩ := rfl
    simp [deletedFirst, History.events, ListOp.Valid, hdefault, hbuilt]
  obtain ⟨v, hv, hsame⟩ := list_determined_by_operations deletedFirst hdistinct hvalid
  refine ⟨v, hv, hsame _ fun e => ?_⟩
  simp [deletedFirst, History.events, or_comm]

end ZenDB.Crdt
