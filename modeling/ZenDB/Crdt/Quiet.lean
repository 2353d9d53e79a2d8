import ZenDB.Crdt.Conflicts
import ZenDB.Crdt.Paths

namespace ZenDB.Crdt

open SortedMap

/-! Operations that report no change, because they find nothing to do or fail: when they fail, and
when they leave everything as it was. -/

section Leaves

variable {P S K V : Type} [LinearOrder S]

namespace Counter

variable [LinearOrder P]

/-- The contributions of a peer with an addition. -/
def added (c : Counter P) (peer : P) (delta : Int) : Nat × Nat :=
  let entry := (get c.entries peer).getD (0, 0)
  if 0 < delta then (entry.1+delta.natAbs, entry.2) else (entry.1, entry.2+delta.natAbs)

theorem addAt_eq (c : Counter P) (peer : P) (delta : Int) :
    c.addAt peer delta =
      if (c.added peer delta).1 < 2^64 ∧ (c.added peer delta).2 < 2^64 then
        (⟨SortedMap.insert c.entries peer (c.added peer delta)⟩, .ok true)
      else (⟨SortedMap.insert c.entries peer ((get c.entries peer).getD (0, 0))⟩, .error .overflow) :=
  rfl

/-- A contribution of the peer would leave the range of `u64`. -/
def Fails (c : Counter P) (op : CounterOp) (peer : P) : Prop :=
  match op with
  | .add delta => delta ≠ 0 ∧ (2^64 ≤ (c.added peer delta).1 ∨ 2^64 ≤ (c.added peer delta).2)

/-- An addition that overflows has made an entry for its peer. -/
def Keeps (c : Counter P) (op : CounterOp) (peer : P) : Prop :=
  match op with
  | .add delta => delta = 0 ∨ SortedMap.contains c.entries peer = true

theorem apply_fails (c : Counter P) (op : CounterOp) (peer : P) :
    (∃ e, (c.apply op peer).2 = .error e) ↔ c.Fails op peer := by
  cases op with
  | add delta =>
    rw [Counter.apply, Fails]
    by_cases hzero : delta = 0
    · simp [hzero]
    rw [if_neg hzero, addAt_eq, and_iff_right hzero, ← not_lt, ← not_lt, ← not_and_or]
    split_ifs with hrange
    · exact iff_of_false (by simp) (not_not.mpr hrange)
    · exact iff_of_true ⟨_, rfl⟩ hrange

theorem apply_kept {c : Counter P} (hc : c.WF) {op : CounterOp} {peer : P}
    (h : (c.apply op peer).2 ≠ .ok true) : (c.apply op peer).1 = c ↔ c.Keeps op peer := by
  cases op with
  | add delta =>
    rw [Counter.apply] at h ⊢
    rw [Keeps]
    by_cases hzero : delta = 0
    · simp [hzero]
    rw [if_neg hzero, addAt_eq] at h ⊢
    split_ifs at h ⊢
    · exact absurd rfl h
    · obtain ⟨entries⟩ := c
      rw [or_iff_right hzero, Counter.mk.injEq, insert_eq_iff hc.1, SortedMap.contains]
      cases get entries peer <;> simp

end Counter

namespace MvRegister

variable [DecidableEq V]

def Fails (r : MvRegister S V) (op : MvRegisterOp S V) (stamp : S) : Prop :=
  match op with
  | .assign value _ => ∃ existing, get r.entries stamp = some existing ∧ existing ≠ value

theorem apply_fails (r : MvRegister S V) (op : MvRegisterOp S V) (stamp : S) :
    (∃ e, (r.apply op stamp).2 = .error e) ↔ r.Fails op stamp := by
  cases op with
  | assign value replaces =>
    simp only [MvRegister.apply, Fails]
    cases get r.entries stamp with
    | none =>
      simp only [Option.any_none, Bool.false_eq_true, if_false, reduceCtorEq, false_and, exists_false,
        iff_false]
      split_ifs <;> simp
    | some existing =>
      by_cases hsame : existing = value
      · simp only [hsame, Option.any_some, ne_eq, not_true_eq_false, decide_false, Bool.false_eq_true,
          if_false, Option.some.injEq, exists_eq_left', iff_false]
        split_ifs <;> simp
      · simp [hsame]

/-- An assignment is refused before anything is written, and writes nothing where it has no effect. -/
theorem apply_kept {r : MvRegister S V} (hr : r.WF) {op : MvRegisterOp S V} {stamp : S}
    (h : (r.apply op stamp).2 ≠ .ok true) : (r.apply op stamp).1 = r := by
  cases op with
  | assign value replaces =>
    by_cases hfails : (get r.entries stamp).any (· ≠ value) = true
    · rw [MvRegister.apply, if_pos hfails]
    have hfalse : (r.apply (.assign value replaces) stamp).2 = .ok false := by
      rw [MvRegister.apply, if_neg hfails] at h ⊢
      dsimp only at h ⊢
      split_ifs at h ⊢
      · simpa using h
      · simpa using h
    obtain ⟨hvalue, hremoved, hentries, hknown⟩ := (apply_unchanged hr _ stamp).mp hfalse
    have hquiet := updateAll_unchanged _ _ ((updateAll_raise_unchanged r.removed replaces stamp).mpr hremoved)
    have hkept := eraseAll_of_absent hentries
    rw [MvRegister.apply, if_neg hfails]
    dsimp only
    rw [hquiet, hkept]
    split_ifs with hgone
    · rfl
    · obtain ⟨v, hv⟩ := Option.isSome_iff_exists.mp (hknown.resolve_left hgone)
      obtain rfl := hvalue v hv
      rw [insert_of_get hr.1.1 hv]

end MvRegister

namespace OrSet

variable [LinearOrder K]

/-- A removal that observed nothing still makes an entry for its key. -/
def Keeps (o : OrSet K S) (op : OrSetOp K S) : Prop :=
  match op with
  | .add _ => True
  | .remove key _ => SortedMap.contains o.entries key = true

theorem apply_kept {o : OrSet K S} (ho : o.WF) {op : OrSetOp K S} {stamp : S}
    (h : (o.apply op stamp).2 = false) : (o.apply op stamp).1 = o ↔ o.Keeps op := by
  have hholds := (o.apply_unchanged op stamp).mp h
  obtain ⟨entries⟩ := o
  cases op with
  | add key =>
    obtain ⟨entry, hget, hadds⟩ := hholds
    obtain ⟨u, hu⟩ := Option.isSome_iff_exists.mp hadds
    refine iff_of_true ?_ trivial
    simp only [OrSet.apply, OrSet.mk.injEq]
    rw [hget, Option.getD_some, insert_of_get (ho.2 key entry hget).1.1 hu]
    exact insert_of_get ho.1 hget
  | remove key observed =>
    simp only [OrSet.apply] at h
    simp only [OrSet.apply, Keeps, OrSet.mk.injEq]
    rw [updateAll_unchanged _ _ h, insert_eq_iff ho.1, SortedMap.contains]
    cases get entries key <;> simp

end OrSet

namespace PriorityQueue

variable [DecidableEq V]

def Fails (q : PriorityQueue S V) (op : PqOp S V) (stamp : S) : Prop :=
  match op with
  | .push priority value =>
    ∃ p v deletedAt, get q.entries stamp = some (.present p v deletedAt) ∧ (p ≠ priority ∨ v ≠ value)
  | .pop _ => False

theorem apply_fails (q : PriorityQueue S V) (op : PqOp S V) (stamp : S) :
    (∃ e, (q.apply op stamp).2 = .error e) ↔ q.Fails op stamp := by
  cases op with
  | push priority value =>
    simp only [PriorityQueue.apply, Fails]
    cases get q.entries stamp with
    | none => simp
    | some entry =>
      cases entry with
      | pendingPop deletedAt => simp
      | present p v deletedAt =>
        dsimp only
        split_ifs with hdiffer
        · exact iff_of_true ⟨_, rfl⟩ ⟨p, v, deletedAt, rfl, hdiffer⟩
        · refine iff_of_false (by simp) ?_
          rintro ⟨p', v', deletedAt', heq, hdiffer'⟩
          cases heq
          exact hdiffer hdiffer'
  | pop id =>
    simp only [PriorityQueue.apply, Fails, iff_false]
    split_ifs
    · simp
    · cases get q.entries id with
      | none => simp
      | some entry => cases entry <;> simp

omit [DecidableEq V] in
theorem mergeClock_kept {clock : Option S} {stamp : S}
    (h : (mergeClock clock (some stamp)).2 = false) : (mergeClock clock (some stamp)).1 = clock := by
  obtain ⟨existing, rfl, hle⟩ := mergeClock_unchanged.mp h
  rw [mergeClock_some, max_eq_left hle]

theorem apply_kept {q : PriorityQueue S V} (hq : q.WF) {op : PqOp S V} {stamp : S}
    (h : (q.apply op stamp).2 ≠ .ok true) : (q.apply op stamp).1 = q := by
  obtain ⟨entries⟩ := q
  cases op with
  | push priority value =>
    simp only [PriorityQueue.apply] at h ⊢
    cases hget : get entries stamp with
    | none => simp [hget] at h
    | some entry =>
      cases entry with
      | pendingPop deletedAt => simp [hget] at h
      | present p v deletedAt =>
        dsimp only
        split_ifs <;> rfl
  | pop id =>
    simp only [PriorityQueue.apply] at h ⊢
    split_ifs at h ⊢ with hle
    · rfl
    cases hget : get entries id with
    | none => simp [hget] at h
    | some entry =>
      cases entry with
      | pendingPop deletedAt =>
        simp only [hget, ne_eq, Except.ok.injEq, Bool.not_eq_true] at h
        have hclock := mergeRequiredClock_unchanged.mp h
        simp only [mergeRequiredClock_eq, max_eq_left hclock]
        rw [insert_of_get hq.1 hget]
      | present p v deletedAt =>
        simp only [hget, ne_eq, Except.ok.injEq, Bool.not_eq_true] at h
        simp only [mergeClock_kept h]
        rw [insert_of_get hq.1 hget]

end PriorityQueue

namespace LwwSet

variable [LinearOrder K] [Inhabited S]

/-- An operation at the default stamp still makes an entry for its key. -/
def Keeps (s : LwwSet K S) (op : SetOp K) : Prop :=
  match op with
  | .add key => SortedMap.contains s.entries key = true
  | .remove key => SortedMap.contains s.entries key = true

theorem apply_kept {s : LwwSet K S} (hs : s.WF) {op : SetOp K} {stamp : S}
    (h : (s.apply op stamp).2 = false) : (s.apply op stamp).1 = s ↔ s.Keeps op := by
  obtain ⟨entries⟩ := s
  have hclock : ∀ {clock : S}, (mergeRequiredClock clock stamp).2 = false →
      (mergeRequiredClock clock stamp).1 = clock := by
    intro clock hfalse
    rw [mergeRequiredClock_eq, max_eq_left (mergeRequiredClock_unchanged.mp hfalse)]
  cases op with
  | add key =>
    simp only [LwwSet.apply] at h
    simp only [LwwSet.apply, Keeps, LwwSet.mk.injEq, hclock h]
    rw [insert_eq_iff hs.1, SortedMap.contains]
    cases get entries key <;> simp
  | remove key =>
    simp only [LwwSet.apply] at h
    simp only [LwwSet.apply, Keeps, LwwSet.mk.injEq, hclock h]
    rw [insert_eq_iff hs.1, SortedMap.contains]
    cases get entries key <;> simp

end LwwSet

namespace Text

variable [Inhabited S]

def Fails (t : Text S V) (op : TextOp S V) (stamp : S) : Prop :=
  stamp = default ∨
  match op with
  | .insert after text =>
    ¬ Proper after.toList ∨ (∃ a ∈ after, a.stamp = stamp) ∨ 2^32 ≤ text.toList.length ∨
      ∃ e ∈ t.entries, conflicts after text.toList stamp e = true
  | .delete ids => ¬ Proper ids
  | .format ids _ _ => ¬ Proper ids

theorem apply_fails (t : Text S V) (op : TextOp S V) (stamp : S) :
    (∃ e, (t.apply op stamp).2 = .error e) ↔ t.Fails op stamp := by
  rw [Text.apply.eq_def, Fails.eq_def]
  by_cases hstamp : stamp = default
  · simp [hstamp]
  rw [if_neg hstamp, or_iff_right hstamp]
  cases op with
  | insert after text =>
    have hanchor : after.any (·.stamp = default) = true ↔ ¬ Proper after.toList := by
      cases after <;> simp [Proper]
    have hself : after.any (·.stamp = stamp) = true ↔ ∃ a ∈ after, a.stamp = stamp := by
      cases after <;> simp
    have hknown : (∃ e ∈ t.entries, conflicts after text.toList stamp e = true) ↔
        t.entries.find? (conflicts after text.toList stamp) ≠ none := by
      rw [Ne, List.find?_eq_none]
      push Not
      rfl
    dsimp only
    rw [← hanchor, ← hself, hknown]
    cases after.any (·.stamp = default) with
    | true => simp
    | false =>
      cases after.any (·.stamp = stamp) with
      | true => simp
      | false =>
        by_cases hlong : 2^32 ≤ text.toList.length
        · simp only [Bool.false_eq_true, if_false, hlong, if_true, true_or, or_true, iff_true]
          exact ⟨_, rfl⟩
        · cases t.entries.find? (conflicts after text.toList stamp) with
          | some e =>
            simp only [Bool.false_eq_true, if_false, hlong]
            simp
          | none =>
            simp only [Bool.false_eq_true, if_false, hlong]
            simp
  | delete ids =>
    dsimp only
    rw [← not_any_default]
    cases ids.any (·.stamp = default) <;> simp
  | format ids key value =>
    dsimp only
    rw [← not_any_default]
    cases ids.any (·.stamp = default) <;> simp

/-- Operations on texts are checked before anything is written. -/
theorem apply_kept {t : Text S V} {op : TextOp S V} {stamp : S}
    (h : (t.apply op stamp).2 ≠ .ok true) : (t.apply op stamp).1 = t := by
  have hloop : ∀ {g : TextId S → Option (TextEntry S V) → Option (TextEntry S V)} {ids},
      (.ok (updateAll g t.entries ids).2 : Except (TextError S) Bool) ≠ .ok true →
        (updateAll g t.entries ids).1 = t.entries := by
    intro g ids hne
    exact updateAll_unchanged _ _ (by simpa using hne)
  rw [Text.apply.eq_def] at h ⊢
  by_cases hstamp : stamp = default
  · rw [if_pos hstamp]
  rw [if_neg hstamp] at h ⊢
  cases op with
  | insert after text =>
    dsimp only at h ⊢
    split_ifs at h ⊢
    · rfl
    · rfl
    · rfl
    · cases hfind : t.entries.find? (conflicts after text.toList stamp) with
      | some e => rfl
      | none =>
        rw [hfind] at h
        simp only [hloop h]
  | delete ids =>
    dsimp only at h ⊢
    split_ifs at h ⊢
    · rfl
    · simp only [hloop h]
  | format ids key value =>
    dsimp only at h ⊢
    split_ifs at h ⊢
    · rfl
    · simp only [hloop h]

end Text

end Leaves

variable {P : Type} [LinearOrder P] [Inhabited P]

namespace ListOp

/-- The id is not proper, or its element is in conflict with what the operation writes. -/
def Fails (entries : List (EventStamp P × RowEntry P)) (op : ListOp P) (stamp : EventStamp P) :
    Prop :=
  op.target stamp = default ∨ ∃ entry, get entries (op.target stamp) = some entry ∧
    (entry.PositionConflicts (op.written stamp) ∨ entry.cell.Conflicts (op.written stamp).cell)

/-- The element takes over no position before a conflict below it is found. -/
def Keeps (entries : List (EventStamp P × RowEntry P)) (op : ListOp P) (stamp : EventStamp P) :
    Prop :=
  op.target stamp = default ∨ ∃ entry, get entries (op.target stamp) = some entry ∧
    (entry.PositionConflicts (op.written stamp) ∨
      ((op.written stamp).position = .unknown ∨ entry.position = (op.written stamp).position) ∧
        (entry.cell.Conflicts (op.written stamp).cell → entry.cell.FailsEarly (op.written stamp).cell))

variable {entries : List (EventStamp P × RowEntry P)} {op : ListOp P} {stamp : EventStamp P}

omit [Inhabited P] in
theorem wf_written (hop : TypeOp.AllInserted Value.LeafWF (.list op)) :
    (op.written stamp).cell.WF := by
  cases op with
  | insert after value => exact hop
  | delete id => exact trivial

omit [Inhabited P] in
theorem get_singleton {id key : EventStamp P} {e r : RowEntry P} :
    get [(id, e)] key = some r ↔ key = id ∧ e = r := by
  by_cases h : key = id <;> simp [SortedMap.get, h]

theorem apply_fails (hentries : WMap (fun e => e.cell.WF) entries)
    (hop : TypeOp.AllInserted Value.LeafWF (.list op)) :
    (∃ e, (op.apply entries stamp).2 = .error e) ↔ op.Fails entries stamp := by
  rw [← not_succeeds_iff, succeeds_apply, not_and_or, not_not, Fails]
  refine or_congr Iff.rfl ?_
  have hmerge : ∀ id e r, get entries id = some e →
      get [(op.target stamp, op.written stamp)] id = some r →
        (¬ Succeeds (mergeEntry id e r) ↔ e.PositionConflicts r ∨ e.cell.Conflicts r.cell) := by
    intro id e r he hr
    obtain ⟨rfl, rfl⟩ := get_singleton.mp hr
    exact (mergeEntry_fails _ (joinFails (hentries.2 _ e he) (wf_written hop))).1
  rw [fails_mergeMap (List.pairwise_singleton _ _) hmerge, ConflictsMap]
  simp only [get_singleton]
  constructor
  · intro h
    obtain ⟨id, e, r, he, ⟨rfl, rfl⟩, h⟩ := h
    exact ⟨e, he, h⟩
  · intro h
    obtain ⟨e, he, h⟩ := h
    exact ⟨_, e, _, he, ⟨rfl, rfl⟩, h⟩

theorem apply_kept (hentries : WMap (fun e => e.cell.WF) entries)
    (hop : TypeOp.AllInserted Value.LeafWF (.list op)) (h : (op.apply entries stamp).2 ≠ .ok true) :
    (op.apply entries stamp).1 = entries ↔ op.Keeps entries stamp := by
  by_cases htarget : op.target stamp = default
  · rw [apply_zero entries htarget]
    exact iff_of_true rfl (Or.inl htarget)
  have hsingle : Sorted (· < ·) [(op.target stamp, op.written stamp)] := List.pairwise_singleton _ _
  have hwritten : (op.written stamp).cell.WF := wf_written hop
  rw [Keeps, or_iff_right htarget, (apply_eq entries htarget).1]
  rcases ne_ok_true_iff.mp h with hfalse | herror
  · -- nothing to do: the element covers what the operation writes
    obtain ⟨-, entry, hget, hcovers⟩ := (apply_unchanged hentries hop stamp).mp hfalse
    have htells := joinTells (hentries.2 _ _ hget) hwritten
    have hfalse' := ((apply_eq entries htarget).2 false).mp hfalse
    refine iff_of_true ?_ ⟨entry, hget, Or.inr ⟨hcovers.1, fun hconflict => ?_⟩⟩
    · rw [mergeMap_same hentries.1 hsingle ⟨false, hfalse'⟩]
      intro id r hr
      obtain ⟨rfl, rfl⟩ := get_singleton.mp hr
      exact ⟨entry, hget, ((mergeEntry_kept htells).mpr hcovers).2⟩
    · have hfails := (joinFails (hentries.2 _ _ hget) hwritten).1.mpr hconflict
      exact absurd (htells.kept_iff.mpr hcovers.2).1 hfails
  · have hfails : ¬ Succeeds (mergeMap mergeEntry entries
        [(op.target stamp, op.written stamp)] false) := by
      intro hok
      exact not_succeeds_iff.mpr herror (succeeds_apply.mpr ⟨htarget, hok⟩)
    have hmerge := fun id e r (he : get entries id = some e)
        (hr : get [(op.target stamp, op.written stamp)] id = some r) =>
      mergeEntry_fails id (joinFails (hentries.2 id e he) ((get_singleton.mp hr).2 ▸ hwritten))
    rw [failed_mergeMap_same hentries.1 hsingle (fun id e r he hr => (hmerge id e r he hr).2)
      (fun id e r he hr => mergeEntry_kept
        (joinTells (hentries.2 id e he) ((get_singleton.mp hr).2 ▸ hwritten))) hfails]
    obtain ⟨entry, hget, hconflict⟩ := ((apply_fails hentries hop).mp herror).resolve_left htarget
    constructor
    · intro hearly
      obtain ⟨id, ⟨e, r, he, hr, hkept⟩, -⟩ := hearly
      obtain ⟨rfl, rfl⟩ := get_singleton.mp hr
      exact ⟨e, he, hkept.imp id fun hboth => ⟨hboth.1, fun _ => hboth.2⟩⟩
    · intro hkeeps
      obtain ⟨e, he, hkept⟩ := hkeeps
      rw [hget] at he
      cases he
      refine ⟨op.target stamp, ⟨entry, _, hget, get_singleton.mpr ⟨rfl, rfl⟩, ?_⟩, ?_⟩
      · rcases hkept with hposition | ⟨hposition, hearly⟩
        · exact Or.inl hposition
        · exact hconflict.imp id fun hcell => ⟨hposition, hearly hcell⟩
      · intro id hid r hr
        exact absurd hid ((get_singleton.mp hr).1 ▸ lt_irrefl _)

end ListOp

namespace Value

/-- An operation fails on a value of its type, or meets another type. -/
def Fails (v : Value P) (op : TypeOp P) (stamp : EventStamp P) : Prop :=
  match v, op with
  | .counter c, .counter op => c.Fails op stamp.id.peerId
  | .mvRegister r, .mvRegister op => r.Fails op stamp
  | .orSet _, .orSet _ => False
  | .priorityQueue q, .priorityQueue op => q.Fails op stamp
  | .set _, .set _ => False
  | .text t, .text op => t.Fails op stamp
  | .list entries, .list op => op.Fails entries stamp
  | _, _ => True

/-- An operation that reports no change leaves the value as it was. -/
def Keeps (v : Value P) (op : TypeOp P) (stamp : EventStamp P) : Prop :=
  match v, op with
  | .counter c, .counter op => c.Keeps op stamp.id.peerId
  | .orSet o, .orSet op => o.Keeps op
  | .set s, .set op => s.Keeps op
  | .list entries, .list op => op.Keeps entries stamp
  | _, _ => True

theorem mapError_error_iff {ε ε' α : Type} {r : Except ε α} {f : ε → ε'} :
    (∃ e, r.mapError f = .error e) ↔ ∃ e, r = .error e := by
  cases r <;> simp [Except.mapError]

theorem typeTag_apply (v : Value P) (op : TypeOp P) (stamp : EventStamp P) :
    (v.apply op stamp).1.typeTag = v.typeTag := by
  cases op <;> cases v <;> rfl

variable {v : Value P} {op : TypeOp P} {stamp : EventStamp P}

theorem apply_fails (hv : v.WF) (hop : op.AllInserted Value.LeafWF) :
    (∃ e, (v.apply op stamp).2 = .error e) ↔ v.Fails op stamp := by
  cases op with
  | counter op =>
    cases v with
    | counter c => exact mapError_error_iff.trans (c.apply_fails op _)
    | _ => exact iff_of_true ⟨_, rfl⟩ trivial
  | mvRegister op =>
    cases v with
    | mvRegister r => exact mapError_error_iff.trans (r.apply_fails op stamp)
    | _ => exact iff_of_true ⟨_, rfl⟩ trivial
  | orSet op =>
    cases v with
    | orSet o => exact iff_of_false (by simp [Value.apply]) id
    | _ => exact iff_of_true ⟨_, rfl⟩ trivial
  | priorityQueue op =>
    cases v with
    | priorityQueue q => exact mapError_error_iff.trans (q.apply_fails op stamp)
    | _ => exact iff_of_true ⟨_, rfl⟩ trivial
  | set op =>
    cases v with
    | set s => exact iff_of_false (by simp [Value.apply]) id
    | _ => exact iff_of_true ⟨_, rfl⟩ trivial
  | text op =>
    cases v with
    | text t => exact mapError_error_iff.trans (t.apply_fails op stamp)
    | _ => exact iff_of_true ⟨_, rfl⟩ trivial
  | list op =>
    cases v with
    | list entries =>
      rw [Value.WF, all_list] at hv
      exact mapError_error_iff.trans (ListOp.apply_fails hv hop)
    | _ => exact iff_of_true ⟨_, rfl⟩ trivial

theorem apply_kept (hv : v.WF) (hop : op.AllInserted Value.LeafWF)
    (h : (v.apply op stamp).2 ≠ .ok true) : (v.apply op stamp).1 = v ↔ v.Keeps op stamp := by
  cases op with
  | counter op =>
    cases v with
    | counter c =>
      rw [Value.apply, Ne, mapError_ok_iff] at h
      exact (Value.counter.injEq _ _).to_iff.trans (Counter.apply_kept hv h)
    | _ => exact iff_of_true rfl trivial
  | mvRegister op =>
    cases v with
    | mvRegister r =>
      rw [Value.apply, Ne, mapError_ok_iff] at h
      exact iff_of_true (congrArg Value.mvRegister (MvRegister.apply_kept hv h)) trivial
    | _ => exact iff_of_true rfl trivial
  | orSet op =>
    cases v with
    | orSet o =>
      have hfalse : (o.apply op stamp).2 = false := by simpa [Value.apply] using h
      exact (Value.orSet.injEq _ _).to_iff.trans (OrSet.apply_kept hv hfalse)
    | _ => exact iff_of_true rfl trivial
  | priorityQueue op =>
    cases v with
    | priorityQueue q =>
      rw [Value.apply, Ne, mapError_ok_iff] at h
      exact iff_of_true (congrArg Value.priorityQueue (PriorityQueue.apply_kept hv h)) trivial
    | _ => exact iff_of_true rfl trivial
  | set op =>
    cases v with
    | set s =>
      have hfalse : (s.apply op stamp).2 = false := by simpa [Value.apply] using h
      exact (Value.set.injEq _ _).to_iff.trans (LwwSet.apply_kept hv hfalse)
    | _ => exact iff_of_true rfl trivial
  | text op =>
    cases v with
    | text t =>
      rw [Value.apply, Ne, mapError_ok_iff] at h
      exact iff_of_true (congrArg Value.text (Text.apply_kept h)) trivial
    | _ => exact iff_of_true rfl trivial
  | list op =>
    cases v with
    | list entries =>
      rw [Value.apply, Ne, mapError_ok_iff] at h
      rw [Value.WF, all_list] at hv
      exact (Value.list.injEq _ _).to_iff.trans (ListOp.apply_kept hv hop h)
    | _ => exact iff_of_true rfl trivial

end Value

namespace Cell

/-- The operation fails at the cell itself. -/
def FailsOp (c : RowCell P) (op : Op P) (stamp : EventStamp P) : Prop :=
  match op with
  | .type op => ¬ c.Refuses op.typeTag stamp ∧
    ∃ v, (c.shown op.typeTag stamp).value = some v ∧ v.Fails op stamp
  | .delete => False
  | .upsert _ => False
  | .merge cell => c.Conflicts cell

/-- The operation finds a value of its type that it leaves as it was. -/
def KeepsOp (c : RowCell P) (op : Op P) (stamp : EventStamp P) : Prop :=
  match op with
  | .type op => c.Refuses op.typeTag stamp ∨
    c.typeTag = some op.typeTag ∧ ∃ v, c.value = some v ∧ v.Keeps op stamp
  | .delete => True
  | .upsert _ => True
  | .merge cell => c.Conflicts cell → c.FailsEarly cell

def FailsChild (child : RowCell P) (tag : Option TypeTag) (stamp : EventStamp P)
    (Q : RowCell P → Prop) : Prop :=
  match tag with
  | none => Q child
  | some tag => ¬ child.Refuses tag stamp ∧ Q (child.shown tag stamp)

/-- A child that is made of another type does not stay as it was. -/
def KeepsChild (child : RowCell P) (tag : Option TypeTag) (stamp : EventStamp P)
    (Q : RowCell P → Prop) : Prop :=
  match tag with
  | none => Q child
  | some tag => child.Refuses tag stamp ∨ child.typeTag = some tag ∧ Q child

/-- The walk ends in an error. -/
def Fails (op : Op P) (stamp : EventStamp P) : List (Segment P) → RowCell P → Prop
  | [], c => c.FailsOp op stamp
  | segment :: path, c => ¬ c.Refuses segment.typeTag stamp ∧
    (segment = .list default ∨
      ((c.child segment).getD (newChild (childTag op path))).FailsChild (childTag op path) stamp
        (Fails op stamp path))

/-- The walk finds every cell on its path, each of the type that it needs, or is refused on its
way. -/
def Keeps (op : Op P) (stamp : EventStamp P) : List (Segment P) → RowCell P → Prop
  | [], c => c.KeepsOp op stamp
  | segment :: path, c => c.Refuses segment.typeTag stamp ∨
    c.typeTag = some segment.typeTag ∧
      (segment = .list default ∨ ∃ d, c.child segment = some d ∧
        d.KeepsChild (childTag op path) stamp (Keeps op stamp path))

variable {c : RowCell P} {op : Op P} {stamp : EventStamp P}

theorem applyType_eq {op : TypeOp P} (h : ¬ c.Refuses op.typeTag stamp) {v : Value P}
    {s : EventStamp P} (hshown : c.shown op.typeTag stamp = ⟨some v, s⟩) :
    (c.applyType op stamp).1.value = some (v.apply op stamp).1 ∧
      (c.applyType op stamp).2 = (v.apply op stamp).2 ∧
      ((v.apply op stamp).2 ≠ .ok true → (c.applyType op stamp).1.stamp = s) := by
  rcases ensureType_eq c op.typeTag stamp with ⟨hrefuses, -⟩ | ⟨-, heq⟩
  · exact absurd hrefuses h
  · rw [applyType, heq, hshown]
    dsimp only
    rcases v.apply op stamp with ⟨w, e | _ | _⟩ <;> simp

theorem applyType_refused {op : TypeOp P} (h : c.Refuses op.typeTag stamp) :
    c.applyType op stamp = (c, .ok false) := by
  rcases ensureType_eq c op.typeTag stamp with ⟨-, heq⟩ | ⟨hno, -⟩
  · simp only [applyType, heq]
  · exact absurd h hno

omit [LinearOrder P] [Inhabited P] in
/-- What an operation is shown has a value of its type. -/
theorem exists_shown (c : RowCell P) (tag : TypeTag) (stamp : EventStamp P) :
    ∃ v s, c.shown tag stamp = ⟨some v, s⟩ ∧ v.typeTag = tag := by
  obtain ⟨v, hv, htag⟩ := Option.map_eq_some_iff.mp (typeTag_shown c tag stamp)
  refine ⟨v, (c.shown tag stamp).stamp, ?_, htag⟩
  rw [← hv]

theorem apply_fails (hc : c.WF) (hop : op.WF) :
    (∃ e, (c.apply op stamp).2 = .error e) ↔ c.FailsOp op stamp := by
  cases op with
  | type op =>
    rw [apply, FailsOp]
    by_cases hrefuses : c.Refuses op.typeTag stamp
    · rw [applyType_refused hrefuses]
      simp [hrefuses]
    obtain ⟨v, s, hshown, -⟩ := exists_shown c op.typeTag stamp
    have hv : v.WF := by
      have hwf := wf_shown hc op.typeTag stamp
      rw [hshown] at hwf
      exact hwf
    rw [(applyType_eq hrefuses hshown).2.1, Value.apply_fails hv hop, hshown, and_iff_right hrefuses]
    simp
  | delete =>
    refine iff_of_false ?_ id
    rw [apply]
    split_ifs <;> simp
  | upsert value =>
    refine iff_of_false ?_ id
    rw [apply]
    split_ifs <;> simp
  | merge cell => exact not_succeeds_iff.symm.trans (joinFails hc hop).1

theorem apply_kept (hc : c.WF) (hop : op.WF) (h : (c.apply op stamp).2 ≠ .ok true) :
    (c.apply op stamp).1 = c ↔ c.KeepsOp op stamp := by
  cases op with
  | type op =>
    rw [apply] at h ⊢
    rw [KeepsOp]
    by_cases hrefuses : c.Refuses op.typeTag stamp
    · rw [applyType_refused hrefuses]
      exact iff_of_true rfl (Or.inl hrefuses)
    obtain ⟨v, s, hshown, hv⟩ := exists_shown c op.typeTag stamp
    obtain ⟨hvalue, hanswer, hstamp⟩ := applyType_eq hrefuses hshown
    rw [hanswer] at h
    rw [or_iff_right hrefuses]
    by_cases htag : c.typeTag = some op.typeTag
    · rw [shown_of_typeTag htag] at hshown
      subst hshown
      have hkept := Value.apply_kept (v := v) hc hop h
      have hsame : (applyType ⟨some v, s⟩ op stamp).1 = ⟨some v, s⟩ ↔ (v.apply op stamp).1 = v := by
        have hstamp' := hstamp h
        generalize (applyType ⟨some v, s⟩ op stamp).1 = after at hvalue hstamp'
        obtain ⟨value, stamp'⟩ := after
        obtain rfl : value = _ := hvalue
        obtain rfl : stamp' = s := hstamp'
        simp
      rw [hsame, hkept, and_iff_right htag]
      simp
    · refine iff_of_false (fun hsame => htag ?_) fun hkeeps => htag hkeeps.1
      rw [← hsame, typeTag, hvalue, Option.map_some, Value.typeTag_apply, hv]
  | delete =>
    rw [apply] at h ⊢
    split_ifs at h ⊢
    · exact iff_of_true rfl trivial
    · exact absurd rfl h
  | upsert value =>
    rw [apply] at h ⊢
    split_ifs at h ⊢
    · exact iff_of_true rfl trivial
    · exact absurd rfl h
  | merge cell =>
    have hfails := joinFails hc hop
    rcases ne_ok_true_iff.mp h with hfalse | herror
    · have htells := joinTells hc hop
      have hkept := htells.kept_iff.mpr (htells.1.mp hfalse)
      exact iff_of_true hkept.2 fun hconflict => absurd hkept.1 (hfails.1.mpr hconflict)
    · have hno := not_succeeds_iff.mpr herror
      have hconflict := hfails.1.mp hno
      rw [KeepsOp, imp_iff_right hconflict]
      exact hfails.2 hno

theorem enter_fails (child : Option (RowCell P)) (tag : Option TypeTag)
    (walk : RowCell P → RowCell P × Except (TypeError P) Bool) :
    (∃ e, (enter child tag stamp walk).2 = .error e) ↔
      (child.getD (newChild tag)).FailsChild tag stamp fun c => ∃ e, (walk c).2 = .error e := by
  cases tag with
  | none => rfl
  | some t =>
    simp only [enter, FailsChild]
    rcases ensureType_eq (child.getD (newChild (some t))) t stamp with
      ⟨hrefuses, heq⟩ | ⟨hrefuses, heq⟩ <;> rw [heq] <;> simp [hrefuses]

/-- A walk ends in an error exactly where an operation fails that is not refused before. -/
theorem applyWalk_fails (hop : op.WF) (path : List (Segment P)) (hc : c.WF) :
    (∃ e, (applyWalk op stamp path c).2 = .error e) ↔ Fails op stamp path c := by
  induction path generalizing c with
  | nil => exact apply_fails hc hop
  | cons segment path ih =>
    rw [Fails]
    by_cases hrefuses : c.Refuses segment.typeTag stamp
    · rw [applyWalk_refused hrefuses]
      simp [hrefuses]
    rw [and_iff_right hrefuses]
    by_cases hsegment : segment = .list default
    · subst hsegment
      rw [applyWalk_zeroId op path hrefuses]
      exact iff_of_true ⟨_, rfl⟩ (Or.inl rfl)
    rw [or_iff_right hsegment]
    have hwf := wf_findChild hc segment stamp (childTag op path)
    rw [child_shown] at hwf
    have hanswer := (applyWalk_step op path hrefuses hsegment).1
    have herror : (∃ e, (applyWalk op stamp (segment :: path) c).2 = .error e) ↔
        ∃ e, (enter (c.child segment) (childTag op path) stamp (applyWalk op stamp path)).2 =
          .error e := by
      rw [← not_succeeds_iff, ← not_succeeds_iff]
      exact not_congr (exists_congr hanswer)
    rw [herror, enter_fails]
    cases hpath : childTag op path with
    | none => exact ih (hpath ▸ hwf)
    | some tag => exact and_congr_right fun _ => ih (wf_shown (hpath ▸ hwf) tag stamp)

theorem typeTag_applyWalk_cons (op : Op P) (path : List (Segment P)) {segment : Segment P}
    (h : ¬ c.Refuses segment.typeTag stamp) :
    (applyWalk op stamp (segment :: path) c).1.typeTag = some segment.typeTag := by
  cases segment with
  | record field =>
    obtain ⟨fields, s, hshown⟩ := eq_record (typeTag_shown c .record stamp)
    rw [applyWalk_record h hshown]
    rfl
  | list id =>
    obtain ⟨entries, s, hshown⟩ := eq_list (typeTag_shown c .list stamp)
    rw [applyWalk_list h hshown]
    split_ifs <;> rfl

/-- A cell of the type that a walk needs keeps it, if no change is reported. -/
theorem typeTag_applyWalk {path : List (Segment P)} {tag : TypeTag} (htag : childTag op path = some tag)
    (hc : c.typeTag = some tag) (h : (applyWalk op stamp path c).2 ≠ .ok true) :
    (applyWalk op stamp path c).1.typeTag = some tag := by
  cases path with
  | nil =>
    cases op with
    | type op =>
      obtain rfl : op.typeTag = tag := Option.some.inj htag
      have hrefuses : ¬ c.Refuses op.typeTag stamp := fun hno => hno.1 hc
      obtain ⟨v, s, hshown, hv⟩ := exists_shown c op.typeTag stamp
      rw [applyWalk, apply, typeTag, (applyType_eq hrefuses hshown).1, Option.map_some,
        Value.typeTag_apply, hv]
    | delete => cases htag
    | upsert value =>
      rw [applyWalk, apply] at h ⊢
      split_ifs at h ⊢
      · exact hc
      · exact absurd rfl h
    | merge cell =>
      obtain ⟨v, hv, hvtag⟩ := Option.map_eq_some_iff.mp hc
      obtain ⟨r, hr, hrtag⟩ := Option.map_eq_some_iff.mp (htag : cell.typeTag = some tag)
      rw [applyWalk, apply, typeTag, value_join hv hr (hvtag.trans hrtag.symm), Option.map_some,
        Value.typeTag_merge, hvtag]
  | cons segment path =>
    obtain rfl : segment.typeTag = tag := Option.some.inj htag
    exact typeTag_applyWalk_cons op path fun hno => hno.1 hc

/-- A child stays as it was exactly where the walk below it keeps it. -/
theorem enter_kept {d : RowCell P} {path : List (Segment P)}
    (ih : (applyWalk op stamp path d).2 ≠ .ok true →
      ((applyWalk op stamp path d).1 = d ↔ Keeps op stamp path d))
    (h : (enter (some d) (childTag op path) stamp (applyWalk op stamp path)).2 ≠ .ok true) :
    (enter (some d) (childTag op path) stamp (applyWalk op stamp path)).1 = d ↔
      d.KeepsChild (childTag op path) stamp (Keeps op stamp path) := by
  cases hpath : childTag op path with
  | none =>
    rw [hpath] at h
    exact ih h
  | some tag =>
    rw [hpath] at h
    simp only [enter, Option.getD_some] at h ⊢
    rw [KeepsChild]
    rcases ensureType_eq d tag stamp with ⟨hrefuses, heq⟩ | ⟨hrefuses, heq⟩
    · rw [heq]
      exact iff_of_true rfl (Or.inl hrefuses)
    rw [heq] at h ⊢
    rw [or_iff_right hrefuses]
    by_cases htag : d.typeTag = some tag
    · rw [shown_of_typeTag htag] at h ⊢
      rw [and_iff_right htag]
      exact ih h
    · have hwalked := typeTag_applyWalk hpath (typeTag_shown d tag stamp) h
      refine iff_of_false (fun hsame => htag ?_) fun hkeeps => htag hkeeps.1
      rw [← hwalked]
      exact congrArg Cell.typeTag hsame.symm

theorem applyWalk_kept (hop : op.WF) (path : List (Segment P)) (hc : c.WF)
    (h : (applyWalk op stamp path c).2 ≠ .ok true) :
    (applyWalk op stamp path c).1 = c ↔ Keeps op stamp path c := by
  induction path generalizing c with
  | nil => exact apply_kept hc hop h
  | cons segment path ih =>
    rw [Keeps]
    by_cases hrefuses : c.Refuses segment.typeTag stamp
    · rw [applyWalk_refused hrefuses]
      exact iff_of_true rfl (Or.inl hrefuses)
    rw [or_iff_right hrefuses]
    by_cases htag : c.typeTag = some segment.typeTag
    · rw [and_iff_right htag]
      have hsame := shown_of_typeTag htag stamp
      have hbelow : ∀ d, c.child segment = some d → (applyWalk op stamp path d).2 ≠ .ok true →
          ((applyWalk op stamp path d).1 = d ↔ Keeps op stamp path d) :=
        fun d hd => ih (wf_child hc hd)
      cases segment with
      | record field =>
        obtain ⟨fields, s, rfl⟩ := eq_record htag
        have hfields := (all_record fields).mp hc
        rw [applyWalk_record hrefuses hsame, Ne, mapError_ok_iff] at h
        rw [applyWalk_record hrefuses hsame, or_iff_right (by simp), Cell.mk.injEq,
          and_iff_left rfl, Option.some.injEq, Value.record.injEq, insert_eq_iff hfields.1]
        simp only [child] at hbelow ⊢
        cases hget : get fields field with
        | none => simp
        | some d =>
          rw [hget] at h hbelow
          simp only [Option.some.injEq, exists_eq_left']
          rw [eq_comm]
          exact enter_kept (hbelow d rfl) h
      | list id =>
        obtain ⟨entries, s, rfl⟩ := eq_list htag
        have hentries := (all_list entries).mp hc
        rw [applyWalk_list hrefuses hsame] at h ⊢
        by_cases hid : id = default
        · rw [if_pos hid]
          exact iff_of_true rfl (Or.inl (congrArg _ hid))
        have hsegment : Segment.list id ≠ .list default := fun heq => hid (Segment.list.inj heq)
        rw [if_neg hid, Ne, mapError_ok_iff] at h
        rw [if_neg hid, or_iff_right hsegment, Cell.mk.injEq, and_iff_left rfl, Option.some.injEq,
          Value.list.injEq, insert_eq_iff hentries.1]
        simp only [child] at hbelow ⊢
        cases hget : get entries id with
        | none => simp
        | some entry =>
          rw [hget] at h hbelow
          obtain ⟨position, d⟩ := entry
          simp only [Option.map_some, Option.getD_some, Option.some.injEq, exists_eq_left',
            ListEntry.mk.injEq, true_and]
          rw [eq_comm]
          exact enter_kept (hbelow d rfl) h
    · refine iff_of_false (fun hsame => htag ?_) fun hkeeps => htag hkeeps.1
      rw [← typeTag_applyWalk_cons op path hrefuses]
      exact congrArg Cell.typeTag hsame.symm

/-- A walk that reports no change, or an error, leaves every cell as it was exactly where it finds
all cells of its path and their types, or is refused. -/
theorem quiet_walk_keeps (hop : op.WF) (hc : c.WF) (stamp : EventStamp P)
    (path : List (Segment P)) :
    ((applyWalk op stamp path c).2 ≠ .ok true → ∀ q d, c.cellAtPath q = some d →
        (applyWalk op stamp path c).1.cellAtPath q = some d) ↔
      (Holds op stamp path c ∨ Fails op stamp path c → Keeps op stamp path c) := by
  have hquiet : (applyWalk op stamp path c).2 ≠ .ok true ↔
      Holds op stamp path c ∨ Fails op stamp path c := by
    rw [ne_ok_true_iff, applyWalk_unchanged hop stamp path hc, applyWalk_fails hop path hc]
  rw [← hquiet]
  refine forall_congr' fun h => ?_
  rw [← applyWalk_kept hop path hc h]
  constructor
  · intro hsame
    exact Option.some.inj (hsame [] c rfl)
  · intro hsame q d hd
    rw [hsame]
    exact hd

/-- A deletion that comes too late. -/
theorem quiet_walk_keeps_title :
    let after := applyWalk .delete ⟨⟨2, 1⟩, ⟨2, 0⟩⟩ [.record "title"] deletedField
    after.2 ≠ .ok true ∧
      ∀ q d, deletedField.cellAtPath q = some d → after.1.cellAtPath q = some d := by
  intro after
  have hop : (Op.delete : Op Nat).WF := trivial
  have hvalue : (Op.upsert (.scalar (.int 1)) : Op Nat).WF := trivial
  have hwf : deletedField.WF := wf_applyWalk hop _ _ (wf_applyWalk hvalue _ _ trivial)
  have hquiet : after.2 ≠ .ok true := by
    have hfalse : after.2 = .ok false := rfl
    simp [hfalse]
  have hkeeps : Keeps .delete ⟨⟨2, 1⟩, ⟨2, 0⟩⟩ [.record "title"] deletedField :=
    Or.inr ⟨rfl, Or.inr ⟨_, rfl, trivial⟩⟩
  exact ⟨hquiet, (quiet_walk_keeps hop hwf _ _).mpr (fun _ => hkeeps) hquiet⟩

/-- Adding nothing to a tombstone reports no change, and makes it a counter. -/
theorem quiet_walk_changes :
    let tombstone : RowCell Nat := ⟨none, ⟨⟨1, 1⟩, ⟨5, 0⟩⟩⟩
    let after := applyWalk (.type (.counter (.add 0))) ⟨⟨1, 2⟩, ⟨7, 0⟩⟩ [] tombstone
    after.2 = .ok false ∧ tombstone.cellAtPath [] = some tombstone ∧
      after.1.cellAtPath [] = some ⟨some (.counter ⟨[]⟩), ⟨⟨1, 2⟩, ⟨7, 0⟩⟩⟩ :=
  ⟨rfl, rfl, rfl⟩

end Cell

end ZenDB.Crdt
