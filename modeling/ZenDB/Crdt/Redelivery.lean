import ZenDB.Crdt.Applied

namespace ZenDB.Crdt

open SortedMap

/-! When a delivery finds nothing to do: what a value holds already of an operation. -/

section Leaves

variable {S K V : Type} [LinearOrder S]

/-- The stamp of a removal is recorded, or a later one. -/
def RemovalHeld (removed : List (S × S)) (stamp id : S) : Prop :=
  ∃ existing, get removed id = some existing ∧ stamp ≤ existing

theorem raise_eq_none {stamp : S} {existing : Option S} :
    raise stamp existing = none ↔ ∃ e, existing = some e ∧ stamp ≤ e := by
  cases existing with
  | none => simp [raise]
  | some e => simp [raise, not_lt]

/-- The loop over the ids of a removal finds nothing to write. -/
theorem updateAll_raise_unchanged (removed : List (S × S)) (ids : List S) (stamp : S) :
    (updateAll (fun _ => raise stamp) removed ids).2 = false ↔
      ∀ id ∈ ids, RemovalHeld removed stamp id := by
  rw [← Bool.not_eq_true, updateAll_changed]
  simp only [not_exists, not_and, Bool.not_eq_true, Option.isSome_eq_false_iff,
    Option.isNone_iff_eq_none, raise_eq_none, RemovalHeld]

namespace MvRegister

variable [DecidableEq V]

/-- What the assignment replaces is gone for good, and its own value is there or replaced. -/
def Holds (r : MvRegister S V) (op : MvRegisterOp S V) (stamp : S) : Prop :=
  match op with
  | .assign value replaces =>
    (∀ v, get r.entries stamp = some v → v = value) ∧
    (∀ id ∈ replaces, RemovalHeld r.removed stamp id) ∧
    (∀ id ∈ replaces, get r.entries id = none) ∧
    (contains r.removed stamp = true ∨ contains r.entries stamp = true)

theorem apply_unchanged {r : MvRegister S V} (hr : r.WF) (op : MvRegisterOp S V) (stamp : S) :
    (r.apply op stamp).2 = .ok false ↔ r.Holds op stamp := by
  cases op with
  | assign value replaces =>
    have hsorted : Sorted (· < ·) r.entries := hr.1.1
    have hconflict : (get r.entries stamp).any (· ≠ value) = true ↔
        ¬ ∀ v, get r.entries stamp = some v → v = value := by
      cases get r.entries stamp <;> simp
    have hremoved := updateAll_raise_unchanged r.removed replaces stamp
    have hentries : (eraseAll r.entries replaces).2 = false ↔ _ := eraseAll_unchanged hsorted
    simp only [MvRegister.apply, Holds]
    by_cases hno : (get r.entries stamp).any (· ≠ value) = true
    · rw [if_pos hno]
      refine iff_of_false (by simp) ?_
      rintro ⟨hsame, -⟩
      exact hconflict.mp hno hsame
    have hsame := not_not.mp fun h => hno (hconflict.mpr h)
    rw [if_neg hno, and_iff_right hsame, ← hremoved, ← hentries]
    -- where the loop finds nothing to write, both maps are as before
    by_cases hquiet : (updateAll (fun _ => raise stamp) r.removed replaces).2 = false ∧
        (eraseAll r.entries replaces).2 = false
    · have hmaps : (updateAll (fun _ => raise stamp) r.removed replaces).1 = r.removed ∧
          (eraseAll r.entries replaces).1 = r.entries :=
        ⟨updateAll_unchanged _ _ hquiet.1, eraseAll_of_absent (hentries.mp hquiet.2)⟩
      rw [hmaps.1, hmaps.2, hquiet.1, hquiet.2]
      by_cases hgone : contains r.removed stamp = true <;> simp [hgone]
    · have hloud : ((updateAll (fun _ => raise stamp) r.removed replaces).2 ||
          (eraseAll r.entries replaces).2) = true := by
        rw [← Bool.not_eq_false, Bool.or_eq_false_iff]
        exact hquiet
      rw [hloud]
      refine iff_of_false ?_ fun h => hquiet ⟨h.1, h.2.1⟩
      split_ifs <;> simp

end MvRegister

/-- Adding nothing is the only addition that leaves a counter as it is. -/
def Counter.Holds (op : CounterOp) : Prop :=
  match op with
  | .add delta => delta = 0

theorem Counter.apply_unchanged {P : Type} [LinearOrder P] (c : Counter P) (op : CounterOp)
    (peer : P) : (c.apply op peer).2 = .ok false ↔ Counter.Holds op := by
  cases op with
  | add delta =>
    rw [Counter.apply, Counter.Holds]
    by_cases hzero : delta = 0
    · simp [hzero]
    · rw [if_neg hzero, Counter.addAt]
      split_ifs <;> simp [hzero]

namespace OrSet

variable [LinearOrder K]

def Holds (o : OrSet K S) (op : OrSetOp K S) (stamp : S) : Prop :=
  match op with
  | .add key => ∃ entry, get o.entries key = some entry ∧ SortedMap.contains entry.adds stamp = true
  | .remove key observed =>
    ∀ id ∈ observed, ∃ entry, get o.entries key = some entry ∧ RemovalHeld entry.rems stamp id

theorem apply_unchanged (o : OrSet K S) (op : OrSetOp K S) (stamp : S) :
    (o.apply op stamp).2 = false ↔ o.Holds op stamp := by
  cases op with
  | add key =>
    simp only [OrSet.apply, Holds]
    cases get o.entries key with
    | none => simp [SortedMap.contains]
    | some entry => simp
  | remove key observed =>
    simp only [OrSet.apply, Holds, updateAll_raise_unchanged]
    cases get o.entries key with
    | none => simp [RemovalHeld]
    | some entry => simp

end OrSet

/-- The clock is there and not before the stamp. -/
def ClockHeld (clock : Option S) (stamp : S) : Prop := ∃ existing, clock = some existing ∧ stamp ≤ existing

theorem mergeClock_unchanged {clock : Option S} {stamp : S} :
    (mergeClock clock (some stamp)).2 = false ↔ ClockHeld clock stamp := by
  rw [mergeClock, ClockHeld, ← raise_eq_none]
  cases raise stamp clock <;> simp

theorem mergeRequiredClock_unchanged {clock stamp : S} :
    (mergeRequiredClock clock stamp).2 = false ↔ stamp ≤ clock := by
  rw [mergeRequiredClock_eq]
  simp

namespace PriorityQueue

variable [DecidableEq V]

def Holds (q : PriorityQueue S V) (op : PqOp S V) (stamp : S) : Prop :=
  match op with
  | .push priority value => ∃ deletedAt, get q.entries stamp = some (.present priority value deletedAt)
  | .pop id => stamp ≤ id ∨ ∃ entry, get q.entries id = some entry ∧ ClockHeld entry.deletedAt stamp

theorem apply_unchanged (q : PriorityQueue S V) (op : PqOp S V) (stamp : S) :
    (q.apply op stamp).2 = .ok false ↔ q.Holds op stamp := by
  cases op with
  | push priority value =>
    simp only [PriorityQueue.apply, Holds]
    cases get q.entries stamp with
    | none => simp
    | some entry =>
      cases entry with
      | pendingPop deletedAt => simp
      | present p v deletedAt =>
        by_cases hsame : p = priority ∧ v = value
        · simp [hsame.1, hsame.2]
        · have hdiffer : p ≠ priority ∨ v ≠ value := not_and_or.mp hsame
          simp only [if_pos hdiffer]
          refine iff_of_false (by simp) ?_
          rintro ⟨d, heq⟩
          cases heq
          exact hsame ⟨rfl, rfl⟩
  | pop id =>
    simp only [PriorityQueue.apply, Holds]
    by_cases hle : stamp ≤ id
    · simp [hle]
    rw [if_neg hle, or_iff_right hle]
    cases get q.entries id with
    | none => simp
    | some entry =>
      cases entry with
      | pendingPop deletedAt =>
        simp [mergeRequiredClock_unchanged, ClockHeld, PqEntry.deletedAt]
      | present p v deletedAt =>
        simp [mergeClock_unchanged, PqEntry.deletedAt]

end PriorityQueue

namespace LwwSet

variable [LinearOrder K] [Inhabited S]

/-- The clocks of a key; those of an unknown key are at the default stamp. -/
def clocks (s : LwwSet K S) (key : K) : Meta S := (get s.entries key).getD ⟨default, default⟩

def Holds (s : LwwSet K S) (op : SetOp K) (stamp : S) : Prop :=
  match op with
  | .add key => stamp ≤ (s.clocks key).updated
  | .remove key => stamp ≤ (s.clocks key).deleted

theorem apply_unchanged (s : LwwSet K S) (op : SetOp K) (stamp : S) :
    (s.apply op stamp).2 = false ↔ s.Holds op stamp := by
  cases op with
  | add key => exact mergeRequiredClock_unchanged
  | remove key => exact mergeRequiredClock_unchanged

end LwwSet

namespace Text

theorem deleteChar_eq_none {stamp : S} {id : TextId S} {entry : Option (TextEntry S V)} :
    deleteChar stamp id entry = none ↔
      stamp ≤ id.stamp ∨ ∃ e, entry = some e ∧ ClockHeld e.deletedAt stamp := by
  rw [deleteChar.eq_def]
  by_cases hle : stamp ≤ id.stamp
  · simp [hle]
  rw [if_neg hle, or_iff_right hle]
  cases entry with
  | none => simp
  | some e => simp [← mergeClock_unchanged]

theorem formatChar_eq_none {stamp : S} {key : String} {value : Option V}
    {entry : Option (TextEntry S V)} :
    formatChar stamp key value entry = none ↔
      ∃ e v existing, entry = some e ∧ get e.attrs key = some (v, existing) ∧ stamp ≤ existing := by
  rw [formatChar]
  cases entry with
  | none => simp
  | some e =>
    simp only [Option.getD_some]
    cases hattr : get e.attrs key with
    | none => simp [hattr]
    | some attr =>
      obtain ⟨v, existing⟩ := attr
      simp [hattr]

omit [LinearOrder S] in
theorem writeChar_eq_none {after : Option (TextId S)} {characters : List Char} {stamp : S}
    {offset : Nat} (hlt : offset < characters.length) {entry : Option (TextEntry S V)} :
    writeChar after characters ⟨stamp, offset⟩ entry = none ↔
      ∃ e, entry = some e ∧ e.content ≠ none := by
  rw [writeChar, List.getElem?_eq_getElem hlt]
  cases entry with
  | none => simp
  | some e => cases hcontent : e.content <;> simp [hcontent]

theorem conflicts_iff {after : Option (TextId S)} {characters : List Char} {stamp : S}
    {id : TextId S} {entry : TextEntry S V} :
    conflicts after characters stamp (id, entry) = false ↔
      ∀ content, entry.content = some content → id.stamp = stamp →
        content.after = anchor after stamp id.offset ∧
          characters[id.offset]? = some content.character := by
  rw [conflicts]
  cases entry.content with
  | none => simp
  | some content =>
    by_cases hstamp : id.stamp = stamp
    · by_cases hlt : id.offset < characters.length
      · simp [hstamp, hlt, eq_comm (a := content.character)]
      · simp [hstamp, hlt, not_lt.mp hlt]
    · simp [hstamp]

variable [Inhabited S]

/-- The targets of an operation are proper ids. -/
def Proper (ids : List (TextId S)) : Prop := ∀ id ∈ ids, id.stamp ≠ default

/-- An insert is held when its characters are known, and no others under its stamp. -/
def Holds (t : Text S V) (op : TextOp S V) (stamp : S) : Prop :=
  stamp ≠ default ∧
  match op with
  | .insert after text =>
    Proper after.toList ∧ (∀ a ∈ after, a.stamp ≠ stamp) ∧ text.toList.length < 2^32 ∧
    (∀ id entry content, get t.entries id = some entry → entry.content = some content →
      id.stamp = stamp → content.after = anchor after stamp id.offset ∧
        text.toList[id.offset]? = some content.character) ∧
    ∀ offset < text.toList.length, ∃ entry,
      get t.entries ⟨stamp, offset⟩ = some entry ∧ entry.content ≠ none
  | .delete ids =>
    Proper ids ∧ ∀ id ∈ ids, stamp ≤ id.stamp ∨
      ∃ entry, get t.entries id = some entry ∧ ClockHeld entry.deletedAt stamp
  | .format ids key _ =>
    Proper ids ∧ ∀ id ∈ ids, ∃ entry value existing,
      get t.entries id = some entry ∧ get entry.attrs key = some (value, existing) ∧ stamp ≤ existing

theorem not_any_default (ids : List (TextId S)) :
    ids.any (·.stamp = default) = false ↔ Proper ids := by
  simp [Proper]

theorem updateAll_quiet {κ ν : Type} [LinearOrder κ] {g : κ → Option ν → Option ν}
    (m : List (κ × ν)) (keys : List κ) :
    (updateAll g m keys).2 = false ↔ ∀ key ∈ keys, g key (get m key) = none := by
  rw [← Bool.not_eq_true, updateAll_changed]
  simp

theorem apply_unchanged {t : Text S V} (ht : t.WF) (op : TextOp S V) (stamp : S) :
    (t.apply op stamp).2 = .ok false ↔ t.Holds op stamp := by
  rw [Text.apply.eq_def, Holds.eq_def]
  by_cases hstamp : stamp = default
  · simp [hstamp]
  rw [if_neg hstamp, and_iff_right hstamp]
  cases op with
  | insert after text =>
    have hanchor : after.any (·.stamp = default) = false ↔ Proper after.toList := by
      cases after <;> simp [Proper]
    have hself : after.any (·.stamp = stamp) = false ↔ ∀ a ∈ after, a.stamp ≠ stamp := by
      cases after <;> simp
    have hknown : t.entries.find? (conflicts after text.toList stamp) = none ↔
        ∀ id entry content, get t.entries id = some entry → entry.content = some content →
          id.stamp = stamp → content.after = anchor after stamp id.offset ∧
            text.toList[id.offset]? = some content.character := by
      rw [List.find?_eq_none]
      constructor
      · intro h id entry content hget
        exact conflicts_iff.mp (Bool.not_eq_true _ ▸ h (id, entry) (mem_of_get hget)) content
      · intro h e he
        rw [Bool.not_eq_true]
        exact conflicts_iff.mpr fun content => h e.1 e.2 content (get_of_mem ht.1 he)
    dsimp only
    rw [← hanchor, ← hself, ← hknown]
    cases after.any (·.stamp = default) with
    | true => simp
    | false =>
      cases after.any (·.stamp = stamp) with
      | true => simp
      | false =>
        by_cases hlong : 2^32 ≤ text.toList.length
        · simp only [Bool.false_eq_true, if_false, if_pos hlong, reduceCtorEq, not_lt.mpr hlong,
            false_and, and_false]
        · cases t.entries.find? (conflicts after text.toList stamp) with
          | some e =>
            simp only [Bool.false_eq_true, if_false, if_neg hlong, reduceCtorEq, false_and, and_false]
          | none =>
            have hwritten : (updateAll (writeChar after text.toList) t.entries
                ((List.range text.toList.length).map fun offset => ⟨stamp, offset⟩)).2 = false ↔
                ∀ offset < text.toList.length, ∃ entry,
                  get t.entries ⟨stamp, offset⟩ = some entry ∧ entry.content ≠ none := by
              rw [updateAll_quiet, List.forall_mem_map]
              simp only [List.mem_range]
              exact forall₂_congr fun offset hlt => writeChar_eq_none hlt
            simp only [Bool.false_eq_true, if_false, if_neg hlong, Except.ok.injEq, hwritten,
              not_le.mp hlong, true_and]
  | delete ids =>
    cases hproper : ids.any (·.stamp = default) with
    | true =>
      have hnot : ¬ Proper ids := fun h => by simp [(not_any_default ids).mpr h] at hproper
      simp [hproper, hnot]
    | false =>
      simp only [hproper, (not_any_default ids).mp hproper, true_and, Bool.false_eq_true, if_false,
        Except.ok.injEq, updateAll_quiet, deleteChar_eq_none]
  | format ids key value =>
    cases hproper : ids.any (·.stamp = default) with
    | true =>
      have hnot : ¬ Proper ids := fun h => by simp [(not_any_default ids).mpr h] at hproper
      simp [hproper, hnot]
    | false =>
      simp only [hproper, (not_any_default ids).mp hproper, true_and, Bool.false_eq_true, if_false,
        Except.ok.injEq, updateAll_quiet, formatChar_eq_none]

end Text

end Leaves

section Cells

variable {P : Type} [LinearOrder P] [Inhabited P]

/-- The element of the operation covers what the operation writes. -/
def ListOp.Holds (entries : List (EventStamp P × RowEntry P)) (op : ListOp P)
    (stamp : EventStamp P) : Prop :=
  op.target stamp ≠ default ∧
    ∃ entry, get entries (op.target stamp) = some entry ∧ entry.Covers (op.written stamp)

theorem ListOp.apply_unchanged {entries : List (EventStamp P × RowEntry P)}
    (hentries : WMap (fun e => e.cell.WF) entries) {op : ListOp P}
    (hop : TypeOp.AllInserted Value.LeafWF (.list op)) (stamp : EventStamp P) :
    (op.apply entries stamp).2 = .ok false ↔ op.Holds entries stamp := by
  by_cases htarget : op.target stamp = default
  · rw [apply_zero entries htarget, Holds]
    simp [htarget]
  have hwritten : (op.written stamp).cell.WF := by
    cases op with
    | insert after value => exact hop
    | delete id => exact trivial
  rw [(apply_eq entries htarget).2, mergeMap_unchanged (List.pairwise_singleton _ _), Holds,
    and_iff_right htarget]
  have hentry : ∀ entry, get entries (op.target stamp) = some entry →
      ((mergeEntry (op.target stamp) entry (op.written stamp)).2 = .ok false ↔
        entry.Covers (op.written stamp)) := by
    intro entry hget
    rw [mergeEntry_unchanged, (joinTells (hentries.2 _ _ hget) hwritten).1, ListEntry.Covers]
  constructor
  · intro h
    obtain ⟨entry, hget, hsame⟩ := h (op.target stamp) (op.written stamp) (by simp [SortedMap.get])
    exact ⟨entry, hget, (hentry entry hget).mp hsame⟩
  · rintro ⟨entry, hget, hcovers⟩ id r hr
    rw [SortedMap.get] at hr
    split_ifs at hr with hid
    · cases hr
      subst hid
      exact ⟨entry, hget, (hentry entry hget).mpr hcovers⟩
    · cases hr

def Value.Holds (v : Value P) (op : TypeOp P) (stamp : EventStamp P) : Prop :=
  match v, op with
  | .counter _, .counter op => Counter.Holds op
  | .mvRegister r, .mvRegister op => r.Holds op stamp
  | .orSet o, .orSet op => o.Holds op stamp
  | .priorityQueue q, .priorityQueue op => q.Holds op stamp
  | .set s, .set op => s.Holds op stamp
  | .text t, .text op => t.Holds op stamp
  | .list entries, .list op => op.Holds entries stamp
  | _, _ => False

theorem mapError_ok_iff {ε ε' α : Type} {r : Except ε α} {f : ε → ε'} {a : α} :
    r.mapError f = .ok a ↔ r = .ok a := by
  cases r <;> simp [Except.mapError]

theorem Value.apply_unchanged {v : Value P} (hv : v.WF) {op : TypeOp P}
    (hop : op.AllInserted Value.LeafWF) (stamp : EventStamp P) :
    (v.apply op stamp).2 = .ok false ↔ v.Holds op stamp := by
  cases op with
  | counter op =>
    cases v with
    | counter c => exact mapError_ok_iff.trans (c.apply_unchanged op _)
    | _ => exact iff_of_false (by simp [Value.apply]) id
  | mvRegister op =>
    cases v with
    | mvRegister r => exact mapError_ok_iff.trans (MvRegister.apply_unchanged hv op stamp)
    | _ => exact iff_of_false (by simp [Value.apply]) id
  | orSet op =>
    cases v with
    | orSet o => simpa [Value.apply, Value.Holds] using o.apply_unchanged op stamp
    | _ => exact iff_of_false (by simp [Value.apply]) id
  | priorityQueue op =>
    cases v with
    | priorityQueue q => exact mapError_ok_iff.trans (q.apply_unchanged op stamp)
    | _ => exact iff_of_false (by simp [Value.apply]) id
  | set op =>
    cases v with
    | set s => simpa [Value.apply, Value.Holds] using s.apply_unchanged op stamp
    | _ => exact iff_of_false (by simp [Value.apply]) id
  | text op =>
    cases v with
    | text t => exact mapError_ok_iff.trans (Text.apply_unchanged hv op stamp)
    | _ => exact iff_of_false (by simp [Value.apply]) id
  | list op =>
    cases v with
    | list entries =>
      rw [Value.WF, all_list] at hv
      exact mapError_ok_iff.trans (ListOp.apply_unchanged hv hop stamp)
    | _ => exact iff_of_false (by simp [Value.apply]) id

/-- The operations that carry well formed values. -/
def Op.WF : Op P → Prop
  | .type op => op.AllInserted Value.LeafWF
  | .delete => True
  | .upsert value => value.WF
  | .merge cell => cell.WF

namespace Cell

/-- The cell has another type, and something that is not before the stamp. -/
def Refuses (c : RowCell P) (tag : TypeTag) (stamp : EventStamp P) : Prop :=
  c.typeTag ≠ some tag ∧ stamp ≤ c.maxStamp

/-- What an operation finds that the cell does not refuse: a cell of another type is emptied. -/
def shown (c : RowCell P) (tag : TypeTag) (stamp : EventStamp P) : RowCell P :=
  if c.typeTag = some tag then c else ⟨some tag.emptyValue, stamp⟩

/-- The operation was refused, or would find `Q`. -/
def Finds (c : RowCell P) (tag : TypeTag) (stamp : EventStamp P) (Q : RowCell P → Prop) : Prop :=
  c.Refuses tag stamp ∨ Q (c.shown tag stamp)

/-- The same at a child, where a deletion asks for no type. -/
def FindsChild (child : RowCell P) (tag : Option TypeTag) (stamp : EventStamp P)
    (Q : RowCell P → Prop) : Prop :=
  match tag with
  | none => Q child
  | some tag => child.Finds tag stamp Q

def HoldsOp (c : RowCell P) (op : Op P) (stamp : EventStamp P) : Prop :=
  match op with
  | .type op => c.Finds op.typeTag stamp fun c => ∃ v, c.value = some v ∧ v.Holds op stamp
  | .delete => stamp ≤ c.stamp
  | .upsert _ => stamp ≤ c.stamp
  | .merge cell => c.Covers cell

/-- `ContainerType::child` -/
def child (c : RowCell P) (segment : Segment P) : Option (RowCell P) :=
  match c.value, segment with
  | some (.record fields), .record field => get fields field
  | some (.list entries), .list id => (get entries id).map (·.cell)
  | _, _ => none

/-- The cell holds the effect of an operation at a path. A child that is not there is created by
the walk, and found as such. -/
def Holds (op : Op P) (stamp : EventStamp P) : List (Segment P) → RowCell P → Prop
  | [], c => c.HoldsOp op stamp
  | segment :: path, c => c.Finds segment.typeTag stamp fun c =>
    segment ≠ .list default ∧
      ((c.child segment).getD (newChild (childTag op path))).FindsChild (childTag op path) stamp
        (Holds op stamp path)

theorem ensureType_eq (c : RowCell P) (tag : TypeTag) (stamp : EventStamp P) :
    (c.Refuses tag stamp ∧ c.ensureType tag stamp = (c, false)) ∨
      (¬ c.Refuses tag stamp ∧ c.ensureType tag stamp = (c.shown tag stamp, true)) := by
  rw [ensureType, shown, Refuses]
  by_cases htag : c.typeTag = some tag
  · right
    simp [htag]
  · by_cases hlt : c.maxStamp < stamp
    · right
      simp [htag, hlt]
    · left
      simp [htag, hlt, not_lt.mp hlt]

omit [LinearOrder P] [Inhabited P] in
theorem typeTag_emptyValue (tag : TypeTag) : (tag.emptyValue : Value P).typeTag = tag := by
  cases tag <;> rfl

omit [LinearOrder P] [Inhabited P] in
theorem typeTag_shown (c : RowCell P) (tag : TypeTag) (stamp : EventStamp P) :
    (c.shown tag stamp).typeTag = some tag := by
  rw [shown]
  split_ifs with htag
  · exact htag
  · exact congrArg some (typeTag_emptyValue tag)

omit [Inhabited P] in
theorem wf_shown {c : RowCell P} (hc : c.WF) (tag : TypeTag) (stamp : EventStamp P) :
    (c.shown tag stamp).WF := by
  rw [shown]
  split_ifs
  · exact hc
  · exact (tidy_emptyValue tag).wf

omit [LinearOrder P] [Inhabited P] in
theorem eq_record {c : RowCell P} (h : c.typeTag = some .record) :
    ∃ fields s, c = ⟨some (.record fields), s⟩ := by
  obtain ⟨value, s⟩ := c
  obtain ⟨v, rfl, hv⟩ := Option.map_eq_some_iff.mp h
  obtain ⟨fields, rfl⟩ := @Value.eq_record P v [] hv
  exact ⟨fields, s, rfl⟩

omit [LinearOrder P] [Inhabited P] in
theorem eq_list {c : RowCell P} (h : c.typeTag = some .list) :
    ∃ entries s, c = ⟨some (.list entries), s⟩ := by
  obtain ⟨value, s⟩ := c
  obtain ⟨v, rfl, hv⟩ := Option.map_eq_some_iff.mp h
  obtain ⟨entries, rfl⟩ := @Value.eq_list P v [] hv
  exact ⟨entries, s, rfl⟩

omit [Inhabited P] in
theorem wf_child {c d : RowCell P} (hc : c.WF) {segment : Segment P}
    (h : c.child segment = some d) : d.WF := by
  obtain ⟨value, s⟩ := c
  cases segment with
  | record field =>
    cases value with
    | none => cases h
    | some v =>
      cases v with
      | record fields => exact ((all_record fields).mp hc).2 field d h
      | _ => cases h
  | list id =>
    cases value with
    | none => cases h
    | some v =>
      cases v with
      | list entries =>
        obtain ⟨entry, hget, rfl⟩ := Option.map_eq_some_iff.mp h
        exact ((all_list entries).mp hc).2 id entry hget
      | _ => cases h

theorem wf_newChild (tag : Option TypeTag) : (newChild tag : RowCell P).WF := by
  cases tag with
  | none => exact trivial
  | some tag => exact (tidy_emptyValue tag).wf

theorem applyType_unchanged {c : RowCell P} (hc : c.WF) {op : TypeOp P}
    (hop : op.AllInserted Value.LeafWF) (stamp : EventStamp P) :
    (c.applyType op stamp).2 = .ok false ↔
      c.Finds op.typeTag stamp fun c => ∃ v, c.value = some v ∧ v.Holds op stamp := by
  rw [applyType, Finds]
  rcases ensureType_eq c op.typeTag stamp with ⟨hrefuses, heq⟩ | ⟨hrefuses, heq⟩
  · rw [heq]
    simp [hrefuses]
  · rw [heq, or_iff_right hrefuses]
    have hwf := wf_shown hc op.typeTag stamp
    obtain ⟨v, hv, -⟩ := Option.map_eq_some_iff.mp (typeTag_shown c op.typeTag stamp)
    generalize c.shown op.typeTag stamp = d at hwf hv
    obtain ⟨value, s⟩ := d
    obtain rfl : value = some v := hv
    have hanswer := Value.apply_unchanged (v := v) hwf hop stamp
    simp only [Option.some.injEq, exists_eq_left']
    rw [← hanswer]
    rcases v.apply op stamp with ⟨w, e | changed⟩ <;> simp

theorem apply_unchanged {c : RowCell P} (hc : c.WF) {op : Op P} (hop : op.WF)
    (stamp : EventStamp P) : (c.apply op stamp).2 = .ok false ↔ c.HoldsOp op stamp := by
  cases op with
  | type op => exact applyType_unchanged hc hop stamp
  | delete =>
    rw [apply, HoldsOp]
    split_ifs with hle <;> simp [hle]
  | upsert value =>
    rw [apply, HoldsOp]
    split_ifs with hle <;> simp [hle]
  | merge cell => exact (joinTells hc hop).1

theorem enter_unchanged (child : Option (RowCell P)) (tag : Option TypeTag) (stamp : EventStamp P)
    (walk : RowCell P → RowCell P × Except (TypeError P) Bool) :
    (enter child tag stamp walk).2 = .ok false ↔
      (child.getD (newChild tag)).FindsChild tag stamp fun c => (walk c).2 = .ok false := by
  cases tag with
  | none => rfl
  | some t =>
    simp only [enter, FindsChild, Finds]
    rcases ensureType_eq (child.getD (newChild (some t))) t stamp with
      ⟨hrefuses, heq⟩ | ⟨hrefuses, heq⟩ <;> rw [heq] <;> simp [hrefuses]

section Walk

variable {c : RowCell P} {op : Op P} {stamp : EventStamp P} {path : List (Segment P)}

theorem applyWalk_refused {segment : Segment P} (h : c.Refuses segment.typeTag stamp) :
    applyWalk op stamp (segment :: path) c = (c, .ok false) := by
  rcases ensureType_eq c segment.typeTag stamp with ⟨-, heq⟩ | ⟨hnot, -⟩
  · rw [applyWalk.eq_def]
    simp only [heq]
  · exact absurd h hnot

theorem applyWalk_record {field : String} (h : ¬ c.Refuses .record stamp)
    {fields : List (String × RowCell P)} {s : EventStamp P}
    (hshown : c.shown .record stamp = ⟨some (.record fields), s⟩) :
    applyWalk op stamp (.record field :: path) c =
      (⟨some (.record (SortedMap.insert fields field
        (enter (get fields field) (childTag op path) stamp (applyWalk op stamp path)).1)), s⟩,
      (enter (get fields field) (childTag op path) stamp (applyWalk op stamp path)).2.mapError
        fun e => .record (.child e)) := by
  rcases ensureType_eq c .record stamp with ⟨hrefuses, -⟩ | ⟨-, heq⟩
  · exact absurd hrefuses h
  · rw [applyWalk.eq_def]
    simp only [Segment.typeTag, heq, hshown]

theorem applyWalk_list {id : EventStamp P} (h : ¬ c.Refuses .list stamp)
    {entries : List (EventStamp P × RowEntry P)} {s : EventStamp P}
    (hshown : c.shown .list stamp = ⟨some (.list entries), s⟩) :
    applyWalk op stamp (.list id :: path) c =
      if id = default then (⟨some (.list entries), s⟩, .error (.list .zeroId))
      else
        (⟨some (.list (SortedMap.insert entries id
          ⟨((get entries id).map (·.position)).getD .unknown,
            (enter ((get entries id).map (·.cell)) (childTag op path) stamp
              (applyWalk op stamp path)).1⟩)), s⟩,
        (enter ((get entries id).map (·.cell)) (childTag op path) stamp
          (applyWalk op stamp path)).2.mapError fun e => .list (.child e)) := by
  rcases ensureType_eq c .list stamp with ⟨hrefuses, -⟩ | ⟨-, heq⟩
  · exact absurd hrefuses h
  · rw [applyWalk.eq_def]
    simp only [Segment.typeTag, heq, hshown]

end Walk

theorem wf_findChild {c : RowCell P} (hc : c.WF) (segment : Segment P) (stamp : EventStamp P)
    (tag : Option TypeTag) :
    (((c.shown segment.typeTag stamp).child segment).getD (newChild tag)).WF := by
  cases hget : (c.shown segment.typeTag stamp).child segment with
  | none => exact wf_newChild _
  | some d => exact wf_child (wf_shown hc segment.typeTag stamp) hget

/-- A walk changes nothing exactly where the cell holds the effect of the operation. -/
theorem applyWalk_unchanged {op : Op P} (hop : op.WF) (stamp : EventStamp P)
    (path : List (Segment P)) {c : RowCell P} (hc : c.WF) :
    (applyWalk op stamp path c).2 = .ok false ↔ Holds op stamp path c := by
  induction path generalizing c with
  | nil => exact apply_unchanged hc hop stamp
  | cons segment path ih =>
    have hchild : (enter ((c.shown segment.typeTag stamp).child segment) (childTag op path) stamp
          (applyWalk op stamp path)).2 = .ok false ↔
        (((c.shown segment.typeTag stamp).child segment).getD
          (newChild (childTag op path))).FindsChild (childTag op path) stamp
            (Holds op stamp path) := by
      have hwf := wf_findChild hc segment stamp (childTag op path)
      rw [enter_unchanged]
      cases hpath : childTag op path with
      | none => exact ih (hpath ▸ hwf)
      | some tag => exact or_congr Iff.rfl (ih (wf_shown (hpath ▸ hwf) tag stamp))
    rw [Holds, Finds, ← hchild]
    by_cases hrefuses : c.Refuses segment.typeTag stamp
    · rw [applyWalk_refused hrefuses]
      simp [hrefuses]
    rw [or_iff_right hrefuses]
    cases segment with
    | record field =>
      obtain ⟨fields, s, hshown⟩ := eq_record (typeTag_shown c .record stamp)
      rw [applyWalk_record hrefuses hshown, mapError_ok_iff, Segment.typeTag, hshown]
      simp [child]
    | list id =>
      obtain ⟨entries, s, hshown⟩ := eq_list (typeTag_shown c .list stamp)
      rw [applyWalk_list hrefuses hshown, Segment.typeTag, hshown]
      by_cases hid : id = default
      · simp [hid]
      · rw [if_neg hid, mapError_ok_iff]
        simp [child, hid]

theorem wf_apply {c : RowCell P} (hc : c.WF) {op : Op P} (hop : op.WF) (stamp : EventStamp P) :
    (c.apply op stamp).1.WF := by
  cases op with
  | type op =>
    rw [apply, applyType]
    rcases ensureType_eq c op.typeTag stamp with ⟨-, heq⟩ | ⟨-, heq⟩
    · simp only [heq]
      exact hc
    · have hwf := wf_shown hc op.typeTag stamp
      rw [heq]
      generalize c.shown op.typeTag stamp = d at hwf
      obtain ⟨_ | v, s⟩ := d
      · exact hwf
      · have hv : v.WF := hwf
        have happlied : (v.apply op stamp).1.WF :=
          Value.all_apply leafWF_kept leafWF_applied hv hop False.elim
        dsimp only
        rcases hrun : v.apply op stamp with ⟨w, e | changed⟩ <;> rw [hrun] at happlied <;>
          exact happlied
  | delete =>
    rw [apply]
    split_ifs
    · exact hc
    · exact trivial
  | upsert value =>
    rw [apply]
    split_ifs
    · exact hc
    · exact hop
  | merge cell => exact wf_join hc hop

theorem wf_enter {child : Option (RowCell P)} {tag : Option TypeTag}
    (hchild : (child.getD (newChild tag)).WF) {stamp : EventStamp P}
    {walk : RowCell P → RowCell P × Except (TypeError P) Bool}
    (hwalk : ∀ c : RowCell P, c.WF → (walk c).1.WF) : (enter child tag stamp walk).1.WF := by
  cases tag with
  | none => exact hwalk _ hchild
  | some t =>
    simp only [enter]
    rcases ensureType_eq (child.getD (newChild (some t))) t stamp with ⟨-, heq⟩ | ⟨-, heq⟩
    · rw [heq]
      exact hchild
    · rw [heq]
      exact hwalk _ (wf_shown hchild t stamp)

theorem wf_applyWalk {op : Op P} (hop : op.WF) (stamp : EventStamp P) (path : List (Segment P))
    {c : RowCell P} (hc : c.WF) : (applyWalk op stamp path c).1.WF := by
  induction path generalizing c with
  | nil => exact wf_apply hc hop stamp
  | cons segment path ih =>
    by_cases hrefuses : c.Refuses segment.typeTag stamp
    · rw [applyWalk_refused hrefuses]
      exact hc
    have hshown := wf_shown hc segment.typeTag stamp
    have hchild := wf_findChild hc segment stamp (childTag op path)
    cases segment with
    | record field =>
      obtain ⟨fields, s, heq⟩ := eq_record (typeTag_shown c .record stamp)
      rw [applyWalk_record hrefuses heq]
      rw [Segment.typeTag, heq] at hshown hchild
      have hfields := (all_record fields).mp hshown
      exact (all_record _).mpr (hfields.insert field (wf_enter hchild fun c hc => ih hc))
    | list id =>
      obtain ⟨entries, s, heq⟩ := eq_list (typeTag_shown c .list stamp)
      rw [applyWalk_list hrefuses heq]
      rw [Segment.typeTag, heq] at hshown hchild
      split_ifs
      · exact hshown
      · have hentries := (all_list entries).mp hshown
        exact (all_list _).mpr (hentries.insert id (wf_enter hchild fun c hc => ih hc))

end Cell

end Cells

end ZenDB.Crdt
