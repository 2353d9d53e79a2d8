import ZenDB.Crdt.Absorption

namespace ZenDB.Crdt

open SortedMap

/-! Merges that fail: which values are in conflict, and when the merge has written nothing before it
finds the conflict. -/

section Leaves

variable {S V ε α : Type} [LinearOrder S]

/-- Two contents are known and differ. -/
def ContentConflicts (l r : Option α) : Prop := ∃ a b, l = some a ∧ r = some b ∧ a ≠ b

theorem fails_mergeContent [DecidableEq α] {e : ε} {l r : Option α} :
    ¬ Succeeds (mergeContent e l r) ↔ ContentConflicts l r := by
  cases l <;> cases r
  · exact iff_of_false (not_not.mpr ⟨_, rfl⟩) (by simp [ContentConflicts])
  · exact iff_of_false (not_not.mpr ⟨_, rfl⟩) (by simp [ContentConflicts])
  · exact iff_of_false (not_not.mpr ⟨_, rfl⟩) (by simp [ContentConflicts])
  · rename_i a b
    by_cases hab : a = b <;> simp [mergeContent, Succeeds, ContentConflicts, hab]

namespace MvRegister

variable [DecidableEq V]

/-- An assignment that neither side has replaced is known with two values. -/
def ConflictsAt (r remote : MvRegister S V) (id : S) : Prop :=
  contains r.removed id = false ∧ contains remote.removed id = false ∧
    ContentConflicts (get r.entries id) (get remote.entries id)

def Conflicts (r remote : MvRegister S V) : Prop := ∃ id, r.ConflictsAt remote id

/-- The removals are covered, and so are the assignments before the first conflict. -/
def FailsEarly (r remote : MvRegister S V) : Prop :=
  CoversMap (fun l r => r ≤ l) r.removed remote.removed ∧
    ∃ id, r.ConflictsAt remote id ∧ ∀ id' < id, ∀ v, get remote.entries id' = some v →
      contains r.removed id' = true ∨ get r.entries id' = some v

omit [DecidableEq V] in
theorem conflictsAt_iff {r remote : MvRegister S V} (hremote : WF remote) (id : S) :
    r.ConflictsAt remote id ↔
      ∃ v w, get r.entries id = some v ∧ get (r.unreplaced remote) id = some w ∧ v ≠ w := by
  rw [ConflictsAt, ContentConflicts, get_unreplaced hremote]
  cases contains r.removed id <;> cases contains remote.removed id <;> simp

omit [LinearOrder S] in
theorem fails_keepFirst {id : S} {v w : V} : ¬ Succeeds (keepFirst id v w) ↔ v ≠ w := by
  by_cases h : v = w <;> simp [keepFirst, Succeeds, h]

theorem fails_merge {r remote : MvRegister S V} (hremote : WF remote) :
    ¬ Succeeds (r.merge remote) ↔ r.Conflicts remote := by
  rw [succeeds_merge, mergeAssigned]
  refine (fails_mergeMap (D := (· ≠ ·)) (sorted_unreplaced hremote)
    fun id v w _ _ => fails_keepFirst).trans ?_
  exact exists_congr fun id => (conflictsAt_iff hremote id).symm

theorem failed_merge_same {r remote : MvRegister S V} (hr : WF r) (hremote : WF remote)
    (hfail : ¬ Succeeds (r.merge remote)) : (r.merge remote).1 = r ↔ r.FailsEarly remote := by
  have hloop : ¬ Succeeds (r.mergeAssigned remote) := fun h => hfail (succeeds_merge.mpr h)
  have hparts : (r.merge remote).1 = r ↔
      (mergeRemovals r.removed remote.removed).1 = r.removed ∧
        (r.mergeAssigned remote).1 = r.entries := by
    rw [merge_eq]
    rcases hassigned : r.mergeAssigned remote with ⟨entries, e | c⟩
    · obtain ⟨entries', removed'⟩ := r
      simp [and_comm]
    · rw [hassigned] at hloop
      exact absurd ⟨c, rfl⟩ hloop
  rw [hparts, mergeRemovals_same hr.2 hremote.2, FailsEarly]
  refine and_congr_right fun hremoved => ?_
  rw [mergeAssigned, failed_mergeMap_same (K := (· ≠ ·)) (R := (· = ·)) hr.1.1
    (sorted_unreplaced hremote) ?_ ?_ hloop]
  · refine exists_congr fun id => and_congr ?_ ?_
    · exact (conflictsAt_iff hremote id).symm
    · refine forall_congr' fun id' => forall_congr' fun _ => forall_congr' fun w => ?_
      rw [get_unreplaced hremote, contains_of_coversMap hremoved]
      cases contains r.removed id' <;> simp
  · intro id v w _ _
    rw [fails_keepFirst]
    simp [keepFirst]
  · intro id v w _ _
    by_cases h : v = w <;> simp [keepFirst, Succeeds, h]

end MvRegister

namespace PriorityQueue

variable [DecidableEq V]

def Conflicts (q remote : PriorityQueue S V) : Prop :=
  ConflictsMap (fun l r => ContentConflicts l.content r.content) q.entries remote.entries

/-- The entries before the first conflict are covered. -/
def FailsEarly (q remote : PriorityQueue S V) : Prop :=
  FailsEarlyMap (fun l r => ContentConflicts l.content r.content) PqEntry.Covers q.entries
    remote.entries

theorem fails_mergeEntry {id : S} {l r : PqEntry S V} :
    ¬ Succeeds (mergeEntry id l r) ↔ ContentConflicts l.content r.content := by
  rw [succeeds_mergeEntry, fails_mergeContent]

/-- An entry in conflict is left as it is. -/
theorem failed_mergeEntry {id : S} {l r : PqEntry S V} (h : ¬ Succeeds (mergeEntry id l r)) :
    (mergeEntry id l r).1 = l := by
  rcases l with l | ⟨p, v, l⟩ <;> rcases r with r | ⟨p', v', r⟩
  · exact absurd ⟨_, rfl⟩ h
  · exact absurd ⟨_, rfl⟩ h
  · exact absurd ⟨_, rfl⟩ h
  · rw [mergeEntry] at h ⊢
    split_ifs at h ⊢
    · rfl
    · exact absurd ⟨_, rfl⟩ h

theorem fails_merge {q remote : PriorityQueue S V} (hremote : WF remote) :
    ¬ Succeeds (q.merge remote) ↔ q.Conflicts remote :=
  fails_mergeMap hremote.1 fun _ _ _ _ _ => fails_mergeEntry

theorem failed_merge_same {q remote : PriorityQueue S V} (hq : WF q) (hremote : WF remote)
    (hfail : ¬ Succeeds (q.merge remote)) : (q.merge remote).1 = q ↔ q.FailsEarly remote := by
  have hentries : (q.merge remote).1 = q ↔
      (mergeMap mergeEntry q.entries remote.entries false).1 = q.entries := by
    obtain ⟨entries⟩ := q
    simp [merge]
  rw [hentries]
  refine failed_mergeMap_same hq.1 hremote.1 ?_ ?_ hfail
  · intro id l r _ _
    rw [fails_mergeEntry.symm]
    exact and_iff_left_of_imp failed_mergeEntry
  · intro id l r _ _
    have hlaws := mergeEntry_laws (S := S) (V := V) id
    constructor
    · rintro ⟨hok, hsame⟩
      exact (hlaws.same l r trivial trivial hok).mp hsame
    · intro hcovers
      have hok : Succeeds (mergeEntry id l r) := ⟨false, (hlaws.unchanged l r trivial trivial).mpr hcovers⟩
      exact ⟨hok, (hlaws.same l r trivial trivial hok).mpr hcovers⟩

end PriorityQueue

namespace Text

def Conflicts (t remote : Text S V) : Prop :=
  ConflictsMap (fun l r => ContentConflicts l.content r.content) t.entries remote.entries

/-- All contents are compared before anything is written. -/
theorem failed_merge_same {t remote : Text S V} (h : ¬ Succeeds (t.merge remote)) :
    (t.merge remote).1 = t := by
  rw [merge] at h ⊢
  cases hfind : remote.entries.find? (mergeConflicts t) with
  | some e => rfl
  | none =>
    rw [hfind] at h
    exact absurd ⟨_, rfl⟩ h

theorem fails_merge {t remote : Text S V} (hremote : WF remote) :
    ¬ Succeeds (t.merge remote) ↔ t.Conflicts remote := by
  have hconflict : ∀ id r, t.mergeConflicts (id, r) = true ↔
      ∃ l, get t.entries id = some l ∧ ContentConflicts l.content r.content := by
    intro id r
    rw [mergeConflicts_iff]
    exact exists_congr fun l => and_congr_right fun _ => fails_mergeContent
  rw [merge, Conflicts, ConflictsMap]
  cases hfind : remote.entries.find? (mergeConflicts t) with
  | some e =>
    obtain ⟨l, hl, hcontent⟩ := (hconflict e.1 e.2).mp (List.find?_some hfind)
    refine iff_of_true (by simp [Succeeds]) ⟨e.1, l, e.2, hl, ?_, hcontent⟩
    exact get_of_mem hremote.1 (List.mem_of_find?_eq_some hfind)
  | none =>
    refine iff_of_false (not_not.mpr ⟨_, rfl⟩) ?_
    rintro ⟨id, l, r, hl, hr, hcontent⟩
    exact List.find?_eq_none.mp hfind (id, r) (mem_of_get hr) ((hconflict id r).mpr ⟨l, hl, hcontent⟩)

end Text

end Leaves

variable {P : Type} [LinearOrder P]

/-- Both positions are known and differ. -/
def ListEntry.PositionConflicts (e r : RowEntry P) : Prop :=
  r.position ≠ .unknown ∧ e.position ≠ .unknown ∧ e.position ≠ r.position

/-- Two values of one type hold different contents or positions under one id, at any depth. -/
inductive Value.Conflicts : Value P → Value P → Prop
  | mvRegister {l r : MvRegister (EventStamp P) (Value P)} (h : l.Conflicts r) :
    Conflicts (.mvRegister l) (.mvRegister r)
  | priorityQueue {l r : PriorityQueue (EventStamp P) (Value P)} (h : l.Conflicts r) :
    Conflicts (.priorityQueue l) (.priorityQueue r)
  | text {l r : Text (EventStamp P) (Value P)} (h : l.Conflicts r) : Conflicts (.text l) (.text r)
  | field {fields remote : List (String × RowCell P)} {field : String} {c r : RowCell P}
    {v rv : Value P} (hc : get fields field = some c) (hr : get remote field = some r)
    (hv : c.value = some v) (hrv : r.value = some rv) (h : Conflicts v rv) :
    Conflicts (.record fields) (.record remote)
  | element {entries remote : List (EventStamp P × RowEntry P)} {id : EventStamp P}
    {e r : RowEntry P} {v rv : Value P} (he : get entries id = some e) (hr : get remote id = some r)
    (hv : e.cell.value = some v) (hrv : r.cell.value = some rv) (h : Conflicts v rv) :
    Conflicts (.list entries) (.list remote)
  | position {entries remote : List (EventStamp P × RowEntry P)} {id : EventStamp P}
    {e r : RowEntry P} (he : get entries id = some e) (hr : get remote id = some r)
    (h : e.PositionConflicts r) : Conflicts (.list entries) (.list remote)

/-- The first conflict comes before anything that the local value does not hold; texts look for
conflicts first. -/
inductive Value.FailsEarly : Value P → Value P → Prop
  | mvRegister {l r : MvRegister (EventStamp P) (Value P)} (h : l.FailsEarly r) :
    FailsEarly (.mvRegister l) (.mvRegister r)
  | priorityQueue {l r : PriorityQueue (EventStamp P) (Value P)} (h : l.FailsEarly r) :
    FailsEarly (.priorityQueue l) (.priorityQueue r)
  | text {l r : Text (EventStamp P) (Value P)} (h : l.Conflicts r) : FailsEarly (.text l) (.text r)
  | field {fields remote : List (String × RowCell P)} {field : String} {c r : RowCell P}
    {v rv : Value P} (hc : get fields field = some c) (hr : get remote field = some r)
    (hv : c.value = some v) (hrv : r.value = some rv) (h : FailsEarly v rv)
    (hbefore : ∀ k < field, ∀ r, get remote k = some r →
      ∃ c, get fields k = some c ∧ c.Covers r) :
    FailsEarly (.record fields) (.record remote)
  | element {entries remote : List (EventStamp P × RowEntry P)} {id : EventStamp P}
    {e r : RowEntry P} {v rv : Value P} (he : get entries id = some e) (hr : get remote id = some r)
    (hposition : r.position = .unknown ∨ e.position = r.position)
    (hv : e.cell.value = some v) (hrv : r.cell.value = some rv) (h : FailsEarly v rv)
    (hbefore : ∀ k < id, ∀ r, get remote k = some r → ∃ e, get entries k = some e ∧ e.Covers r) :
    FailsEarly (.list entries) (.list remote)
  | position {entries remote : List (EventStamp P × RowEntry P)} {id : EventStamp P}
    {e r : RowEntry P} (he : get entries id = some e) (hr : get remote id = some r)
    (h : e.PositionConflicts r)
    (hbefore : ∀ k < id, ∀ r, get remote k = some r → ∃ e, get entries k = some e ∧ e.Covers r) :
    FailsEarly (.list entries) (.list remote)

namespace Cell

/-- The values of two cells are in conflict. -/
def Conflicts (c r : RowCell P) : Prop :=
  ∃ v rv, c.value = some v ∧ r.value = some rv ∧ v.Conflicts rv

def FailsEarly (c r : RowCell P) : Prop :=
  ∃ v rv, c.value = some v ∧ r.value = some rv ∧ v.FailsEarly rv

end Cell

theorem Value.Conflicts.typeTag_eq {v r : Value P} (h : v.Conflicts r) : v.typeTag = r.typeTag := by
  cases h <;> rfl

theorem Value.FailsEarly.conflicts {v r : Value P} (h : v.FailsEarly r) : v.Conflicts r := by
  induction h with
  | mvRegister h => exact .mvRegister (h.2.imp fun _ hid => hid.1)
  | priorityQueue h => exact .priorityQueue (FailsEarlyMap.conflicts h)
  | text h => exact .text h
  | field hc hr hv hrv _ _ ih => exact .field hc hr hv hrv ih
  | element he hr _ hv hrv _ _ ih => exact .element he hr hv hrv ih
  | position he hr h _ => exact .position he hr h

theorem Cell.FailsEarly.conflicts {c r : RowCell P} (h : c.FailsEarly r) : c.Conflicts r := by
  obtain ⟨v, rv, hv, hrv, h⟩ := h
  exact ⟨v, rv, hv, hrv, h.conflicts⟩

theorem JoinTells.kept_iff {c r : RowCell P} (h : JoinTells c r) :
    Succeeds (c.join r) ∧ (c.join r).1 = c ↔ c.Covers r := by
  constructor
  · exact fun hboth => (h.2 hboth.1).mp hboth.2
  · intro hcovers
    have hok : Succeeds (c.join r) := ⟨false, h.1.mpr hcovers⟩
    exact ⟨hok, (h.2 hok).mpr hcovers⟩

theorem mergeEntry_kept {id : EventStamp P} {e r : RowEntry P} (h : JoinTells e.cell r.cell) :
    Succeeds (mergeEntry id e r) ∧ (mergeEntry id e r).1 = e ↔ e.Covers r := by
  constructor
  · rintro ⟨hok, hsame⟩
    obtain ⟨hposition, hcell⟩ := (mergeEntry_same hok).mp hsame
    exact ⟨hposition, (h.2 (succeeds_cell_of_mergeEntry hok).1).mp hcell⟩
  · intro hcovers
    have hok : Succeeds (mergeEntry id e r) :=
      ⟨false, mergeEntry_unchanged.mpr ⟨hcovers.1, h.1.mpr hcovers.2⟩⟩
    exact ⟨hok, (mergeEntry_same hok).mpr ⟨hcovers.1, (h.kept_iff.mpr hcovers.2).2⟩⟩

theorem conflicts_record {fields remote : List (String × RowCell P)} :
    (Value.record fields).Conflicts (.record remote) ↔
      ConflictsMap Cell.Conflicts fields remote := by
  constructor
  · rintro (_ | _ | _ | ⟨hc, hr, hv, hrv, h⟩)
    exact ⟨_, _, _, hc, hr, _, _, hv, hrv, h⟩
  · rintro ⟨_, _, _, hc, hr, _, _, hv, hrv, h⟩
    exact .field hc hr hv hrv h

theorem conflicts_list {entries remote : List (EventStamp P × RowEntry P)} :
    (Value.list entries).Conflicts (.list remote) ↔
      ConflictsMap (fun e r => e.PositionConflicts r ∨ e.cell.Conflicts r.cell) entries remote := by
  constructor
  · rintro (_ | _ | _ | _ | ⟨he, hr, hv, hrv, h⟩ | ⟨he, hr, h⟩)
    · exact ⟨_, _, _, he, hr, Or.inr ⟨_, _, hv, hrv, h⟩⟩
    · exact ⟨_, _, _, he, hr, Or.inl h⟩
  · rintro ⟨_, _, _, he, hr, h | ⟨_, _, hv, hrv, h⟩⟩
    · exact .position he hr h
    · exact .element he hr hv hrv h

theorem failsEarly_record {fields remote : List (String × RowCell P)} :
    (Value.record fields).FailsEarly (.record remote) ↔
      FailsEarlyMap Cell.FailsEarly Cell.Covers fields remote := by
  constructor
  · rintro (_ | _ | _ | ⟨hc, hr, hv, hrv, h, hbefore⟩)
    exact ⟨_, ⟨_, _, hc, hr, _, _, hv, hrv, h⟩, hbefore⟩
  · rintro ⟨_, ⟨_, _, hc, hr, _, _, hv, hrv, h⟩, hbefore⟩
    exact .field hc hr hv hrv h hbefore

theorem failsEarly_list {entries remote : List (EventStamp P × RowEntry P)} :
    (Value.list entries).FailsEarly (.list remote) ↔
      FailsEarlyMap (fun e r => e.PositionConflicts r ∨
        (r.position = .unknown ∨ e.position = r.position) ∧ e.cell.FailsEarly r.cell)
        ListEntry.Covers entries remote := by
  constructor
  · rintro (_ | _ | _ | _ | ⟨he, hr, hposition, hv, hrv, h, hbefore⟩ | ⟨he, hr, h, hbefore⟩)
    · exact ⟨_, ⟨_, _, he, hr, Or.inr ⟨hposition, _, _, hv, hrv, h⟩⟩, hbefore⟩
    · exact ⟨_, ⟨_, _, he, hr, Or.inl h⟩, hbefore⟩
  · rintro ⟨_, ⟨_, _, he, hr, h | ⟨hposition, _, _, hv, hrv, h⟩⟩, hbefore⟩
    · exact .position he hr h hbefore
    · exact .element he hr hposition hv hrv h hbefore

/-- A merge fails exactly on a conflict, and leaves the value as it was exactly when it fails early. -/
def MergeFails (v r : Value P) (stamps : MergeStamps P) : Prop :=
  (¬ Succeeds (v.merge r stamps) ↔ v.Conflicts r) ∧
    (¬ Succeeds (v.merge r stamps) → ((v.merge r stamps).1 = v ↔ v.FailsEarly r))

def JoinFails (c r : RowCell P) : Prop :=
  (¬ Succeeds (c.join r) ↔ c.Conflicts r) ∧
    (¬ Succeeds (c.join r) → ((c.join r).1 = c ↔ c.FailsEarly r))

theorem joinFails_of {c r : RowCell P}
    (ih : ∀ rv, r.value = some rv → ∀ v, c.value = some v → v.typeTag = rv.typeTag →
      MergeFails v rv ⟨c.stamp, r.stamp⟩) : JoinFails c r := by
  by_cases hsame : c.SameType r
  · obtain ⟨v, rv, hv, hrv, htag⟩ := hsame
    obtain ⟨hfails, hfailed⟩ := ih rv hrv v hv htag
    have hok := Cell.succeeds_join hv hrv htag
    have hconflicts : c.Conflicts r ↔ v.Conflicts rv := by simp [Cell.Conflicts, hv, hrv]
    have hearly : c.FailsEarly r ↔ v.FailsEarly rv := by simp [Cell.FailsEarly, hv, hrv]
    rw [JoinFails, hok, hconflicts, hearly]
    refine ⟨hfails, fun hno => ?_⟩
    rw [← hfailed hno]
    rcases hmerge : v.merge rv ⟨c.stamp, r.stamp⟩ with ⟨w, e | changed⟩
    · rw [Cell.join_error hv hrv htag hmerge]
      obtain ⟨value, stamp⟩ := c
      cases hv
      simp
    · rw [hmerge] at hno
      exact absurd ⟨changed, rfl⟩ hno
  · have hok : Succeeds (c.join r) := by
      rw [Cell.join_of_not_sameType hsame]
      split_ifs
      · exact ⟨true, rfl⟩
      · exact ⟨false, rfl⟩
    refine ⟨iff_of_false (not_not.mpr hok) ?_, fun hno => absurd hok hno⟩
    rintro ⟨v, rv, hv, hrv, h⟩
    exact hsame ⟨v, rv, hv, hrv, h.typeTag_eq⟩

theorem JoinFails.failed_iff {c r : RowCell P} (h : JoinFails c r) :
    ¬ Succeeds (c.join r) ∧ (c.join r).1 = c ↔ c.FailsEarly r := by
  constructor
  · exact fun hboth => (h.2 hboth.1).mp hboth.2
  · intro hearly
    have hno := h.1.mpr hearly.conflicts
    exact ⟨hno, (h.2 hno).mpr hearly⟩

/-- A leaf type whose merge can fail. -/
theorem mergeFails_of {α ε : Type} {f : α → α → α × Except ε Bool} {c : α → Value P}
    (hc : Function.Injective c) {g : ε → TypeError P} {a b : α} {stamps : MergeStamps P}
    (hmerge : (c a).merge (c b) stamps = (c (f a b).1, (f a b).2.mapError g))
    (hfails : ¬ Succeeds (f a b) ↔ (c a).Conflicts (c b))
    (hfailed : ¬ Succeeds (f a b) → ((f a b).1 = a ↔ (c a).FailsEarly (c b))) :
    MergeFails (c a) (c b) stamps := by
  have hok : Succeeds ((c a).merge (c b) stamps) ↔ Succeeds (f a b) := by
    rw [hmerge]
    cases h : (f a b).2 <;> simp [Succeeds, h, Except.mapError]
  rw [MergeFails, hok, ← hfails]
  refine ⟨Iff.rfl, fun hno => ?_⟩
  rw [← hfailed hno, hmerge]
  exact hc.eq_iff

/-- A leaf type whose merge cannot fail. -/
theorem mergeFails_of_succeeds {v r : Value P} {stamps : MergeStamps P}
    (hok : Succeeds (v.merge r stamps)) (hno : ¬ v.Conflicts r) : MergeFails v r stamps :=
  ⟨iff_of_false (not_not.mpr hok) hno, fun h => absurd hok h⟩

theorem mergeFails_leaf {v r : Value P} (hleaf : v.isLeaf = true) (htag : v.typeTag = r.typeTag)
    (hv : v.LeafWF) (hr : r.LeafWF) (stamps : MergeStamps P) : MergeFails v r stamps := by
  induction v, r, htag using Value.sameTagCases with
  | scalar a b hab =>
    refine mergeFails_of_succeeds ?_ (by rintro ⟨⟩)
    rw [Value.merge, if_neg (not_not.mpr hab)]
    split_ifs
    · exact ⟨true, rfl⟩
    · exact ⟨false, rfl⟩
  | counter a b => exact mergeFails_of_succeeds ⟨_, rfl⟩ (by rintro ⟨⟩)
  | orSet a b => exact mergeFails_of_succeeds ⟨_, rfl⟩ (by rintro ⟨⟩)
  | set a b => exact mergeFails_of_succeeds ⟨_, rfl⟩ (by rintro ⟨⟩)
  | mvRegister a b =>
    refine mergeFails_of (fun _ _ h => Value.mvRegister.inj h) rfl ?_ ?_
    · rw [MvRegister.fails_merge hr]
      exact ⟨.mvRegister, fun h => by cases h; assumption⟩
    · intro hno
      rw [MvRegister.failed_merge_same hv hr hno]
      exact ⟨.mvRegister, fun h => by cases h; assumption⟩
  | priorityQueue a b =>
    refine mergeFails_of (fun _ _ h => Value.priorityQueue.inj h) rfl ?_ ?_
    · rw [PriorityQueue.fails_merge hr]
      exact ⟨.priorityQueue, fun h => by cases h; assumption⟩
    · intro hno
      rw [PriorityQueue.failed_merge_same hv hr hno]
      exact ⟨.priorityQueue, fun h => by cases h; assumption⟩
  | text a b =>
    refine mergeFails_of (fun _ _ h => Value.text.inj h) rfl ?_ ?_
    · rw [Text.fails_merge hr]
      exact ⟨.text, fun h => by cases h; assumption⟩
    · intro hno
      exact iff_of_true (Text.failed_merge_same hno) (.text ((Text.fails_merge hr).mp hno))
  | record a b => cases hleaf
  | list a b => cases hleaf

theorem fails_mergeField {field : String} {c r : RowCell P} :
    ¬ Succeeds (mergeField field c r) ↔ ¬ Succeeds (c.join r) :=
  not_congr succeeds_mergeField

/-- An entry with a position conflict is left as it is; otherwise its cell decides. -/
theorem mergeEntry_fails (id : EventStamp P) {e r : RowEntry P} (h : JoinFails e.cell r.cell) :
    (¬ Succeeds (mergeEntry id e r) ↔ e.PositionConflicts r ∨ e.cell.Conflicts r.cell) ∧
    (¬ Succeeds (mergeEntry id e r) ∧ (mergeEntry id e r).1 = e ↔ e.PositionConflicts r ∨
      (r.position = .unknown ∨ e.position = r.position) ∧ e.cell.FailsEarly r.cell) := by
  rw [← h.1, ← h.failed_iff, mergeEntry, ListEntry.PositionConflicts]
  rcases adoptPosition_cases e id r.position with ⟨hpos, heq⟩ | ⟨hne, hpos, heq⟩ |
    ⟨hne, hne', hpos, error, heq⟩ <;> rw [heq]
  · have hno : ¬ (r.position ≠ .unknown ∧ e.position ≠ .unknown ∧ e.position ≠ r.position) :=
      fun hc => hpos.elim hc.1 hc.2.2
    obtain ⟨position, cell⟩ := e
    rw [or_iff_right hno, or_iff_right hno, and_iff_right hpos]
    cases hanswer : (cell.join r.cell).2 <;>
      simp [Succeeds, hanswer, Except.map, Except.mapError]
  · have hno : ¬ (r.position ≠ .unknown ∧ e.position ≠ .unknown ∧ e.position ≠ r.position) :=
      fun hc => hc.2.1 hpos
    have hnot : ¬ (r.position = .unknown ∨ e.position = r.position) := by
      rintro (h | h)
      · exact hne h
      · exact hne (h.symm.trans hpos)
    rw [or_iff_right hno, or_iff_right hno]
    refine ⟨?_, iff_of_false (fun hboth => ?_) fun hboth => hnot hboth.1⟩
    · cases hanswer : (e.cell.join r.cell).2 <;>
        simp [Succeeds, hanswer, Except.map, Except.mapError]
    · have hposition := congrArg ListEntry.position hboth.2
      exact hnot (Or.inr hposition.symm)
  · simp [Succeeds, hne, hne', hpos]

theorem mergeFails (r : Value P) :
    ∀ v : Value P, v.typeTag = r.typeTag → v.WF → r.WF → ∀ stamps, MergeFails v r stamps := by
  induction r using Value.containerInduction with
  | leaf r hleaf =>
    intro v htag hv hr stamps
    have hleaf' : v.isLeaf = true := (Value.isLeaf_eq htag).trans hleaf
    exact mergeFails_leaf hleaf' htag ((all_leaf hleaf').mp hv) ((all_leaf hleaf).mp hr) stamps
  | record fields ih =>
    intro v htag hv hr stamps
    obtain ⟨fields', rfl⟩ := Value.eq_record htag
    rw [Value.WF, all_record] at hv hr
    have hjoin : ∀ field c r, get fields' field = some c → get fields field = some r →
        JoinFails c r := by
      intro field c r hc hr'
      refine joinFails_of fun rv hrv v hv' htag' => ?_
      exact ih (field, r) (mem_of_get hr') rv hrv v htag' ((Cell.all_iff c).mp (hv.2 field c hc) v hv')
        ((Cell.all_iff r).mp (hr.2 field r hr') rv hrv) _
    rw [MergeFails, Value.merge, mergeFields_eq, conflicts_record, failsEarly_record]
    refine ⟨?_, fun hno => ?_⟩
    · exact fails_mergeMap hr.1 fun field c r hc hr' => fails_mergeField.trans (hjoin field c r hc hr').1
    · rw [Value.record.injEq]
      refine failed_mergeMap_same hv.1 hr.1 ?_ ?_ hno
      · intro field c r hc hr'
        rw [fails_mergeField]
        exact (hjoin field c r hc hr').failed_iff
      · intro field c r hc hr'
        rw [succeeds_mergeField]
        exact (joinTells (hv.2 field c hc) (hr.2 field r hr')).kept_iff
  | list entries ih =>
    intro v htag hv hr stamps
    obtain ⟨entries', rfl⟩ := Value.eq_list htag
    rw [Value.WF, all_list] at hv hr
    have hjoin : ∀ id e r, get entries' id = some e → get entries id = some r →
        JoinFails e.cell r.cell := by
      intro id e r he hr'
      refine joinFails_of fun rv hrv v hv' htag' => ?_
      exact ih (id, r) (mem_of_get hr') rv hrv v htag' ((Cell.all_iff e.cell).mp (hv.2 id e he) v hv')
        ((Cell.all_iff r.cell).mp (hr.2 id r hr') rv hrv) _
    rw [MergeFails, Value.merge, mergeEntries_eq, conflicts_list, failsEarly_list]
    refine ⟨?_, fun hno => ?_⟩
    · exact fails_mergeMap hr.1 fun id e r he hr' => (mergeEntry_fails id (hjoin id e r he hr')).1
    · rw [Value.list.injEq]
      refine failed_mergeMap_same hv.1 hr.1 ?_ ?_ hno
      · exact fun id e r he hr' => (mergeEntry_fails id (hjoin id e r he hr')).2
      · intro id e r he hr'
        exact mergeEntry_kept (joinTells (hv.2 id e he) (hr.2 id r hr'))

theorem joinFails {c r : RowCell P} (hc : c.WF) (hr : r.WF) : JoinFails c r :=
  joinFails_of fun rv hrv v hv htag =>
    mergeFails rv v htag ((Cell.all_iff c).mp hc v hv) ((Cell.all_iff r).mp hr rv hrv) _

/-- A merge that fails leaves the local value as it was exactly when the first conflict comes before
anything new. -/
theorem failed_merge_untouched {v r : Value P} (htag : v.typeTag = r.typeTag) (hv : v.WF)
    (hr : r.WF) (stamps : MergeStamps P) :
    ((∃ e, (v.merge r stamps).2 = .error e) → (v.merge r stamps).1 = v) ↔
      (v.Conflicts r → v.FailsEarly r) := by
  obtain ⟨hfails, hfailed⟩ := mergeFails r v htag hv hr stamps
  rw [← not_succeeds_iff, ← hfails]
  exact forall_congr' hfailed

/-- A queue of one element, with some priority. -/
def pushed (priority : Int) : Value Nat :=
  .priorityQueue ⟨[(⟨⟨2, 1⟩, ⟨5, 0⟩⟩, .present priority (.scalar (.bool true)) none)]⟩

theorem failed_merge_untouched_pushed :
    let stamps : MergeStamps Nat := ⟨⟨⟨2, 1⟩, ⟨5, 0⟩⟩, ⟨⟨2, 1⟩, ⟨5, 0⟩⟩⟩
    (∃ e, ((pushed 4).merge (pushed 6) stamps).2 = .error e) ∧
      ((pushed 4).merge (pushed 6) stamps).1 = pushed 4 := by
  intro stamps
  have htag : (pushed 4).typeTag = (pushed 6).typeTag := rfl
  have hwf : ∀ priority, (pushed priority).WF := by
    intro priority
    simp [pushed, Value.WF, Value.All, Value.LeafWF, PriorityQueue.WF, WMap, Sorted]
  have hearly : (pushed 4).FailsEarly (pushed 6) := by
    refine .priorityQueue ⟨⟨⟨2, 1⟩, ⟨5, 0⟩⟩, ⟨_, _, rfl, rfl, _, _, rfl, rfl, by simp⟩, ?_⟩
    intro k hk r hr
    obtain ⟨rfl, -⟩ : k = ⟨⟨2, 1⟩, ⟨5, 0⟩⟩ ∧ r = _ := by simpa using mem_of_get hr
    exact absurd hk (lt_irrefl _)
  have herror : ∃ e, ((pushed 4).merge (pushed 6) stamps).2 = .error e := ⟨_, rfl⟩
  exact ⟨herror, (failed_merge_untouched htag (hwf 4) (hwf 6) stamps).mpr (fun _ => hearly) herror⟩

/-- The conflict is found after an entry before it was written. -/
theorem failed_merge_writes :
    let stamps : MergeStamps Nat := ⟨⟨⟨2, 1⟩, ⟨5, 0⟩⟩, ⟨⟨2, 1⟩, ⟨5, 0⟩⟩⟩
    let remote : Value Nat := .priorityQueue ⟨[
      (⟨⟨1, 1⟩, ⟨3, 0⟩⟩, .present 5 (.scalar (.bool true)) none),
      (⟨⟨2, 1⟩, ⟨5, 0⟩⟩, .present 6 (.scalar (.bool true)) none)]⟩
    (pushed 4).typeTag = remote.typeTag ∧
    (∃ e, ((pushed 4).merge remote stamps).2 = .error e) ∧
      ((pushed 4).merge remote stamps).1 ≠ pushed 4 := by
  refine ⟨rfl, ⟨_, rfl⟩, ?_⟩
  decide +kernel

end ZenDB.Crdt
