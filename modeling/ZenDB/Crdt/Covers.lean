import ZenDB.Crdt.Cell
import ZenDB.Crdt.Laws

namespace ZenDB.Crdt

open SortedMap

/-! What a cell must hold of another one for a merge to change nothing, and the predicates on all
leaves of a value that merges keep. -/

variable {P : Type} [LinearOrder P]

section All

mutual

/-- `L` holds of every leaf, and the containers are sorted maps. -/
def Value.All (L : Value P → Prop) : Value P → Prop
  | .record fields => Sorted (· < ·) fields ∧ allFields L fields
  | .list entries => Sorted (· < ·) entries ∧ allEntries L entries
  | v => L v
termination_by structural v => v

def Cell.All (L : Value P → Prop) : RowCell P → Prop
  | ⟨none, _⟩ => True
  | ⟨some v, _⟩ => v.All L
termination_by structural c => c

def allFields (L : Value P → Prop) : List (String × RowCell P) → Prop
  | [] => True
  | (_, c) :: fields => Cell.All L c ∧ allFields L fields
termination_by structural fields => fields

def allEntries (L : Value P → Prop) : List (EventStamp P × RowEntry P) → Prop
  | [] => True
  | (_, ⟨_, c⟩) :: entries => Cell.All L c ∧ allEntries L entries
termination_by structural entries => entries

end

variable {L : Value P → Prop}

theorem allFields_iff (fields : List (String × RowCell P)) :
    allFields L fields ↔ ∀ e ∈ fields, Cell.All L e.2 := by
  induction fields with
  | nil => simp [allFields]
  | cons e fields ih =>
    obtain ⟨field, c⟩ := e
    simp [allFields, ih]

theorem allEntries_iff (entries : List (EventStamp P × RowEntry P)) :
    allEntries L entries ↔ ∀ e ∈ entries, Cell.All L e.2.cell := by
  induction entries with
  | nil => simp [allEntries]
  | cons e entries ih =>
    obtain ⟨id, position, c⟩ := e
    simp [allEntries, ih]

theorem all_record (fields : List (String × RowCell P)) :
    (Value.record fields).All L ↔ WMap (Cell.All L) fields := by
  rw [Value.All, allFields_iff]
  refine and_congr_right fun hsorted => ⟨?_, ?_⟩
  · exact fun h field c hc => h _ (mem_of_get hc)
  · exact fun h e he => h e.1 e.2 (get_of_mem hsorted he)

theorem all_list (entries : List (EventStamp P × RowEntry P)) :
    (Value.list entries).All L ↔ WMap (fun e => Cell.All L e.cell) entries := by
  rw [Value.All, allEntries_iff]
  refine and_congr_right fun hsorted => ⟨?_, ?_⟩
  · exact fun h id e he => h _ (mem_of_get he)
  · exact fun h e he => h e.1 e.2 (get_of_mem hsorted he)

theorem all_leaf {v : Value P} (hv : v.isLeaf = true) : v.All L ↔ L v := by
  cases v <;> first | exact Iff.rfl | cases hv

theorem Cell.all_iff (c : RowCell P) : c.All L ↔ ∀ v, c.value = some v → v.All L := by
  obtain ⟨_ | v, s⟩ := c <;> simp [Cell.All]

end All

/-- The maps of a leaf are sorted. -/
def Value.LeafWF : Value P → Prop
  | .counter c => c.WF
  | .mvRegister r => r.WF
  | .orSet o => o.WF
  | .priorityQueue q => q.WF
  | .set s => s.WF
  | .text t => t.WF
  | _ => True

def Value.WF (v : Value P) : Prop := v.All Value.LeafWF

def Cell.WF (c : RowCell P) : Prop := c.All Value.LeafWF

section Covers

mutual

/-- For values of one type: `v` holds everything of the other value. Scalars are decided by the
stamps of their cells. -/
def Value.Covers (v : Value P) : Value P → Prop
  | .scalar _ => True
  | .counter r => ∃ l, v = .counter l ∧ l.Covers r
  | .mvRegister r => ∃ l, v = .mvRegister l ∧ l.Covers r
  | .orSet r => ∃ l, v = .orSet l ∧ l.Covers r
  | .priorityQueue r => ∃ l, v = .priorityQueue l ∧ l.Covers r
  | .set r => ∃ l, v = .set l ∧ l.Covers r
  | .text r => ∃ l, v = .text l ∧ l.Covers r
  | .record r => ∃ l, v = .record l ∧ coversFields l r
  | .list r => ∃ l, v = .list l ∧ coversEntries l r
termination_by structural r => r

/-- The cell is not older, and a value of the same type is covered. -/
def Cell.Covers (c : RowCell P) : RowCell P → Prop
  | ⟨none, s⟩ => s ≤ c.stamp
  | ⟨some r, s⟩ => s ≤ c.stamp ∧ ∀ v, c.value = some v → v.typeTag = r.typeTag → v.Covers r
termination_by structural r => r

def coversFields (fields : List (String × RowCell P)) : List (String × RowCell P) → Prop
  | [] => True
  | (field, r) :: rest => (∃ c, get fields field = some c ∧ Cell.Covers c r) ∧ coversFields fields rest
termination_by structural r => r

def coversEntries (entries : List (EventStamp P × RowEntry P)) :
    List (EventStamp P × RowEntry P) → Prop
  | [] => True
  | (id, ⟨position, r⟩) :: rest =>
    (∃ e, get entries id = some e ∧ (position = .unknown ∨ e.position = position) ∧
      Cell.Covers e.cell r) ∧ coversEntries entries rest
termination_by structural r => r

end

/-- A list entry covers another one that has no position or the same. -/
def ListEntry.Covers (e r : RowEntry P) : Prop :=
  (r.position = .unknown ∨ e.position = r.position) ∧ e.cell.Covers r.cell

theorem coversFields_iff {fields remote : List (String × RowCell P)}
    (hremote : Sorted (· < ·) remote) :
    coversFields fields remote ↔ CoversMap Cell.Covers fields remote := by
  have hall : coversFields fields remote ↔
      ∀ e ∈ remote, ∃ c, get fields e.1 = some c ∧ Cell.Covers c e.2 := by
    clear hremote
    induction remote with
    | nil => simp [coversFields]
    | cons e remote ih =>
      obtain ⟨field, c⟩ := e
      simp [coversFields, ih]
  rw [hall]
  constructor
  · exact fun h field c hc => h _ (mem_of_get hc)
  · exact fun h e he => h e.1 e.2 (get_of_mem hremote he)

theorem coversEntries_iff {entries remote : List (EventStamp P × RowEntry P)}
    (hremote : Sorted (· < ·) remote) :
    coversEntries entries remote ↔ CoversMap ListEntry.Covers entries remote := by
  have hall : coversEntries entries remote ↔
      ∀ e ∈ remote, ∃ e', get entries e.1 = some e' ∧ ListEntry.Covers e' e.2 := by
    clear hremote
    induction remote with
    | nil => simp [coversEntries]
    | cons e remote ih =>
      obtain ⟨id, position, c⟩ := e
      simp [coversEntries, ListEntry.Covers, ih]
  rw [hall]
  constructor
  · exact fun h id e he => h _ (mem_of_get he)
  · exact fun h e he => h e.1 e.2 (get_of_mem hremote he)

end Covers

section Join

theorem Value.merge_of_tag_ne {v r : Value P} (h : v.typeTag ≠ r.typeTag) (stamps : MergeStamps P) :
    v.merge r stamps = (v, .error (.mergeConflict v.typeTag r.typeTag)) := by
  cases v <;> cases r <;> first
    | exact absurd rfl h
    | rfl
    | (rename_i a b; exact if_pos h)

theorem Value.typeTag_merge (v r : Value P) (stamps : MergeStamps P) :
    (v.merge r stamps).1.typeTag = v.typeTag := by
  by_cases h : v.typeTag = r.typeTag
  · induction v, r, h using Value.sameTagCases with
    | scalar a b hab =>
      rw [Value.merge, if_neg (not_not.mpr hab)]
      split_ifs
      · exact hab.symm
      · rfl
    | _ => rfl
  · rw [Value.merge_of_tag_ne h]

namespace Cell

/-- Both are live and of one type. -/
def SameType (c d : RowCell P) : Prop := ∃ v r, c.value = some v ∧ d.value = some r ∧
  v.typeTag = r.typeTag

theorem join_of_not_sameType {c d : RowCell P} (h : ¬ c.SameType d) :
    c.join d = if c.stamp < d.stamp then (d, .ok true) else (c, .ok false) := by
  obtain ⟨_ | v, s⟩ := c <;> obtain ⟨_ | r, s'⟩ := d
  · rfl
  · rfl
  · rfl
  · have hne : v.typeTag ≠ r.typeTag := fun heq => h ⟨v, r, rfl, rfl, heq⟩
    rw [join, merge, if_pos hne]

theorem join_ok {c d : RowCell P} {v r w : Value P} {changed : Bool} (hc : c.value = some v)
    (hd : d.value = some r) (htag : v.typeTag = r.typeTag)
    (hmerge : v.merge r ⟨c.stamp, d.stamp⟩ = (w, .ok changed)) :
    c.join d = (⟨some w, max c.stamp d.stamp⟩, .ok (decide (c.stamp < d.stamp) || changed)) := by
  obtain ⟨_ | v', s⟩ := c <;> obtain ⟨_ | r', s'⟩ := d <;> cases hc <;> cases hd
  rw [join, merge, if_neg (not_not.mpr htag), hmerge]
  dsimp only
  split_ifs with hlt
  · simp [hlt, max_eq_right hlt.le]
  · simp [hlt, max_eq_left (not_lt.mp hlt)]

theorem join_error {c d : RowCell P} {v r w : Value P} {e : TypeError P} (hc : c.value = some v)
    (hd : d.value = some r) (htag : v.typeTag = r.typeTag)
    (hmerge : v.merge r ⟨c.stamp, d.stamp⟩ = (w, .error e)) :
    c.join d = (⟨some w, c.stamp⟩, .error e) := by
  obtain ⟨_ | v', s⟩ := c <;> obtain ⟨_ | r', s'⟩ := d <;> cases hc <;> cases hd
  rw [join, merge, if_neg (not_not.mpr htag), hmerge]

theorem succeeds_join {c d : RowCell P} {v r : Value P} (hc : c.value = some v)
    (hd : d.value = some r) (htag : v.typeTag = r.typeTag) :
    Succeeds (c.join d) ↔ Succeeds (v.merge r ⟨c.stamp, d.stamp⟩) := by
  rcases hmerge : v.merge r ⟨c.stamp, d.stamp⟩ with ⟨w, e | changed⟩
  · rw [join_error hc hd htag hmerge]
    simp [Succeeds]
  · rw [join_ok hc hd htag hmerge]
    simp [Succeeds]

theorem value_join {c d : RowCell P} {v r : Value P} (hc : c.value = some v) (hd : d.value = some r)
    (htag : v.typeTag = r.typeTag) :
    (c.join d).1.value = some (v.merge r ⟨c.stamp, d.stamp⟩).1 := by
  rcases hmerge : v.merge r ⟨c.stamp, d.stamp⟩ with ⟨w, e | changed⟩
  · rw [join_error hc hd htag hmerge]
  · rw [join_ok hc hd htag hmerge]

end Cell

theorem succeeds_mergeField {field : String} {c r : RowCell P} :
    Succeeds (mergeField field c r) ↔ Succeeds (c.join r) := by
  rw [mergeField]
  cases h : (c.join r).2 <;> simp [Succeeds, h, Except.mapError]

end Join

section Entries

theorem ListPosition.known_after? {S : Type} {position : ListPosition S} {after : Option S}
    (h : position.after? = some after) : ListPosition.known after = position := by
  cases position <;> cases h <;> rfl

/-- An entry takes over a position if it has none; a different one is a conflict. -/
theorem adoptPosition_cases (entry : RowEntry P) (id : EventStamp P)
    (position : ListPosition (EventStamp P)) :
    ((position = .unknown ∨ entry.position = position) ∧
      adoptPosition entry id position = (entry, .ok false)) ∨
    (position ≠ .unknown ∧ entry.position = .unknown ∧
      adoptPosition entry id position = (⟨position, entry.cell⟩, .ok true)) ∨
    (position ≠ .unknown ∧ entry.position ≠ .unknown ∧ entry.position ≠ position ∧
      ∃ e, adoptPosition entry id position = (entry, .error e)) := by
  cases hafter : position.after? with
  | none =>
    have hunknown : position = .unknown := by cases position <;> first | rfl | cases hafter
    exact Or.inl ⟨Or.inl hunknown, by rw [adoptPosition, hafter]⟩
  | some after =>
    have hne : position ≠ .unknown := by
      rintro rfl
      cases hafter
    have hknown := ListPosition.known_after? hafter
    rw [adoptPosition, hafter]
    dsimp only
    rw [resolvePosition, hknown]
    split_ifs with hunknown heq
    · exact Or.inr (Or.inl ⟨hne, hunknown, rfl⟩)
    · exact Or.inr (Or.inr ⟨hne, hunknown, heq, _, rfl⟩)
    · exact Or.inl ⟨Or.inr (not_not.mp heq), rfl⟩

variable {id : EventStamp P} {entry remote : RowEntry P}

/-- The cell of an entry is merged, unless the positions are in conflict. -/
theorem cell_mergeEntry (id : EventStamp P) (entry remote : RowEntry P) :
    (¬ Succeeds (mergeEntry id entry remote) ∧ (mergeEntry id entry remote).1.cell = entry.cell) ∨
    ((Succeeds (mergeEntry id entry remote) ↔ Succeeds (entry.cell.join remote.cell)) ∧
      (mergeEntry id entry remote).1.cell = (entry.cell.join remote.cell).1) := by
  rw [mergeEntry]
  rcases adoptPosition_cases entry id remote.position with ⟨-, h⟩ | ⟨-, -, h⟩ | ⟨-, -, -, e, h⟩ <;>
    rw [h]
  · refine Or.inr ⟨?_, rfl⟩
    rcases hj : (entry.cell.join remote.cell).2 with e | d <;>
      simp [Succeeds, hj, Except.map, Except.mapError]
  · refine Or.inr ⟨?_, rfl⟩
    rcases hj : (entry.cell.join remote.cell).2 with e | d <;>
      simp [Succeeds, hj, Except.map, Except.mapError]
  · exact Or.inl ⟨by simp [Succeeds], rfl⟩

theorem mergeEntry_unchanged :
    (mergeEntry id entry remote).2 = .ok false ↔
      (remote.position = .unknown ∨ entry.position = remote.position) ∧
        (entry.cell.join remote.cell).2 = .ok false := by
  rw [mergeEntry]
  rcases adoptPosition_cases entry id remote.position with ⟨hpos, h⟩ | ⟨hne, hpos, h⟩ | ⟨hne, -, hpos, e, h⟩ <;>
    rw [h]
  · dsimp only
    rw [and_iff_right hpos]
    cases (entry.cell.join remote.cell).2 <;> simp [Except.map, Except.mapError]
  · refine iff_of_false ?_ ?_
    · dsimp only
      cases (entry.cell.join remote.cell).2 <;> simp [Except.map, Except.mapError]
    · rintro ⟨hun | heq, -⟩
      · exact hne hun
      · exact hne (heq.symm.trans hpos)
  · refine iff_of_false (by simp) ?_
    rintro ⟨hun | heq, -⟩
    · exact hne hun
    · exact hpos heq

theorem mergeEntry_same (hok : Succeeds (mergeEntry id entry remote)) :
    (mergeEntry id entry remote).1 = entry ↔
      (remote.position = .unknown ∨ entry.position = remote.position) ∧
        (entry.cell.join remote.cell).1 = entry.cell := by
  obtain ⟨c, hc⟩ := hok
  rw [mergeEntry] at hc ⊢
  rcases adoptPosition_cases entry id remote.position with ⟨hpos, h⟩ | ⟨hne, hpos, h⟩ | ⟨-, -, -, e, h⟩ <;>
    rw [h] at hc ⊢
  · obtain ⟨position, cell⟩ := entry
    simp [hpos]
  · refine iff_of_false ?_ ?_
    · intro heq
      exact hne ((congrArg ListEntry.position heq).trans hpos)
    · rintro ⟨hun | heq, -⟩
      · exact hne hun
      · exact hne (heq.symm.trans hpos)
  · cases hc

end Entries

section Kept

/-- Merges of leaves keep `L`; `strict` leaves out those that fail. -/
def KeptByLeaves (strict : Prop) (L : Value P → Prop) : Prop :=
  ∀ v r stamps, v.isLeaf = true → v.typeTag = r.typeTag → L v → L r →
    (strict → Succeeds (v.merge r stamps)) → L (v.merge r stamps).1

variable {L : Value P → Prop} {strict : Prop}

theorem Cell.all_join_of {c r : RowCell P}
    (ih : ∀ rv, r.value = some rv → ∀ (v : Value P) stamps, v.All L → rv.All L →
      (strict → Succeeds (v.merge rv stamps)) → (v.merge rv stamps).1.All L)
    (hc : c.All L) (hr : r.All L) (hok : strict → Succeeds (c.join r)) : (c.join r).1.All L := by
  by_cases hsame : c.SameType r
  · obtain ⟨v, rv, hv, hrv, htag⟩ := hsame
    rw [Cell.all_iff]
    intro w hw
    rw [Cell.value_join hv hrv htag] at hw
    cases hw
    exact ih rv hrv v _ ((Cell.all_iff c).mp hc v hv) ((Cell.all_iff r).mp hr rv hrv) fun hs =>
      (Cell.succeeds_join hv hrv htag).mp (hok hs)
  · rw [Cell.join_of_not_sameType hsame]
    split_ifs
    · exact hr
    · exact hc

/-- What merges of leaves keep, merges of all values keep. -/
theorem Value.all_merge (hL : KeptByLeaves strict L) (r : Value P) :
    ∀ (v : Value P) stamps, v.All L → r.All L → (strict → Succeeds (v.merge r stamps)) →
      (v.merge r stamps).1.All L := by
  induction r using Value.containerInduction with
  | leaf r hleaf =>
    intro v stamps hv hr hok
    by_cases htag : v.typeTag = r.typeTag
    · have hleaf' : v.isLeaf = true := (Value.isLeaf_eq htag).trans hleaf
      have hmerged : (v.merge r stamps).1.isLeaf = true :=
        (Value.isLeaf_eq (Value.typeTag_merge v r stamps)).trans hleaf'
      rw [all_leaf hmerged]
      exact hL v r stamps hleaf' htag ((all_leaf hleaf').mp hv) ((all_leaf hleaf).mp hr) hok
    · rw [Value.merge_of_tag_ne htag]
      exact hv
  | record fields ih =>
    intro v stamps hv hr hok
    by_cases htag : v.typeTag = (Value.record fields).typeTag
    · obtain ⟨fields', rfl⟩ := Value.eq_record htag
      rw [Value.merge, mergeFields_eq] at hok ⊢
      rw [all_record] at hv hr ⊢
      have hremote : ∀ e ∈ fields, Cell.All L e.2 := fun e he => hr.2 e.1 e.2 (get_of_mem hr.1 he)
      refine WMap.mergeMap strict ?_ hv hremote false hok
      intro e he c hc hok'
      exact Cell.all_join_of (ih e he) hc (hremote e he) fun hs => succeeds_mergeField.mp (hok' hs)
    · rw [Value.merge_of_tag_ne htag]
      exact hv
  | list entries ih =>
    intro v stamps hv hr hok
    by_cases htag : v.typeTag = (Value.list entries).typeTag
    · obtain ⟨entries', rfl⟩ := Value.eq_list htag
      rw [Value.merge, mergeEntries_eq] at hok ⊢
      rw [all_list] at hv hr ⊢
      have hremote : ∀ e ∈ entries, Cell.All L e.2.cell :=
        fun e he => hr.2 e.1 e.2 (get_of_mem hr.1 he)
      refine WMap.mergeMap strict ?_ hv hremote false hok
      intro e he entry hentry hok'
      rcases cell_mergeEntry e.1 entry e.2 with ⟨-, hcell⟩ | ⟨hiff, hcell⟩
      · rw [hcell]
        exact hentry
      · rw [hcell]
        exact Cell.all_join_of (ih e he) hentry (hremote e he) fun hs => hiff.mp (hok' hs)
    · rw [Value.merge_of_tag_ne htag]
      exact hv

theorem Cell.all_join (hL : KeptByLeaves strict L) {c r : RowCell P} (hc : c.All L) (hr : r.All L)
    (hok : strict → Succeeds (c.join r)) : (c.join r).1.All L :=
  Cell.all_join_of (fun rv _ => Value.all_merge hL rv) hc hr hok

theorem leafWF_kept : KeptByLeaves False (Value.LeafWF (P := P)) := by
  intro v r stamps hleaf htag hv hr _
  induction v, r, htag using Value.sameTagCases with
  | scalar a b hab =>
    rw [Value.merge, if_neg (not_not.mpr hab)]
    split_ifs <;> exact trivial
  | counter a b => exact (Counter.laws (ε := Empty)).wf a b hv hr
  | mvRegister a b => exact MvRegister.laws.wf a b hv hr
  | orSet a b => exact (OrSet.laws (ε := Empty)).wf a b hv hr
  | priorityQueue a b => exact PriorityQueue.laws.wf a b hv hr
  | set a b => exact (LwwSet.laws (ε := Empty)).wf a b hv hr
  | text a b => exact Text.laws.wf a b hv hr
  | record a b => cases hleaf
  | list a b => cases hleaf

/-- Joins keep cells well formed, also those that fail. -/
theorem Cell.wf_join {c r : RowCell P} (hc : c.WF) (hr : r.WF) : (c.join r).1.WF :=
  Cell.all_join leafWF_kept hc hr False.elim

end Kept

section Unchanged

theorem Cell.covers_iff (c r : RowCell P) :
    c.Covers r ↔ r.stamp ≤ c.stamp ∧ ∀ rv, r.value = some rv → ∀ v, c.value = some v →
      v.typeTag = rv.typeTag → v.Covers rv := by
  obtain ⟨_ | rv, s⟩ := r
  · simp [Cell.Covers]
  · simp [Cell.Covers]

/-- The answer of a merge, and what it leaves behind, tell whether there was something new. -/
def MergeTells (v r : Value P) (stamps : MergeStamps P) : Prop :=
  ((v.merge r stamps).2 = .ok false ↔ v.Covers r) ∧
    (Succeeds (v.merge r stamps) → ((v.merge r stamps).1 = v ↔ v.Covers r))

/-- The same for the join of two cells. -/
def JoinTells (c r : RowCell P) : Prop :=
  ((c.join r).2 = .ok false ↔ c.Covers r) ∧ (Succeeds (c.join r) → ((c.join r).1 = c ↔ c.Covers r))

theorem joinTells_of {c r : RowCell P}
    (ih : ∀ rv, r.value = some rv → ∀ v, c.value = some v → v.typeTag = rv.typeTag →
      ¬ c.stamp < r.stamp → MergeTells v rv ⟨c.stamp, r.stamp⟩) : JoinTells c r := by
  have hcovers := Cell.covers_iff c r
  by_cases hsame : c.SameType r
  · obtain ⟨v, rv, hv, hrv, htag⟩ := hsame
    have hvalue : c.Covers r ↔ r.stamp ≤ c.stamp ∧ v.Covers rv := by
      rw [hcovers]
      simp [hv, hrv, htag]
    by_cases hlt : c.stamp < r.stamp
    · -- a later cell always changes the stamp
      have hno : ¬ c.Covers r := fun h => absurd (hvalue.mp h).1 (not_le.mpr hlt)
      rcases hmerge : v.merge rv ⟨c.stamp, r.stamp⟩ with ⟨w, e | changed⟩
      · rw [JoinTells, Cell.join_error hv hrv htag hmerge]
        simp [hno, Succeeds]
      · rw [JoinTells, Cell.join_ok hv hrv htag hmerge]
        refine ⟨by simp [hno, hlt], fun _ => iff_of_false ?_ hno⟩
        intro heq
        have hstamp := congrArg Cell.stamp heq
        rw [max_eq_right hlt.le] at hstamp
        exact hlt.ne' hstamp
    · have hle := not_lt.mp hlt
      obtain ⟨htells, htells'⟩ := ih rv hrv v hv htag hlt
      rw [and_iff_right hle] at hvalue
      rcases hmerge : v.merge rv ⟨c.stamp, r.stamp⟩ with ⟨w, e | changed⟩
      · rw [hmerge] at htells
        rw [JoinTells, Cell.join_error hv hrv htag hmerge, hvalue]
        refine ⟨htells, ?_⟩
        rintro ⟨d, hd⟩
        cases hd
      · rw [hmerge] at htells htells'
        rw [JoinTells, Cell.join_ok hv hrv htag hmerge, hvalue]
        refine ⟨by simpa [hlt] using htells, fun _ => ?_⟩
        rw [← htells' ⟨changed, rfl⟩, max_eq_left hle]
        obtain ⟨value, stamp⟩ := c
        cases hv
        simp
  · have hvalue : c.Covers r ↔ r.stamp ≤ c.stamp := by
      rw [hcovers, and_iff_left_iff_imp]
      exact fun _ rv hrv v hv htag => absurd ⟨v, rv, hv, hrv, htag⟩ hsame
    rw [JoinTells, Cell.join_of_not_sameType hsame, hvalue]
    split_ifs with hlt
    · refine ⟨by simp [hlt], fun _ => iff_of_false ?_ (not_le.mpr hlt)⟩
      rintro rfl
      exact lt_irrefl _ hlt
    · simp [not_lt.mp hlt]

/-- A leaf type with lawful merges. -/
theorem mergeTells_of_laws {α ε : Type} {W : α → Prop} {f : α → α → α × Except ε Bool}
    {R C : α → α → Prop} (hf : MergeLaws W f R C) {con : α → Value P} (hcon : Function.Injective con)
    {g : ε → TypeError P} {a b : α} {stamps : MergeStamps P}
    (hmerge : (con a).merge (con b) stamps = (con (f a b).1, (f a b).2.mapError g))
    (hcovers : (con a).Covers (con b) ↔ R a b) (ha : W a) (hb : W b) :
    MergeTells (con a) (con b) stamps := by
  have hanswer : (f a b).2.mapError g = .ok false ↔ (f a b).2 = .ok false := by
    cases (f a b).2 <;> simp [Except.mapError]
  have hok : Succeeds ((con a).merge (con b) stamps) → Succeeds (f a b) := by
    rw [hmerge]
    cases h : (f a b).2 <;> simp [Succeeds, h, Except.mapError]
  refine ⟨?_, ?_⟩
  · rw [hmerge, hcovers]
    exact hanswer.trans (hf.unchanged a b ha hb)
  · intro h
    rw [hcovers, ← hf.same a b ha hb (hok h), hmerge]
    exact hcon.eq_iff

theorem mergeTells_leaf {v r : Value P} (hleaf : v.isLeaf = true) (htag : v.typeTag = r.typeTag)
    (hv : v.LeafWF) (hr : r.LeafWF) {stamps : MergeStamps P}
    (hstamps : ¬ stamps.current < stamps.incoming) : MergeTells v r stamps := by
  induction v, r, htag using Value.sameTagCases with
  | scalar a b hab =>
    rw [MergeTells, Value.merge, if_neg (not_not.mpr hab), if_neg hstamps]
    simp [Value.Covers]
  | counter a b =>
    exact mergeTells_of_laws (Counter.laws (ε := Empty)) (g := Empty.elim)
      (fun _ _ h => Value.counter.inj h) rfl (by simp [Value.Covers]) hv hr
  | mvRegister a b =>
    exact mergeTells_of_laws MvRegister.laws (fun _ _ h => Value.mvRegister.inj h) rfl
      (by simp [Value.Covers]) hv hr
  | orSet a b =>
    exact mergeTells_of_laws (OrSet.laws (ε := Empty)) (g := Empty.elim)
      (fun _ _ h => Value.orSet.inj h) rfl (by simp [Value.Covers]) hv hr
  | priorityQueue a b =>
    exact mergeTells_of_laws PriorityQueue.laws (fun _ _ h => Value.priorityQueue.inj h) rfl
      (by simp [Value.Covers]) hv hr
  | set a b =>
    exact mergeTells_of_laws (LwwSet.laws (ε := Empty)) (g := Empty.elim)
      (fun _ _ h => Value.set.inj h) rfl (by simp [Value.Covers]) hv hr
  | text a b =>
    exact mergeTells_of_laws Text.laws (fun _ _ h => Value.text.inj h) rfl (by simp [Value.Covers])
      hv hr
  | record a b => cases hleaf
  | list a b => cases hleaf

theorem mergeTells (r : Value P) :
    ∀ v : Value P, v.typeTag = r.typeTag → v.WF → r.WF → ∀ stamps : MergeStamps P,
      ¬ stamps.current < stamps.incoming → MergeTells v r stamps := by
  induction r using Value.containerInduction with
  | leaf r hleaf =>
    intro v htag hv hr stamps hstamps
    have hleaf' : v.isLeaf = true := (Value.isLeaf_eq htag).trans hleaf
    exact mergeTells_leaf hleaf' htag ((all_leaf hleaf').mp hv) ((all_leaf hleaf).mp hr) hstamps
  | record fields ih =>
    intro v htag hv hr stamps _
    obtain ⟨fields', rfl⟩ := Value.eq_record htag
    rw [Value.WF, all_record] at hv hr
    have hjoin : ∀ field c r, get fields' field = some c → get fields field = some r →
        JoinTells c r := by
      intro field c r hc hr'
      refine joinTells_of fun rv hrv v hv' htag' hlt => ?_
      exact ih (field, r) (mem_of_get hr') rv hrv v htag' ((Cell.all_iff c).mp (hv.2 field c hc) v hv')
        ((Cell.all_iff r).mp (hr.2 field r hr') rv hrv) _ hlt
    have hcovers : (Value.record fields').Covers (.record fields) ↔
        CoversMap Cell.Covers fields' fields := by
      rw [← coversFields_iff hr.1]
      simp [Value.Covers]
    have hanswer : ∀ field c r, (mergeField field c r).2 = .ok false ↔
        ((c : RowCell P).join r).2 = .ok false := by
      intro field c r
      rw [mergeField]
      cases (c.join r).2 <;> simp [Except.mapError]
    rw [MergeTells, Value.merge, mergeFields_eq, hcovers]
    refine ⟨?_, fun hok => ?_⟩
    · rw [mergeMap_unchanged hr.1]
      refine forall_congr' fun field => forall_congr' fun r => forall_congr' fun hr' => ?_
      refine exists_congr fun c => and_congr_right fun hc => ?_
      rw [hanswer, (hjoin field c r hc hr').1]
    · rw [Value.record.injEq, mergeMap_same hv.1 hr.1 hok]
      refine forall_congr' fun field => forall_congr' fun r => forall_congr' fun hr' => ?_
      refine exists_congr fun c => and_congr_right fun hc => ?_
      exact (hjoin field c r hc hr').2 (succeeds_mergeField.mp (Succeeds.entry hr.1 hok hc hr'))
  | list entries ih =>
    intro v htag hv hr stamps _
    obtain ⟨entries', rfl⟩ := Value.eq_list htag
    rw [Value.WF, all_list] at hv hr
    have hjoin : ∀ id e r, get entries' id = some e → get entries id = some r →
        JoinTells e.cell r.cell := by
      intro id e r he hr'
      refine joinTells_of fun rv hrv v hv' htag' hlt => ?_
      exact ih (id, r) (mem_of_get hr') rv hrv v htag' ((Cell.all_iff e.cell).mp (hv.2 id e he) v hv')
        ((Cell.all_iff r.cell).mp (hr.2 id r hr') rv hrv) _ hlt
    have hcovers : (Value.list entries').Covers (.list entries) ↔
        CoversMap ListEntry.Covers entries' entries := by
      rw [← coversEntries_iff hr.1]
      simp [Value.Covers]
    rw [MergeTells, Value.merge, mergeEntries_eq, hcovers]
    refine ⟨?_, fun hok => ?_⟩
    · rw [mergeMap_unchanged hr.1]
      refine forall_congr' fun id => forall_congr' fun r => forall_congr' fun hr' => ?_
      refine exists_congr fun e => and_congr_right fun he => ?_
      rw [mergeEntry_unchanged, (hjoin id e r he hr').1, ListEntry.Covers]
    · rw [Value.list.injEq, mergeMap_same hv.1 hr.1 hok]
      refine forall_congr' fun id => forall_congr' fun r => forall_congr' fun hr' => ?_
      refine exists_congr fun e => and_congr_right fun he => ?_
      have hentry := Succeeds.entry hr.1 hok he hr'
      have hcell : Succeeds (e.cell.join r.cell) := by
        rcases cell_mergeEntry id e r with ⟨hno, -⟩ | ⟨hiff, -⟩
        · exact absurd hentry hno
        · exact hiff.mp hentry
      rw [mergeEntry_same hentry, (hjoin id e r he hr').2 hcell, ListEntry.Covers]

/-- A join changes nothing exactly when the cell covers the other one. -/
theorem joinTells {c r : RowCell P} (hc : c.WF) (hr : r.WF) : JoinTells c r :=
  joinTells_of fun rv hrv v hv htag hlt =>
    mergeTells rv v htag ((Cell.all_iff c).mp hc v hv) ((Cell.all_iff r).mp hr rv hrv) _ hlt

end Unchanged

end ZenDB.Crdt
