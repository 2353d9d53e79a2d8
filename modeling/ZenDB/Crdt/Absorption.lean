import ZenDB.Crdt.Applied

namespace ZenDB.Crdt

open SortedMap

/-! A merge that goes through takes over everything of the remote side, so that merging the same
state again changes nothing. -/

section Leaves

variable {P S K V ε : Type} [LinearOrder S]

theorem clock_absorbs :
    Absorbs (fun _ : Option S => True)
      (liftOk mergeClock : Option S → Option S → Option S × Except ε Bool) ClockCovers :=
  clock_laws.absorbs fun r _ => clockCovers_self r

theorem mergeContent_absorbs {α : Type} [DecidableEq α] (e : ε) :
    Absorbs (fun _ : Option α => True) (mergeContent e) ContentCovers := by
  intro l r _ _ hok
  cases l <;> cases r
  · simp [mergeContent, ContentCovers]
  · simp [mergeContent, ContentCovers]
  · simp [mergeContent, ContentCovers]
  · rw [eq_of_succeeds_mergeContent hok]
    simp [mergeContent, ContentCovers]

theorem Counter.absorbs [LinearOrder P] :
    Absorbs WF (liftOk merge : Counter P → Counter P → _ × Except ε Bool) Covers :=
  laws.absorbs fun c _ => c.covers_self

theorem OrSet.absorbs [LinearOrder K] :
    Absorbs WF (liftOk merge : OrSet K S → OrSet K S → _ × Except ε Bool) Covers :=
  laws.absorbs fun o _ => o.covers_self

theorem LwwSet.absorbs [LinearOrder K] :
    Absorbs WF (liftOk merge : LwwSet K S → LwwSet K S → _ × Except ε Bool) Covers :=
  laws.absorbs fun s _ => s.covers_self

variable [DecidableEq V]

theorem PriorityQueue.absorbs :
    Absorbs WF (merge : PriorityQueue S V → PriorityQueue S V → _) Covers := by
  have hentry : ∀ id : S, Absorbs (fun _ : PqEntry S V => True) (mergeEntry id) PqEntry.Covers := by
    intro id e r _ _ hok
    have hpairs := (mergeContent_absorbs (α := Int × V) (PqError.pushConflict id)).pairs
      (clock_absorbs (S := S))
    exact hpairs.pullbackOk (fun e : PqEntry S V => (e.content, e.deletedAt))
      (fun _ _ _ _ hok => mergeEntry_eq hok) e r ⟨trivial, trivial⟩ ⟨trivial, trivial⟩ hok
  exact (Absorbs.map hentry fun e _ => e.covers_self).pullbackOk PriorityQueue.entries
    fun _ _ _ _ _ => rfl

omit [DecidableEq V] in
theorem Text.absorbs : Absorbs WF (merge : Text S V → Text S V → _) Covers := by
  have hattrs : Absorbs (WMap fun _ => True)
      (liftOk (mergeTotal mergeAttr) : List (String × (Option V × S)) → _ → _ × Except (TextError S) Bool)
      (CoversMap AttrCovers) :=
    (MergeLaws.total mergeAttr_laws).changeError.absorbs fun _ _ => CoversMap.refl fun _ _ _ => le_rfl
  have hentry : ∀ id, Absorbs TextEntry.WF (checkedEntry id : TextEntry S V → _) TextEntry.Covers := by
    intro id l r hl hr hok
    have hpairs := (mergeContent_absorbs (α := TextContent S) (TextError.insertConflict id)).pairs
      ((clock_absorbs (S := S)).pairs hattrs)
    exact hpairs.pullbackOk (fun e : TextEntry S V => (e.content, e.deletedAt, e.attrs))
      (fun _ _ _ _ _ => rfl) l r ⟨trivial, trivial, hl⟩ ⟨trivial, trivial, hr⟩ hok
  exact (Absorbs.map hentry fun e _ => e.covers_self).pullbackOk Text.entries
    fun a b _ hb hok => by rw [merge_eq hb (noConflict_of_succeeds hok)]

theorem MvRegister.absorbs :
    Absorbs WF (merge : MvRegister S V → MvRegister S V → _) Covers := by
  intro r remote hr hremote hok
  refine ⟨?_, ?_, clean_merge hr hremote hok⟩
  · rw [removed_merge]
    exact (removals_laws.absorbs fun _ _ => CoversMap.refl fun _ _ _ => le_rfl) _ _ hr.2 hremote.2
      (succeeds_liftOk _ _ _)
  · intro id w hw
    rw [removed_merge, contains_mergeRemovals hremote.2.1, get_merge hr hremote hok]
    cases hid : contains r.removed id || contains remote.removed id with
    | true => exact Or.inl rfl
    | false =>
      right
      cases hv : get r.entries id with
      | none => simp [hw]
      | some v => simp [agree_of_succeeds hremote hok hv hw hid]

end Leaves

variable {P : Type} [LinearOrder P]

/-- A leaf type that absorbs what is merged into it. -/
theorem covers_merge_of_absorbs {α ε : Type} {W : α → Prop} {f : α → α → α × Except ε Bool}
    {R : α → α → Prop} (hf : Absorbs W f R) {c : α → Value P} {g : ε → TypeError P} {a b : α}
    {stamps : MergeStamps P}
    (hmerge : (c a).merge (c b) stamps = (c (f a b).1, (f a b).2.mapError g))
    (hcovers : ∀ a, (c a).Covers (c b) ↔ R a b) (ha : W a) (hb : W b)
    (hok : Succeeds ((c a).merge (c b) stamps)) :
    ((c a).merge (c b) stamps).1.Covers (c b) := by
  rw [hmerge] at hok ⊢
  rw [hcovers]
  refine hf a b ha hb ?_
  cases h : (f a b).2 with
  | error e => simp [Succeeds, h, Except.mapError] at hok
  | ok changed => exact ⟨changed, h⟩

theorem covers_merge_leaf {v r : Value P} (hleaf : v.isLeaf = true) (htag : v.typeTag = r.typeTag)
    (hv : v.LeafWF) (hr : r.LeafWF) {stamps : MergeStamps P} (hok : Succeeds (v.merge r stamps)) :
    (v.merge r stamps).1.Covers r := by
  induction v, r, htag using Value.sameTagCases with
  | scalar a b hab => simp [Value.Covers]
  | counter a b =>
    exact covers_merge_of_absorbs (Counter.absorbs (ε := Empty)) (c := .counter) (g := Empty.elim)
      rfl (by simp [Value.Covers]) hv hr hok
  | mvRegister a b =>
    exact covers_merge_of_absorbs MvRegister.absorbs (c := .mvRegister) rfl (by simp [Value.Covers])
      hv hr hok
  | orSet a b =>
    exact covers_merge_of_absorbs (OrSet.absorbs (ε := Empty)) (c := .orSet) (g := Empty.elim)
      rfl (by simp [Value.Covers]) hv hr hok
  | priorityQueue a b =>
    exact covers_merge_of_absorbs PriorityQueue.absorbs (c := .priorityQueue) rfl
      (by simp [Value.Covers]) hv hr hok
  | set a b =>
    exact covers_merge_of_absorbs (LwwSet.absorbs (ε := Empty)) (c := .set) (g := Empty.elim)
      rfl (by simp [Value.Covers]) hv hr hok
  | text a b =>
    exact covers_merge_of_absorbs Text.absorbs (c := .text) rfl (by simp [Value.Covers]) hv hr hok
  | record a b => cases hleaf
  | list a b => cases hleaf

theorem Cell.covers_join_of {c r : RowCell P} (hr : r.Tidy)
    (ih : ∀ rv, r.value = some rv → ∀ v, c.value = some v → v.typeTag = rv.typeTag →
      ∀ stamps, Succeeds (v.merge rv stamps) → (v.merge rv stamps).1.Covers rv)
    (hok : Succeeds (c.join r)) : (c.join r).1.Covers r := by
  by_cases hsame : c.SameType r
  · obtain ⟨v, rv, hv, hrv, htag⟩ := hsame
    have hmerged := ih rv hrv v hv htag _ ((succeeds_join hv hrv htag).mp hok)
    rw [covers_iff]
    rcases hmerge : v.merge rv ⟨c.stamp, r.stamp⟩ with ⟨w, e | changed⟩
    · rw [join_error hv hrv htag hmerge] at hok
      simp [Succeeds] at hok
    · rw [hmerge] at hmerged
      rw [join_ok hv hrv htag hmerge]
      refine ⟨le_max_right _ _, ?_⟩
      intro rv' hrv' w' hw' _
      rw [hrv] at hrv'
      cases hrv'
      cases hw'
      exact hmerged
  · rw [join_of_not_sameType hsame]
    split_ifs with hlt
    · exact hr.covers_self
    · rw [covers_iff]
      exact ⟨not_lt.mp hlt, fun rv hrv v hv htag => absurd ⟨v, rv, hv, hrv, htag⟩ hsame⟩

/-- The position that an entry takes over, or had, is the remote one. -/
theorem position_mergeEntry {id : EventStamp P} {e r : RowEntry P}
    (hok : Succeeds (mergeEntry id e r)) :
    r.position = .unknown ∨ (mergeEntry id e r).1.position = r.position := by
  obtain ⟨changed, hchanged⟩ := hok
  rw [mergeEntry] at hchanged ⊢
  rcases adoptPosition_cases e id r.position with ⟨hpos, h⟩ | ⟨-, -, h⟩ | ⟨-, -, -, error, h⟩ <;>
    rw [h] at hchanged ⊢
  · exact hpos
  · exact Or.inr rfl
  · cases hchanged

theorem succeeds_cell_of_mergeEntry {id : EventStamp P} {e r : RowEntry P}
    (hok : Succeeds (mergeEntry id e r)) : Succeeds (e.cell.join r.cell) ∧
      (mergeEntry id e r).1.cell = (e.cell.join r.cell).1 := by
  rcases cell_mergeEntry id e r with ⟨hno, -⟩ | ⟨hiff, hcell⟩
  · exact absurd hok hno
  · exact ⟨hiff.mp hok, hcell⟩

theorem covers_merge (r : Value P) :
    ∀ v : Value P, v.typeTag = r.typeTag → v.Tidy → r.Tidy → ∀ stamps : MergeStamps P,
      Succeeds (v.merge r stamps) → (v.merge r stamps).1.Covers r := by
  induction r using Value.containerInduction with
  | leaf r hleaf =>
    intro v htag hv hr stamps hok
    have hleaf' : v.isLeaf = true := (Value.isLeaf_eq htag).trans hleaf
    exact covers_merge_leaf hleaf' htag ((all_leaf hleaf').mp hv).leafWF
      ((all_leaf hleaf).mp hr).leafWF hok
  | record fields ih =>
    intro v htag hv hr stamps hok
    obtain ⟨fields', rfl⟩ := Value.eq_record htag
    rw [Value.merge, mergeFields_eq] at hok ⊢
    rw [Value.Tidy, all_record] at hv hr
    have hmerged : CoversMap Cell.Covers (mergeMap mergeField fields' fields false).1 fields := by
      intro field r hr'
      rw [get_mergeMap hr.1 hok, hr']
      cases hc : get fields' field with
      | none => exact ⟨r, rfl, Cell.Tidy.covers_self (hr.2 field r hr')⟩
      | some c =>
        refine ⟨_, rfl, Cell.covers_join_of (hr.2 field r hr') ?_
          (succeeds_mergeField.mp (Succeeds.entry hr.1 hok hc hr'))⟩
        intro rv hrv v hv' htag' stamps'
        exact ih _ (mem_of_get hr') rv hrv v htag' ((Cell.all_iff c).mp (hv.2 field c hc) v hv')
          ((Cell.all_iff r).mp (hr.2 field r hr') rv hrv) stamps'
    simpa [Value.Covers] using (coversFields_iff hr.1).mpr hmerged
  | list entries ih =>
    intro v htag hv hr stamps hok
    obtain ⟨entries', rfl⟩ := Value.eq_list htag
    rw [Value.merge, mergeEntries_eq] at hok ⊢
    rw [Value.Tidy, all_list] at hv hr
    have hmerged : CoversMap ListEntry.Covers (mergeMap mergeEntry entries' entries false).1 entries := by
      intro id r hr'
      rw [get_mergeMap hr.1 hok, hr']
      cases he : get entries' id with
      | none => exact ⟨r, rfl, Or.inr rfl, Cell.Tidy.covers_self (hr.2 id r hr')⟩
      | some e =>
        have hentry := Succeeds.entry hr.1 hok he hr'
        obtain ⟨hcell, heq⟩ := succeeds_cell_of_mergeEntry hentry
        refine ⟨_, rfl, position_mergeEntry hentry, ?_⟩
        rw [heq]
        refine Cell.covers_join_of (hr.2 id r hr') ?_ hcell
        intro rv hrv v hv' htag' stamps'
        exact ih _ (mem_of_get hr') rv hrv v htag' ((Cell.all_iff e.cell).mp (hv.2 id e he) v hv')
          ((Cell.all_iff r.cell).mp (hr.2 id r hr') rv hrv) stamps'
    simpa [Value.Covers] using (coversEntries_iff hr.1).mpr hmerged

/-- What a merge leaves behind covers what was merged in. -/
theorem Cell.covers_join {c r : RowCell P} (hc : c.Tidy) (hr : r.Tidy) (hok : Succeeds (c.join r)) :
    (c.join r).1.Covers r := by
  refine Cell.covers_join_of hr ?_ hok
  intro rv hrv v hv htag stamps
  exact covers_merge rv v htag ((Cell.all_iff c).mp hc v hv) ((Cell.all_iff r).mp hr rv hrv) stamps

/-- The answer of a merge tells exactly whether the cell changed, and the same merge made again
changes nothing. -/
theorem merge_absorbs {a b r : RowCell P} {changed : Bool} (ha : a.Tidy) (hb : b.Tidy)
    (h : a.merge b ⟨a.stamp, b.stamp⟩ = (r, .ok changed)) :
    (changed = false ↔ r = a) ∧ r.merge b ⟨r.stamp, b.stamp⟩ = (r, .ok false) := by
  have hjoin : a.join b = (r, .ok changed) := h
  have hok : Succeeds (a.join b) := ⟨changed, by rw [hjoin]⟩
  have htells := joinTells ha.wf hb.wf
  have hcovers := Cell.covers_join ha hb hok
  have hwf := Cell.wf_join ha.wf hb.wf
  rw [hjoin] at hcovers hwf
  refine ⟨?_, ?_⟩
  · have hsame := htells.2 hok
    have hanswer := htells.1
    rw [hjoin] at hsame hanswer
    rw [hsame, ← hanswer]
    simp
  · have hagain := joinTells hwf hb.wf
    have hfalse := hagain.1.mpr hcovers
    exact Prod.ext ((hagain.2 ⟨false, hfalse⟩).mpr hcovers) hfalse

/-- One assignment, and another one that replaces it. -/
def assignedCell : RowCell Nat :=
  ⟨some (.record [("title", ⟨some (.mvRegister ⟨[(⟨⟨1, 1⟩, ⟨3, 0⟩⟩, .scalar (.int 1))], []⟩),
    ⟨⟨1, 1⟩, ⟨3, 0⟩⟩⟩)]), ⟨⟨1, 1⟩, ⟨3, 0⟩⟩⟩

def reassignedCell : RowCell Nat :=
  ⟨some (.record [("title", ⟨some (.mvRegister ⟨[(⟨⟨2, 1⟩, ⟨5, 0⟩⟩, .scalar (.int 2))],
    [(⟨⟨1, 1⟩, ⟨3, 0⟩⟩, ⟨⟨2, 1⟩, ⟨5, 0⟩⟩)]⟩), ⟨⟨2, 1⟩, ⟨5, 0⟩⟩⟩)]), ⟨⟨2, 1⟩, ⟨5, 0⟩⟩⟩

theorem merge_absorbs_reassigned :
    assignedCell.merge reassignedCell ⟨assignedCell.stamp, reassignedCell.stamp⟩ =
        (reassignedCell, .ok true) ∧
      (true = false ↔ reassignedCell = assignedCell) ∧
      reassignedCell.merge reassignedCell ⟨reassignedCell.stamp, reassignedCell.stamp⟩ =
        (reassignedCell, .ok false) := by
  have ha : assignedCell.Tidy := by
    simp [assignedCell, Cell.Tidy, Cell.All, Value.All, allFields, Value.LeafTidy, MvRegister.WF,
      MvRegister.Clean, WMap, Sorted, contains]
  have hb : reassignedCell.Tidy := by
    simp [reassignedCell, Cell.Tidy, Cell.All, Value.All, allFields, Value.LeafTidy, MvRegister.WF,
      MvRegister.Clean, WMap, Sorted, contains, SortedMap.get]
  have hmerge : assignedCell.merge reassignedCell ⟨assignedCell.stamp, reassignedCell.stamp⟩ =
      (reassignedCell, .ok true) := by rfl
  exact ⟨hmerge, merge_absorbs ha hb hmerge⟩

end ZenDB.Crdt
