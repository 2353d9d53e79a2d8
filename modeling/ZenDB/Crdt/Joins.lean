import ZenDB.Crdt.Absorption
import ZenDB.Crdt.Paths

namespace ZenDB.Crdt

open SortedMap

/-! When merge is a join. Values of one type merge lawfully; a tombstone or a value of another type
takes part by its stamp alone, and that has to agree with the merges around it. -/

variable {P : Type} [LinearOrder P]

section Leaves

/-- A type without children: `con` of data that merges by `f`. -/
structure LeafType {α ε : Type} (W : α → Prop) (f : α → α → α × Except ε Bool) (R C : α → α → Prop)
    (con : α → Value P) (g : ε → TypeError P) : Prop where
  laws : MergeLaws W f R C
  inj : Function.Injective con
  merge : ∀ a b stamps, (con a).merge (con b) stamps = (con (f a b).1, (f a b).2.mapError g)

namespace LeafType

variable {α ε : Type} {W : α → Prop} {f : α → α → α × Except ε Bool} {R C : α → α → Prop}
  {con : α → Value P} {g : ε → TypeError P} {a b c : α} {s t u s' t' u' : MergeStamps P}

theorem succeeds (h : LeafType W f R C con g) :
    Succeeds ((con a).merge (con b) s) ↔ Succeeds (f a b) := by
  rw [h.merge]
  cases hf : (f a b).2 <;> simp [Succeeds, hf, Except.mapError]

theorem fst_merge (h : LeafType W f R C con g) : ((con a).merge (con b) s).1 = con (f a b).1 := by
  rw [h.merge]

theorem comm (h : LeafType W f R C con g) (ha : W a) (hb : W b)
    (hok : Succeeds ((con a).merge (con b) s)) (hok' : Succeeds ((con b).merge (con a) t)) :
    ((con a).merge (con b) s).1 = ((con b).merge (con a) t).1 ↔ C a b := by
  rw [h.fst_merge, h.fst_merge, h.inj.eq_iff]
  exact h.laws.comm a b ha hb (h.succeeds.mp hok) (h.succeeds.mp hok')

theorem assoc (h : LeafType W f R C con g) (ha : W a) (hb : W b) (hc : W c)
    (hab : Succeeds ((con a).merge (con b) s))
    (habc : Succeeds (((con a).merge (con b) s).1.merge (con c) t))
    (hbc : Succeeds ((con b).merge (con c) s'))
    (habc' : Succeeds ((con a).merge ((con b).merge (con c) s').1 t')) :
    (((con a).merge (con b) s).1.merge (con c) t).1 =
      ((con a).merge ((con b).merge (con c) s').1 t').1 := by
  rw [h.fst_merge, h.succeeds] at habc habc'
  rw [h.fst_merge, h.fst_merge, h.fst_merge, h.fst_merge]
  exact congrArg con
    (h.laws.assoc a b c ha hb hc (h.succeeds.mp hab) habc (h.succeeds.mp hbc) habc')

end LeafType

theorem leaf_counter : LeafType Counter.WF (liftOk Counter.merge) Counter.Covers (fun _ _ => True)
    (Value.counter (P := P)) Empty.elim :=
  ⟨Counter.laws, fun _ _ h => Value.counter.inj h, fun _ _ _ => rfl⟩

theorem leaf_mvRegister : LeafType MvRegister.WF MvRegister.merge MvRegister.Covers (fun _ _ => True)
    (Value.mvRegister (P := P)) .mvRegister :=
  ⟨MvRegister.laws, fun _ _ h => Value.mvRegister.inj h, fun _ _ _ => rfl⟩

theorem leaf_orSet : LeafType OrSet.WF (liftOk OrSet.merge) OrSet.Covers (fun _ _ => True)
    (Value.orSet (P := P)) Empty.elim :=
  ⟨OrSet.laws, fun _ _ h => Value.orSet.inj h, fun _ _ _ => rfl⟩

theorem leaf_priorityQueue : LeafType PriorityQueue.WF PriorityQueue.merge PriorityQueue.Covers
    (fun _ _ => True) (Value.priorityQueue (P := P)) .priorityQueue :=
  ⟨PriorityQueue.laws, fun _ _ h => Value.priorityQueue.inj h, fun _ _ _ => rfl⟩

theorem leaf_set : LeafType LwwSet.WF (liftOk LwwSet.merge) LwwSet.Covers (fun _ _ => True)
    (Value.set (P := P)) Empty.elim :=
  ⟨LwwSet.laws, fun _ _ h => Value.set.inj h, fun _ _ _ => rfl⟩

theorem leaf_text : LeafType Text.WF Text.merge Text.Covers Text.Ties (Value.text (P := P)) .text :=
  ⟨Text.laws, fun _ _ h => Value.text.inj h, fun _ _ _ => rfl⟩

/-- Where a merge takes the local side, the two sides have the same: scalars of cells with one
stamp, and formats of a text with one stamp. -/
def Value.Ties (tied : Prop) : Value P → Value P → Prop
  | .scalar a, .scalar b => tied → a = b
  | .text a, .text b => a.Ties b
  | _, _ => True

theorem merge_scalar {a b : Scalar} (hab : a.typeTag = b.typeTag) (s t : EventStamp P) :
    ((Value.scalar a).merge (.scalar b) ⟨s, t⟩).1 = .scalar (if s < t then b else a) := by
  rw [Value.merge, if_neg (not_not.mpr hab)]
  dsimp only
  split_ifs <;> rfl

theorem merge_comm_leaf {v r : Value P} (hleaf : v.isLeaf = true) (htag : v.typeTag = r.typeTag)
    (hv : v.LeafWF) (hr : r.LeafWF) {s t : EventStamp P} (hok : Succeeds (v.merge r ⟨s, t⟩))
    (hok' : Succeeds (r.merge v ⟨t, s⟩)) :
    (v.merge r ⟨s, t⟩).1 = (r.merge v ⟨t, s⟩).1 ↔ v.Ties (s = t) r := by
  induction v, r, htag using Value.sameTagCases with
  | scalar a b hab =>
    rw [merge_scalar hab, merge_scalar hab.symm, Value.Ties]
    rcases lt_trichotomy s t with hlt | heq | hlt
    · simp [hlt, hlt.not_gt, hlt.ne]
    · simp [heq]
    · simp [hlt, hlt.not_gt, hlt.ne']
  | counter a b => exact leaf_counter.comm hv hr hok hok'
  | mvRegister a b => exact leaf_mvRegister.comm hv hr hok hok'
  | orSet a b => exact leaf_orSet.comm hv hr hok hok'
  | priorityQueue a b => exact leaf_priorityQueue.comm hv hr hok hok'
  | set a b => exact leaf_set.comm hv hr hok hok'
  | text a b => exact leaf_text.comm hv hr hok hok'
  | record a b => cases hleaf
  | list a b => cases hleaf

/-- The latest scalar wins, the first one of several with its stamp. -/
theorem latest_assoc (a b c : Scalar) (s t u : EventStamp P) :
    (if max s t < u then c else if s < t then b else a) =
      if s < max t u then if t < u then c else b else a := by
  rcases lt_or_ge s t with hst | hts
  · rw [max_eq_right hst.le, if_pos hst, if_pos (lt_max_of_lt_left hst)]
  · rw [max_eq_left hts, if_neg hts.not_gt]
    rcases lt_or_ge t u with htu | hut
    · rw [max_eq_right htu.le, if_pos htu]
    · rw [max_eq_left hut, if_neg (hut.trans hts).not_gt, if_neg hts.not_gt]

theorem merge_assoc_leaf {v r w : Value P} (hleaf : v.isLeaf = true) (hvr : v.typeTag = r.typeTag)
    (hrw : r.typeTag = w.typeTag) (hv : v.LeafWF) (hr : r.LeafWF) (hw : w.LeafWF)
    {s t u : EventStamp P} (h₁ : Succeeds (v.merge r ⟨s, t⟩))
    (h₂ : Succeeds ((v.merge r ⟨s, t⟩).1.merge w ⟨max s t, u⟩)) (h₃ : Succeeds (r.merge w ⟨t, u⟩))
    (h₄ : Succeeds (v.merge (r.merge w ⟨t, u⟩).1 ⟨s, max t u⟩)) :
    ((v.merge r ⟨s, t⟩).1.merge w ⟨max s t, u⟩).1 =
      (v.merge (r.merge w ⟨t, u⟩).1 ⟨s, max t u⟩).1 := by
  induction v, r, hvr using Value.sameTagCases with
  | scalar a b hab =>
    cases w with
    | scalar c =>
      have hbc : b.typeTag = c.typeTag := hrw
      have hleft : (if s < t then b else a).typeTag = c.typeTag := by
        split_ifs
        · exact hbc
        · exact hab.trans hbc
      have hright : a.typeTag = (if t < u then c else b).typeTag := by
        split_ifs
        · exact hab.trans hbc
        · exact hab
      rw [merge_scalar hab, merge_scalar hbc, merge_scalar hleft, merge_scalar hright,
        latest_assoc a b c s t u]
    | _ => cases b <;> cases hrw
  | counter a b =>
    cases w with
    | counter c => exact leaf_counter.assoc hv hr hw h₁ h₂ h₃ h₄
    | scalar c => cases c <;> cases hrw
    | _ => cases hrw
  | mvRegister a b =>
    cases w with
    | mvRegister c => exact leaf_mvRegister.assoc hv hr hw h₁ h₂ h₃ h₄
    | scalar c => cases c <;> cases hrw
    | _ => cases hrw
  | orSet a b =>
    cases w with
    | orSet c => exact leaf_orSet.assoc hv hr hw h₁ h₂ h₃ h₄
    | scalar c => cases c <;> cases hrw
    | _ => cases hrw
  | priorityQueue a b =>
    cases w with
    | priorityQueue c => exact leaf_priorityQueue.assoc hv hr hw h₁ h₂ h₃ h₄
    | scalar c => cases c <;> cases hrw
    | _ => cases hrw
  | set a b =>
    cases w with
    | set c => exact leaf_set.assoc hv hr hw h₁ h₂ h₃ h₄
    | scalar c => cases c <;> cases hrw
    | _ => cases hrw
  | text a b =>
    cases w with
    | text c => exact leaf_text.assoc hv hr hw h₁ h₂ h₃ h₄
    | scalar c => cases c <;> cases hrw
    | _ => cases hrw
  | record a b => cases hleaf
  | list a b => cases hleaf

end Leaves

section Entries

/-- An element keeps the position it has, and takes over one otherwise. -/
def ListPosition.first {S : Type} [DecidableEq S] (p q : ListPosition S) : ListPosition S :=
  if p = .unknown then q else p

theorem ListPosition.first_assoc {S : Type} [DecidableEq S] (p q r : ListPosition S) :
    (p.first q).first r = p.first (q.first r) := by
  unfold first
  split_ifs <;> rfl

theorem ListPosition.first_comm {S : Type} [DecidableEq S] {p q : ListPosition S}
    (h : p = .unknown ∨ q = .unknown ∨ p = q) : p.first q = q.first p := by
  unfold first
  rcases h with h | h | h
  · rw [if_pos h]
    split_ifs with hq
    · rw [h, hq]
    · rfl
  · rw [if_pos h]
    split_ifs with hp
    · rw [h, hp]
    · rfl
  · rw [h]

theorem mergeEntry_ok {id : EventStamp P} {e r : RowEntry P} (hok : Succeeds (mergeEntry id e r)) :
    (mergeEntry id e r).1 = ⟨e.position.first r.position, (e.cell.join r.cell).1⟩ ∧
      (e.position = .unknown ∨ r.position = .unknown ∨ e.position = r.position) := by
  obtain ⟨changed, hchanged⟩ := hok
  rw [mergeEntry] at hchanged ⊢
  rcases adoptPosition_cases e id r.position with ⟨hpos, h⟩ | ⟨-, hpos, h⟩ | ⟨-, -, -, error, h⟩ <;>
    rw [h] at hchanged ⊢
  · refine ⟨?_, Or.inr hpos⟩
    rw [ListPosition.first]
    split_ifs with hunknown
    · have hsame : e.position = r.position := hpos.elim (fun h => hunknown.trans h.symm) (fun h => h)
      rw [← hsame]
    · rfl
  · refine ⟨?_, Or.inl hpos⟩
    rw [ListPosition.first, if_pos hpos]
  · cases hchanged

theorem mergeEntry_comm {id : EventStamp P} {e r : RowEntry P} (hok : Succeeds (mergeEntry id e r))
    (hok' : Succeeds (mergeEntry id r e)) (hcell : (e.cell.join r.cell).1 = (r.cell.join e.cell).1) :
    (mergeEntry id e r).1 = (mergeEntry id r e).1 := by
  obtain ⟨hmerged, hpos⟩ := mergeEntry_ok hok
  rw [hmerged, (mergeEntry_ok hok').1, hcell, ListPosition.first_comm hpos]

theorem mergeEntry_assoc {id : EventStamp P} {e r w : RowEntry P}
    (h₁ : Succeeds (mergeEntry id e r)) (h₂ : Succeeds (mergeEntry id (mergeEntry id e r).1 w))
    (h₃ : Succeeds (mergeEntry id r w)) (h₄ : Succeeds (mergeEntry id e (mergeEntry id r w).1))
    (hcell : ((e.cell.join r.cell).1.join w.cell).1 = (e.cell.join (r.cell.join w.cell).1).1) :
    (mergeEntry id (mergeEntry id e r).1 w).1 = (mergeEntry id e (mergeEntry id r w).1).1 := by
  rw [(mergeEntry_ok h₂).1, (mergeEntry_ok h₄).1, (mergeEntry_ok h₁).1, (mergeEntry_ok h₃).1]
  dsimp only
  rw [hcell, ListPosition.first_assoc]

end Entries

namespace Cell

section Joins

variable {c d e : RowCell P}

omit [LinearOrder P] in
/-- Cells of one kind are two tombstones or two values of one type. -/
theorem sameKind_cases (h : c.typeTag = d.typeTag) :
    (∃ s t, c = ⟨none, s⟩ ∧ d = ⟨none, t⟩) ∨
      ∃ v r s t, c = ⟨some v, s⟩ ∧ d = ⟨some r, t⟩ ∧ v.typeTag = r.typeTag := by
  obtain ⟨_ | v, s⟩ := c <;> obtain ⟨_ | r, t⟩ := d
  · exact Or.inl ⟨s, t, rfl, rfl⟩
  · cases h
  · cases h
  · exact Or.inr ⟨v, r, s, t, rfl, rfl, Option.some.inj h⟩

omit [LinearOrder P] in
theorem not_sameType_of_ne (h : c.typeTag ≠ d.typeTag) : ¬ c.SameType d := by
  intro hsame
  obtain ⟨v, r, hv, hr, htag⟩ := hsame
  refine h ?_
  rw [typeTag, typeTag, hv, hr, Option.map_some, Option.map_some, htag]

/-- Of cells of two kinds the later one stays. -/
theorem join_other (h : c.typeTag ≠ d.typeTag) :
    (c.join d).1 = if c.stamp < d.stamp then d else c := by
  rw [join_of_not_sameType (not_sameType_of_ne h)]
  split_ifs <;> rfl

theorem join_tombstones (s t : EventStamp P) :
    ((⟨none, s⟩ : RowCell P).join ⟨none, t⟩).1 = ⟨none, max s t⟩ := by
  have hother : ¬ (⟨none, s⟩ : RowCell P).SameType ⟨none, t⟩ := by
    intro h
    obtain ⟨v, r, hv, -⟩ := h
    cases hv
  rw [join_of_not_sameType hother]
  split_ifs with hlt
  · rw [max_eq_right hlt.le]
  · rw [max_eq_left (not_lt.mp hlt)]

theorem join_live {v r : Value P} {s t : EventStamp P} (htag : v.typeTag = r.typeTag)
    (hok : Succeeds ((⟨some v, s⟩ : RowCell P).join ⟨some r, t⟩)) :
    ((⟨some v, s⟩ : RowCell P).join ⟨some r, t⟩).1 =
      ⟨some (v.merge r ⟨s, t⟩).1, max s t⟩ := by
  obtain ⟨changed, hchanged⟩ := (succeeds_join rfl rfl htag).mp hok
  rw [join_ok rfl rfl htag (Prod.ext rfl hchanged)]

/-- The join of cells of one kind is of that kind, with the later stamp. -/
theorem kind_join (h : c.typeTag = d.typeTag) (hok : Succeeds (c.join d)) :
    (c.join d).1.typeTag = c.typeTag ∧ (c.join d).1.stamp = max c.stamp d.stamp := by
  rcases sameKind_cases h with ⟨s, t, rfl, rfl⟩ | ⟨v, r, s, t, rfl, rfl, htag⟩
  · rw [join_tombstones]
    exact ⟨rfl, rfl⟩
  · rw [join_live htag hok]
    exact ⟨congrArg some (Value.typeTag_merge v r _), rfl⟩

theorem child_of_isLeaf {v : Value P} (h : v.isLeaf = true) (s : EventStamp P)
    (segment : Segment P) : (⟨some v, s⟩ : RowCell P).child segment = none := by
  cases segment <;> cases v <;> first | rfl | cases h

/-- Common children of cells are joined with them. -/
theorem child_join (hd : d.WF) (hok : Succeeds (c.join d)) {segment : Segment P} {x y : RowCell P}
    (hx : c.child segment = some x) (hy : d.child segment = some y) :
    Succeeds (x.join y) ∧ (c.join d).1.child segment = some (x.join y).1 := by
  have hc := typeTag_of_child hx
  have hd' := typeTag_of_child hy
  cases segment with
  | record field =>
    obtain ⟨a, s, rfl⟩ := eq_record hc
    obtain ⟨b, t, rfl⟩ := eq_record hd'
    have hsorted := ((all_record b).mp hd).1
    have htag : (Value.record a).typeTag = (Value.record b).typeTag := rfl
    have hmerge := (succeeds_join rfl rfl htag).mp hok
    rw [join_live htag hok]
    rw [Value.merge, mergeFields_eq] at hmerge ⊢
    have hfield : Succeeds (mergeField field x y) := hmerge.entry hsorted hx hy
    refine ⟨succeeds_mergeField.mp hfield, ?_⟩
    change get (mergeMap mergeField a b false).1 field = _
    have hx' : get a field = some x := hx
    have hy' : get b field = some y := hy
    rw [get_mergeMap hsorted hmerge, hx', hy']
    rfl
  | list id =>
    obtain ⟨a, s, rfl⟩ := eq_list hc
    obtain ⟨b, t, rfl⟩ := eq_list hd'
    obtain ⟨ex, hex, rfl⟩ := Option.map_eq_some_iff.mp hx
    obtain ⟨ey, hey, rfl⟩ := Option.map_eq_some_iff.mp hy
    have hsorted := ((all_list b).mp hd).1
    have htag : (Value.list a).typeTag = (Value.list b).typeTag := rfl
    have hmerge := (succeeds_join rfl rfl htag).mp hok
    rw [join_live htag hok]
    rw [Value.merge, mergeEntries_eq] at hmerge ⊢
    obtain ⟨hcell, heq⟩ := succeeds_cell_of_mergeEntry (hmerge.entry hsorted hex hey)
    refine ⟨hcell, ?_⟩
    change (get (mergeMap mergeEntry a b false).1 id).map (·.cell) = _
    rw [get_mergeMap hsorted hmerge, hex, hey, ← heq]
    rfl

omit [LinearOrder P] in
theorem container {v : Value P} (h : v.isLeaf = false) :
    (∃ fields, v = .record fields) ∨ ∃ entries, v = .list entries := by
  cases v with
  | record fields => exact Or.inl ⟨fields, rfl⟩
  | list entries => exact Or.inr ⟨entries, rfl⟩
  | _ => cases h

/-- Cells with one stamp are of one kind, and have the same where a merge takes the local side. -/
def Agrees (c d : RowCell P) : Prop :=
  (c.stamp = d.stamp → c.typeTag = d.typeTag) ∧
    ∀ v r, c.value = some v → d.value = some r → v.Ties (c.stamp = d.stamp) r

theorem merge_comm_of {v r : Value P} {s t : EventStamp P} (htag : v.typeTag = r.typeTag)
    (hv : v.WF) (hr : r.WF) (hok : Succeeds (v.merge r ⟨s, t⟩))
    (hok' : Succeeds (r.merge v ⟨t, s⟩)) (hties : v.Ties (s = t) r)
    (hchild : ∀ segment x y, (⟨some v, s⟩ : RowCell P).child segment = some x →
      (⟨some r, t⟩ : RowCell P).child segment = some y → (x.join y).1 = (y.join x).1) :
    (v.merge r ⟨s, t⟩).1 = (r.merge v ⟨t, s⟩).1 := by
  cases hleaf : v.isLeaf with
  | true =>
    have hleaf' : r.isLeaf = true := (Value.isLeaf_eq htag).symm.trans hleaf
    have hv' := (all_leaf hleaf).mp hv
    have hr' := (all_leaf hleaf').mp hr
    exact (merge_comm_leaf hleaf htag hv' hr' hok hok').mpr hties
  | false =>
    rcases container hleaf with ⟨a, rfl⟩ | ⟨a, rfl⟩
    · obtain ⟨b, rfl⟩ := Value.eq_record htag.symm
      rw [Value.merge, mergeFields_eq] at hok hok'
      rw [Value.merge, Value.merge, mergeFields_eq, mergeFields_eq, Value.record.injEq,
        mergeMap_comm ((all_record a).mp hv).1 ((all_record b).mp hr).1 hok hok']
      intro field x y hx hy
      exact hchild (.record field) x y hx hy
    · obtain ⟨b, rfl⟩ := Value.eq_list htag.symm
      have hsa := ((all_list a).mp hv).1
      have hsb := ((all_list b).mp hr).1
      rw [Value.merge, mergeEntries_eq] at hok hok'
      rw [Value.merge, Value.merge, mergeEntries_eq, mergeEntries_eq, Value.list.injEq,
        mergeMap_comm hsa hsb hok hok']
      intro id e r he hr'
      refine mergeEntry_comm (hok.entry hsb he hr') (hok'.entry hsa hr' he) ?_
      refine hchild (.list id) e.cell r.cell ?_ ?_
      · exact Option.map_eq_some_iff.mpr ⟨e, he, rfl⟩
      · exact Option.map_eq_some_iff.mpr ⟨r, hr', rfl⟩

theorem join_comm_of (hc : c.WF) (hd : d.WF) (hok : Succeeds (c.join d))
    (hok' : Succeeds (d.join c)) (hagrees : c.Agrees d)
    (hchild : ∀ segment x y, c.child segment = some x → d.child segment = some y →
      (x.join y).1 = (y.join x).1) : (c.join d).1 = (d.join c).1 := by
  by_cases hkind : c.typeTag = d.typeTag
  · rcases sameKind_cases hkind with ⟨s, t, rfl, rfl⟩ | ⟨v, r, s, t, rfl, rfl, htag⟩
    · rw [join_tombstones, join_tombstones, max_comm]
    · have hvr := (succeeds_join rfl rfl htag).mp hok
      have hrv := (succeeds_join rfl rfl htag.symm).mp hok'
      have hvalue := merge_comm_of htag hc hd hvr hrv (hagrees.2 v r rfl rfl) hchild
      rw [join_live htag hok, join_live htag.symm hok', max_comm, hvalue]
  · have hne : c.stamp ≠ d.stamp := fun h => hkind (hagrees.1 h)
    rw [join_other hkind, join_other (Ne.symm hkind)]
    rcases lt_or_gt_of_ne hne with hlt | hlt
    · rw [if_pos hlt, if_neg hlt.not_gt]
    · rw [if_neg hlt.not_gt, if_pos hlt]

theorem merge_assoc_of {v r w : Value P} {s t u : EventStamp P} (hvr : v.typeTag = r.typeTag)
    (hrw : r.typeTag = w.typeTag) (hv : v.WF) (hr : r.WF) (hw : w.WF)
    (h₁ : Succeeds (v.merge r ⟨s, t⟩)) (h₂ : Succeeds ((v.merge r ⟨s, t⟩).1.merge w ⟨max s t, u⟩))
    (h₃ : Succeeds (r.merge w ⟨t, u⟩)) (h₄ : Succeeds (v.merge (r.merge w ⟨t, u⟩).1 ⟨s, max t u⟩))
    (hchild : ∀ segment x y z, (⟨some v, s⟩ : RowCell P).child segment = some x →
      (⟨some r, t⟩ : RowCell P).child segment = some y →
      (⟨some w, u⟩ : RowCell P).child segment = some z →
      ((x.join y).1.join z).1 = (x.join (y.join z).1).1) :
    ((v.merge r ⟨s, t⟩).1.merge w ⟨max s t, u⟩).1 =
      (v.merge (r.merge w ⟨t, u⟩).1 ⟨s, max t u⟩).1 := by
  cases hleaf : v.isLeaf with
  | true =>
    have hleaf' : r.isLeaf = true := (Value.isLeaf_eq hvr).symm.trans hleaf
    have hleaf'' : w.isLeaf = true := (Value.isLeaf_eq hrw).symm.trans hleaf'
    exact merge_assoc_leaf hleaf hvr hrw ((all_leaf hleaf).mp hv) ((all_leaf hleaf').mp hr)
      ((all_leaf hleaf'').mp hw) h₁ h₂ h₃ h₄
  | false =>
    rcases container hleaf with ⟨a, rfl⟩ | ⟨a, rfl⟩
    · obtain ⟨b, rfl⟩ := Value.eq_record hvr.symm
      obtain ⟨c, rfl⟩ := Value.eq_record hrw.symm
      simp only [Value.merge, mergeFields_eq] at h₁ h₂ h₃ h₄ ⊢
      rw [Value.record.injEq, mergeMap_assoc ((all_record a).mp hv).1 ((all_record b).mp hr).1
        ((all_record c).mp hw).1 h₁ h₂ h₃ h₄]
      intro field x y z hx hy hz
      exact hchild (.record field) x y z hx hy hz
    · obtain ⟨b, rfl⟩ := Value.eq_list hvr.symm
      obtain ⟨c, rfl⟩ := Value.eq_list hrw.symm
      have hsb := ((all_list b).mp hr).1
      have hsc := ((all_list c).mp hw).1
      simp only [Value.merge, mergeEntries_eq] at h₁ h₂ h₃ h₄ ⊢
      rw [Value.list.injEq, mergeMap_assoc ((all_list a).mp hv).1 hsb hsc h₁ h₂ h₃ h₄]
      intro id x y z hx hy hz
      refine mergeEntry_assoc (h₁.entry hsb hx hy) (Succeeds.entries hsb hsc h₁ h₂ hx hy hz)
        (h₃.entry hsc hy hz) (Succeeds.entries_right hsb hsc h₃ h₄ hx hy hz) ?_
      refine hchild (.list id) x.cell y.cell z.cell ?_ ?_ ?_
      · exact Option.map_eq_some_iff.mpr ⟨x, hx, rfl⟩
      · exact Option.map_eq_some_iff.mpr ⟨y, hy, rfl⟩
      · exact Option.map_eq_some_iff.mpr ⟨z, hz, rfl⟩

/-- Cells of one kind are joined in any grouping, if their children are. -/
theorem join_assoc_of (hc : c.WF) (hd : d.WF) (he : e.WF) (hcd : c.typeTag = d.typeTag)
    (hde : d.typeTag = e.typeTag) (h₁ : Succeeds (c.join d)) (h₂ : Succeeds ((c.join d).1.join e))
    (h₃ : Succeeds (d.join e)) (h₄ : Succeeds (c.join (d.join e).1))
    (hchild : ∀ segment x y z, c.child segment = some x → d.child segment = some y →
      e.child segment = some z → ((x.join y).1.join z).1 = (x.join (y.join z).1).1) :
    ((c.join d).1.join e).1 = (c.join (d.join e).1).1 := by
  rcases sameKind_cases hcd with ⟨s, t, rfl, rfl⟩ | ⟨v, r, s, t, rfl, rfl, hvr⟩
  · obtain ⟨_ | w, u⟩ := e
    · rw [join_tombstones, join_tombstones, join_tombstones, join_tombstones, max_assoc]
    · cases hde
  · obtain ⟨_ | w, u⟩ := e
    · cases hde
    · have hrw : r.typeTag = w.typeTag := Option.some.inj hde
      have hleft : (v.merge r ⟨s, t⟩).1.typeTag = w.typeTag :=
        (Value.typeTag_merge v r _).trans (hvr.trans hrw)
      have hright : v.typeTag = (r.merge w ⟨t, u⟩).1.typeTag :=
        hvr.trans (Value.typeTag_merge r w _).symm
      rw [join_live hvr h₁] at h₂ ⊢
      rw [join_live hrw h₃] at h₄ ⊢
      rw [join_live hleft h₂, join_live hright h₄, max_assoc]
      have hvalue := merge_assoc_of hvr hrw hc hd he ((succeeds_join rfl rfl hvr).mp h₁)
        ((succeeds_join rfl rfl hleft).mp h₂) ((succeeds_join rfl rfl hrw).mp h₃)
        ((succeeds_join rfl rfl hright).mp h₄) hchild
      rw [hvalue]

end Joins

end Cell

end ZenDB.Crdt
