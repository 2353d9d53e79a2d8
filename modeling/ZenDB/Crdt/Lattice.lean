import ZenDB.Crdt.Joins

namespace ZenDB.Crdt

open SortedMap

/-! Sets of cells on which merge is commutative, associative and idempotent, told by the cells at
each path. -/

variable {P : Type} [LinearOrder P]

namespace Cell

/-- Induction over the cells inside of a cell. -/
theorem childInduction {motive : RowCell P → Prop}
    (step : ∀ c, (∀ segment d, c.child segment = some d → motive d) → motive c) (c : RowCell P) :
    motive c := by
  have htombstone : ∀ s, motive ⟨none, s⟩ := by
    intro s
    refine step _ ?_
    intro segment d hd
    cases segment <;> cases hd
  have hcell : ∀ d : RowCell P, (∀ v, d.value = some v → ∀ s, motive ⟨some v, s⟩) → motive d := by
    intro d hd
    obtain ⟨_ | v, s⟩ := d
    · exact htombstone s
    · exact hd v rfl s
  refine hcell c ?_
  intro v hv
  clear hv
  induction v using Value.containerInduction with
  | leaf v hleaf =>
    intro s
    refine step _ ?_
    intro segment d hd
    rw [child_of_isLeaf hleaf] at hd
    cases hd
  | record fields ih =>
    intro s
    refine step _ ?_
    intro segment d hd
    cases segment with
    | record field =>
      have hget : get fields field = some d := hd
      exact hcell d (ih (field, d) (mem_of_get hget))
    | list id => cases hd
  | list entries ih =>
    intro s
    refine step _ ?_
    intro segment d hd
    cases segment with
    | record field => cases hd
    | list id =>
      obtain ⟨entry, hget, rfl⟩ := Option.map_eq_some_iff.mp hd
      exact hcell entry.cell (ih (id, entry) (mem_of_get hget))

/-- The merges of two and three of the cells go through. -/
structure MergesAll (S : Set (RowCell P)) : Prop where
  pair : ∀ a ∈ S, ∀ b ∈ S, Succeeds (a.join b)
  left : ∀ a ∈ S, ∀ b ∈ S, ∀ c ∈ S, Succeeds ((a.join b).1.join c)
  right : ∀ a ∈ S, ∀ b ∈ S, ∀ c ∈ S, Succeeds (a.join (b.join c).1)

/-- Merge is a join on the cells. -/
structure IsJoin (S : Set (RowCell P)) : Prop where
  comm : ∀ a ∈ S, ∀ b ∈ S, (a.join b).1 = (b.join a).1
  assoc : ∀ a ∈ S, ∀ b ∈ S, ∀ c ∈ S, ((a.join b).1.join c).1 = (a.join (b.join c).1).1
  idem : ∀ a ∈ S, (a.join a).1 = a

/-- What cells that stand at one path have to be to each other: equal in what the stamps do not
decide, without visible assignments that were replaced, and, where a cell of another kind was
between two of one kind, with nothing in the earlier one that the later one does not hold. -/
structure Compatible (S : Set (RowCell P)) : Prop where
  agrees : ∀ a ∈ S, ∀ b ∈ S, a.Agrees b
  clean : ∀ a ∈ S, ∀ r, a.value = some (.mvRegister r) → r.Clean
  covers : ∀ a ∈ S, ∀ b ∈ S, ∀ c ∈ S, a.typeTag = b.typeTag → c.typeTag ≠ a.typeTag →
    a.stamp < c.stamp → c.stamp < b.stamp → b.Covers a

/-- The cells at a path. -/
def cellsAt (S : Set (RowCell P)) (path : List (Segment P)) : Set (RowCell P) :=
  {d | ∃ c ∈ S, c.cellAtPath path = some d}

/-- The children of the cells. -/
def below (S : Set (RowCell P)) (segment : Segment P) : Set (RowCell P) :=
  {d | ∃ c ∈ S, c.child segment = some d}

theorem cellsAt_nil (S : Set (RowCell P)) : cellsAt S [] = S := by
  ext d
  simp [cellsAt, cellAtPath]

theorem cellsAt_cons (S : Set (RowCell P)) (segment : Segment P) (path : List (Segment P)) :
    cellsAt S (segment :: path) = cellsAt (below S segment) path := by
  ext d
  constructor
  · intro h
    obtain ⟨c, hc, hd⟩ := h
    rw [cellAtPath_cons] at hd
    obtain ⟨x, hx, hd⟩ := Option.bind_eq_some_iff.mp hd
    exact ⟨x, ⟨c, hc, hx⟩, hd⟩
  · intro h
    obtain ⟨x, ⟨c, hc, hx⟩, hd⟩ := h
    refine ⟨c, hc, ?_⟩
    rw [cellAtPath_cons, hx]
    exact hd

section Below

variable {S : Set (RowCell P)}

theorem wf_below (hwf : ∀ c ∈ S, c.WF) (segment : Segment P) : ∀ d ∈ below S segment, d.WF := by
  intro d hd
  obtain ⟨c, hc, hchild⟩ := hd
  exact wf_child (hwf c hc) hchild

theorem MergesAll.below (hwf : ∀ c ∈ S, c.WF) (h : MergesAll S) (segment : Segment P) :
    MergesAll (below S segment) := by
  refine ⟨?_, ?_, ?_⟩
  · intro x hx y hy
    obtain ⟨a, ha, hx⟩ := hx
    obtain ⟨b, hb, hy⟩ := hy
    exact (child_join (hwf b hb) (h.pair a ha b hb) hx hy).1
  · intro x hx y hy z hz
    obtain ⟨a, ha, hx⟩ := hx
    obtain ⟨b, hb, hy⟩ := hy
    obtain ⟨c, hc, hz⟩ := hz
    have hxy := (child_join (hwf b hb) (h.pair a ha b hb) hx hy).2
    exact (child_join (hwf c hc) (h.left a ha b hb c hc) hxy hz).1
  · intro x hx y hy z hz
    obtain ⟨a, ha, hx⟩ := hx
    obtain ⟨b, hb, hy⟩ := hy
    obtain ⟨c, hc, hz⟩ := hz
    have hyz := (child_join (hwf c hc) (h.pair b hb c hc) hy hz).2
    exact (child_join (wf_join (hwf b hb) (hwf c hc)) (h.right a ha b hb c hc) hx hyz).1

/-- A join on cells is one on their children. -/
theorem IsJoin.below (hwf : ∀ c ∈ S, c.WF) (hok : MergesAll S) (h : IsJoin S)
    (segment : Segment P) : IsJoin (below S segment) := by
  refine ⟨?_, ?_, ?_⟩
  · intro x hx y hy
    obtain ⟨a, ha, hx⟩ := hx
    obtain ⟨b, hb, hy⟩ := hy
    have hxy := (child_join (hwf b hb) (hok.pair a ha b hb) hx hy).2
    have hyx := (child_join (hwf a ha) (hok.pair b hb a ha) hy hx).2
    rw [h.comm a ha b hb, hyx] at hxy
    exact (Option.some.inj hxy).symm
  · intro x hx y hy z hz
    obtain ⟨a, ha, hx⟩ := hx
    obtain ⟨b, hb, hy⟩ := hy
    obtain ⟨c, hc, hz⟩ := hz
    have hxy := (child_join (hwf b hb) (hok.pair a ha b hb) hx hy).2
    have hyz := (child_join (hwf c hc) (hok.pair b hb c hc) hy hz).2
    have hleft := (child_join (hwf c hc) (hok.left a ha b hb c hc) hxy hz).2
    have hright :=
      (child_join (wf_join (hwf b hb) (hwf c hc)) (hok.right a ha b hb c hc) hx hyz).2
    rw [h.assoc a ha b hb c hc, hright] at hleft
    exact (Option.some.inj hleft).symm
  · intro x hx
    obtain ⟨a, ha, hx⟩ := hx
    have hxx := (child_join (hwf a ha) (hok.pair a ha a ha) hx hx).2
    rw [h.idem a ha, hx] at hxx
    exact (Option.some.inj hxx).symm

end Below

section Self

theorem covers_self_leaf {v : Value P} (hleaf : v.isLeaf = true) :
    v.Covers v ↔ ∀ r, v = .mvRegister r → r.Clean := by
  cases v with
  | scalar a => simp [Value.Covers]
  | counter a => simpa [Value.Covers] using a.covers_self
  | mvRegister a =>
    simp only [Value.Covers, Value.mvRegister.injEq, exists_eq_left', forall_eq']
    exact ⟨fun h => h.2.2, MvRegister.covers_self⟩
  | orSet a => simpa [Value.Covers] using a.covers_self
  | priorityQueue a => simpa [Value.Covers] using a.covers_self
  | set a => simpa [Value.Covers] using a.covers_self
  | text a => simpa [Value.Covers] using a.covers_self
  | record a => cases hleaf
  | list a => cases hleaf

/-- A cell holds all of itself if its children do and a register shows nothing that was
replaced. -/
theorem covers_self_of_child {c : RowCell P} (hc : c.WF)
    (hclean : ∀ r, c.value = some (.mvRegister r) → r.Clean)
    (hchild : ∀ segment d, c.child segment = some d → d.Covers d) : c.Covers c := by
  refine covers_self_of ?_
  intro v hv
  obtain ⟨value, s⟩ := c
  cases hv
  cases hleaf : v.isLeaf with
  | true =>
    refine (covers_self_leaf hleaf).mpr ?_
    intro r hr
    exact hclean r (congrArg some hr)
  | false =>
    rcases container hleaf with ⟨fields, rfl⟩ | ⟨entries, rfl⟩
    · have hsorted := ((all_record fields).mp hc).1
      have h : coversFields fields fields := by
        rw [coversFields_iff hsorted]
        exact CoversMap.refl fun field d hd => hchild (.record field) d hd
      simpa [Value.Covers] using h
    · have hsorted := ((all_list entries).mp hc).1
      have h : coversEntries entries entries := by
        rw [coversEntries_iff hsorted]
        refine CoversMap.refl fun id e he => ⟨Or.inr rfl, hchild (.list id) e.cell ?_⟩
        exact Option.map_eq_some_iff.mpr ⟨e, he, rfl⟩
      simpa [Value.Covers] using h

end Self

section Necessary

variable {S : Set (RowCell P)}

theorem IsJoin.agrees (hwf : ∀ c ∈ S, c.WF) (hok : MergesAll S) (h : IsJoin S) {a b : RowCell P}
    (ha : a ∈ S) (hb : b ∈ S) : a.Agrees b := by
  have hcomm := h.comm a ha b hb
  have hkind : a.stamp = b.stamp → a.typeTag = b.typeTag := by
    intro hstamp
    by_contra hne
    rw [join_other hne, join_other (Ne.symm hne), hstamp, if_neg (lt_irrefl _),
      if_neg (lt_irrefl _)] at hcomm
    exact hne (congrArg typeTag hcomm)
  refine ⟨hkind, ?_⟩
  intro v r hv hr
  by_cases htag : v.typeTag = r.typeTag
  · cases hleaf : v.isLeaf with
    | true =>
      have hleaf' : r.isLeaf = true := (Value.isLeaf_eq htag).symm.trans hleaf
      have hv' := (all_leaf hleaf).mp ((all_iff a).mp (hwf a ha) v hv)
      have hr' := (all_leaf hleaf').mp ((all_iff b).mp (hwf b hb) r hr)
      have hab := (succeeds_join hv hr htag).mp (hok.pair a ha b hb)
      have hba := (succeeds_join hr hv htag.symm).mp (hok.pair b hb a ha)
      refine (merge_comm_leaf hleaf htag hv' hr' hab hba).mp ?_
      have hvalue := congrArg Cell.value hcomm
      rw [value_join hv hr htag, value_join hr hv htag.symm] at hvalue
      exact Option.some.inj hvalue
    | false =>
      rcases container hleaf with ⟨fields, rfl⟩ | ⟨entries, rfl⟩ <;> exact trivial
  · cases v <;> cases r <;> first | exact trivial | exact absurd rfl htag | skip
    intro hstamp
    have hkinds := hkind hstamp
    rw [typeTag, typeTag, hv, hr] at hkinds
    exact absurd (Option.some.inj hkinds) htag

theorem IsJoin.compatible (hwf : ∀ c ∈ S, c.WF) (hok : MergesAll S) (h : IsJoin S) :
    Compatible S := by
  refine ⟨fun a ha b hb => h.agrees hwf hok ha hb, ?_, ?_⟩
  · intro a ha r hr
    have hcovers := ((joinTells (hwf a ha) (hwf a ha)).2 (hok.pair a ha a ha)).mp (h.idem a ha)
    have hvalue := ((covers_iff a a).mp hcovers).2 _ hr _ hr rfl
    exact (covers_self_leaf rfl).mp hvalue r rfl
  · intro a ha b hb c hc hab hca hac hcb
    -- joined first with the cell between them, the earlier one is lost
    have hassoc := h.assoc a ha c hc b hb
    have hcb' : c.typeTag ≠ b.typeTag := fun heq => hca (heq.trans hab.symm)
    rw [join_other hca.symm, if_pos hac, join_other hcb', if_pos hcb] at hassoc
    rw [h.comm a ha b hb] at hassoc
    exact ((joinTells (hwf b hb) (hwf a ha)).2 (hok.pair b hb a ha)).mp hassoc.symm

end Necessary

section Sufficient

variable {S : Set (RowCell P)}

/-- The cells at every path are compatible. -/
def CompatibleAt (S : Set (RowCell P)) : Prop := ∀ path, Compatible (cellsAt S path)

theorem CompatibleAt.here (h : CompatibleAt S) : Compatible S := by
  have hnil := h []
  rwa [cellsAt_nil] at hnil

theorem CompatibleAt.below (h : CompatibleAt S) (segment : Segment P) :
    CompatibleAt (below S segment) := by
  intro path
  rw [← cellsAt_cons]
  exact h (segment :: path)

theorem CompatibleAt.of_below (here : Compatible S)
    (hbelow : ∀ segment, CompatibleAt (Cell.below S segment)) : CompatibleAt S := by
  intro path
  cases path with
  | nil => rwa [cellsAt_nil]
  | cons segment path =>
    rw [cellsAt_cons]
    exact hbelow segment path

/-- Fewer cells have less to be compatible with. -/
theorem CompatibleAt.mono {T : Set (RowCell P)} (hsub : S ⊆ T) (h : CompatibleAt T) :
    CompatibleAt S := by
  intro path
  have hcells : cellsAt S path ⊆ cellsAt T path := by
    intro d hd
    obtain ⟨c, hc, hd⟩ := hd
    exact ⟨c, hsub hc, hd⟩
  obtain ⟨hagrees, hclean, hcovers⟩ := h path
  exact ⟨fun a ha b hb => hagrees a (hcells ha) b (hcells hb),
    fun a ha => hclean a (hcells ha),
    fun a ha b hb c hc => hcovers a (hcells ha) b (hcells hb) c (hcells hc)⟩

/-- Rows that have one field are compatible if their cells there are. -/
theorem CompatibleAt.field {T : Set (RowCell P)} (h : CompatibleAt T) (field : String)
    (hfield : ∀ c ∈ S, ∃ d ∈ T, ∃ s, c = ⟨some (.record [(field, d)]), s⟩) : CompatibleAt S := by
  have htag : ∀ c ∈ S, c.typeTag = some .record := by
    intro c hc
    obtain ⟨d, -, s, rfl⟩ := hfield c hc
    rfl
  refine CompatibleAt.of_below ⟨?_, ?_, ?_⟩ ?_
  · intro a ha b hb
    refine ⟨fun _ => (htag a ha).trans (htag b hb).symm, ?_⟩
    intro v r hv hr
    obtain ⟨d, -, s, rfl⟩ := hfield a ha
    cases hv
    exact trivial
  · intro a ha r hr
    obtain ⟨d, -, s, rfl⟩ := hfield a ha
    cases hr
  · intro a ha b hb c hc _ hkind
    exact absurd ((htag c hc).trans (htag a ha).symm) hkind
  · intro segment
    refine h.mono ?_
    intro d hd
    obtain ⟨c, hc, hchild⟩ := hd
    obtain ⟨x, hx, s, rfl⟩ := hfield c hc
    cases segment with
    | list id => cases hchild
    | record name =>
      have hget : get [(field, x)] name = some d := hchild
      obtain ⟨-, rfl⟩ := Prod.mk.inj (List.mem_singleton.mp (mem_of_get hget))
      exact hx

/-- Cells without children have only themselves to be compatible. -/
theorem Compatible.at_childless (h : Compatible S)
    (hnone : ∀ c ∈ S, ∀ segment, c.child segment = none) : CompatibleAt S := by
  intro path
  cases path with
  | nil => rwa [cellsAt_nil]
  | cons segment path =>
    have hempty : ∀ d, d ∉ cellsAt S (segment :: path) := by
      intro d hd
      obtain ⟨c, hc, hd⟩ := hd
      rw [cellAtPath_cons, hnone c hc segment] at hd
      cases hd
    exact ⟨fun a ha => absurd ha (hempty a), fun a ha => absurd ha (hempty a),
      fun a ha => absurd ha (hempty a)⟩

theorem CompatibleAt.comm (hwf : ∀ c ∈ S, c.WF) (hok : MergesAll S) (h : CompatibleAt S)
    {a b : RowCell P} (ha : a ∈ S) (hb : b ∈ S) : (a.join b).1 = (b.join a).1 := by
  induction a using childInduction generalizing S b with
  | step a ih =>
    refine join_comm_of (hwf a ha) (hwf b hb) (hok.pair a ha b hb) (hok.pair b hb a ha)
      (h.here.agrees a ha b hb) ?_
    intro segment x y hx hy
    exact ih segment x hx (wf_below hwf segment) (hok.below hwf segment) (h.below segment)
      ⟨a, ha, hx⟩ ⟨b, hb, hy⟩

theorem CompatibleAt.covers_self (hwf : ∀ c ∈ S, c.WF) (h : CompatibleAt S) {a : RowCell P}
    (ha : a ∈ S) : a.Covers a := by
  induction a using childInduction generalizing S with
  | step a ih =>
    refine covers_self_of_child (hwf a ha) (h.here.clean a ha) ?_
    intro segment d hd
    exact ih segment d hd (wf_below hwf segment) (h.below segment) ⟨a, ha, hd⟩

/-- What the later of two cells of one kind holds already is not missed. -/
theorem CompatibleAt.join_between (hwf : ∀ c ∈ S, c.WF) (hok : MergesAll S) (h : CompatibleAt S)
    {a b c : RowCell P} (ha : a ∈ S) (hb : b ∈ S) (hc : c ∈ S) (hab : a.typeTag = b.typeTag)
    (hca : c.typeTag ≠ a.typeTag) (hac : a.stamp < c.stamp) (hcb : c.stamp < b.stamp) :
    (a.join b).1 = b ∧ (b.join a).1 = b := by
  have hcovers := h.here.covers a ha b hb c hc hab hca hac hcb
  have hba := ((joinTells (hwf b hb) (hwf a ha)).2 (hok.pair b hb a ha)).mpr hcovers
  exact ⟨(h.comm hwf hok ha hb).trans hba, hba⟩

/-- A grouping in which the third cell is of another kind than the first two. -/
theorem CompatibleAt.assoc_last (hwf : ∀ c ∈ S, c.WF) (hok : MergesAll S) (h : CompatibleAt S)
    {a b c : RowCell P} (ha : a ∈ S) (hb : b ∈ S) (hc : c ∈ S) (hab : a.typeTag = b.typeTag)
    (hbc : b.typeTag ≠ c.typeTag) : ((a.join b).1.join c).1 = (a.join (b.join c).1).1 := by
  have hac : a.typeTag ≠ c.typeTag := fun heq => hbc (hab.symm.trans heq)
  obtain ⟨hkind, hstamp⟩ := kind_join hab (hok.pair a ha b hb)
  have habc : (a.join b).1.typeTag ≠ c.typeTag := by rwa [hkind]
  rw [join_other habc, hstamp, join_other hbc]
  by_cases hlt : b.stamp < c.stamp
  · rw [if_pos hlt, join_other hac]
    by_cases hlt' : a.stamp < c.stamp
    · rw [if_pos (max_lt hlt' hlt), if_pos hlt']
    · have hne : c.stamp ≠ a.stamp := fun heq => hac ((h.here.agrees a ha c hc).1 heq.symm)
      have hca : c.stamp < a.stamp := lt_of_le_of_ne (not_lt.mp hlt') hne
      have hmax : ¬ max a.stamp b.stamp < c.stamp := fun hm => hlt' ((le_max_left _ _).trans_lt hm)
      rw [if_neg hmax, if_neg hlt']
      exact (h.join_between hwf hok hb ha hc hab.symm hbc.symm hlt hca).2
  · have hmax : ¬ max a.stamp b.stamp < c.stamp := fun hm => hlt ((le_max_right _ _).trans_lt hm)
    rw [if_neg hlt, if_neg hmax]

/-- A grouping in which the first cell is of another kind than the last two. -/
theorem CompatibleAt.assoc_first (hwf : ∀ c ∈ S, c.WF) (hok : MergesAll S) (h : CompatibleAt S)
    {a b c : RowCell P} (ha : a ∈ S) (hb : b ∈ S) (hc : c ∈ S) (hab : a.typeTag ≠ b.typeTag)
    (hbc : b.typeTag = c.typeTag) : ((a.join b).1.join c).1 = (a.join (b.join c).1).1 := by
  have hac : a.typeTag ≠ c.typeTag := fun heq => hab (heq.trans hbc.symm)
  obtain ⟨hkind, hstamp⟩ := kind_join hbc (hok.pair b hb c hc)
  have habc : a.typeTag ≠ (b.join c).1.typeTag := by rwa [hkind]
  rw [join_other habc, hstamp, join_other hab]
  by_cases hlt : a.stamp < b.stamp
  · rw [if_pos hlt, if_pos (lt_max_of_lt_left hlt)]
  · rw [if_neg hlt, join_other hac]
    by_cases hlt' : a.stamp < c.stamp
    · have hne : b.stamp ≠ a.stamp := fun heq => hab ((h.here.agrees a ha b hb).1 heq.symm)
      have hba : b.stamp < a.stamp := lt_of_le_of_ne (not_lt.mp hlt) hne
      rw [if_pos hlt', if_pos (lt_max_of_lt_right hlt')]
      exact (h.join_between hwf hok hb hc ha hbc hab hba hlt').1.symm
    · have hmax : ¬ a.stamp < max b.stamp c.stamp := by
        intro hm
        rcases lt_max_iff.mp hm with hm | hm
        · exact hlt hm
        · exact hlt' hm
      rw [if_neg hlt', if_neg hmax]

/-- A grouping in which the cell in the middle is of another kind. -/
theorem CompatibleAt.assoc_middle (hwf : ∀ c ∈ S, c.WF) (hok : MergesAll S) (h : CompatibleAt S)
    {a b c : RowCell P} (ha : a ∈ S) (hb : b ∈ S) (hc : c ∈ S) (hab : a.typeTag ≠ b.typeTag)
    (hac : a.typeTag = c.typeTag) : ((a.join b).1.join c).1 = (a.join (b.join c).1).1 := by
  have hbc : b.typeTag ≠ c.typeTag := fun heq => hab (hac.trans heq.symm)
  rw [join_other hab, join_other hbc]
  by_cases hlt : a.stamp < b.stamp
  · rw [if_pos hlt, join_other hbc]
    by_cases hlt' : b.stamp < c.stamp
    · rw [if_pos hlt']
      exact (h.join_between hwf hok ha hc hb hac hab.symm hlt hlt').1.symm
    · rw [if_neg hlt', join_other hab, if_pos hlt]
  · by_cases hlt' : b.stamp < c.stamp
    · rw [if_neg hlt, if_pos hlt']
    · have hne : c.stamp ≠ b.stamp := fun heq => hbc ((h.here.agrees b hb c hc).1 heq.symm)
      have hne' : b.stamp ≠ a.stamp := fun heq => hab ((h.here.agrees a ha b hb).1 heq.symm)
      have hcb : c.stamp < b.stamp := lt_of_le_of_ne (not_lt.mp hlt') hne
      have hba : b.stamp < a.stamp := lt_of_le_of_ne (not_lt.mp hlt) hne'
      rw [if_neg hlt, if_neg hlt', join_other hab, if_neg hlt]
      exact (h.join_between hwf hok hc ha hb hac.symm hbc hcb hba).2

/-- Of three kinds the latest cell stays. -/
theorem assoc_distinct {a b c : RowCell P} (hab : a.typeTag ≠ b.typeTag)
    (hbc : b.typeTag ≠ c.typeTag) (hac : a.typeTag ≠ c.typeTag) :
    ((a.join b).1.join c).1 = (a.join (b.join c).1).1 := by
  rw [join_other hab, join_other hbc]
  by_cases hlt : a.stamp < b.stamp <;> by_cases hlt' : b.stamp < c.stamp
  · rw [if_pos hlt, if_pos hlt', join_other hbc, join_other hac, if_pos hlt',
      if_pos (hlt.trans hlt')]
  · rw [if_pos hlt, if_neg hlt', join_other hbc, join_other hab, if_neg hlt', if_pos hlt]
  · rw [if_neg hlt, if_pos hlt']
  · have hca : ¬ a.stamp < c.stamp := not_lt.mpr ((not_lt.mp hlt').trans (not_lt.mp hlt))
    rw [if_neg hlt, if_neg hlt', join_other hac, join_other hab, if_neg hca, if_neg hlt]

theorem CompatibleAt.assoc (hwf : ∀ c ∈ S, c.WF) (hok : MergesAll S) (h : CompatibleAt S)
    {a b c : RowCell P} (ha : a ∈ S) (hb : b ∈ S) (hc : c ∈ S) :
    ((a.join b).1.join c).1 = (a.join (b.join c).1).1 := by
  induction a using childInduction generalizing S b c with
  | step a ih =>
    by_cases hab : a.typeTag = b.typeTag <;> by_cases hbc : b.typeTag = c.typeTag
    · refine join_assoc_of (hwf a ha) (hwf b hb) (hwf c hc) hab hbc (hok.pair a ha b hb)
        (hok.left a ha b hb c hc) (hok.pair b hb c hc) (hok.right a ha b hb c hc) ?_
      intro segment x y z hx hy hz
      exact ih segment x hx (wf_below hwf segment) (hok.below hwf segment) (h.below segment)
        ⟨a, ha, hx⟩ ⟨b, hb, hy⟩ ⟨c, hc, hz⟩
    · exact h.assoc_last hwf hok ha hb hc hab hbc
    · exact h.assoc_first hwf hok ha hb hc hab hbc
    · by_cases hac : a.typeTag = c.typeTag
      · exact h.assoc_middle hwf hok ha hb hc hab hac
      · exact assoc_distinct hab hbc hac

end Sufficient

section Replicas

variable [Inhabited P]

/-- The cell after some events, applied to an empty one. -/
def replica (events : List (Event P)) : RowCell P :=
  events.foldl (fun c event => (applyWalk event.op event.stamp event.path c).1) (dummy none)

theorem wf_replica {events : List (Event P)} (hops : ∀ event ∈ events, event.op.WF) :
    (replica events).WF := by
  have hrun : ∀ c : RowCell P, c.WF →
      (events.foldl (fun c event => (applyWalk event.op event.stamp event.path c).1) c).WF := by
    induction events with
    | nil => exact fun c hc => hc
    | cons event events ih =>
      intro c hc
      have hop := hops event (by simp)
      have hrest : ∀ event ∈ events, event.op.WF :=
        fun event hmem => hops event (List.mem_cons_of_mem _ hmem)
      exact ih hrest _ (wf_applyWalk hop event.stamp event.path hc)
  exact hrun _ trivial

end Replicas

/-- Merge is a join on cells exactly when those at every path are compatible. -/
theorem isJoin_iff {S : Set (RowCell P)} (hwf : ∀ c ∈ S, c.WF) (hok : MergesAll S) :
    IsJoin S ↔ CompatibleAt S := by
  constructor
  · intro h path
    induction path generalizing S with
    | nil =>
      rw [cellsAt_nil]
      exact h.compatible hwf hok
    | cons segment path ih =>
      rw [cellsAt_cons]
      exact ih (wf_below hwf segment) (hok.below hwf segment) (h.below hwf hok segment)
  · intro h
    refine ⟨fun a ha b hb => h.comm hwf hok ha hb,
      fun a ha b hb c hc => h.assoc hwf hok ha hb hc, ?_⟩
    intro a ha
    have htells := (joinTells (hwf a ha) (hwf a ha)).2 (hok.pair a ha a ha)
    exact htells.mpr (h.covers_self hwf ha)

section Replicas

variable [Inhabited P]

/-- Replicas that saw parts of the same events: their merges are a join exactly when the cells at
every path are compatible. -/
theorem replicas_isJoin_iff {events : Set (Event P)} (hops : ∀ event ∈ events, event.op.WF)
    {S : Set (RowCell P)}
    (hreplicas : ∀ c ∈ S, ∃ seen : List (Event P), (∀ event ∈ seen, event ∈ events) ∧
      c = replica seen) (hok : MergesAll S) :
    IsJoin S ↔ CompatibleAt S := by
  refine isJoin_iff ?_ hok
  intro c hc
  obtain ⟨seen, hseen, rfl⟩ := hreplicas c hc
  exact wf_replica fun event hmem => hops event (hseen event hmem)

end Replicas

/-- An addition of one by a peer, at some time. -/
def addedBy (peer time : Nat) : Event Nat :=
  ⟨.int 1, [], .type (.counter (.add 1)), ⟨⟨peer, 1⟩, ⟨time, 0⟩⟩⟩

/-- A counter that one peer added to. -/
def countedOnce : RowCell Nat := ⟨some (.counter ⟨[(1, ⟨1, 0⟩)]⟩), ⟨⟨1, 1⟩, ⟨3, 0⟩⟩⟩

/-- The counter after an addition by another peer. -/
def countedTwice : RowCell Nat :=
  ⟨some (.counter ⟨[(1, ⟨1, 0⟩), (2, ⟨1, 0⟩)]⟩), ⟨⟨2, 1⟩, ⟨7, 0⟩⟩⟩

/-- A deletion in the time between, which did not see the counter. -/
def deletedUnseen : RowCell Nat := ⟨none, ⟨⟨3, 1⟩, ⟨5, 0⟩⟩⟩

theorem countedTwice_covers : countedTwice.Covers countedOnce := by
  refine ⟨by decide, ?_⟩
  intro v hv _
  cases hv
  refine ⟨_, rfl, ?_⟩
  intro peer r hr
  obtain ⟨rfl, rfl⟩ := Prod.mk.inj (List.mem_singleton.mp (mem_of_get hr))
  exact ⟨_, rfl, le_refl _, le_refl _⟩

theorem compatibleAt_fieldCells : CompatibleAt {countedOnce, deletedUnseen, countedTwice} := by
  refine Compatible.at_childless ⟨?_, ?_, ?_⟩ ?_
  · intro a ha b hb
    refine ⟨?_, ?_⟩
    · rcases ha with rfl | rfl | rfl <;> rcases hb with rfl | rfl | rfl <;> decide
    · intro v r hv hr
      rcases ha with rfl | rfl | rfl <;> rcases hb with rfl | rfl | rfl <;> cases hv <;>
        cases hr <;> exact trivial
  · intro a ha r hr
    rcases ha with rfl | rfl | rfl <;> cases hr
  · intro a ha b hb c hc _ _ hac hcb
    -- the only cell between two others is the deletion
    rcases ha with rfl | rfl | rfl <;> rcases hb with rfl | rfl | rfl <;>
      rcases hc with rfl | rfl | rfl <;>
      first
      | exact countedTwice_covers
      | exact absurd hac (by decide)
      | exact absurd hcb (by decide)
  · intro c hc segment
    rcases hc with rfl | rfl | rfl <;> cases segment <;> rfl

/-- Rows with these cells in a field. -/
def fieldRows : Set (RowCell Nat) :=
  {⟨some (.record [("n", countedOnce)]), countedOnce.stamp⟩,
    ⟨some (.record [("n", deletedUnseen)]), deletedUnseen.stamp⟩,
    ⟨some (.record [("n", countedTwice)]), countedOnce.stamp⟩}

theorem mergesAll_fieldRows : MergesAll fieldRows := by
  refine ⟨?_, ?_, ?_⟩
  · intro a ha b hb
    rcases ha with rfl | rfl | rfl <;> rcases hb with rfl | rfl | rfl <;> exact ⟨_, rfl⟩
  · intro a ha b hb c hc
    rcases ha with rfl | rfl | rfl <;> rcases hb with rfl | rfl | rfl <;>
      rcases hc with rfl | rfl | rfl <;> exact ⟨_, rfl⟩
  · intro a ha b hb c hc
    rcases ha with rfl | rfl | rfl <;> rcases hb with rfl | rfl | rfl <;>
      rcases hc with rfl | rfl | rfl <;> exact ⟨_, rfl⟩

theorem compatibleAt_fieldRows : CompatibleAt fieldRows := by
  refine compatibleAt_fieldCells.field "n" ?_
  intro c hc
  rcases hc with rfl | rfl | rfl
  · exact ⟨_, Or.inl rfl, _, rfl⟩
  · exact ⟨_, Or.inr (Or.inl rfl), _, rfl⟩
  · exact ⟨_, Or.inr (Or.inr rfl), _, rfl⟩

/-- The replicas with these rows: the last one holds all of the first, so that the deletion between
them does not matter. -/
theorem replicas_isJoin_iff_deleted :
    let first : Event Nat := { addedBy 1 3 with path := [.record "n"] }
    let deletion : Event Nat := ⟨.int 1, [.record "n"], .delete, deletedUnseen.stamp⟩
    let second : Event Nat := { addedBy 2 7 with path := [.record "n"] }
    let a := replica [first]
    let b := replica [deletion]
    let c := replica [first, second]
    (a.join b).1 = b ∧ (b.join c).1.child (.record "n") = c.child (.record "n") ∧
      IsJoin {a, b, c} := by
  intro first deletion second a b c
  have hops : ∀ event ∈ ({first, deletion, second} : Set (Event Nat)), event.op.WF := by
    intro event hevent
    rcases hevent with rfl | rfl | rfl <;> exact trivial
  have hreplicas : ∀ x ∈ ({a, b, c} : Set (RowCell Nat)), ∃ seen : List (Event Nat),
      (∀ event ∈ seen, event ∈ ({first, deletion, second} : Set (Event Nat))) ∧
        x = replica seen := by
    intro x hx
    rcases hx with rfl | rfl | rfl
    · exact ⟨[first], by simp, rfl⟩
    · exact ⟨[deletion], by simp, rfl⟩
    · exact ⟨[first, second], by simp, rfl⟩
  have hrows : ({a, b, c} : Set (RowCell Nat)) = fieldRows := rfl
  have hiff := replicas_isJoin_iff hops hreplicas (hrows ▸ mergesAll_fieldRows)
  exact ⟨rfl, rfl, hiff.mpr (hrows ▸ compatibleAt_fieldRows)⟩

/-- A counter, its deletion, and a counter that was started afterwards. If the deletion is merged
with the first one it takes that one's share away, and otherwise not. -/
theorem deleted_counter_returns :
    let first := addedBy 1 3
    let deletion : Event Nat := ⟨.int 1, [], .delete, ⟨⟨1, 2⟩, ⟨5, 0⟩⟩⟩
    let second := addedBy 2 7
    let a := replica [first]
    let b := replica [first, deletion]
    let c := replica [second]
    Succeeds (a.join b) ∧ Succeeds ((a.join b).1.join c) ∧ Succeeds (b.join c) ∧
      Succeeds (a.join (b.join c).1) ∧
      ((a.join b).1.join c).1 = ⟨some (.counter ⟨[(2, ⟨1, 0⟩)]⟩), ⟨⟨2, 1⟩, ⟨7, 0⟩⟩⟩ ∧
      (a.join (b.join c).1).1 = ⟨some (.counter ⟨[(1, ⟨1, 0⟩), (2, ⟨1, 0⟩)]⟩), ⟨⟨2, 1⟩, ⟨7, 0⟩⟩⟩ :=
  ⟨⟨_, rfl⟩, ⟨_, rfl⟩, ⟨_, rfl⟩, ⟨_, rfl⟩, by decide +kernel, by decide +kernel⟩

-- Containers that a walk creates on its way have the default stamp, whatever their type is.
example :
    let field : Event Nat := ⟨.int 1, [.record "f", .record "g"], .delete, ⟨⟨1, 1⟩, ⟨3, 0⟩⟩⟩
    let element : Event Nat :=
      ⟨.int 1, [.record "f", .list ⟨⟨1, 1⟩, ⟨2, 0⟩⟩], .delete, ⟨⟨2, 1⟩, ⟨4, 0⟩⟩⟩
    ((replica [field]).join (replica [element])).1 ≠ ((replica [element]).join (replica [field])).1 := by
  decide +kernel

end Cell

end ZenDB.Crdt
