import ZenDB.Crdt.Redelivery

namespace ZenDB.Crdt

open SortedMap

/-! Where a walk writes: the cells at all paths after an operation at one of them. -/

variable {P : Type}

namespace Cell

section Paths

variable [LinearOrder P]

/-- `cell_at_path` -/
def cellAtPath (c : RowCell P) : List (Segment P) → Option (RowCell P)
  | [] => some c
  | segment :: path => (c.child segment).bind (cellAtPath · path)

theorem cellAtPath_cons (c : RowCell P) (segment : Segment P) (path : List (Segment P)) :
    c.cellAtPath (segment :: path) = (c.child segment).bind (cellAtPath · path) := rfl

/-- Only a container of the right type has a child. -/
theorem typeTag_of_child {c d : RowCell P} {segment : Segment P} (h : c.child segment = some d) :
    c.typeTag = some segment.typeTag := by
  obtain ⟨_ | v, s⟩ := c
  · cases h
  · cases segment <;> cases v <;> first | rfl | cases h

theorem child_emptyValue (tag : TypeTag) (s : EventStamp P) (segment : Segment P) :
    (⟨some tag.emptyValue, s⟩ : RowCell P).child segment = none := by
  cases segment <;> cases tag <;> rfl

omit [LinearOrder P] in
theorem shown_of_typeTag {c : RowCell P} {tag : TypeTag} (h : c.typeTag = some tag)
    (stamp : EventStamp P) : c.shown tag stamp = c := by
  rw [shown, if_pos h]

/-- A cell that is emptied loses its children. -/
theorem child_shown (c : RowCell P) (segment : Segment P) (stamp : EventStamp P) :
    (c.shown segment.typeTag stamp).child segment = c.child segment := by
  by_cases h : c.typeTag = some segment.typeTag
  · rw [shown_of_typeTag h]
  · rw [shown, if_neg h, child_emptyValue]
    cases hchild : c.child segment with
    | none => rfl
    | some d => exact absurd (typeTag_of_child hchild) h

variable [Inhabited P]

theorem child_newChild (tag : Option TypeTag) (segment : Segment P) :
    (newChild tag : RowCell P).child segment = none := by
  cases tag with
  | none => cases segment <;> rfl
  | some tag => exact child_emptyValue tag _ segment

end Paths

section Walk

variable [LinearOrder P] [Inhabited P] {op : Op P} {stamp : EventStamp P}

/-- What one step of a walk leaves behind: the child, as the rest of the walk leaves it, and all
other children and the stamp as they were shown. -/
theorem applyWalk_step (op : Op P) (path : List (Segment P)) {c : RowCell P} {segment : Segment P}
    (hrefuses : ¬ c.Refuses segment.typeTag stamp) (hsegment : segment ≠ .list default) :
    let below := enter (c.child segment) (childTag op path) stamp (applyWalk op stamp path)
    let after := applyWalk op stamp (segment :: path) c
    (∀ changed, after.2 = .ok changed ↔ below.2 = .ok changed) ∧
      after.1.child segment = some below.1 ∧
      (∀ other, other ≠ segment →
        after.1.child other = (c.shown segment.typeTag stamp).child other) ∧
      after.1.stamp = (c.shown segment.typeTag stamp).stamp := by
  rw [← child_shown c segment stamp]
  cases segment with
  | record field =>
    obtain ⟨fields, s, hshown⟩ := eq_record (typeTag_shown c .record stamp)
    rw [applyWalk_record hrefuses hshown, Segment.typeTag, hshown]
    refine ⟨fun changed => mapError_ok_iff, ?_, ?_, rfl⟩
    · simp [child, get_insert]
    · intro other hother
      cases other with
      | record other =>
        have hne : other ≠ field := fun h => hother (congrArg _ h)
        simp [child, get_insert, hne]
      | list id => rfl
  | list id =>
    obtain ⟨entries, s, hshown⟩ := eq_list (typeTag_shown c .list stamp)
    have hid : id ≠ default := fun h => hsegment (congrArg _ h)
    rw [applyWalk_list hrefuses hshown, if_neg hid, Segment.typeTag, hshown]
    refine ⟨fun changed => mapError_ok_iff, ?_, ?_, rfl⟩
    · simp [child, get_insert]
    · intro other hother
      cases other with
      | record field => rfl
      | list other =>
        have hne : other ≠ id := fun h => hother (congrArg _ h)
        simp [child, get_insert, hne]

theorem applyWalk_zeroId (op : Op P) (path : List (Segment P)) {c : RowCell P}
    (hrefuses : ¬ c.Refuses .list stamp) :
    (applyWalk op stamp (.list default :: path) c).2 = .error (.list .zeroId) := by
  obtain ⟨entries, s, hshown⟩ := eq_list (typeTag_shown c .list stamp)
  rw [applyWalk_list hrefuses hshown, if_pos rfl]

/-- Inside a path the descent into a child is the walk from the child itself, which makes it of
the type that it needs once more. -/
theorem enter_cons (child : Option (RowCell P)) (segment : Segment P) (path : List (Segment P)) :
    enter child (childTag op (segment :: path)) stamp (applyWalk op stamp (segment :: path)) =
      applyWalk op stamp (segment :: path)
        (child.getD (newChild (childTag op (segment :: path)))) := by
  have htag : childTag op (segment :: path) = some segment.typeTag := rfl
  simp only [htag, enter]
  generalize child.getD (newChild (some segment.typeTag)) = d
  rcases ensureType_eq d segment.typeTag stamp with ⟨hrefuses, heq⟩ | ⟨hrefuses, heq⟩
  · rw [heq, applyWalk_refused hrefuses]
  · have hshown := typeTag_shown d segment.typeTag stamp
    have hagain := shown_of_typeTag hshown stamp
    have hnot : ¬ (d.shown segment.typeTag stamp).Refuses segment.typeTag stamp :=
      fun hno => hno.1 hshown
    rw [heq]
    cases segment with
    | record field =>
      obtain ⟨fields, s, hd⟩ := eq_record hshown
      exact (applyWalk_record hnot (hagain.trans hd)).trans (applyWalk_record hrefuses hd).symm
    | list id =>
      obtain ⟨entries, s, hd⟩ := eq_list hshown
      exact (applyWalk_list hnot (hagain.trans hd)).trans (applyWalk_list hrefuses hd).symm

/-- Every cell on a proper prefix of the path is a container of the type of the next segment. -/
def HoldsContainers (c : RowCell P) (path : List (Segment P)) : Prop :=
  ∀ pre segment rest, path = pre ++ segment :: rest → ∀ d, c.cellAtPath pre = some d →
    d.typeTag = some segment.typeTag

theorem HoldsContainers.child {c : RowCell P} {segment : Segment P} {path : List (Segment P)}
    (h : c.HoldsContainers (segment :: path)) {tag : Option TypeTag}
    (htag : ∀ next rest, path = next :: rest → tag = some next.typeTag) :
    ((c.child segment).getD (newChild tag)).HoldsContainers path := by
  intro pre next rest hpath d hd
  cases hchild : c.child segment with
  | some e =>
    rw [hchild] at hd
    refine h (segment :: pre) next rest (by rw [hpath]; rfl) d ?_
    rw [cellAtPath_cons, hchild]
    exact hd
  | none =>
    rw [hchild] at hd
    cases pre with
    | nil =>
      cases hd
      rw [Option.getD_none, htag next rest hpath]
      exact congrArg some (typeTag_emptyValue next.typeTag)
    | cons other pre =>
      rw [Option.getD_none, cellAtPath_cons, child_newChild] at hd
      cases hd

/-- A nested write changes neither the cells beside its path nor the stamps on the way to it. -/
theorem applyWalk_frame {c c' : RowCell P} {path : List (Segment P)} {changed : Bool}
    (hholds : c.HoldsContainers path) (h : applyWalk op stamp path c = (c', .ok changed)) :
    (∀ q, ¬ q <+: path → ¬ path <+: q → c'.cellAtPath q = c.cellAtPath q) ∧
      ∀ q, q <+: path → q ≠ path → ∀ d, c.cellAtPath q = some d →
        ∃ d', c'.cellAtPath q = some d' ∧ d'.stamp = d.stamp := by
  induction path generalizing c c' changed with
  | nil =>
    refine ⟨fun q _ hq => absurd (List.nil_prefix) hq, fun q hq hne => ?_⟩
    exact absurd (List.prefix_nil.mp hq) hne
  | cons segment path ih =>
    have htag : c.typeTag = some segment.typeTag := hholds [] segment path rfl c rfl
    have hrefuses : ¬ c.Refuses segment.typeTag stamp := fun hno => hno.1 htag
    have hsegment : segment ≠ .list default := by
      rintro rfl
      have herror := applyWalk_zeroId op path hrefuses
      rw [h] at herror
      cases herror
    obtain ⟨hanswer, hchild, hothers, hstamp⟩ :=
      applyWalk_step op path hrefuses hsegment
    rw [h] at hanswer hchild hothers hstamp
    rw [shown_of_typeTag htag] at hothers hstamp
    have hok := (hanswer changed).mp rfl
    refine ⟨?_, ?_⟩
    · intro q hq hpath
      cases q with
      | nil => exact absurd List.nil_prefix hq
      | cons other q =>
        by_cases hother : other = segment
        · subst hother
          rw [List.prefix_cons_inj] at hq hpath
          cases path with
          | nil => exact absurd List.nil_prefix hpath
          | cons next path =>
            rw [enter_cons] at hok hchild
            have hbelow := (ih (hholds.child fun _ _ heq => by cases heq; rfl)
              (Prod.ext rfl hok)).1 q hq hpath
            rw [cellAtPath_cons, hchild, Option.bind_some, hbelow, cellAtPath_cons]
            cases c.child other with
            | some d => rfl
            | none =>
              cases q with
              | nil => exact absurd List.nil_prefix hq
              | cons deeper q =>
                rw [Option.getD_none, cellAtPath_cons, child_newChild]
                rfl
        · rw [cellAtPath_cons, cellAtPath_cons, hothers other hother]
    · intro q hq hne d hd
      cases q with
      | nil =>
        cases hd
        exact ⟨c', rfl, hstamp⟩
      | cons other q =>
        obtain ⟨rfl, hprefix⟩ := List.cons_prefix_cons.mp hq
        have hne' : q ≠ path := fun heq => hne (by rw [heq])
        cases path with
        | nil => exact absurd (List.prefix_nil.mp hprefix) hne'
        | cons next path =>
          rw [enter_cons] at hok hchild
          rw [cellAtPath_cons] at hd
          obtain ⟨e, he, hd⟩ := Option.bind_eq_some_iff.mp hd
          obtain ⟨d', hd', hstamp'⟩ := (ih (hholds.child fun _ _ heq => by cases heq; rfl)
            (Prod.ext rfl hok)).2 q hprefix hne' d (by rw [he]; exact hd)
          refine ⟨d', ?_, hstamp'⟩
          rw [cellAtPath_cons, hchild]
          exact hd'

end Walk

/-- A record with two fields. -/
def noteRow : RowCell Nat :=
  ⟨some (.record [("tags", ⟨some (.set ⟨[]⟩), ⟨⟨1, 1⟩, ⟨3, 0⟩⟩⟩),
    ("title", ⟨some (.scalar (.string "a")), ⟨⟨1, 2⟩, ⟨4, 0⟩⟩⟩)]), ⟨⟨1, 1⟩, ⟨3, 0⟩⟩⟩

theorem applyWalk_frame_title :
    let after := applyWalk (.upsert (.scalar (.string "b"))) ⟨⟨1, 3⟩, ⟨5, 0⟩⟩
      [.record "title"] noteRow
    after.2 = .ok true ∧ after.1 ≠ noteRow ∧
      after.1.cellAtPath [.record "tags"] = noteRow.cellAtPath [.record "tags"] ∧
      ∃ d, after.1.cellAtPath [] = some d ∧ d.stamp = noteRow.stamp := by
  intro after
  have hholds : noteRow.HoldsContainers [.record "title"] := by
    intro pre segment rest hpath d hd
    cases pre with
    | nil =>
      cases hpath
      cases hd
      rfl
    | cons other pre => simp at hpath
  have hok : after.2 = .ok true := rfl
  obtain ⟨hbeside, hstamps⟩ := applyWalk_frame hholds (Prod.ext rfl hok : after = (after.1, .ok true))
  refine ⟨hok, by decide +kernel, ?_, ?_⟩
  · exact hbeside _ (by decide) (by decide)
  · exact hstamps [] List.nil_prefix (by simp) noteRow rfl

section Newest

variable [LinearOrder P] [Inhabited P]

theorem stamp_le_maxStamp (c : RowCell P) : c.stamp ≤ c.maxStamp := by
  obtain ⟨_ | v, s⟩ := c
  · exact le_rfl
  · exact le_max_left _ _

theorem le_maxStampFields {fields : List (String × RowCell P)} {e : String × RowCell P}
    (h : e ∈ fields) : e.2.maxStamp ≤ maxStampFields fields := by
  induction fields with
  | nil => cases h
  | cons e' fields ih =>
    rw [maxStampFields]
    rcases List.mem_cons.mp h with rfl | h
    · exact le_max_left _ _
    · exact (ih h).trans (le_max_right _ _)

theorem le_maxStampEntries {entries : List (EventStamp P × RowEntry P)}
    {e : EventStamp P × RowEntry P} (h : e ∈ entries) :
    e.2.cell.maxStamp ≤ maxStampEntries entries := by
  induction entries with
  | nil => cases h
  | cons e' entries ih =>
    obtain ⟨id, position, c⟩ := e'
    rw [maxStampEntries]
    rcases List.mem_cons.mp h with rfl | h
    · exact le_max_left _ _
    · exact (ih h).trans (le_max_right _ _)

/-- No child has a later stamp than its container. -/
theorem maxStamp_child_le {c d : RowCell P} {segment : Segment P} (h : c.child segment = some d) :
    d.maxStamp ≤ c.maxStamp := by
  obtain ⟨_ | v, s⟩ := c
  · cases h
  · have hv : d.maxStamp ≤ v.maxStamp := by
      cases segment with
      | record field =>
        cases v with
        | record fields => exact le_maxStampFields (mem_of_get h)
        | _ => cases h
      | list id =>
        cases v with
        | list entries =>
          obtain ⟨entry, hget, rfl⟩ := Option.map_eq_some_iff.mp h
          exact le_maxStampEntries (mem_of_get hget)
        | _ => cases h
    exact hv.trans (le_max_right _ _)

theorem maxStamp_emptyValue (tag : TypeTag) : (tag.emptyValue : Value P).maxStamp = default := by
  cases tag <;> simp [TypeTag.emptyValue, Value.maxStamp, MvRegister.maxStamp, OrSet.maxStamp,
    PriorityQueue.maxStamp, LwwSet.maxStamp, Text.maxStamp, maxOf, maxStampFields, maxStampEntries]

theorem maxStamp_newChild (tag : Option TypeTag) : (newChild tag : RowCell P).maxStamp = default := by
  cases tag with
  | none => rfl
  | some tag =>
    have h : (newChild (some tag) : RowCell P).maxStamp =
        max default (tag.emptyValue : Value P).maxStamp := rfl
    rw [h, maxStamp_emptyValue, max_self]

theorem not_refuses_of_lt {c : RowCell P} {stamp : EventStamp P} (h : c.maxStamp < stamp)
    (tag : TypeTag) : ¬ c.Refuses tag stamp :=
  fun hrefuses => absurd hrefuses.2 (not_le.mpr h)

/-- The cells that events have reached from an empty row. -/
inductive Reached : RowCell P → Prop
  | start : Reached (dummy none)
  | event {c : RowCell P} (h : Reached c) (op : Op P) (stamp : EventStamp P)
    (path : List (Segment P)) : Reached (applyWalk op stamp path c).1

theorem stamp_le_shown {c : RowCell P} {tag : TypeTag} {stamp : EventStamp P}
    (h : ¬ c.Refuses tag stamp) : c.stamp ≤ (c.shown tag stamp).stamp := by
  rw [shown]
  split_ifs with htag
  · exact le_rfl
  · have hlt : c.maxStamp < stamp := not_le.mp fun hle => h ⟨htag, hle⟩
    exact (stamp_le_maxStamp c).trans hlt.le

omit [Inhabited P] in
theorem stamp_le_join (c r : RowCell P) : c.stamp ≤ (c.join r).1.stamp := by
  by_cases hsame : c.SameType r
  · obtain ⟨v, rv, hv, hrv, htag⟩ := hsame
    rcases hmerge : v.merge rv ⟨c.stamp, r.stamp⟩ with ⟨w, e | changed⟩
    · rw [join_error hv hrv htag hmerge]
    · rw [join_ok hv hrv htag hmerge]
      exact le_max_left _ _
  · rw [join_of_not_sameType hsame]
    split_ifs with hlt
    · exact hlt.le
    · exact le_rfl

theorem stamp_le_apply (c : RowCell P) (op : Op P) (stamp : EventStamp P) :
    c.stamp ≤ (c.apply op stamp).1.stamp := by
  cases op with
  | type op =>
    rw [apply, applyType]
    rcases ensureType_eq c op.typeTag stamp with ⟨-, heq⟩ | ⟨hrefuses, heq⟩
    · simp only [heq]
      exact le_rfl
    · have hle := stamp_le_shown hrefuses
      rw [heq]
      generalize c.shown op.typeTag stamp = d at hle
      obtain ⟨_ | v, s⟩ := d
      · exact hle
      · dsimp only
        rcases v.apply op stamp with ⟨w, e | changed⟩
        · exact hle
        · cases changed
          · exact hle
          · exact hle.trans (le_max_left _ _)
  | delete =>
    rw [apply]
    split_ifs with hle
    · exact le_rfl
    · exact (not_le.mp hle).le
  | upsert value =>
    rw [apply]
    split_ifs with hle
    · exact le_rfl
    · exact (not_le.mp hle).le
  | merge cell => exact stamp_le_join c cell

/-- The stamp of a cell never goes down. -/
theorem stamp_le_applyWalk (c : RowCell P) (op : Op P) (stamp : EventStamp P)
    (path : List (Segment P)) : c.stamp ≤ (applyWalk op stamp path c).1.stamp := by
  cases path with
  | nil => exact stamp_le_apply c op stamp
  | cons segment path =>
    by_cases hrefuses : c.Refuses segment.typeTag stamp
    · rw [applyWalk_refused hrefuses]
    have hle := stamp_le_shown hrefuses
    by_cases hsegment : segment = .list default
    · subst hsegment
      obtain ⟨entries, s, hshown⟩ := eq_list (typeTag_shown c .list stamp)
      rw [applyWalk_list hrefuses hshown, if_pos rfl, ← hshown]
      exact hle
    · rw [(applyWalk_step op path hrefuses hsegment).2.2.2]
      exact hle

theorem Reached.default_le {c : RowCell P} (h : Reached c) : default ≤ c.stamp := by
  induction h with
  | start => exact le_rfl
  | event _ op stamp path ih => exact ih.trans (stamp_le_applyWalk _ op stamp path)

/-- At the end of its path, an upsert is compared with the stamp that its own descent may have
written. -/
theorem enter_upsert {child : Option (RowCell P)} {value : Value P} {stamp : EventStamp P}
    (hchild : ∀ d, child = some d → d.maxStamp < stamp) (hstamp : default < stamp) :
    enter child (some value.typeTag) stamp (applyWalk (.upsert value) stamp []) =
        (⟨some value, stamp⟩, .ok true) ↔
      ∀ d, child = some d → d.typeTag = some value.typeTag := by
  have happly : ∀ d : RowCell P, d.stamp < stamp →
      applyWalk (.upsert value) stamp [] d = (⟨some value, stamp⟩, .ok true) := by
    intro d hd
    rw [applyWalk, apply, if_neg (not_le.mpr hd)]
  simp only [enter]
  cases child with
  | none =>
    have htag : (newChild (some value.typeTag) : RowCell P).typeTag = some value.typeTag :=
      congrArg some (typeTag_emptyValue _)
    rw [Option.getD_none, ensureType, if_pos htag]
    exact iff_of_true (happly _ hstamp) (by simp)
  | some d =>
    have hlt := hchild d rfl
    simp only [Option.getD_some, Option.some.injEq, forall_eq']
    by_cases htag : d.typeTag = some value.typeTag
    · rw [ensureType, if_pos htag]
      exact iff_of_true (happly d ((stamp_le_maxStamp d).trans_lt hlt)) htag
    · rw [ensureType, if_neg htag, if_pos hlt]
      refine iff_of_false ?_ htag
      simp [applyWalk, apply]

theorem upsert_wins_below {value : Value P} {stamp : EventStamp P} (hstamp : default < stamp)
    {path : List (Segment P)} (hpath : Segment.list default ∉ path) {c : RowCell P}
    (hmax : c.maxStamp < stamp) :
    (applyWalk (.upsert value) stamp path c).2 = .ok true ∧
        (applyWalk (.upsert value) stamp path c).1.cellAtPath path = some ⟨some value, stamp⟩ ↔
      path = [] ∨ ∀ d, c.cellAtPath path = some d → d.typeTag = some value.typeTag := by
  induction path generalizing c with
  | nil =>
    refine iff_of_true ?_ (Or.inl rfl)
    rw [applyWalk, apply, if_neg (not_le.mpr ((stamp_le_maxStamp c).trans_lt hmax))]
    exact ⟨rfl, rfl⟩
  | cons segment path ih =>
    rw [List.mem_cons, not_or] at hpath
    obtain ⟨hsegment, hrest⟩ := hpath
    obtain ⟨hanswer, hchild, -, -⟩ := applyWalk_step (.upsert value) path
      (not_refuses_of_lt hmax segment.typeTag) (Ne.symm hsegment)
    have hbelow : ∀ d, c.child segment = some d → d.maxStamp < stamp :=
      fun d hd => (maxStamp_child_le hd).trans_lt hmax
    rw [hanswer, cellAtPath_cons, hchild, Option.bind_some, or_iff_right (by simp),
      cellAtPath_cons]
    cases path with
    | nil =>
      have hend : (c.child segment).bind (cellAtPath · []) = c.child segment :=
        Option.bind_fun_some (c.child segment)
      rw [hend, ← enter_upsert hbelow hstamp, Prod.ext_iff, and_comm]
      simp only [cellAtPath, Option.some.injEq]
      rfl
    | cons next path =>
      rw [enter_cons]
      cases hget : c.child segment with
      | none =>
        have hnew := maxStamp_newChild (P := P) (childTag (.upsert value) (next :: path))
        refine (ih hrest (hnew.trans_lt hstamp)).trans (iff_of_true (Or.inr ?_) (by simp))
        intro d hd
        rw [cellAtPath_cons, child_newChild] at hd
        cases hd
      | some d =>
        exact (ih hrest (hbelow d hget)).trans (or_iff_right (by simp))

/-- The newest upsert is written at its path exactly where it finds nothing or a value of its own
type, or at the root. -/
theorem newest_upsert_wins {c : RowCell P} (hc : Reached c) {path : List (Segment P)}
    (hpath : Segment.list default ∉ path) (value : Value P) {stamp : EventStamp P}
    (hstamp : c.maxStamp < stamp) :
    (applyWalk (.upsert value) stamp path c).2 = .ok true ∧
        (applyWalk (.upsert value) stamp path c).1.cellAtPath path = some ⟨some value, stamp⟩ ↔
      path = [] ∨ ∀ d, c.cellAtPath path = some d → d.typeTag = some value.typeTag := by
  have hdefault : default < stamp := (hc.default_le.trans (stamp_le_maxStamp c)).trans_lt hstamp
  exact upsert_wins_below hdefault hpath hstamp

end Newest

/-- A row whose only field was written and deleted. -/
def deletedField : RowCell Nat :=
  (applyWalk .delete ⟨⟨1, 2⟩, ⟨5, 0⟩⟩ [.record "title"]
    (applyWalk (.upsert (.scalar (.int 1))) ⟨⟨1, 1⟩, ⟨3, 0⟩⟩ [.record "title"] (dummy none)).1).1

theorem reached_deletedField : Reached deletedField := .event (.event .start _ _ _) _ _ _

theorem newest_upsert_wins_sibling :
    let after := applyWalk (.upsert (.scalar (.int 2))) ⟨⟨2, 1⟩, ⟨7, 0⟩⟩ [.record "tags"] deletedField
    after.2 = .ok true ∧
      after.1.cellAtPath [.record "tags"] = some ⟨some (.scalar (.int 2)), ⟨⟨2, 1⟩, ⟨7, 0⟩⟩⟩ := by
  refine (newest_upsert_wins reached_deletedField (by decide) _ (by decide +kernel)).mpr (Or.inr ?_)
  intro d hd
  have hnone : deletedField.cellAtPath [.record "tags"] = none := by decide +kernel
  rw [hnone] at hd
  cases hd

/-- Over a tombstone the upsert leaves an empty value of its type and reports no change. -/
theorem newest_upsert_lost :
    let stamp : EventStamp Nat := ⟨⟨2, 1⟩, ⟨7, 0⟩⟩
    let after := applyWalk (.upsert (.scalar (.int 2))) stamp [.record "title"] deletedField
    Reached deletedField ∧ deletedField.maxStamp < stamp ∧ after.2 = .ok false ∧
      after.1.cellAtPath [.record "title"] = some ⟨some (.scalar (.int 0)), stamp⟩ := by
  exact ⟨reached_deletedField, by decide +kernel, rfl, by decide +kernel⟩

end Cell

end ZenDB.Crdt
