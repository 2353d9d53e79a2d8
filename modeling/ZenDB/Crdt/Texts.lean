import ZenDB.Crdt.Cell
import ZenDB.Crdt.Sets

namespace ZenDB.Crdt

open SortedMap

/-! The text as a function of its operations. -/

variable {S V : Type} [LinearOrder S]

namespace Text

variable {ops ops' : Set (TextOp S V × S)} {id : TextId S}

/-- The operations that leave an entry for a character; a delete that is not later than its target
has no effect. -/
def Touches (id : TextId S) : TextOp S V × S → Prop
  | (.insert _ text, s) => id.stamp = s ∧ id.offset < text.toList.length
  | (.delete ids, s) => id ∈ ids ∧ id.stamp < s
  | (.format ids _ _, _) => id ∈ ids

/-- The content that the inserts give a character. -/
def Written (ops : Set (TextOp S V × S)) (id : TextId S) (c : Option (TextContent S)) : Prop :=
  ∀ content, c = some content ↔ ∃ after text, (.insert after text, id.stamp) ∈ ops ∧
    text.toList[id.offset]? = some content.character ∧
    content.after = anchor after id.stamp id.offset

def deletionsOf (ops : Set (TextOp S V × S)) (id : TextId S) : Set S :=
  {s | ∃ ids, (.delete ids, s) ∈ ops ∧ id ∈ ids ∧ id.stamp < s}

def formatsOf (ops : Set (TextOp S V × S)) (id : TextId S) (key : String) : Set S :=
  {s | ∃ ids value, (.format ids key value, s) ∈ ops ∧ id ∈ ids}

/-- An attribute is the one of the latest format operation. -/
def Formatted (id : TextId S) (ops : Set (TextOp S V × S)) (key : String)
    (a : Option (Option V × S)) : Prop :=
  IsLatest (formatsOf ops id key) (a.map Prod.snd) ∧
    ∀ value s, a = some (value, s) → ∃ ids, (.format ids key value, s) ∈ ops ∧ id ∈ ids

/-- An entry that says nothing. -/
def blank : TextEntry S V := ⟨none, none, []⟩

/-- What a text has under an id after `ops`. -/
def EntryOf (ops : Set (TextOp S V × S)) (id : TextId S) (v : Option (TextEntry S V)) : Prop :=
  (v.isSome ↔ ∃ e ∈ ops, Touches id e) ∧ Written ops id (v.getD blank).content ∧
    IsLatest (deletionsOf ops id) (v.getD blank).deletedAt ∧
    MapOf (Formatted id) ops (v.getD blank).attrs

def Of (ops : Set (TextOp S V × S)) (t : Text S V) : Prop := MapOf EntryOf ops t.entries

theorem touched_insert {e : TextOp S V × S} :
    (∃ e' ∈ insert e ops, Touches id e') ↔ Touches id e ∨ ∃ e' ∈ ops, Touches id e' := by
  simp [or_and_right, exists_or]

/-- An operation that formats nothing keeps the attributes. -/
theorem attrs_frame {e : TextOp S V × S} (he : ∀ ids key value, e.1 ≠ .format ids key value)
    {attrs : List (String × (Option V × S))} (h : MapOf (Formatted id) ops attrs) :
    MapOf (Formatted id) (insert e ops) attrs := by
  refine ⟨h.1, fun key => ?_⟩
  have hformats : formatsOf (insert e ops) id key = formatsOf ops id key := by
    ext t
    refine exists_congr fun ids => exists_congr fun value => and_congr_left fun _ => ?_
    rw [Set.mem_insert_iff, or_iff_right]
    rintro rfl
    exact he ids key value rfl
  refine ⟨hformats ▸ (h.2 key).1, ?_⟩
  intro value s ha
  obtain ⟨ids, hmem, hid⟩ := (h.2 key).2 value s ha
  exact ⟨ids, Set.mem_insert_of_mem _ hmem, hid⟩

omit [LinearOrder S] in
theorem written_frame {e : TextOp S V × S}
    (he : ∀ after text, e = (.insert after text, id.stamp) → text.toList[id.offset]? = none)
    {c : Option (TextContent S)} (h : Written ops id c) : Written (insert e ops) id c := by
  intro content
  rw [h content]
  refine exists_congr fun after => exists_congr fun text => and_congr_left ?_
  rintro ⟨hchar, -⟩
  rw [Set.mem_insert_iff, or_iff_right]
  intro heq
  rw [he after text heq.symm] at hchar
  cases hchar

theorem deletions_frame {e : TextOp S V × S}
    (he : ∀ ids, e.1 = .delete ids → id ∈ ids → ¬ id.stamp < e.2) :
    deletionsOf (insert e ops) id = deletionsOf ops id := by
  ext t
  refine exists_congr fun ids => and_congr_left ?_
  rintro ⟨hid, hlt⟩
  rw [Set.mem_insert_iff, or_iff_right]
  rintro rfl
  exact he ids rfl hid hlt

/-- An operation that does not touch a character. -/
theorem entryOf_frame {e : TextOp S V × S} (he : ¬ Touches id e) {v : Option (TextEntry S V)}
    (h : EntryOf ops id v) : EntryOf (insert e ops) id v := by
  obtain ⟨htouched, hwritten, hdeleted, hattrs⟩ := h
  refine ⟨?_, ?_, ?_, hattrs.1, fun key => ?_⟩
  · rw [htouched, touched_insert, or_iff_right he]
  · apply written_frame _ hwritten
    rintro after text rfl
    rw [List.getElem?_eq_none_iff, ← not_lt]
    exact fun hlt => he ⟨rfl, hlt⟩
  · rw [deletions_frame]
    · exact hdeleted
    · intro ids hop hid hlt
      obtain ⟨op, s⟩ := e
      cases hop
      exact he ⟨hid, hlt⟩
  · have hformats : formatsOf (insert e ops) id key = formatsOf ops id key := by
      ext t
      refine exists_congr fun ids => exists_congr fun value => and_congr_left fun hid => ?_
      rw [Set.mem_insert_iff, or_iff_right]
      rintro rfl
      exact he hid
    refine ⟨hformats ▸ (hattrs.2 key).1, ?_⟩
    intro value s ha
    obtain ⟨ids, hmem, hid⟩ := (hattrs.2 key).2 value s ha
    exact ⟨ids, Set.mem_insert_of_mem _ hmem, hid⟩

section Distinct

variable {U : Set (TextOp S V × S)} (hU : DistinctStamps U)

include hU

omit [LinearOrder S] in
theorem insert_eq {s : S} {after after' : Option (TextId S)} {text text' : String}
    (h : (.insert after text, s) ∈ U) (h' : (.insert after' text', s) ∈ U) :
    after = after' ∧ text = text' := by
  have heq := hU _ h _ h' rfl
  cases heq
  exact ⟨rfl, rfl⟩

theorem formatted_unique (hops : ops ⊆ U) (key : String) (a a' : Option (Option V × S))
    (h : Formatted id ops key a) (h' : Formatted id ops key a') : a = a' := by
  have hstamp := h.1.unique h'.1
  rcases a with _ | ⟨value, s⟩ <;> rcases a' with _ | ⟨value', s'⟩
  · rfl
  · cases hstamp
  · cases hstamp
  · obtain rfl : s = s' := by simpa using hstamp
    obtain ⟨ids, hmem, -⟩ := h.2 value s rfl
    obtain ⟨ids', hmem', -⟩ := h'.2 value' s rfl
    have heq := hU _ (hops hmem) _ (hops hmem') rfl
    cases heq
    rfl

theorem entryOf_unique (hops : ops ⊆ U) (id : TextId S) (v v' : Option (TextEntry S V))
    (h : EntryOf ops id v) (h' : EntryOf ops id v') : v = v' := by
  have hcontent : (v.getD blank).content = (v'.getD blank).content :=
    Option.ext fun c => (h.2.1 c).trans (h'.2.1 c).symm
  have hdeleted := h.2.2.1.unique h'.2.2.1
  have hattrs := h.2.2.2.unique (formatted_unique hU hops) h'.2.2.2
  have hsome : v.isSome ↔ v'.isSome := h.1.trans h'.1.symm
  rcases v with _ | ⟨c, d, a⟩ <;> rcases v' with _ | ⟨c', d', a'⟩ <;> simp_all

omit [LinearOrder S] in
/-- The content of one insert operation. -/
theorem written_insert (hops : ops ⊆ U) {after : Option (TextId S)} {text : String} {s : S}
    (he : (.insert after text, s) ∈ U) {offset : Nat} {character : Char}
    (hchar : text.toList[offset]? = some character) :
    Written (insert (.insert after text, s) ops) ⟨s, offset⟩
      (some ⟨anchor after s offset, character⟩) := by
  intro content
  constructor
  · intro heq
    cases heq
    exact ⟨after, text, Set.mem_insert _ _, hchar, rfl⟩
  · rintro ⟨after', text', hmem, hchar', hafter⟩
    obtain ⟨rfl, rfl⟩ := insert_eq hU he (Set.insert_subset he hops hmem)
    rw [hchar] at hchar'
    cases content
    simp_all

omit [LinearOrder S] in
/-- A character that is known has the content that the insert gives it. -/
theorem content_eq_of_written (hops : ops ⊆ U) {after : Option (TextId S)} {text : String} {s : S}
    (he : (.insert after text, s) ∈ U) {offset : Nat} {content : TextContent S}
    (h : Written ops ⟨s, offset⟩ (some content)) :
    text.toList[offset]? = some content.character ∧ content.after = anchor after s offset := by
  obtain ⟨after', text', hmem, hchar, hafter⟩ := (h content).mp rfl
  obtain ⟨rfl, rfl⟩ := insert_eq hU he (hops hmem)
  exact ⟨hchar, hafter⟩

theorem entryOf_insert (hops : ops ⊆ U) {after : Option (TextId S)} {text : String} {s : S}
    (he : (.insert after text, s) ∈ U) {offset : Nat} (hoffset : offset < text.toList.length)
    {v : Option (TextEntry S V)} (h : EntryOf ops ⟨s, offset⟩ v) :
    EntryOf (insert (.insert after text, s) ops) ⟨s, offset⟩
      ((writeChar after text.toList ⟨s, offset⟩ v).or v) := by
  obtain ⟨character, hchar⟩ := Option.isSome_iff_exists.mp
    (show (text.toList[offset]?).isSome from by simp [hoffset])
  have hentry : (writeChar after text.toList ⟨s, offset⟩ v).or v =
      some {v.getD blank with content := some ⟨anchor after s offset, character⟩} := by
    rw [writeChar, hchar]
    rcases v with _ | ⟨_ | content, d, a⟩
    · rfl
    · rfl
    · obtain ⟨hchar', hafter⟩ := content_eq_of_written hU hops he h.2.1
      obtain ⟨contentAfter, contentChar⟩ := content
      simp_all
  rw [hentry]
  refine ⟨?_, written_insert hU hops he hchar, ?_, attrs_frame (by simp) h.2.2.2⟩
  · exact iff_of_true rfl (touched_insert.mpr (Or.inl ⟨rfl, hoffset⟩))
  · rw [deletions_frame (by simp)]
    exact h.2.2.1

end Distinct

theorem entryOf_delete {ids : List (TextId S)} {s : S} (hid : id ∈ ids)
    {v : Option (TextEntry S V)} (h : EntryOf ops id v) :
    EntryOf (insert (.delete ids, s) ops) id ((deleteChar s id v).or v) := by
  by_cases hs : s ≤ id.stamp
  · have hnone : deleteChar s id v = none := by simp [deleteChar, hs]
    rw [hnone, Option.none_or]
    apply entryOf_frame _ h
    exact fun htouches => absurd htouches.2 (not_lt.mpr hs)
  · have hlt := not_le.mp hs
    have hentry : (deleteChar s id v).or v = some {v.getD blank with
        deletedAt := (mergeClock (v.getD blank).deletedAt (some s)).1} := by
      rcases v with _ | ⟨c, d, a⟩
      · simp [deleteChar, hs, mergeClock, raise, blank]
      · simp only [deleteChar, if_neg hs]
        cases hclock : (mergeClock d (some s)).2 with
        | true => simp
        | false =>
          have hsame : (mergeClock d (some s)).1 = d := by
            rw [mergeClock] at hclock ⊢
            cases hraise : raise s d <;> simp_all
          simp [hsame]
    have hdeletions : deletionsOf (insert (.delete ids, s) ops) id = insert s (deletionsOf ops id) := by
      ext t
      constructor
      · rintro ⟨ids', heq | hmem, hin, hlt'⟩
        · cases heq
          exact Set.mem_insert _ _
        · exact Set.mem_insert_of_mem _ ⟨ids', hmem, hin, hlt'⟩
      · rintro (rfl | ⟨ids', hmem, hin, hlt'⟩)
        · exact ⟨ids, Set.mem_insert _ _, hid, hlt⟩
        · exact ⟨ids', Set.mem_insert_of_mem _ hmem, hin, hlt'⟩
    rw [hentry]
    refine ⟨?_, written_frame (by simp) h.2.1, ?_, attrs_frame (by simp) h.2.2.2⟩
    · exact iff_of_true rfl (touched_insert.mpr (Or.inl ⟨hid, hlt⟩))
    · rw [hdeletions]
      exact raise_or s h.2.2.1

section Format

variable {ids : List (TextId S)} {key : String} {value : Option V} {s : S}

omit [LinearOrder S] in
theorem formatsOf_insert (hid : id ∈ ids) :
    formatsOf (insert (.format ids key value, s) ops) id key = insert s (formatsOf ops id key) := by
  ext t
  constructor
  · rintro ⟨ids', value', heq | hmem, hin⟩
    · cases heq
      exact Set.mem_insert _ _
    · exact Set.mem_insert_of_mem _ ⟨ids', value', hmem, hin⟩
  · rintro (rfl | ⟨ids', value', hmem, hin⟩)
    · exact ⟨ids, value, Set.mem_insert _ _, hid⟩
    · exact ⟨ids', value', Set.mem_insert_of_mem _ hmem, hin⟩

theorem formatted_frame {key' : String} (hkey : key' ≠ key) {a : Option (Option V × S)}
    (h : Formatted id ops key' a) : Formatted id (insert (.format ids key value, s) ops) key' a := by
  have hformats : formatsOf (insert (.format ids key value, s) ops) id key' =
      formatsOf ops id key' := by
    ext t
    refine exists_congr fun ids' => exists_congr fun value' => and_congr_left fun _ => ?_
    rw [Set.mem_insert_iff, or_iff_right]
    intro heq
    cases heq
    exact hkey rfl
  refine ⟨hformats ▸ h.1, ?_⟩
  intro value' t ha
  obtain ⟨ids', hmem, hin⟩ := h.2 value' t ha
  exact ⟨ids', Set.mem_insert_of_mem _ hmem, hin⟩

theorem formatted_write (hid : id ∈ ids) {a : Option (Option V × S)} (h : Formatted id ops key a)
    (hlater : ∀ w t, a = some (w, t) → t ≤ s) :
    Formatted id (insert (.format ids key value, s) ops) key (some (value, s)) := by
  refine ⟨?_, ?_⟩
  · rw [formatsOf_insert hid]
    rcases a with _ | ⟨w, t⟩
    · exact h.1.insert_none
    · have hmax := h.1.insert_some (s := s)
      rwa [max_eq_left (hlater w t rfl)] at hmax
  · intro value' t heq
    cases heq
    exact ⟨ids, Set.mem_insert _ _, hid⟩

theorem formatted_keep (hid : id ∈ ids) {w : Option V} {t : S} (h : Formatted id ops key (some (w, t)))
    (ht : s ≤ t) : Formatted id (insert (.format ids key value, s) ops) key (some (w, t)) := by
  refine ⟨?_, ?_⟩
  · rw [formatsOf_insert hid]
    have hmax := h.1.insert_some (s := s)
    rwa [max_eq_right ht] at hmax
  · intro value' t' heq
    obtain ⟨ids', hmem, hin⟩ := h.2 value' t' heq
    exact ⟨ids', Set.mem_insert_of_mem _ hmem, hin⟩

theorem formatChar_write {v : Option (TextEntry S V)}
    (hlater : ∀ w t, get (v.getD blank).attrs key = some (w, t) → t < s) :
    formatChar s key value v = some {v.getD blank with
      attrs := SortedMap.insert (v.getD blank).attrs key (value, s)} := by
  rw [blank] at hlater ⊢
  rcases hget : get (v.getD ⟨none, none, []⟩).attrs key with _ | ⟨w, t⟩
  · simp [formatChar, hget]
  · simp [formatChar, hget, hlater w t hget]

theorem formatChar_keep {v : Option (TextEntry S V)} {w : Option V} {t : S}
    (hget : get (v.getD blank).attrs key = some (w, t)) (ht : s ≤ t) :
    formatChar s key value v = none := by
  rw [blank] at hget
  simp [formatChar, hget, not_lt.mpr ht]

theorem entryOf_format (hid : id ∈ ids) {v : Option (TextEntry S V)} (h : EntryOf ops id v) :
    EntryOf (insert (.format ids key value, s) ops) id ((formatChar s key value v).or v) := by
  have hparts : ∀ attrs, MapOf (Formatted id) (insert (.format ids key value, s) ops) attrs →
      EntryOf (insert (.format ids key value, s) ops) id (some {v.getD blank with attrs := attrs}) := by
    intro attrs hattrs
    refine ⟨?_, written_frame (by simp) h.2.1, ?_, hattrs⟩
    · exact iff_of_true rfl (touched_insert.mpr (Or.inl hid))
    · rw [deletions_frame (by simp)]
      exact h.2.2.1
  have hkey := h.2.2.2.2 key
  have hwrite : (∀ w t, get (v.getD blank).attrs key = some (w, t) → t ≤ s) →
      MapOf (Formatted id) (insert (.format ids key value, s) ops)
        (SortedMap.insert (v.getD blank).attrs key (value, s)) := fun hlater =>
    h.2.2.2.insert (formatted_write hid hkey hlater) fun k hk hk' => formatted_frame hk hk'
  by_cases hlater : ∀ w t, get (v.getD blank).attrs key = some (w, t) → t < s
  · rw [formatChar_write hlater, Option.some_or]
    exact hparts _ (hwrite fun w t heq => (hlater w t heq).le)
  · push Not at hlater
    obtain ⟨w, t, hget, hle⟩ := hlater
    rw [formatChar_keep hget hle, Option.none_or]
    rcases v with _ | e
    · cases hget
    · refine hparts e.attrs ⟨h.2.2.2.1, fun k => ?_⟩
      by_cases hk : k = key
      · subst hk
        have hget' : get e.attrs k = some (w, t) := hget
        rw [hget] at hkey
        rw [hget']
        exact formatted_keep hid hkey hle
      · exact formatted_frame hk (h.2.2.2.2 k)

end Format

section Apply

omit [LinearOrder S] in
theorem settles_writeChar (after : Option (TextId S)) (characters : List Char) :
    Settles (writeChar after characters : TextId S → Option (TextEntry S V) → _) := by
  intro id v e h
  rw [writeChar] at h ⊢
  cases hchar : characters[id.offset]? with
  | none => rfl
  | some character =>
    rw [hchar] at h
    rcases v with _ | ⟨_ | content, d, a⟩
    · cases h
      rfl
    · cases h
      rfl
    · cases h

theorem settles_deleteChar (s : S) :
    Settles (deleteChar s : TextId S → Option (TextEntry S V) → _) := by
  intro id v e h
  simp only [deleteChar] at h ⊢
  by_cases hs : s ≤ id.stamp
  · simp [hs]
  · rw [if_neg hs] at h ⊢
    rcases v with _ | ⟨c, d, a⟩
    · cases h
      simp [mergeClock, raise]
    · dsimp only at h
      split_ifs at h
      cases h
      cases d with
      | none => simp [mergeClock, raise]
      | some t => simp [mergeClock_some]

theorem settles_formatChar (s : S) (key : String) (value : Option V) :
    Settles (fun _ : TextId S => formatChar s key value) := by
  intro id v e h
  by_cases hlater : ∀ w t, get (v.getD blank).attrs key = some (w, t) → t < s
  · have heq : formatChar s key value v = _ := formatChar_write hlater
    obtain rfl : {v.getD blank with attrs := SortedMap.insert (v.getD blank).attrs key (value, s)} = e :=
      Option.some.inj (heq.symm.trans h)
    apply formatChar_keep (w := value) (t := s) _ le_rfl
    simp [get_insert]
  · push Not at hlater
    obtain ⟨w, t, hget, hle⟩ := hlater
    have hnone : formatChar s key value v = none := formatChar_keep hget hle
    rw [show formatChar s key value v = some e from h] at hnone
    cases hnone

variable [Inhabited S]

/-- The operations that a text takes: no stamp or id is the default one, and an insert is short
enough and not anchored to itself. -/
def Valid : TextOp S V × S → Prop
  | (.insert after text, s) => s ≠ default ∧
    (∀ id, after = some id → id.stamp ≠ default ∧ id.stamp ≠ s) ∧ text.toList.length < 2^32
  | (.delete ids, s) => s ≠ default ∧ ∀ id ∈ ids, id.stamp ≠ default
  | (.format ids _ _, s) => s ≠ default ∧ ∀ id ∈ ids, id.stamp ≠ default

variable {U : Set (TextOp S V × S)} {t : Text S V}

theorem of_insert (hU : DistinctStamps U) (hops : ops ⊆ U) {after : Option (TextId S)}
    {text : String} {s : S} (he : (.insert after text, s) ∈ U)
    (hvalid : Valid ((.insert after text, s) : TextOp S V × S)) (ht : Of ops t) :
    Succeeds (t.apply (.insert after text) s) ∧
      Of (insert (.insert after text, s) ops) (t.apply (.insert after text) s).1 := by
  obtain ⟨hs, hafter, hlength⟩ := hvalid
  have hzero : after.any (·.stamp = default) = false := by
    cases after with
    | none => rfl
    | some id => simp [(hafter id rfl).1]
  have hself : after.any (·.stamp = s) = false := by
    cases after with
    | none => rfl
    | some id => simp [(hafter id rfl).2]
  have hfind : t.entries.find? (conflicts after text.toList s) = none := by
    rw [List.find?_eq_none]
    rintro ⟨id, e⟩ hmem hconflict
    have hentry := ht.2 id
    rw [get_of_mem ht.1 hmem] at hentry
    simp only [conflicts, Bool.and_eq_true, decide_eq_true_eq, Option.any_eq_true] at hconflict
    obtain ⟨rfl, content, hcontent, hdiffers⟩ := hconflict
    have hwritten := hentry.2.1
    rw [Option.getD_some, hcontent] at hwritten
    obtain ⟨hchar, hanchor⟩ := content_eq_of_written hU hops he hwritten
    obtain ⟨hoffset, hget⟩ := List.getElem?_eq_some_iff.mp hchar
    simp [hanchor, hoffset, hget] at hdiffers
    exact absurd hoffset (not_lt.mpr hdiffers)
  rw [apply, if_neg hs]
  dsimp only
  rw [hzero, hself, if_neg Bool.false_ne_true, if_neg Bool.false_ne_true, if_neg (not_le.mpr hlength),
    hfind]
  refine ⟨⟨_, rfl⟩, ht.updateAll (settles_writeChar _ _) ?_ ?_⟩
  · intro id hid v hv
    obtain ⟨offset, hoffset, rfl⟩ := List.mem_map.mp hid
    exact entryOf_insert hU hops he (List.mem_range.mp hoffset) hv
  · intro id hid v hv
    apply entryOf_frame _ hv
    rintro ⟨rfl, hoffset⟩
    exact hid (List.mem_map.mpr ⟨id.offset, List.mem_range.mpr hoffset, rfl⟩)

theorem of_delete {ids : List (TextId S)} {s : S}
    (hvalid : Valid ((.delete ids, s) : TextOp S V × S)) (ht : Of ops t) :
    Succeeds (t.apply (.delete ids) s) ∧
      Of (insert (.delete ids, s) ops) (t.apply (.delete ids) s).1 := by
  have hzero : ids.any (·.stamp = default) = false := by
    simpa [List.any_eq_false] using hvalid.2
  rw [apply, if_neg hvalid.1]
  dsimp only
  rw [hzero, if_neg Bool.false_ne_true]
  refine ⟨⟨_, rfl⟩, ht.updateAll (settles_deleteChar s) ?_ ?_⟩
  · exact fun id hid v hv => entryOf_delete hid hv
  · intro id hid v hv
    apply entryOf_frame _ hv
    exact fun htouches => hid htouches.1

theorem of_format {ids : List (TextId S)} {key : String} {value : Option V} {s : S}
    (hvalid : Valid ((.format ids key value, s) : TextOp S V × S)) (ht : Of ops t) :
    Succeeds (t.apply (.format ids key value) s) ∧
      Of (insert (.format ids key value, s) ops) (t.apply (.format ids key value) s).1 := by
  have hzero : ids.any (·.stamp = default) = false := by
    simpa [List.any_eq_false] using hvalid.2
  rw [apply, if_neg hvalid.1]
  dsimp only
  rw [hzero, if_neg Bool.false_ne_true]
  refine ⟨⟨_, rfl⟩, ht.updateAll (settles_formatChar s key value) ?_ ?_⟩
  · exact fun id hid v hv => entryOf_format hid hv
  · intro id hid v hv
    apply entryOf_frame _ hv
    exact fun htouches => hid htouches

end Apply

section Merge

variable {U : Set (TextOp S V × S)} {t t' : Text S V}

omit [LinearOrder S] in
theorem formatsOf_union (key : String) :
    formatsOf (ops ∪ ops') id key = formatsOf ops id key ∪ formatsOf ops' id key := by
  ext s
  simp [formatsOf, or_and_right, exists_or]

theorem deletionsOf_union : deletionsOf (ops ∪ ops') id = deletionsOf ops id ∪ deletionsOf ops' id := by
  ext s
  simp [deletionsOf, or_and_right, exists_or]

omit [LinearOrder S] in
/-- Contents that two replicas know of one character are the same. -/
theorem content_agree (hU : DistinctStamps U) (hops : ops ⊆ U) (hops' : ops' ⊆ U)
    {c c' : Option (TextContent S)} (h : Written ops id c) (h' : Written ops' id c') :
    ∀ x y, c = some x → c' = some y → x = y := by
  intro x y hx hy
  obtain ⟨after, text, hmem, hchar, hafter⟩ := (h x).mp hx
  obtain ⟨after', text', hmem', hchar', hafter'⟩ := (h' y).mp hy
  obtain ⟨rfl, rfl⟩ := insert_eq hU (hops hmem) (hops' hmem')
  rw [hchar] at hchar'
  cases x
  cases y
  simp_all

omit [LinearOrder S] in
theorem written_merge (hU : DistinctStamps U) (hops : ops ⊆ U) (hops' : ops' ⊆ U)
    {c c' : Option (TextContent S)} (h : Written ops id c) (h' : Written ops' id c') :
    Written (ops ∪ ops') id (c.or c') := by
  intro content
  rw [or_eq_some_of_agree (content_agree hU hops hops' h h'), h content, h' content]
  simp [or_and_right, exists_or]

theorem formatted_merge {key : String} {a b : Option (Option V × S)} (h : Formatted id ops key a)
    (h' : Formatted id ops' key b) : Formatted id (ops ∪ ops') key (joinEntry mergeAttr a b) := by
  have hstamp : (joinEntry mergeAttr a b).map Prod.snd =
      (mergeClock (a.map Prod.snd) (b.map Prod.snd)).1 := by
    rcases a with _ | ⟨v, s⟩ <;> rcases b with _ | ⟨v', s'⟩
    · rfl
    · rfl
    · rfl
    · simp only [joinEntry, mergeAttr, Option.map_some, mergeClock_some]
      split_ifs with hle
      · simp [max_eq_left hle]
      · simp [max_eq_right (not_le.mp hle).le]
  have hone : joinEntry mergeAttr a b = a ∨ joinEntry mergeAttr a b = b := by
    rcases a with _ | a
    · exact Or.inr rfl
    · rcases b with _ | b
      · exact Or.inl rfl
      · simp only [joinEntry, mergeAttr]
        split_ifs
        · exact Or.inl rfl
        · exact Or.inr rfl
  refine ⟨?_, ?_⟩
  · rw [hstamp, formatsOf_union]
    exact isLatest_mergeClock h.1 h'.1
  · intro value s heq
    rcases hone with hone | hone <;> rw [hone] at heq
    · obtain ⟨ids, hmem, hid⟩ := h.2 value s heq
      exact ⟨ids, Or.inl hmem, hid⟩
    · obtain ⟨ids, hmem, hid⟩ := h'.2 value s heq
      exact ⟨ids, Or.inr hmem, hid⟩

theorem mergeEntry_blank_left {r : TextEntry S V} (hattrs : Sorted (· < ·) r.attrs) :
    (mergeEntry blank r).1 = r := by
  obtain ⟨content, deletedAt, attrs⟩ := r
  change TextEntry.mk (none.or content) (mergeClock none deletedAt).1 (mergeTotal mergeAttr [] attrs).1 = _
  rw [mergeTotal_nil _ hattrs]
  cases deletedAt <;> rfl

theorem mergeEntry_blank_right (l : TextEntry S V) : (mergeEntry l blank).1 = l := by
  obtain ⟨_ | content, deletedAt, attrs⟩ := l <;> rfl

theorem entryOf_merge (hU : DistinctStamps U) (hops : ops ⊆ U) (hops' : ops' ⊆ U)
    {l r : Option (TextEntry S V)} (hl : EntryOf ops id l) (hr : EntryOf ops' id r) :
    EntryOf (ops ∪ ops') id (joinEntry mergeEntry l r) := by
  have hsome : (joinEntry mergeEntry l r).isSome ↔ l.isSome ∨ r.isSome := by
    cases l <;> cases r <;> simp [joinEntry]
  have hattrs := hl.2.2.2.mergeTotal hr.2.2.2 fun key a b => formatted_merge
  -- a missing entry merges like a blank one
  have hentry : (joinEntry mergeEntry l r).getD blank =
      (mergeEntry (l.getD blank) (r.getD blank)).1 := by
    cases l with
    | none => exact (mergeEntry_blank_left hr.2.2.2.1).symm
    | some l =>
      cases r with
      | none => exact (mergeEntry_blank_right l).symm
      | some r => rfl
  refine ⟨?_, ?_, ?_, ?_⟩
  · rw [hsome, hl.1, hr.1]
    simp [or_and_right, exists_or]
  · rw [hentry]
    exact written_merge hU hops hops' hl.2.1 hr.2.1
  · rw [hentry, deletionsOf_union]
    exact isLatest_mergeClock hl.2.2.1 hr.2.2.1
  · rw [hentry]
    exact hattrs

theorem of_merge (hU : DistinctStamps U) (hops : ops ⊆ U) (hops' : ops' ⊆ U) (ht : Of ops t)
    (ht' : Of ops' t') : Succeeds (t.merge t') ∧ Of (ops ∪ ops') (t.merge t').1 := by
  have hfind : t'.entries.find? (mergeConflicts t) = none := by
    rw [List.find?_eq_none]
    rintro ⟨id, e⟩ hmem hconflict
    have hl := ht.2 id
    have hr := ht'.2 id
    rw [get_of_mem ht'.1 hmem] at hr
    rw [mergeConflicts] at hconflict
    cases hget : get t.entries id with
    | none => simp [hget] at hconflict
    | some l =>
      rw [hget] at hl
      have hagree := content_agree hU hops hops' hl.2.1 hr.2.1
      rw [Option.getD_some, Option.getD_some] at hagree
      cases hc : l.content <;> cases hc' : e.content <;> simp_all
  rw [merge, hfind]
  exact ⟨⟨_, rfl⟩, ht.mergeTotal ht' fun id l r => entryOf_merge hU hops hops'⟩

end Merge

theorem determined [Inhabited S] {U : Set (TextOp S V × S)} (hU : DistinctStamps U)
    (hvalid : ∀ e ∈ U, Valid e) :
    Determined (⟨[]⟩ : Text S V) (applyStamped apply) merge U Of := by
  refine ⟨?_, ?_, ?_, ?_⟩
  · refine MapOf.empty fun id => ⟨by simp, fun content => by simp [blank], ?_, ?_⟩
    · simp [blank, IsLatest, deletionsOf]
    · exact MapOf.empty fun key => ⟨by simp [IsLatest, formatsOf], fun _ _ h => by cases h⟩
  · rintro ops t ⟨op, s⟩ hops he ht
    cases op with
    | insert after text => exact of_insert hU hops he (hvalid _ he) ht
    | delete ids => exact of_delete (hvalid _ he) ht
    | format ids key value => exact of_format (hvalid _ he) ht
  · intro ops ops' t t' hops hops' ht ht'
    exact of_merge hU hops hops' ht ht'
  · rintro ops ⟨entries⟩ ⟨entries'⟩ hops ht ht'
    exact congrArg Text.mk (ht.unique (entryOf_unique hU hops) ht')

/-- The replica of a text that a history leads to. -/
def replica [Inhabited S] (h : History (TextOp S V × S)) : Option (Text S V) :=
  h.run ⟨[]⟩ (applyStamped apply) merge

end Text

variable {P : Type} [LinearOrder P] [Inhabited P]

/-- Every history of valid operations goes through, and the text depends only on which operations
are in it. -/
theorem text_determined_by_operations
    (h : History (TextOp (EventStamp P) (Value P) × EventStamp P))
    (hdistinct : DistinctStamps {e | e ∈ h.events}) (hvalid : ∀ e ∈ h.events, Text.Valid e) :
    ∃ t, Text.replica h = some t ∧
      ∀ h', (∀ e, e ∈ h.events ↔ e ∈ h'.events) → Text.replica h' = some t := by
  have hdetermined := Text.determined hdistinct hvalid
  obtain ⟨t, ht, -⟩ := hdetermined.run_eq_some h fun _ he => he
  refine ⟨t, ht, ?_⟩
  intro h' hsame
  rw [← ht]
  exact (hdetermined.run_eq_run h h' (fun _ he => he) hsame).symm

/-- A character that is deleted before the insert arrives, by a merge. -/
def earlyDelete : History (TextOp (EventStamp Nat) (Value Nat) × EventStamp Nat) :=
  .merge (.apply .empty (.delete [⟨⟨⟨1, 1⟩, ⟨3, 0⟩⟩, 0⟩], ⟨⟨2, 1⟩, ⟨5, 0⟩⟩))
    (.apply .empty (.insert none "ab", ⟨⟨1, 1⟩, ⟨3, 0⟩⟩))

theorem text_determined_by_operations_early_delete :
    ∃ t, Text.replica earlyDelete = some t ∧
      Text.replica (.apply (.apply .empty (.insert none "ab", ⟨⟨1, 1⟩, ⟨3, 0⟩⟩))
        (.delete [⟨⟨⟨1, 1⟩, ⟨3, 0⟩⟩, 0⟩], ⟨⟨2, 1⟩, ⟨5, 0⟩⟩)) = some t := by
  have hdistinct : DistinctStamps {e | e ∈ earlyDelete.events} := by
    simp [DistinctStamps, earlyDelete, History.events]
  have hvalid : ∀ e ∈ earlyDelete.events, Text.Valid e := by
    have hdefault : (default : EventStamp Nat) = ⟨⟨0, 0⟩, ⟨0, 0⟩⟩ := rfl
    simp [earlyDelete, History.events, Text.Valid, hdefault]
  obtain ⟨t, ht, hsame⟩ := text_determined_by_operations earlyDelete hdistinct hvalid
  exact ⟨t, ht, hsame _ fun e => by simp [earlyDelete, History.events]⟩

end ZenDB.Crdt
