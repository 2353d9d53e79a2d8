import ZenDB.Crdt.Sequences

namespace ZenDB.Crdt

open SortedMap Forest

/-! What an edit with a new stamp does to what is read: an insert stands right behind its anchor,
and a delete takes away what it names. -/

section Text

variable {S V : Type} [LinearOrder S] [Inhabited S]

namespace Text

variable {t : Text S V} {s : S} {after : Option (TextId S)} {text : String} {id : TextId S}

/-- The characters that the walk meets, shown or not. -/
def reachableIds (t : Text S V) : Option (List (TextId S)) := Forest.reachableIds placeOf t.entries

/-- What can be read of some characters. -/
def textOf (t : Text S V) (ids : List (TextId S)) : String :=
  String.ofList ((ids.filter t.live).filterMap t.character)

/-- The stamp is later than those of the characters, and none is placed behind a character of it. -/
def Fresh (t : Text S V) (s : S) : Prop :=
  ∀ e ∈ t.entries, e.1.stamp < s ∧ ∀ a ∈ (placeOf e.2).join, a.stamp ≠ s

/-- The characters of an insert. -/
def insertedIds (s : S) (text : String) : List (TextId S) :=
  (List.range text.toList.length).map fun offset => ⟨s, offset⟩

omit [LinearOrder S] [Inhabited S] in
theorem mem_insertedIds : id ∈ insertedIds s text ↔ id.stamp = s ∧ id.offset < text.toList.length := by
  obtain ⟨stamp, offset⟩ := id
  rw [insertedIds, List.mem_map]
  constructor
  · rintro ⟨k, hk, heq⟩
    cases heq
    exact ⟨rfl, List.mem_range.mp hk⟩
  · rintro ⟨rfl, hlt⟩
    exact ⟨offset, List.mem_range.mpr hlt, rfl⟩

omit [Inhabited S] in
theorem Fresh.stamp_lt (h : t.Fresh s) {entry : TextEntry S V} (hid : get t.entries id = some entry) :
    id.stamp < s :=
  (h _ (mem_of_get hid)).1

omit [Inhabited S] in
theorem Fresh.get_inserted (h : t.Fresh s) (hid : id ∈ insertedIds s text) :
    get t.entries id = none := by
  cases hget : get t.entries id with
  | none => rfl
  | some entry =>
    have hlt := h.stamp_lt hget
    rw [(mem_insertedIds.mp hid).1] at hlt
    exact absurd hlt (lt_irrefl s)

/-- An insert that goes through writes all of its characters. -/
theorem insert_of_ok {changed : Bool} (hok : (t.apply (.insert after text) s).2 = .ok changed) :
    (t.apply (.insert after text) s).1 =
      ⟨(updateAll (writeChar after text.toList) t.entries (insertedIds s text)).1⟩ := by
  unfold apply at hok ⊢
  split_ifs at hok ⊢ with hzero
  dsimp only at hok ⊢
  split_ifs at hok ⊢
  cases hfind : t.entries.find? (conflicts after text.toList s) with
  | none => rfl
  | some e =>
    rw [hfind] at hok
    cases hok

/-- With a new stamp an insert is refused only for a zero stamp or its length. -/
theorem Fresh.insert_accepted (h : t.Fresh s) (hafter : ∀ a, after = some a → Reachable t.place a)
    (hs : s ≠ default) (hzero : ∀ a, after = some a → a.stamp ≠ default)
    (hlength : text.toList.length < 2^32) :
    ∃ changed, (t.apply (.insert after text) s).2 = .ok changed := by
  have hstamp : ∀ a, after = some a → a.stamp < s := by
    intro a ha
    obtain ⟨entry, hget⟩ := exists_entry (hafter a ha).link_isSome
    exact h.stamp_lt hget
  have hfind : t.entries.find? (conflicts after text.toList s) = none := by
    rw [List.find?_eq_none]
    intro e he
    rw [conflicts, Bool.and_eq_true, decide_eq_true_iff]
    exact fun hconflict => (h e he).1.ne hconflict.1
  unfold apply
  rw [if_neg hs]
  dsimp only
  rw [if_neg, if_neg, if_neg (by omega), hfind]
  · exact ⟨_, rfl⟩
  · cases after with
    | none => simp
    | some a => simpa using (hstamp a rfl).ne
  · cases after with
    | none => simp
    | some a => simpa using hzero a rfl

section Insert

variable (t after text s) in
/-- The text with the characters of an insert written. -/
def written : Text S V := ⟨(updateAll (writeChar after text.toList) t.entries (insertedIds s text)).1⟩

omit [Inhabited S] in
theorem get_written_old (hid : id ∉ insertedIds s text) :
    get (t.written s after text).entries id = get t.entries id := by
  rw [written, get_updateAll (settles_writeChar after text.toList), if_neg hid]

omit [Inhabited S] in
theorem Fresh.get_written_new (h : t.Fresh s) {offset : Nat} {character : Char}
    (hchar : text.toList[offset]? = some character) :
    get (t.written s after text).entries ⟨s, offset⟩ =
      some ⟨some ⟨anchor after s offset, character⟩, none, []⟩ := by
  have hid : (⟨s, offset⟩ : TextId S) ∈ insertedIds s text :=
    mem_insertedIds.mpr ⟨rfl, (List.getElem?_eq_some_iff.mp hchar).1⟩
  rw [written, get_updateAll (settles_writeChar after text.toList), if_pos hid, h.get_inserted hid,
    writeChar, hchar]
  rfl

omit [LinearOrder S] [Inhabited S] in
/-- The anchor of a character is the end of what stands before it. -/
theorem anchor_eq_getLast {p : List (TextId S)} (hp : p.getLast? = after) (offset : Nat) :
    anchor after s offset =
      (p ++ (List.range offset).map fun k => (⟨s, k⟩ : TextId S)).getLast? := by
  cases offset with
  | zero => simpa [anchor] using hp.symm
  | succ k => simp [anchor, List.range_succ]

omit [Inhabited S] in
theorem place_written_old (hid : id ∉ insertedIds s text) :
    (t.written s after text).place id = t.place id := by
  rw [place, linkIn, get_written_old hid]
  rfl

omit [Inhabited S] in
/-- The characters of an insert with a new stamp are a chain behind the anchor. -/
theorem Fresh.grafted (h : t.Fresh s) {p : List (TextId S)} (hpath : IsPath t.place p)
    (hp : p.getLast? = after) :
    Grafted t.place (t.written s after text).place p (insertedIds s text) := by
  have hlater : ∀ n ∈ insertedIds s text, ∀ id a, t.place id = some a → id < n ∧ a ≠ some n := by
    intro n hn id a hplace
    obtain ⟨hstamp, -⟩ := mem_insertedIds.mp hn
    obtain ⟨entry, hget⟩ := exists_entry (Option.isSome_of_eq_some hplace)
    refine ⟨?_, ?_⟩
    · have hlt : id.stamp < n.stamp := hstamp ▸ h.stamp_lt hget
      exact Prod.Lex.toLex_lt_toLex.mpr (.inl hlt)
    · rintro rfl
      rw [place, linkIn, hget, Option.bind_some] at hplace
      exact (h _ (mem_of_get hget)).2 n (by rw [hplace]; rfl) hstamp
  have hkept : ∀ id, id ∉ insertedIds s text → (t.written s after text).place id = t.place id :=
    fun id => place_written_old
  have hmono : ∀ id a, t.place id = some a → (t.written s after text).place id = some a := by
    intro id a hplace
    rw [hkept id fun hmem => lt_irrefl id (hlater id hmem id a hplace).1, hplace]
  refine ⟨hpath, ?_, hkept, hlater⟩
  -- the chain grows by one character after the other
  have hgrow : ∀ k ≤ text.toList.length, IsPath (t.written s after text).place
      (p ++ (List.range k).map fun offset => ⟨s, offset⟩) := by
    intro k
    induction k with
    | zero =>
      intro _
      simpa using isPath_mono hmono hpath
    | succ k ih =>
      intro hk
      have hchar : text.toList[k]? = some (text.toList.get ⟨k, hk⟩) := List.getElem?_eq_getElem hk
      have hnew : (t.written s after text).place ⟨s, k⟩ = some (anchor after s k) := by
        rw [place, linkIn, h.get_written_new hchar]
        rfl
      rw [List.range_succ, List.map_append, ← List.append_assoc]
      exact isPath_concat.mpr ⟨ih (by omega), by rw [hnew, anchor_eq_getLast hp]⟩
  exact hgrow _ le_rfl

omit [Inhabited S] in
theorem live_written_old (hid : id ∉ insertedIds s text) :
    (t.written s after text).live id = t.live id := by
  rw [live, liveIn, get_written_old hid]
  rfl

omit [Inhabited S] in
theorem character_written_old (hid : id ∉ insertedIds s text) :
    (t.written s after text).character id = t.character id := by
  rw [character, contentAt, get_written_old hid]
  rfl

theorem filterMap_getElem (l : List Char) : (List.range l.length).filterMap (l[·]?) = l := by
  induction l using List.reverseRecOn with
  | nil => rfl
  | append_singleton l c ih =>
    rw [List.length_append, List.length_singleton, List.range_succ, List.filterMap_append]
    have hold : (List.range l.length).filterMap (fun k => (l ++ [c])[k]?) = l := by
      refine Eq.trans (List.filterMap_congr ?_) ih
      intro k hk
      rw [List.getElem?_append_left (List.mem_range.mp hk)]
    rw [hold]
    simp

omit [Inhabited S] in
theorem Fresh.characters_new (h : t.Fresh s) :
    (insertedIds s text).filterMap (t.written s after text).character = text.toList := by
  rw [insertedIds, List.filterMap_map]
  refine Eq.trans (List.filterMap_congr ?_) (filterMap_getElem text.toList)
  intro offset hoffset
  have hchar := List.getElem?_eq_getElem (List.mem_range.mp hoffset)
  rw [hchar, Function.comp_apply, character, contentAt, h.get_written_new hchar]
  rfl

omit [Inhabited S] in
/-- What is read after an insert: its characters stand right behind the anchor. -/
theorem Fresh.string_written (ht : Sorted (· < ·) t.entries) (h : t.Fresh s)
    (hafter : ∀ a, after = some a → Reachable t.place a) :
    ∃ front back, t.reachableIds = some (front ++ back) ∧ front.getLast? = after ∧
      t.string = some (t.textOf front ++ t.textOf back) ∧
      (t.written s after text).string = some (t.textOf front ++ text ++ t.textOf back) := by
  have hlive : ∀ id ∈ insertedIds s text, (t.written s after text).live id = true := by
    rintro ⟨stamp, offset⟩ hid
    obtain ⟨rfl, hoffset⟩ := mem_insertedIds.mp hid
    have hchar := List.getElem?_eq_getElem hoffset
    unfold live liveIn
    rw [h.get_written_new hchar]
    rfl
  obtain ⟨front, back, hall, hlast, hfresh, hshown, hshown'⟩ :=
    visibleIds_grafted ht (sorted_updateAll _ ht _) hafter (fun p hpath hp => h.grafted hpath hp)
      (fun id => live_written_old) hlive
  have hkept : ∀ l : List (TextId S), (∀ id ∈ l, id ∈ front ++ back) →
      (l.filter t.live).filterMap (t.written s after text).character =
        (l.filter t.live).filterMap t.character := by
    intro l hl
    refine List.filterMap_congr ?_
    intro id hid
    exact character_written_old (hfresh id (hl id (List.mem_filter.mp hid).1))
  refine ⟨front, back, hall, hlast, ?_, ?_⟩
  · rw [string, visibleIds, hshown, Option.map_some, List.filterMap_append, textOf, textOf,
      String.ofList_append]
  · rw [string, visibleIds, written, hshown', ← written, Option.map_some, List.filterMap_append,
      List.filterMap_append, h.characters_new, hkept front fun _ => List.mem_append_left _,
      hkept back fun _ => List.mem_append_right _, textOf, textOf, String.ofList_append,
      String.ofList_append, String.ofList_toList]

end Insert

section Delete

variable {ids : List (TextId S)}

/-- A delete that goes through visits all of its targets. -/
theorem delete_of_ok {changed : Bool} (hok : (t.apply (.delete ids) s).2 = .ok changed) :
    (t.apply (.delete ids) s).1 = ⟨(updateAll (deleteChar s) t.entries ids).1⟩ := by
  unfold apply at hok ⊢
  split_ifs at hok ⊢
  dsimp only at hok ⊢
  split_ifs at hok ⊢
  rfl

theorem delete_accepted (hs : s ≠ default) (hids : ∀ id ∈ ids, id.stamp ≠ default) :
    ∃ changed, (t.apply (.delete ids) s).2 = .ok changed := by
  unfold apply
  rw [if_neg hs]
  dsimp only
  rw [if_neg (by simpa using hids)]
  exact ⟨_, rfl⟩

omit [Inhabited S] in
/-- A character is hidden by a delete that is later than it. -/
theorem hidden_deleteChar (hid : id.stamp < s) (entry : TextEntry S V) :
    ((deleteChar s id (some entry)).or (some entry)).any (shows id) = false := by
  obtain ⟨content, clock, attrs⟩ := entry
  have hle : ¬ s ≤ id.stamp := not_le.mpr hid
  unfold deleteChar
  rw [if_neg hle]
  cases clock with
  | none => simp [mergeClock_none_some, shows, hid.le]
  | some d =>
    by_cases hd : d < s
    · simp [mergeClock_some, hd, shows, max_eq_right hd.le, hid.le]
    · have hlater : id.stamp ≤ d := hid.le.trans (not_lt.mp hd)
      simp [mergeClock_some, hd, shows, hlater]

omit [Inhabited S] in
/-- What is read after a delete: what was read without the targets. -/
theorem Fresh.string_deleted (ht : Sorted (· < ·) t.entries) (h : t.Fresh s) :
    ∃ shown, t.visibleIds = some shown ∧
      visibleIds ⟨(updateAll (deleteChar s) t.entries ids).1⟩ = some (shown.filter (· ∉ ids)) ∧
      string ⟨(updateAll (deleteChar s) t.entries ids).1⟩ =
        some (String.ofList ((shown.filter (· ∉ ids)).filterMap t.character)) := by
  have hcontent := contentAt_updateAll (settles_deleteChar s) (content_deleteChar s) t ids
  have hplace : ∀ id, linkIn placeOf (updateAll (deleteChar s) t.entries ids).1 id = t.place id := by
    intro id
    rw [place_eq t, ← hcontent, ← place_eq]
  have hlive : ∀ id, (t.place id).isSome →
      (liveIn shows (updateAll (deleteChar s) t.entries ids).1 id = true ↔
        t.live id = true ∧ decide (id ∉ ids) = true) := by
    intro id hid
    obtain ⟨entry, hget⟩ := exists_entry hid
    unfold live liveIn
    rw [get_updateAll (settles_deleteChar s)]
    by_cases hmem : id ∈ ids
    · rw [if_pos hmem, hget, hidden_deleteChar (h.stamp_lt hget)]
      simp [hmem]
    · rw [if_neg hmem]
      simp [hmem]
  obtain ⟨shown, hshown, hshown'⟩ :=
    visibleIds_hidden ht (sorted_updateAll _ ht ids) hplace (fun id => decide (id ∉ ids)) hlive
  refine ⟨shown, hshown, hshown', ?_⟩
  rw [string, visibleIds, hshown', Option.map_some]
  have hchars : (shown.filter (· ∉ ids)).filterMap
      (character ⟨(updateAll (deleteChar s) t.entries ids).1⟩) =
        (shown.filter (· ∉ ids)).filterMap t.character := by
    refine List.filterMap_congr ?_
    intro id _
    rw [character, hcontent, character]
  rw [hchars]

end Delete

end Text

end Text

section List

variable {P : Type} [LinearOrder P]

namespace Elements

variable {entries : List (EventStamp P × RowEntry P)} {s id : EventStamp P}

/-- The elements that the walk meets, shown or not. -/
def reachableIds (entries : List (EventStamp P × RowEntry P)) : Option (List (EventStamp P)) :=
  Forest.reachableIds placeOf entries

/-- The stamp is later than those of the elements and their cells, and none is placed behind it. -/
def Fresh (entries : List (EventStamp P × RowEntry P)) (s : EventStamp P) : Prop :=
  ∀ e ∈ entries, e.1 < s ∧ e.2.cell.stamp < s ∧ placeOf e.2 ≠ some (some s)

theorem Fresh.get_eq_none (h : Fresh entries s) : get entries s = none := by
  cases hget : get entries s with
  | none => rfl
  | some entry => exact absurd (h _ (mem_of_get hget)).1 (lt_irrefl s)

/-- An element with a new stamp is put behind its anchor. -/
theorem Fresh.grafted (h : Fresh entries s) {p : List (EventStamp P)} (hpath : IsPath (place entries) p)
    {after : Option (EventStamp P)} (hp : p.getLast? = after) (cell : RowCell P) :
    Grafted (place entries) (place (SortedMap.insert entries s ⟨.known after, cell⟩)) p [s] := by
  have hlater : ∀ id a, place entries id = some a → id < s ∧ a ≠ some s := by
    intro id a hplace
    obtain ⟨entry, hget⟩ := exists_entry (Option.isSome_of_eq_some hplace)
    obtain ⟨hlt, -, hbehind⟩ := h _ (mem_of_get hget)
    refine ⟨hlt, ?_⟩
    rintro rfl
    unfold place linkIn at hplace
    rw [hget] at hplace
    exact hbehind hplace
  have hmono : ∀ id a, place entries id = some a →
      place (SortedMap.insert entries s ⟨.known after, cell⟩) id = some a := by
    intro id a hplace
    rw [place_insert, if_neg (hlater id a hplace).1.ne, hplace]
  refine ⟨hpath, ?_, ?_, ?_⟩
  · refine isPath_concat.mpr ⟨isPath_mono hmono hpath, ?_⟩
    rw [place_insert, if_pos rfl, hp]
    exact after_known after
  · intro id hid
    rw [place_insert, if_neg (by simpa using hid)]
  · intro n hn id a hplace
    obtain rfl : n = s := by simpa using hn
    exact hlater id a hplace

theorem live_insert (entry : RowEntry P) :
    live (SortedMap.insert entries s entry) id =
      if id = s then !entry.cell.isTombstone else live entries id := by
  unfold live liveIn
  rw [get_insert]
  split_ifs <;> rfl

variable [Inhabited P]

theorem Fresh.insert_accepted (h : Fresh entries s) (after : Option (EventStamp P)) (value : Value P)
    (hs : s ≠ default) :
    ∃ changed, (ListOp.apply entries (.insert after value) s).2 = .ok changed := by
  unfold ListOp.apply
  dsimp only
  rw [if_neg hs, h.get_eq_none]
  exact ⟨true, rfl⟩

/-- What is shown after an insert: the element stands right behind the anchor. -/
theorem Fresh.visibleIds_inserted (hm : Sorted (· < ·) entries) (h : Fresh entries s)
    {after : Option (EventStamp P)} (hafter : ∀ a, after = some a → Reachable (place entries) a)
    (value : Value P) {changed : Bool}
    (hok : (ListOp.apply entries (.insert after value) s).2 = .ok changed) :
    ∃ front back, reachableIds entries = some (front ++ back) ∧ front.getLast? = after ∧
      visibleIds entries = some (front.filter (live entries) ++ back.filter (live entries)) ∧
      visibleIds (ListOp.apply entries (.insert after value) s).1 =
        some (front.filter (live entries) ++ s :: back.filter (live entries)) := by
  have happly : (ListOp.apply entries (.insert after value) s).1 =
      SortedMap.insert entries s ⟨.known after, ⟨some value, s⟩⟩ := by
    unfold ListOp.apply at hok ⊢
    dsimp only at hok ⊢
    split_ifs at hok ⊢
    rw [h.get_eq_none]
  rw [happly]
  obtain ⟨front, back, hall, hlast, -, hshown, hshown'⟩ :=
    visibleIds_grafted hm (sorted_insert hm _ _) hafter
      (fun p hpath hp => h.grafted hpath hp ⟨some value, s⟩)
      (fun id hid => (live_insert _).trans (if_neg (by simpa using hid)))
      (fun id hid => (live_insert _).trans (if_pos (by simpa using hid)))
  refine ⟨front, back, hall, hlast, hshown, ?_⟩
  rw [visibleIds, hshown', List.append_assoc]
  rfl

omit [Inhabited P] in
theorem join_tombstone {c : RowCell P} (hc : c.stamp < s) : (c.join ⟨none, s⟩).1 = ⟨none, s⟩ := by
  obtain ⟨_ | v, stamp⟩ := c
  · unfold Cell.join Cell.merge
    rw [if_pos hc]
  · unfold Cell.join Cell.merge
    rw [if_pos hc]

omit [Inhabited P] in
theorem join_tombstone_ok (c : RowCell P) (stamp : EventStamp P) :
    ∃ changed, (c.join ⟨none, stamp⟩).2 = .ok changed := by
  obtain ⟨_ | v, stamp'⟩ := c
  · unfold Cell.join Cell.merge
    split_ifs
    · exact ⟨true, rfl⟩
    · exact ⟨false, rfl⟩
  · unfold Cell.join Cell.merge
    split_ifs
    · exact ⟨true, rfl⟩
    · exact ⟨false, rfl⟩

theorem delete_accepted (hid : id ≠ default) :
    ∃ changed, (ListOp.apply entries (.delete id) s).2 = .ok changed := by
  unfold ListOp.apply
  dsimp only
  rw [if_neg hid]
  cases get entries id with
  | none => exact ⟨true, rfl⟩
  | some entry =>
    obtain ⟨changed, hok⟩ := join_tombstone_ok entry.cell s
    refine ⟨changed, ?_⟩
    dsimp only
    rw [hok]
    rfl

/-- What is shown after a delete: what was shown without the target. -/
theorem Fresh.visibleIds_deleted (hm : Sorted (· < ·) entries) (h : Fresh entries s) {changed : Bool}
    (hok : (ListOp.apply entries (.delete id) s).2 = .ok changed) :
    ∃ shown, visibleIds entries = some shown ∧
      visibleIds (ListOp.apply entries (.delete id) s).1 = some (shown.filter (· ≠ id)) := by
  have hplace : ∀ key, place (ListOp.apply entries (.delete id) s).1 key = place entries key := by
    intro key
    rcases place_apply entries (.delete id) s key with hsame | ⟨-, after, value, hop, -⟩
    · exact hsame
    · cases hop
  have hlive : ∀ key, (place entries key).isSome →
      (live (ListOp.apply entries (.delete id) s).1 key = true ↔
        live entries key = true ∧ decide (key ≠ id) = true) := by
    intro key hkey
    unfold ListOp.apply at hok ⊢
    dsimp only at hok ⊢
    split_ifs at hok ⊢
    by_cases hid : key = id
    · subst hid
      obtain ⟨entry, hget⟩ := exists_entry hkey
      rw [hget]
      dsimp only
      rw [live_insert, if_pos rfl, join_tombstone (h _ (mem_of_get hget)).2.1]
      simp [Cell.isTombstone]
    · split
      · rw [live_insert, if_neg hid]
        simp [hid]
      · rw [live_insert, if_neg hid]
        simp [hid]
  exact visibleIds_hidden hm (sorted_apply hm _ s) hplace (fun key => decide (key ≠ id)) hlive

end Elements

end List

variable {P : Type} [LinearOrder P] [Inhabited P]

/-- With a stamp that is later than all others and mentioned nowhere, an insert is read right behind
its anchor, whether the anchor is shown or not, and a delete takes away exactly its targets. Such an
operation fails only for a zero stamp or the length of the text. -/
theorem sequence_edits :
    (∀ (t : Text (EventStamp P) (Value P)) (after : Option (TextId (EventStamp P))) (text : String)
      (s : EventStamp P), Sorted (· < ·) t.entries → t.Fresh s →
      (∀ a, after = some a → Reachable t.place a) →
      (s ≠ default → (∀ a, after = some a → a.stamp ≠ default) → text.toList.length < 2^32 →
        ∃ changed, (t.apply (.insert after text) s).2 = .ok changed) ∧
      ∀ changed, (t.apply (.insert after text) s).2 = .ok changed →
        ∃ front back, t.reachableIds = some (front ++ back) ∧ front.getLast? = after ∧
          t.string = some (t.textOf front ++ t.textOf back) ∧
          (t.apply (.insert after text) s).1.string =
            some (t.textOf front ++ text ++ t.textOf back)) ∧
    (∀ (t : Text (EventStamp P) (Value P)) (ids : List (TextId (EventStamp P))) (s : EventStamp P),
      Sorted (· < ·) t.entries → t.Fresh s →
      (s ≠ default → (∀ id ∈ ids, id.stamp ≠ default) →
        ∃ changed, (t.apply (.delete ids) s).2 = .ok changed) ∧
      ∀ changed, (t.apply (.delete ids) s).2 = .ok changed →
        ∃ shown, t.visibleIds = some shown ∧
          (t.apply (.delete ids) s).1.visibleIds = some (shown.filter (· ∉ ids)) ∧
          (t.apply (.delete ids) s).1.string =
            some (String.ofList ((shown.filter (· ∉ ids)).filterMap t.character))) ∧
    (∀ (entries : List (EventStamp P × RowEntry P)) (after : Option (EventStamp P)) (value : Value P)
      (s : EventStamp P), Sorted (· < ·) entries → Elements.Fresh entries s →
      (∀ a, after = some a → Reachable (Elements.place entries) a) →
      (s ≠ default → ∃ changed, (ListOp.apply entries (.insert after value) s).2 = .ok changed) ∧
      ∀ changed, (ListOp.apply entries (.insert after value) s).2 = .ok changed →
        ∃ front back, Elements.reachableIds entries = some (front ++ back) ∧ front.getLast? = after ∧
          Elements.visibleIds entries =
            some (front.filter (Elements.live entries) ++ back.filter (Elements.live entries)) ∧
          Elements.visibleIds (ListOp.apply entries (.insert after value) s).1 =
            some (front.filter (Elements.live entries) ++ s :: back.filter (Elements.live entries))) ∧
    ∀ (entries : List (EventStamp P × RowEntry P)) (id s : EventStamp P), Sorted (· < ·) entries →
      Elements.Fresh entries s →
      (id ≠ default → ∃ changed, (ListOp.apply entries (.delete id) s).2 = .ok changed) ∧
      ∀ changed, (ListOp.apply entries (.delete id) s).2 = .ok changed →
        ∃ shown, Elements.visibleIds entries = some shown ∧
          Elements.visibleIds (ListOp.apply entries (.delete id) s).1 =
            some (shown.filter (· ≠ id)) := by
  refine ⟨?_, ?_, ?_, ?_⟩
  · intro t after text s ht hs hafter
    refine ⟨hs.insert_accepted hafter, ?_⟩
    intro changed hok
    rw [Text.insert_of_ok hok]
    exact hs.string_written ht hafter
  · intro t ids s ht hs
    refine ⟨?_, ?_⟩
    · exact Text.delete_accepted
    · intro changed hok
      rw [Text.delete_of_ok hok]
      obtain ⟨shown, hshown, hids, hstring⟩ := hs.string_deleted ht
      refine ⟨shown, hshown, ?_, ?_⟩
      · convert hids
      · convert hstring
  · intro entries after value s hm hs hafter
    refine ⟨?_, ?_⟩
    · exact hs.insert_accepted after value
    · intro changed hok
      exact hs.visibleIds_inserted hm hafter value hok
  · intro entries id s hm hs
    refine ⟨?_, ?_⟩
    · exact Elements.delete_accepted
    · intro changed hok
      exact hs.visibleIds_deleted hm hok

/-- A text of which the first character is deleted. -/
def headDeleted : Text (EventStamp Nat) (Value Nat) :=
  ((Text.apply ⟨[]⟩ (.insert none "abc") ⟨⟨1, 1⟩, ⟨3, 0⟩⟩).1.apply (.delete [⟨⟨⟨1, 1⟩, ⟨3, 0⟩⟩, 0⟩])
    ⟨⟨2, 1⟩, ⟨3, 1⟩⟩).1

theorem sequence_edits_behind_deleted :
    headDeleted.string = some "bc" ∧ ∃ front back, headDeleted.string = some (front ++ back) ∧
      (headDeleted.apply (.insert (some ⟨⟨⟨1, 1⟩, ⟨3, 0⟩⟩, 0⟩) "xy") ⟨⟨3, 1⟩, ⟨4, 0⟩⟩).1.string =
        some (front ++ "xy" ++ back) := by
  have hfresh : headDeleted.Fresh ⟨⟨3, 1⟩, ⟨4, 0⟩⟩ := by
    unfold Text.Fresh
    decide +kernel
  have hsorted : Sorted (· < ·) headDeleted.entries := by
    unfold Sorted
    decide +kernel
  have hanchor : Reachable headDeleted.place ⟨⟨⟨1, 1⟩, ⟨3, 0⟩⟩, 0⟩ := .head (by decide +kernel)
  have hafter : ∀ a, some (⟨⟨⟨1, 1⟩, ⟨3, 0⟩⟩, 0⟩ : TextId (EventStamp Nat)) = some a →
      Reachable headDeleted.place a := by
    rintro a ⟨⟩
    exact hanchor
  obtain ⟨haccepted, hread⟩ :=
    sequence_edits.1 headDeleted (some ⟨⟨⟨1, 1⟩, ⟨3, 0⟩⟩, 0⟩) "xy" ⟨⟨3, 1⟩, ⟨4, 0⟩⟩ hsorted hfresh hafter
  obtain ⟨changed, hok⟩ := haccepted (by decide) (by rintro a ⟨⟩; decide) (by decide +kernel)
  obtain ⟨front, back, -, -, hold, hnew⟩ := hread changed hok
  exact ⟨by decide +kernel, _, _, hold, hnew⟩

end ZenDB.Crdt
