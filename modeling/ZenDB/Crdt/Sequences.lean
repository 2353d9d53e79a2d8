import ZenDB.Lib.Forest
import ZenDB.Crdt.Texts
import ZenDB.Crdt.Lists

namespace ZenDB.Crdt

open SortedMap Forest

/-! What texts and lists show: a walk over the places that their entries name. The places that are
known never change, so the order of what is shown does not change either. -/

section Text

variable {S V : Type} [LinearOrder S]

namespace Text

/-- The character that an entry with content stands behind. -/
def placeOf (entry : TextEntry S V) : Option (Option (TextId S)) := entry.content.map (·.after)

/-- A delete hides a character that was inserted before it. -/
def shows (id : TextId S) (entry : TextEntry S V) : Bool :=
  entry.content.isSome && entry.deletedAt.all (· < id.stamp)

/-- `Text::visible_ids` with its `walk_visible`. -/
def visibleIds (t : Text S V) : Option (List (TextId S)) := Forest.visibleIds placeOf shows t.entries

/-- What a text knows of a character. -/
def contentAt (t : Text S V) (id : TextId S) : Option (TextContent S) :=
  (get t.entries id).bind (·.content)

def character (t : Text S V) (id : TextId S) : Option Char := (t.contentAt id).map (·.character)

def string (t : Text S V) : Option String :=
  t.visibleIds.map fun ids => String.ofList (ids.filterMap t.character)

/-- Where a text places its characters. -/
abbrev place (t : Text S V) : TextId S → Option (Option (TextId S)) := linkIn placeOf t.entries

/-- Which characters a text shows. -/
abbrev live (t : Text S V) : TextId S → Bool := liveIn shows t.entries

theorem place_eq (t : Text S V) (id : TextId S) : t.place id = (t.contentAt id).map (·.after) := by
  rw [place, linkIn, contentAt, Option.map_bind]
  rfl

theorem contentAt_updateAll {g : TextId S → Option (TextEntry S V) → Option (TextEntry S V)}
    (hg : Settles g) (hcontent : ∀ id v, ((g id v).or v).bind (·.content) = v.bind (·.content))
    (t : Text S V) (ids : List (TextId S)) (id : TextId S) :
    contentAt ⟨(updateAll g t.entries ids).1⟩ id = t.contentAt id := by
  rw [contentAt, contentAt, get_updateAll hg]
  split_ifs
  · exact hcontent id _
  · rfl

theorem content_deleteChar (s : S) (id : TextId S) (v : Option (TextEntry S V)) :
    ((deleteChar s id v).or v).bind (·.content) = v.bind (·.content) := by
  unfold deleteChar
  split_ifs
  · rfl
  · cases v with
    | none => rfl
    | some entry =>
      dsimp only
      split_ifs <;> rfl

theorem content_formatChar (s : S) (key : String) (value : Option V) (v : Option (TextEntry S V)) :
    ((formatChar s key value v).or v).bind (·.content) = v.bind (·.content) := by
  have hwrite : ∀ attrs, (some {v.getD ⟨none, none, []⟩ with attrs := attrs} : Option
      (TextEntry S V)).bind (·.content) = v.bind (·.content) := by
    intro attrs
    cases v <;> rfl
  rw [formatChar]
  split
  · split_ifs
    · exact hwrite _
    · rfl
  · exact hwrite _

omit [LinearOrder S] in
theorem placeOf_writeChar (after : Option (TextId S)) (characters : List Char) (id : TextId S)
    (v : Option (TextEntry S V)) :
    ((writeChar after characters id v).or v).bind placeOf = v.bind placeOf ∨
      v.bind placeOf = none ∧
        ((writeChar after characters id v).or v).bind placeOf = some (anchor after id.stamp id.offset) := by
  rw [writeChar]
  cases characters[id.offset]? with
  | none => exact .inl rfl
  | some character =>
    rcases v with _ | ⟨_ | content, d, a⟩
    · exact .inr ⟨rfl, rfl⟩
    · exact .inr ⟨rfl, rfl⟩
    · exact .inl rfl

variable [Inhabited S]

/-- An operation leaves a place as it is, or is the insert that makes it known. -/
theorem place_apply (t : Text S V) (op : TextOp S V) (s : S) (id : TextId S) :
    (t.apply op s).1.place id = t.place id ∨
      t.place id = none ∧ ∃ after text, op = .insert after text ∧ id.stamp = s ∧
        (t.apply op s).1.place id = some (anchor after s id.offset) := by
  unfold apply
  split_ifs with hzero
  · exact .inl rfl
  · cases op with
    | insert after text =>
      dsimp only
      split_ifs
      · exact .inl rfl
      · exact .inl rfl
      · exact .inl rfl
      · split
        · exact .inl rfl
        · simp only [place, linkIn, get_updateAll (settles_writeChar after text.toList)]
          split_ifs with hid
          · obtain ⟨offset, -, rfl⟩ := List.mem_map.mp hid
            rcases placeOf_writeChar after text.toList ⟨s, offset⟩ (get t.entries ⟨s, offset⟩) with h | h
            · exact .inl h
            · exact .inr ⟨h.1, after, text, rfl, rfl, h.2⟩
          · exact .inl rfl
    | delete ids =>
      dsimp only
      split_ifs
      · exact .inl rfl
      · left
        rw [place_eq, place_eq, contentAt_updateAll (settles_deleteChar s) (content_deleteChar s)]
    | format ids key value =>
      dsimp only
      split_ifs
      · exact .inl rfl
      · left
        rw [place_eq, place_eq, contentAt_updateAll (settles_formatChar s key value)
          fun _ => content_formatChar s key value]

omit [Inhabited S] in
/-- A merge leaves a place as it is, or takes over the one that the remote text knows. -/
theorem place_merge (t : Text S V) {remote : Text S V} (hremote : Sorted (· < ·) remote.entries)
    (id : TextId S) :
    (t.merge remote).1.place id = t.place id ∨
      t.place id = none ∧ (t.merge remote).1.place id = remote.place id := by
  rw [merge]
  split
  · exact .inl rfl
  · simp only [place, linkIn, (mergeTotal_spec mergeEntry hremote t.entries).1 id]
    cases get t.entries id with
    | none => exact .inr ⟨rfl, rfl⟩
    | some l =>
      cases get remote.entries id with
      | none => exact .inl rfl
      | some r =>
        obtain ⟨_ | content, d, a⟩ := l
        · exact .inr ⟨rfl, rfl⟩
        · exact .inl rfl

theorem sorted_apply {t : Text S V} (ht : Sorted (· < ·) t.entries) (op : TextOp S V) (s : S) :
    Sorted (· < ·) (t.apply op s).1.entries := by
  unfold apply
  split_ifs
  · exact ht
  · cases op with
    | insert after text =>
      dsimp only
      split_ifs
      · exact ht
      · exact ht
      · exact ht
      · split
        · exact ht
        · exact sorted_updateAll _ ht _
    | delete ids =>
      dsimp only
      split_ifs
      · exact ht
      · exact sorted_updateAll _ ht _
    | format ids key value =>
      dsimp only
      split_ifs
      · exact ht
      · exact sorted_updateAll _ ht _

omit [Inhabited S] in
theorem sorted_merge {t : Text S V} (ht : Sorted (· < ·) t.entries) (remote : Text S V) :
    Sorted (· < ·) (t.merge remote).1.entries := by
  rw [merge]
  split
  · exact ht
  · exact sorted_mergeTotal _ ht _

/-- Every known place is the one that an insert of `U` gives. -/
def Placed (U : Set (TextOp S V × S)) (t : Text S V) : Prop :=
  Sorted (· < ·) t.entries ∧ ∀ id place, t.place id = some place →
    ∃ after text, (.insert after text, id.stamp) ∈ U ∧ place = anchor after id.stamp id.offset

variable {U : Set (TextOp S V × S)}

theorem Placed.apply {t : Text S V} (h : Placed U t) {e : TextOp S V × S} (he : e ∈ U) :
    Placed U (t.apply e.1 e.2).1 := by
  obtain ⟨op, s⟩ := e
  refine ⟨sorted_apply h.1 op s, ?_⟩
  intro id place hplace
  rcases place_apply t op s id with hsame | ⟨-, after, text, rfl, rfl, hwritten⟩
  · exact h.2 id place (hsame ▸ hplace)
  · exact ⟨after, text, he, Option.some.inj (hplace.symm.trans hwritten)⟩

omit [Inhabited S] in
theorem Placed.merge {t remote : Text S V} (h : Placed U t) (hremote : Placed U remote) :
    Placed U (t.merge remote).1 := by
  refine ⟨sorted_merge h.1 remote, ?_⟩
  intro id place hplace
  rcases place_merge t hremote.1 id with hsame | ⟨-, htaken⟩
  · exact h.2 id place (hsame ▸ hplace)
  · exact hremote.2 id place (htaken ▸ hplace)

omit [Inhabited S] in
theorem Placed.agree (hU : DistinctStamps U) {t t' : Text S V} (h : Placed U t) (h' : Placed U t') :
    Agree t.place t'.place := by
  intro id a a' ha ha'
  obtain ⟨after, text, hop, rfl⟩ := h.2 id a ha
  obtain ⟨after', text', hop', rfl⟩ := h'.2 id a' ha'
  rw [(insert_eq hU hop hop').1]

/-- The text that a history leaves, failed operations and merges included. -/
def outcome (h : History (TextOp S V × S)) : Text S V :=
  h.outcome ⟨[]⟩ (fun t e => (t.apply e.1 e.2).1) fun t remote => (t.merge remote).1

theorem placed_outcome (h : History (TextOp S V × S)) (hU : ∀ e ∈ h.events, e ∈ U) :
    Placed U (outcome h) := by
  refine History.outcome_induction ?_ ?_ ?_ h hU
  · exact ⟨List.Pairwise.nil, fun id place hplace => by cases hplace⟩
  · exact fun t ht e he => ht.apply he
  · exact fun t remote ht hremote => ht.merge hremote

end Text

end Text

section List

variable {P : Type}

def Cell.isTombstone (c : RowCell P) : Bool := c.value.isNone

variable [LinearOrder P]

namespace Elements

def placeOf (entry : RowEntry P) : Option (Option (EventStamp P)) := entry.position.after?

def shows (_ : EventStamp P) (entry : RowEntry P) : Bool := !entry.cell.isTombstone

/-- `List::visible_ids` with its `walk_visible`, on the entries of a list. -/
def visibleIds (entries : List (EventStamp P × RowEntry P)) : Option (List (EventStamp P)) :=
  Forest.visibleIds placeOf shows entries

/-- Where a list places its elements. -/
abbrev place (entries : List (EventStamp P × RowEntry P)) :
    EventStamp P → Option (Option (EventStamp P)) :=
  linkIn placeOf entries

/-- Which elements a list shows. -/
abbrev live (entries : List (EventStamp P × RowEntry P)) : EventStamp P → Bool := liveIn shows entries

omit [LinearOrder P] in
@[simp] theorem after_known (after : Option (EventStamp P)) :
    (ListPosition.known after).after? = some after := by
  cases after <;> rfl

theorem placeOf_resolvePosition (entry : RowEntry P) (id : EventStamp P)
    (after : Option (EventStamp P)) :
    placeOf (resolvePosition entry id after).1 = placeOf entry ∨
      placeOf entry = none ∧ placeOf (resolvePosition entry id after).1 = some after := by
  rw [resolvePosition]
  split_ifs with hunknown
  · refine .inr ⟨?_, after_known after⟩
    rw [placeOf, hunknown]
    rfl
  · exact .inl rfl
  · exact .inl rfl

theorem placeOf_adoptPosition (entry : RowEntry P) (id : EventStamp P)
    (remote : ListPosition (EventStamp P)) :
    placeOf (adoptPosition entry id remote).1 = placeOf entry ∨
      placeOf entry = none ∧ placeOf (adoptPosition entry id remote).1 = remote.after? := by
  rw [adoptPosition]
  split
  · exact .inl rfl
  · next after hafter =>
    rw [hafter]
    exact placeOf_resolvePosition entry id after

theorem placeOf_mergeEntry (id : EventStamp P) (entry remote : RowEntry P) :
    placeOf (mergeEntry id entry remote).1 = placeOf entry ∨
      placeOf entry = none ∧ placeOf (mergeEntry id entry remote).1 = placeOf remote := by
  have hadopt := placeOf_adoptPosition entry id remote.position
  rw [mergeEntry]
  generalize adoptPosition entry id remote.position = r at hadopt ⊢
  obtain ⟨entry', e | positioned⟩ := r
  · exact hadopt
  · exact hadopt

/-- A merge leaves a place as it is, or takes over the one that the remote list knows. -/
theorem place_merge (entries : List (EventStamp P × RowEntry P))
    {remote : List (EventStamp P × RowEntry P)} (hremote : Sorted (· < ·) remote)
    (id : EventStamp P) :
    place (mergeEntries entries remote false).1 id = place entries id ∨
      place entries id = none ∧ place (mergeEntries entries remote false).1 id = place remote id := by
  rw [mergeEntries_eq]
  exact mergeMap_part placeOf_mergeEntry hremote entries false id

theorem place_insert (entries : List (EventStamp P × RowEntry P)) (key : EventStamp P)
    (entry : RowEntry P) (id : EventStamp P) :
    place (SortedMap.insert entries key entry) id =
      if id = key then placeOf entry else place entries id := by
  rw [place, linkIn, get_insert]
  split_ifs <;> rfl

variable [Inhabited P]

/-- An operation leaves a place as it is, or is the insert that makes it known. -/
theorem place_apply (entries : List (EventStamp P × RowEntry P)) (op : ListOp P) (s id : EventStamp P) :
    place (op.apply entries s).1 id = place entries id ∨
      place entries id = none ∧ ∃ after value, op = .insert after value ∧ id = s ∧
        place (op.apply entries s).1 id = some after := by
  cases op with
  | insert after value =>
    unfold ListOp.apply
    dsimp only
    split_ifs
    · exact .inl rfl
    · by_cases hid : id = s
      · subst hid
        cases hget : get entries id with
        | none =>
          refine .inr ⟨by rw [place, linkIn, hget]; rfl, after, value, rfl, rfl, ?_⟩
          dsimp only
          rw [place_insert, if_pos rfl, placeOf, after_known]
        | some entry =>
          have hplace : place entries id = placeOf entry := by
            rw [place, linkIn, hget]
            rfl
          have hresolve := placeOf_resolvePosition entry id after
          dsimp only
          rw [hplace]
          generalize resolvePosition entry id after = r at hresolve ⊢
          obtain ⟨entry', e | positioned⟩ := r
          · dsimp only at hresolve ⊢
            rw [place_insert, if_pos rfl]
            exact hresolve.imp_right fun h => ⟨h.1, after, value, rfl, rfl, h.2⟩
          · dsimp only at hresolve ⊢
            rw [place_insert, if_pos rfl]
            exact hresolve.imp_right fun h => ⟨h.1, after, value, rfl, rfl, h.2⟩
      · left
        split
        · rw [place_insert, if_neg hid]
        · split
          · rw [place_insert, if_neg hid]
          · rw [place_insert, if_neg hid]
  | delete key =>
    left
    unfold ListOp.apply
    dsimp only
    split_ifs
    · rfl
    · by_cases hid : id = key
      · subst hid
        cases hget : get entries id with
        | none =>
          dsimp only
          rw [place_insert, if_pos rfl, place, linkIn, hget]
          rfl
        | some entry =>
          dsimp only
          rw [place_insert, if_pos rfl, place, linkIn, hget]
          rfl
      · split
        · rw [place_insert, if_neg hid]
        · rw [place_insert, if_neg hid]

theorem sorted_apply {entries : List (EventStamp P × RowEntry P)} (hm : Sorted (· < ·) entries)
    (op : ListOp P) (s : EventStamp P) : Sorted (· < ·) (op.apply entries s).1 := by
  cases op with
  | insert after value =>
    unfold ListOp.apply
    dsimp only
    split_ifs
    · exact hm
    · split
      · exact sorted_insert hm _ _
      · split
        · exact sorted_insert hm _ _
        · exact sorted_insert hm _ _
  | delete id =>
    unfold ListOp.apply
    dsimp only
    split_ifs
    · exact hm
    · split
      · exact sorted_insert hm _ _
      · exact sorted_insert hm _ _

omit [Inhabited P] in
theorem sorted_merge {entries : List (EventStamp P × RowEntry P)} (hm : Sorted (· < ·) entries)
    (remote : List (EventStamp P × RowEntry P)) :
    Sorted (· < ·) (mergeEntries entries remote false).1 := by
  rw [mergeEntries_eq]
  exact sorted_mergeMap hm remote false

/-- Every known place is the one that an insert of `U` gives. -/
def Placed (U : Set (ListOp P × EventStamp P)) (entries : List (EventStamp P × RowEntry P)) : Prop :=
  Sorted (· < ·) entries ∧ ∀ id after, place entries id = some after →
    ∃ value, (.insert after value, id) ∈ U

variable {U : Set (ListOp P × EventStamp P)} {entries entries' : List (EventStamp P × RowEntry P)}

theorem Placed.apply (h : Placed U entries) {e : ListOp P × EventStamp P} (he : e ∈ U) :
    Placed U (e.1.apply entries e.2).1 := by
  obtain ⟨op, s⟩ := e
  refine ⟨sorted_apply h.1 op s, ?_⟩
  intro id after hplace
  rcases place_apply entries op s id with hsame | ⟨-, after', value, rfl, rfl, hwritten⟩
  · exact h.2 id after (hsame ▸ hplace)
  · obtain rfl : after = after' := Option.some.inj (hplace.symm.trans hwritten)
    exact ⟨value, he⟩

omit [Inhabited P] in
theorem Placed.merge (h : Placed U entries) (hremote : Placed U entries') :
    Placed U (mergeEntries entries entries' false).1 := by
  refine ⟨sorted_merge h.1 entries', ?_⟩
  intro id after hplace
  rcases place_merge entries hremote.1 id with hsame | ⟨-, htaken⟩
  · exact h.2 id after (hsame ▸ hplace)
  · exact hremote.2 id after (htaken ▸ hplace)

omit [Inhabited P] in
theorem Placed.agree (hU : DistinctStamps U) (h : Placed U entries) (h' : Placed U entries') :
    Agree (place entries) (place entries') := by
  intro id after after' hafter hafter'
  obtain ⟨value, hop⟩ := h.2 id after hafter
  obtain ⟨value', hop'⟩ := h'.2 id after' hafter'
  cases hU _ hop _ hop' rfl
  rfl

/-- The entries that a history of a list leaves, failed operations and merges included. -/
def outcome (h : History (ListOp P × EventStamp P)) : List (EventStamp P × RowEntry P) :=
  h.outcome [] (fun entries e => (e.1.apply entries e.2).1)
    fun entries remote => (mergeEntries entries remote false).1

theorem placed_outcome (h : History (ListOp P × EventStamp P)) (hU : ∀ e ∈ h.events, e ∈ U) :
    Placed U (outcome h) := by
  refine History.outcome_induction ?_ ?_ ?_ h hU
  · exact ⟨List.Pairwise.nil, fun id after hplace => by cases hplace⟩
  · exact fun entries hm e he => hm.apply he
  · exact fun entries remote hm hremote => hm.merge hremote

end Elements

end List

variable {P : Type} [LinearOrder P] [Inhabited P]

/-- Characters and elements that are shown before and after an operation or a merge, whether it
fails or not, keep their order. Replicas with operations of distinct stamps agree on the order of
what both show. -/
theorem sequence_order_stable :
    (∀ (t : Text (EventStamp P) (Value P)) (op : TextOp (EventStamp P) (Value P)) (s : EventStamp P),
      Sorted (· < ·) t.entries → OrderKept t.visibleIds (t.apply op s).1.visibleIds) ∧
    (∀ t remote : Text (EventStamp P) (Value P), Sorted (· < ·) t.entries →
      Sorted (· < ·) remote.entries → OrderKept t.visibleIds (t.merge remote).1.visibleIds) ∧
    (∀ h h' : History (TextOp (EventStamp P) (Value P) × EventStamp P),
      DistinctStamps {e | e ∈ h.events ∨ e ∈ h'.events} →
      OrderKept (Text.outcome h).visibleIds (Text.outcome h').visibleIds) ∧
    (∀ (entries : List (EventStamp P × RowEntry P)) (op : ListOp P) (s : EventStamp P),
      Sorted (· < ·) entries →
      OrderKept (Elements.visibleIds entries) (Elements.visibleIds (op.apply entries s).1)) ∧
    (∀ entries remote : List (EventStamp P × RowEntry P), Sorted (· < ·) entries →
      Sorted (· < ·) remote →
      OrderKept (Elements.visibleIds entries)
        (Elements.visibleIds (mergeEntries entries remote false).1)) ∧
    ∀ h h' : History (ListOp P × EventStamp P), DistinctStamps {e | e ∈ h.events ∨ e ∈ h'.events} →
      OrderKept (Elements.visibleIds (Elements.outcome h))
        (Elements.visibleIds (Elements.outcome h')) := by
  refine ⟨?_, ?_, ?_, ?_, ?_, ?_⟩
  · intro t op s ht
    refine orderKept_of_agree ht (Text.sorted_apply ht op s) (agree_of_kept fun id => ?_)
    exact (Text.place_apply t op s id).imp_right And.left
  · intro t remote ht hremote
    refine orderKept_of_agree ht (Text.sorted_merge ht remote) (agree_of_kept fun id => ?_)
    exact (Text.place_merge t hremote id).imp_right And.left
  · intro h h' hU
    have hplaced := Text.placed_outcome h fun e he => (.inl he : e ∈ h.events ∨ e ∈ h'.events)
    have hplaced' := Text.placed_outcome h' fun e he => (.inr he : e ∈ h.events ∨ e ∈ h'.events)
    exact orderKept_of_agree hplaced.1 hplaced'.1 (hplaced.agree hU hplaced')
  · intro entries op s hm
    refine orderKept_of_agree hm (Elements.sorted_apply hm op s) (agree_of_kept fun id => ?_)
    exact (Elements.place_apply entries op s id).imp_right And.left
  · intro entries remote hm hremote
    refine orderKept_of_agree hm (Elements.sorted_merge hm remote) (agree_of_kept fun id => ?_)
    exact (Elements.place_merge entries hremote id).imp_right And.left
  · intro h h' hU
    have hplaced := Elements.placed_outcome h fun e he => (.inl he : e ∈ h.events ∨ e ∈ h'.events)
    have hplaced' := Elements.placed_outcome h' fun e he => (.inr he : e ∈ h.events ∨ e ∈ h'.events)
    exact orderKept_of_agree hplaced.1 hplaced'.1 (hplaced.agree hU hplaced')

/-- A character that is written behind the first of two that were inserted together. -/
def squeezedIn : History (TextOp (EventStamp Nat) (Value Nat) × EventStamp Nat) :=
  .apply (.apply .empty (.insert none "ab", ⟨⟨1, 1⟩, ⟨3, 0⟩⟩))
    (.insert (some ⟨⟨⟨1, 1⟩, ⟨3, 0⟩⟩, 0⟩) "c", ⟨⟨2, 1⟩, ⟨5, 0⟩⟩)

theorem sequence_order_stable_squeezed_in :
    (Text.outcome squeezedIn).string = some "acb" ∧ (Text.outcome earlyDelete).string = some "b" ∧
      OrderKept (Text.outcome squeezedIn).visibleIds
        ((Text.outcome squeezedIn).merge (Text.outcome earlyDelete)).1.visibleIds := by
  refine ⟨by decide +kernel, by decide +kernel, ?_⟩
  exact sequence_order_stable.2.1 _ _ (Text.placed_outcome squeezedIn (U := Set.univ) (by simp)).1
    (Text.placed_outcome earlyDelete (U := Set.univ) (by simp)).1

/-- A text shows a character where it has content that no later delete hides. -/
theorem Text.live_iff {S V : Type} [LinearOrder S] (t : Text S V) (id : TextId S) :
    t.live id = true ↔ ∃ entry, get t.entries id = some entry ∧ entry.content.isSome ∧
      ∀ deleted, entry.deletedAt = some deleted → deleted < id.stamp := by
  cases hget : get t.entries id with
  | none => simp [Text.live, liveIn, hget]
  | some entry => simp [Text.live, liveIn, hget, Text.shows, Option.all_eq_true]

omit [Inhabited P] in
/-- A reachable element is shown unless it is a tombstone; that its position is known goes with the
link it has. -/
theorem Elements.live_iff {entries : List (EventStamp P × RowEntry P)} {id : EventStamp P}
    (hreachable : Reachable (Elements.place entries) id) :
    Elements.live entries id = true ↔ ∃ entry, get entries id = some entry ∧
      entry.cell.isTombstone = false ∧ entry.position ≠ .unknown := by
  obtain ⟨entry, hget⟩ := exists_entry hreachable.link_isSome
  have hknown : entry.position ≠ .unknown := by
    intro hunknown
    have hlink := hreachable.link_isSome
    rw [Elements.place, linkIn, hget, Option.bind_some, Elements.placeOf, hunknown] at hlink
    cases hlink
  simp [Elements.live, liveIn, hget, Elements.shows, hknown]

omit [Inhabited P] in
/-- Whatever the links of a text or a list are, the walk ends, lists nothing twice, and lists what
is live and leads back to the head. -/
theorem visibleIds_exact :
    (∀ t : Text (EventStamp P) (Value P), Sorted (· < ·) t.entries →
      ∃ ids, t.visibleIds = some ids ∧ ids.Nodup ∧ ∀ id, id ∈ ids ↔
        (∃ entry, get t.entries id = some entry ∧ entry.content.isSome ∧
          ∀ deleted, entry.deletedAt = some deleted → deleted < id.stamp) ∧
        Reachable t.place id) ∧
    ∀ entries : List (EventStamp P × RowEntry P), Sorted (· < ·) entries →
      ∃ ids, Elements.visibleIds entries = some ids ∧ ids.Nodup ∧ ∀ id, id ∈ ids ↔
        (∃ entry, get entries id = some entry ∧ entry.cell.isTombstone = false ∧
          entry.position ≠ .unknown) ∧
        Reachable (Elements.place entries) id := by
  refine ⟨?_, ?_⟩
  · intro t ht
    obtain ⟨ids, hids, hlist⟩ := visibleIds_listing Text.placeOf Text.shows ht
    refine ⟨ids, hids, hlist.nodup, ?_⟩
    intro id
    rw [hlist.mem, and_comm]
    exact and_congr_left fun _ => Text.live_iff t id
  · intro entries hm
    obtain ⟨ids, hids, hlist⟩ := visibleIds_listing Elements.placeOf Elements.shows hm
    refine ⟨ids, hids, hlist.nodup, ?_⟩
    intro id
    rw [hlist.mem, and_comm]
    exact and_congr_left fun hreachable => Elements.live_iff hreachable

/-- Two characters that stand behind each other, one behind a character that is not there, and one
at the head. -/
def tangled : Text (EventStamp Nat) (Value Nat) :=
  let stamp (n : Nat) : EventStamp Nat := ⟨⟨n, 1⟩, ⟨3, 0⟩⟩
  let char (after : Option Nat) : TextEntry (EventStamp Nat) (Value Nat) :=
    ⟨some ⟨after.map fun n => ⟨stamp n, 0⟩, 'a'⟩, none, []⟩
  ⟨[(⟨stamp 1, 0⟩, char (some 2)), (⟨stamp 2, 0⟩, char (some 1)), (⟨stamp 3, 0⟩, char (some 9)),
    (⟨stamp 4, 0⟩, char none)]⟩

theorem visibleIds_exact_tangled :
    tangled.visibleIds = some [⟨⟨⟨4, 1⟩, ⟨3, 0⟩⟩, 0⟩] ∧
      ∃ ids, tangled.visibleIds = some ids ∧ ids.Nodup := by
  refine ⟨by decide +kernel, ?_⟩
  have hsorted : Sorted (· < ·) tangled.entries := by
    unfold Sorted
    decide +kernel
  obtain ⟨ids, hids, hnodup, -⟩ := visibleIds_exact.1 tangled hsorted
  exact ⟨ids, hids, hnodup⟩

end ZenDB.Crdt
