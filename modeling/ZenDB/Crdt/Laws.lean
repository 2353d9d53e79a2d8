import ZenDB.Crdt.Leaf
import ZenDB.Lib.Merge

namespace ZenDB.Crdt

open SortedMap

/-! For each leaf type: when a value holds everything of another (`Covers`), and that its merge is a
join on sorted maps. Texts are the exception: equal stamps on different attributes. -/

variable {P S K V ε : Type} [LinearOrder S]

section Clocks

theorem settles_raise (s : S) : Settles (fun _ : K => raise s) := by
  intro key v value h
  cases v with
  | none =>
    cases h
    simp [raise]
  | some t =>
    change raise s (some t) = some value at h
    rw [raise] at h
    split_ifs at h
    cases h
    simp [raise]

theorem mergeRequiredClock_eq (l r : S) : mergeRequiredClock l r = (max l r, decide (l < r)) := by
  rw [mergeRequiredClock, raise]
  split_ifs with h
  · simp [h, max_eq_right h.le]
  · simp [h, max_eq_left (not_lt.mp h)]

theorem requiredClock_laws :
    MergeLaws (fun _ : S => True) (liftOk mergeRequiredClock : S → S → S × Except ε Bool)
      (fun l r => r ≤ l) (fun _ _ => True) := by
  refine ⟨fun _ _ _ _ => trivial, ?_, ?_, ?_, ?_⟩
  · intro v r _ _
    simp [liftOk, mergeRequiredClock_eq]
  · intro v r _ _ _
    simp [liftOk, mergeRequiredClock_eq]
  · intro v r _ _ _ _
    simp [liftOk, mergeRequiredClock_eq, max_comm]
  · intro a b c _ _ _ _ _ _ _
    simp [liftOk, mergeRequiredClock_eq, max_assoc]

/-- A clock that may be missing is at least another one. -/
def ClockCovers : Option S → Option S → Prop
  | _, none => True
  | none, some _ => False
  | some l, some r => r ≤ l

theorem mergeClock_none (l : Option S) : mergeClock l none = (l, false) := rfl

theorem mergeClock_some (l r : S) :
    mergeClock (some l) (some r) = (some (max l r), decide (l < r)) := by
  rw [mergeClock, raise]
  split_ifs with h
  · simp [h, max_eq_right h.le]
  · simp [h, max_eq_left (not_lt.mp h)]

theorem mergeClock_none_some (r : S) : mergeClock none (some r) = (some r, true) := rfl

theorem clock_laws :
    MergeLaws (fun _ : Option S => True)
      (liftOk mergeClock : Option S → Option S → Option S × Except ε Bool) ClockCovers
      (fun _ _ => True) := by
  refine ⟨fun _ _ _ _ => trivial, ?_, ?_, ?_, ?_⟩
  · intro v r _ _
    cases v <;> cases r <;>
      simp [liftOk, ClockCovers, mergeClock_none, mergeClock_some, mergeClock_none_some]
  · intro v r _ _ _
    cases v <;> cases r <;>
      simp [liftOk, ClockCovers, mergeClock_none, mergeClock_some, mergeClock_none_some]
  · intro v r _ _ _ _
    cases v <;> cases r <;>
      simp [liftOk, mergeClock_none, mergeClock_some, mergeClock_none_some, max_comm]
  · intro a b c _ _ _ _ _ _ _
    cases a <;> cases b <;> cases c <;>
      simp [liftOk, mergeClock_none, mergeClock_some, mergeClock_none_some, max_assoc]

/-- Removals merge like clocks under their ids. -/
theorem removals_laws :
    MergeLaws (WMap fun _ : S => True)
      (liftOk mergeRemovals : List (S × S) → List (S × S) → List (S × S) × Except Empty Bool)
      (CoversMap fun l r => r ≤ l) (OnCommon fun _ _ => True) :=
  MergeLaws.total requiredClock_laws

end Clocks

section Content

variable {α : Type} [DecidableEq α]

/-- Content that is written once: two known contents must agree, or the merge fails with `e`. -/
def mergeContent (e : ε) (l r : Option α) : Option α × Except ε Bool :=
  match l, r with
  | some a, some b => (some a, if a = b then .ok false else .error e)
  | none, some b => (some b, .ok true)
  | l, none => (l, .ok false)

def ContentCovers (l r : Option α) : Prop := ∀ b, r = some b → l = some b

theorem eq_of_succeeds_mergeContent {e : ε} {a b : α}
    (h : Succeeds (mergeContent e (some a) (some b))) : a = b := by
  obtain ⟨c, hc⟩ := h
  rw [mergeContent] at hc
  dsimp only at hc
  split_ifs at hc with heq
  exact heq

theorem mergeContent_laws (e : ε) :
    MergeLaws (fun _ : Option α => True) (mergeContent e) ContentCovers (fun _ _ => True) := by
  refine ⟨fun _ _ _ _ => trivial, ?_, ?_, ?_, ?_⟩
  · intro v r _ _
    cases v <;> cases r <;> simp [mergeContent, ContentCovers]
  · intro v r _ _ hok
    cases v <;> cases r
    · simp [mergeContent, ContentCovers]
    · simp [mergeContent, ContentCovers]
    · simp [mergeContent, ContentCovers]
    · rw [eq_of_succeeds_mergeContent hok]
      simp [mergeContent, ContentCovers]
  · intro v r _ _ hok _
    cases v <;> cases r
    · simp [mergeContent]
    · simp [mergeContent]
    · simp [mergeContent]
    · rw [eq_of_succeeds_mergeContent hok]
      simp
  · intro a b c _ _ _ hab habc hbc habc'
    cases a <;> cases b <;> cases c <;> simp [mergeContent]

end Content

section Counter

variable [LinearOrder P]

namespace Counter

def WF (c : Counter P) : Prop := WMap (fun _ => True) c.entries

/-- Both components of every peer are at least the remote ones. -/
def Covers (c remote : Counter P) : Prop :=
  CoversMap (fun l r => r.1 ≤ l.1 ∧ r.2 ≤ l.2) c.entries remote.entries

theorem mergePair_laws :
    MergeLaws (fun _ : Nat × Nat => True) (liftOk mergePair : _ → _ → _ × Except ε Bool)
      (fun l r => r.1 ≤ l.1 ∧ r.2 ≤ l.2) (fun _ _ => True) := by
  refine ⟨fun _ _ _ _ => trivial, ?_, ?_, ?_, ?_⟩
  · intro v r _ _
    simp [liftOk, mergePair]
  · intro v r _ _ _
    simp [liftOk, mergePair, Prod.ext_iff]
  · intro v r _ _ _ _
    simp [liftOk, mergePair, max_comm]
  · intro a b c _ _ _ _ _ _ _
    simp [liftOk, mergePair, max_assoc]

theorem laws : MergeLaws WF (liftOk merge : Counter P → Counter P → _ × Except ε Bool) Covers
    (fun _ _ => True) := by
  have h := (MergeLaws.total (κ := P) mergePair_laws).pullback (g := liftOk merge) Counter.entries
    (fun a b hab => by cases a; cases b; cases hab; rfl) fun _ _ => rfl
  exact MergeLaws.changeError (ε := Empty) (h.congr (fun _ => Iff.rfl) fun _ _ => by simp [OnCommon])

end Counter

end Counter

section OrSet

variable [LinearOrder K]

namespace OrSetEntry

def WF (e : OrSetEntry S) : Prop := WMap (fun _ => True) e.adds ∧ WMap (fun _ => True) e.rems

/-- All tags of the remote entry are known, and its removals are not later than the local ones. -/
def Covers (l r : OrSetEntry S) : Prop :=
  CoversMap (fun _ _ => True) l.adds r.adds ∧ CoversMap (fun l r => r ≤ l) l.rems r.rems

end OrSetEntry

namespace OrSet

def WF (o : OrSet K S) : Prop := WMap OrSetEntry.WF o.entries

def Covers (o remote : OrSet K S) : Prop := CoversMap OrSetEntry.Covers o.entries remote.entries

theorem tag_laws : MergeLaws (fun _ : Unit => True)
    (liftOk fun _ _ => ((), false) : Unit → Unit → Unit × Except ε Bool) (fun _ _ => True)
    (fun _ _ => True) :=
  ⟨fun _ _ _ _ => trivial, fun _ _ _ _ => by simp [liftOk], fun _ _ _ _ _ => by simp,
    fun _ _ _ _ _ _ => by simp, fun _ _ _ _ _ _ _ _ _ _ => rfl⟩

theorem mergeEntry_laws : MergeLaws OrSetEntry.WF
    (liftOk mergeEntry : OrSetEntry S → OrSetEntry S → _ × Except Empty Bool) OrSetEntry.Covers
    (fun _ _ => True) := by
  have h := ((MergeLaws.total (κ := S) tag_laws).pairs removals_laws).pullback (g := liftOk mergeEntry)
    (fun e : OrSetEntry S => (e.adds, e.rems)) (fun a b hab => by cases a; cases b; cases hab; rfl)
    (fun a b => by simp [liftOk, mergePairs, bothOk, mergeEntry, Bool.or_comm])
  exact h.congr (fun _ => Iff.rfl) fun _ _ => by simp [OnCommon]

theorem laws : MergeLaws WF (liftOk merge : OrSet K S → OrSet K S → _ × Except ε Bool) Covers
    (fun _ _ => True) := by
  have h := (MergeLaws.total (κ := K) mergeEntry_laws).pullback (g := liftOk merge)
    (fun o : OrSet K S => o.entries) (fun a b hab => by cases a; cases b; cases hab; rfl)
    fun _ _ => rfl
  exact MergeLaws.changeError (ε := Empty) (h.congr (fun _ => Iff.rfl) fun _ _ => by simp [OnCommon])

end OrSet

end OrSet

section Set

variable [LinearOrder K]

namespace LwwSet

def WF (s : LwwSet K S) : Prop := WMap (fun _ => True) s.entries

def Covers (s remote : LwwSet K S) : Prop :=
  CoversMap (fun l r => r.updated ≤ l.updated ∧ r.deleted ≤ l.deleted) s.entries remote.entries

theorem mergeMeta_laws : MergeLaws (fun _ : Meta S => True)
    (liftOk mergeMeta : Meta S → Meta S → _ × Except Empty Bool)
    (fun l r => r.updated ≤ l.updated ∧ r.deleted ≤ l.deleted) (fun _ _ => True) := by
  have h := ((requiredClock_laws (ε := Empty)).pairs requiredClock_laws).pullback
    (g := liftOk mergeMeta) (fun m : Meta S => (m.updated, m.deleted))
    (fun a b hab => by cases a; cases b; cases hab; rfl) fun _ _ => rfl
  exact h.congr (fun _ => by simp) fun _ _ => by simp

theorem laws : MergeLaws WF (liftOk merge : LwwSet K S → LwwSet K S → _ × Except ε Bool) Covers
    (fun _ _ => True) := by
  have h := (MergeLaws.total (κ := K) mergeMeta_laws).pullback (g := liftOk merge)
    (fun s : LwwSet K S => s.entries) (fun a b hab => by cases a; cases b; cases hab; rfl)
    fun _ _ => rfl
  exact MergeLaws.changeError (ε := Empty) (h.congr (fun _ => Iff.rfl) fun _ _ => by simp [OnCommon])

end LwwSet

end Set

section PriorityQueue

variable [DecidableEq V]

namespace PqEntry

def content : PqEntry S V → Option (Int × V)
  | .pendingPop _ => none
  | .present priority value _ => some (priority, value)

def deletedAt : PqEntry S V → Option S
  | .pendingPop deletedAt => some deletedAt
  | .present _ _ deletedAt => deletedAt

omit [LinearOrder S] [DecidableEq V] in
theorem content_deletedAt_injective :
    Function.Injective fun e : PqEntry S V => (e.content, e.deletedAt) := by
  intro a b h
  cases a <;> cases b <;> simp_all [content, deletedAt]

/-- The pushed content is known, and so is a pop that is not earlier. -/
def Covers (l r : PqEntry S V) : Prop :=
  ContentCovers l.content r.content ∧ ClockCovers l.deletedAt r.deletedAt

end PqEntry

namespace PriorityQueue

def WF (q : PriorityQueue S V) : Prop := WMap (fun _ => True) q.entries

def Covers (q remote : PriorityQueue S V) : Prop := CoversMap PqEntry.Covers q.entries remote.entries

/-- An entry is its content and its pop clock, merged one by one. -/
theorem succeeds_mergeEntry {id : S} {l r : PqEntry S V} :
    Succeeds (mergeEntry id l r) ↔
      Succeeds (mergeContent (PqError.pushConflict id) l.content r.content) := by
  rcases l with l | ⟨p, v, l⟩ <;> rcases r with r | ⟨p', v', r⟩
  · exact iff_of_true ⟨_, rfl⟩ ⟨_, rfl⟩
  · exact iff_of_true ⟨_, rfl⟩ ⟨_, rfl⟩
  · exact iff_of_true ⟨_, rfl⟩ ⟨_, rfl⟩
  · by_cases heq : p = p' ∧ v = v'
    · obtain ⟨rfl, rfl⟩ := heq
      exact iff_of_true ⟨(mergeClock l r).2, by simp [mergeEntry]⟩ ⟨false, by simp [mergeContent, PqEntry.content]⟩
    · refine iff_of_false ?_ fun h => heq (by simpa using eq_of_succeeds_mergeContent h)
      rintro ⟨c, hc⟩
      have hne : p ≠ p' ∨ v ≠ v' := by
        rw [← not_and_or]
        exact heq
      simp [mergeEntry, hne] at hc

theorem mergeEntry_eq {id : S} {l r : PqEntry S V} (hok : Succeeds (mergeEntry id l r)) :
    (((mergeEntry id l r).1.content, (mergeEntry id l r).1.deletedAt), (mergeEntry id l r).2) =
      mergePairs (mergeContent (PqError.pushConflict id)) (liftOk mergeClock)
        (l.content, l.deletedAt) (r.content, r.deletedAt) := by
  have hcomm := fun l r : Option S => ((clock_laws (ε := Empty)).comm l r trivial trivial ⟨_, rfl⟩
    ⟨_, rfl⟩).mpr trivial
  simp only [liftOk] at hcomm
  rcases l with l | ⟨p, v, l⟩ <;> rcases r with r | ⟨p', v', r⟩
  · simp [mergeEntry, PqEntry.content, PqEntry.deletedAt, mergePairs, mergeContent, liftOk, bothOk,
      mergeRequiredClock_eq, mergeClock_some]
  · simp [mergeEntry, PqEntry.content, PqEntry.deletedAt, mergePairs, mergeContent, liftOk, bothOk,
      hcomm r]
  · simp [mergeEntry, PqEntry.content, PqEntry.deletedAt, mergePairs, mergeContent, liftOk, bothOk]
  · obtain ⟨rfl, rfl⟩ : p = p' ∧ v = v' := by
      simpa using eq_of_succeeds_mergeContent (succeeds_mergeEntry.mp hok)
    simp [mergeEntry, PqEntry.content, PqEntry.deletedAt, mergePairs, mergeContent, liftOk, bothOk]

theorem mergeEntry_laws (id : S) : MergeLaws (fun _ : PqEntry S V => True) (mergeEntry id)
    PqEntry.Covers (fun _ _ => True) := by
  have h := ((mergeContent_laws (α := Int × V) (PqError.pushConflict id)).pairs
    clock_laws).pullbackOk (g := mergeEntry id) (fun e : PqEntry S V => (e.content, e.deletedAt))
    PqEntry.content_deletedAt_injective (fun _ _ _ _ => ⟨trivial, trivial⟩)
    (fun _ _ _ _ hok => succeeds_mergeEntry.mpr (succeeds_mergePairs.mp hok).1)
    fun _ _ _ _ hok => mergeEntry_eq hok
  exact h.congr (fun _ => by simp) fun _ _ => by simp

theorem laws : MergeLaws WF (merge : PriorityQueue S V → PriorityQueue S V → _) Covers
    (fun _ _ => True) := by
  have h := (MergeLaws.map (κ := S) mergeEntry_laws).pullback (g := merge)
    (fun q : PriorityQueue S V => q.entries) (fun a b hab => by cases a; cases b; cases hab; rfl)
    fun _ _ => rfl
  exact h.congr (fun _ => Iff.rfl) fun _ _ => by simp [OnCommon]

end PriorityQueue

end PriorityQueue

section Text

/-- The local attribute is not older than the remote one. -/
def AttrCovers (l r : Option V × S) : Prop := r.2 ≤ l.2

/-- Attributes with the same stamp are the same. -/
def AttrTies (l r : Option V × S) : Prop := l.2 = r.2 → l = r

theorem mergeAttr_laws : MergeLaws (fun _ : Option V × S => True)
    (liftOk Text.mergeAttr : _ → _ → (Option V × S) × Except ε Bool) AttrCovers AttrTies := by
  refine ⟨fun _ _ _ _ => trivial, ?_, ?_, ?_, ?_⟩
  · intro v r _ _
    simp only [liftOk, Text.mergeAttr, AttrCovers]
    split_ifs with h <;> simp [h]
  · intro v r _ _ _
    simp only [liftOk, Text.mergeAttr, AttrCovers]
    split_ifs with h
    · simp [h]
    · refine iff_of_false ?_ h
      rintro rfl
      exact h le_rfl
  · intro v r _ _ _ _
    simp only [liftOk, Text.mergeAttr, AttrTies]
    rcases lt_trichotomy v.2 r.2 with hlt | heq | hgt
    · simp [hlt.le, hlt.not_ge, hlt.ne]
    · simp [heq]
    · simp [hgt.le, hgt.not_ge, hgt.ne']
  · intro a b c _ _ _ _ _ _ _
    simp only [liftOk, Text.mergeAttr]
    by_cases hab : b.2 ≤ a.2 <;> by_cases hbc : c.2 ≤ b.2
    · simp [hab, hbc, hbc.trans hab]
    · simp [hab, hbc]
    · simp [hab, hbc]
    · have hac : ¬ c.2 ≤ a.2 := fun h => hab ((not_le.mp hbc).le.trans h)
      simp [hab, hbc, hac]

namespace TextEntry

def WF (e : TextEntry S V) : Prop := WMap (fun _ => True) e.attrs

/-- The content is known, and neither the deletion nor an attribute is later in the remote entry. -/
def Covers (l r : TextEntry S V) : Prop :=
  ContentCovers l.content r.content ∧ ClockCovers l.deletedAt r.deletedAt ∧
    CoversMap AttrCovers l.attrs r.attrs

def Ties (l r : TextEntry S V) : Prop := OnCommon AttrTies l.attrs r.attrs

end TextEntry

namespace Text

def WF (t : Text S V) : Prop := WMap TextEntry.WF t.entries

def Covers (t remote : Text S V) : Prop := CoversMap TextEntry.Covers t.entries remote.entries

def Ties (t remote : Text S V) : Prop := OnCommon TextEntry.Ties t.entries remote.entries

/-- `mergeEntry` with the check of the contents at each entry. -/
def checkedEntry (id : TextId S) (l r : TextEntry S V) : TextEntry S V × Except (TextError S) Bool :=
  let merged := mergePairs (mergeContent (TextError.insertConflict id))
    (mergePairs (liftOk mergeClock) (liftOk (mergeTotal mergeAttr)))
    (l.content, l.deletedAt, l.attrs) (r.content, r.deletedAt, r.attrs)
  (⟨merged.1.1, merged.1.2.1, merged.1.2.2⟩, merged.2)

theorem checkedEntry_laws (id : TextId S) :
    MergeLaws TextEntry.WF (checkedEntry id : TextEntry S V → _) TextEntry.Covers TextEntry.Ties := by
  have hattrs := (MergeLaws.total (κ := String) (mergeAttr_laws (S := S) (V := V))).changeError
    (η := TextError S)
  have h := ((mergeContent_laws (TextError.insertConflict id)).pairs
    (clock_laws.pairs hattrs)).pullback (g := checkedEntry id)
    (fun e : TextEntry S V => (e.content, e.deletedAt, e.attrs))
    (fun a b hab => by cases a; cases b; cases hab; rfl) (fun _ _ => rfl)
  exact h.congr (fun _ => by simp [TextEntry.WF]) fun _ _ => by simp [TextEntry.Ties]

theorem mergeConflicts_iff (t : Text S V) (id : TextId S) (r : TextEntry S V) :
    t.mergeConflicts (id, r) = true ↔ ∃ l, get t.entries id = some l ∧
      ¬ Succeeds (mergeContent (TextError.insertConflict id) l.content r.content) := by
  rw [mergeConflicts]
  cases get t.entries id with
  | none => simp
  | some l =>
    simp only [Option.some.injEq, exists_eq_left', Succeeds]
    cases l.content with
    | none => cases r.content <;> simp [mergeContent]
    | some a =>
      cases r.content with
      | none => simp [mergeContent]
      | some b => by_cases hab : a = b <;> simp [mergeContent, hab]

theorem checkedEntry_eq {id : TextId S} {l r : TextEntry S V}
    (h : Succeeds (mergeContent (TextError.insertConflict id) l.content r.content)) :
    checkedEntry id l r = liftOk mergeEntry l r := by
  obtain ⟨c, d, a⟩ := l
  obtain ⟨c', d', a'⟩ := r
  cases c <;> cases c'
  · simp [checkedEntry, mergePairs, mergeContent, liftOk, bothOk, mergeEntry]
  · simp [checkedEntry, mergePairs, mergeContent, liftOk, bothOk, mergeEntry]
  · simp [checkedEntry, mergePairs, mergeContent, liftOk, bothOk, mergeEntry]
  · obtain rfl := eq_of_succeeds_mergeContent h
    simp [checkedEntry, mergePairs, mergeContent, liftOk, bothOk, mergeEntry]

/-- Without a conflict the merge is the loop over checked entries. -/
theorem merge_eq {t remote : Text S V} (hremote : WF remote)
    (h : ∀ e ∈ remote.entries, t.mergeConflicts e = false) :
    t.merge remote = (⟨(mergeMap checkedEntry t.entries remote.entries false).1⟩,
      (mergeMap checkedEntry t.entries remote.entries false).2) := by
  have hfind : remote.entries.find? (mergeConflicts t) = none := by
    rw [List.find?_eq_none]
    intro e he
    simp [h e he]
  have hcongr : mergeMap checkedEntry t.entries remote.entries false =
      mergeMap (fun _ => liftOk mergeEntry) t.entries remote.entries false := by
    refine mergeMap_congr hremote.1 _ _ ?_
    intro id l r hl hr
    refine checkedEntry_eq ?_
    by_contra hno
    have := h (id, r) (mem_of_get hr)
    rw [(mergeConflicts_iff t id r).mpr ⟨l, hl, hno⟩] at this
    cases this
  have htotal : mergeMap (fun _ => liftOk mergeEntry) t.entries remote.entries false =
      ((mergeTotal mergeEntry t.entries remote.entries).1,
        (.ok (mergeTotal mergeEntry t.entries remote.entries).2 : Except (TextError S) Bool)) :=
    mergeTotal_eq mergeEntry t.entries remote.entries
  rw [hcongr, htotal, merge, hfind]

/-- A merge that goes through has met no conflict. -/
theorem noConflict_of_succeeds {t remote : Text S V} (h : Succeeds (t.merge remote)) :
    ∀ e ∈ remote.entries, t.mergeConflicts e = false := by
  obtain ⟨c, hc⟩ := h
  rw [merge] at hc
  cases hfind : remote.entries.find? (mergeConflicts t) with
  | some e =>
    rw [hfind] at hc
    cases hc
  | none =>
    intro e he
    simpa using List.find?_eq_none.mp hfind e he

theorem laws : MergeLaws WF (merge : Text S V → Text S V → _) Covers Ties := by
  have hmap := MergeLaws.map (κ := TextId S) (checkedEntry_laws (S := S) (V := V))
  refine hmap.pullbackOk (g := merge) (fun t : Text S V => t.entries)
    (fun a b hab => by cases a; cases b; cases hab; rfl) ?_ ?_ ?_
  · intro a b ha hb
    by_cases hok : Succeeds (a.merge b)
    · rw [merge_eq hb (noConflict_of_succeeds hok)]
      exact hmap.wf _ _ ha hb
    · rw [merge] at hok ⊢
      cases hfind : b.entries.find? (mergeConflicts a) with
      | some e => exact ha
      | none =>
        rw [hfind] at hok
        exact absurd ⟨_, rfl⟩ hok
  · intro a b ha hb hok
    have hmerges := (succeeds_mergeMap hb.1).mp hok
    have hnone : ∀ e ∈ b.entries, a.mergeConflicts e = false := by
      intro e he
      rw [Bool.eq_false_iff, Ne, mergeConflicts_iff]
      rintro ⟨l, hl, hno⟩
      exact hno (succeeds_mergePairs.mp (hmerges e.1 l e.2 hl (get_of_mem hb.1 he))).1
    rw [merge_eq hb hnone]
    exact hok.of_eq rfl
  · intro a b ha hb hok
    rw [merge_eq hb (noConflict_of_succeeds hok)]

end Text

end Text

section MvRegister

namespace MvRegister

/-- The assignments that a merge looks at: those that neither side has replaced. -/
def unreplaced (r remote : MvRegister S V) : List (S × V) :=
  remote.entries.filter fun e => !contains (mergeRemovals r.removed remote.removed).1 e.1

def WF (r : MvRegister S V) : Prop := WMap (fun _ => True) r.entries ∧ WMap (fun _ => True) r.removed

/-- The removals are not later in the remote register, each of its assignments is known or was
replaced here, and none is kept that was replaced. -/
def Covers (r remote : MvRegister S V) : Prop :=
  CoversMap (fun l r => r ≤ l) r.removed remote.removed ∧
  (∀ id v, get remote.entries id = some v →
    contains r.removed id = true ∨ get r.entries id = some v) ∧
  ∀ id, contains r.removed id = true → get r.entries id = none

theorem contains_mergeRemovals {removed remote : List (S × S)} (hremote : Sorted (· < ·) remote)
    (id : S) : contains (mergeRemovals removed remote).1 id =
      (contains removed id || contains remote id) := by
  rw [contains, mergeRemovals, (mergeTotal_spec _ hremote removed).1, contains, contains]
  cases get removed id <;> cases get remote id <;> rfl

theorem sorted_unreplaced {r remote : MvRegister S V} (hremote : WF remote) :
    Sorted (· < ·) (r.unreplaced remote) :=
  hremote.1.1.filter _

theorem get_unreplaced {r remote : MvRegister S V} (hremote : WF remote) (id : S) :
    get (r.unreplaced remote) id =
      if contains r.removed id || contains remote.removed id then none
      else get remote.entries id := by
  rw [unreplaced, get_filter fun id => !contains (mergeRemovals r.removed remote.removed).1 id,
    contains_mergeRemovals hremote.2.1]
  cases contains r.removed id || contains remote.removed id <;> rfl

variable [DecidableEq V]

/-- An assignment that is known must be the same one. -/
def keepFirst (id : S) (existing value : V) : V × Except (MvRegisterError S) Bool :=
  (existing, if existing ≠ value then .error (.assignmentConflict id) else .ok false)

/-- The loop of a merge over the assignments that it looks at. -/
def mergeAssigned (r remote : MvRegister S V) : List (S × V) × Except (MvRegisterError S) Bool :=
  mergeMap keepFirst r.entries (r.unreplaced remote) false

theorem merge_eq (r remote : MvRegister S V) :
    r.merge remote =
      match r.mergeAssigned remote with
      | (entries, .error e) => (⟨entries, (mergeRemovals r.removed remote.removed).1⟩, .error e)
      | (entries, .ok changed) =>
        (⟨(eraseAll entries ((mergeRemovals r.removed remote.removed).1.map Prod.fst)).1,
            (mergeRemovals r.removed remote.removed).1⟩,
          .ok ((mergeRemovals r.removed remote.removed).2 || changed ||
            (eraseAll entries ((mergeRemovals r.removed remote.removed).1.map Prod.fst)).2)) := by
  have hloop := mergeMap_flag (f := keepFirst) r.entries (r.unreplaced remote)
    (mergeRemovals r.removed remote.removed).2
  rw [merge]
  change (match mergeMap keepFirst r.entries (r.unreplaced remote)
    (mergeRemovals r.removed remote.removed).2 with
    | (entries, .error e) => _
    | (entries, .ok changed) => _ : MvRegister S V × _) = _
  rw [hloop, mergeAssigned]
  rcases mergeMap keepFirst r.entries (r.unreplaced remote) false with ⟨entries, e | c⟩ <;> rfl

theorem succeeds_merge {r remote : MvRegister S V} :
    Succeeds (r.merge remote) ↔ Succeeds (r.mergeAssigned remote) := by
  rw [merge_eq]
  rcases r.mergeAssigned remote with ⟨entries, e | c⟩ <;> simp [Succeeds]

theorem removed_merge (r remote : MvRegister S V) :
    (r.merge remote).1.removed = (mergeRemovals r.removed remote.removed).1 := by
  rw [merge_eq]
  rcases r.mergeAssigned remote with ⟨entries, e | c⟩ <;> rfl

theorem entries_merge {r remote : MvRegister S V} (hok : Succeeds (r.merge remote)) :
    (r.merge remote).1.entries = (eraseAll (r.mergeAssigned remote).1
      ((mergeRemovals r.removed remote.removed).1.map Prod.fst)).1 := by
  obtain ⟨c, hc⟩ := succeeds_merge.mp hok
  rw [merge_eq]
  rcases hloop : r.mergeAssigned remote with ⟨entries, e | c⟩
  · rw [hloop] at hc
    cases hc
  · rfl

theorem merge_wf (r remote : MvRegister S V) (hr : WF r) (hremote : WF remote) :
    WF (r.merge remote).1 := by
  have hloop : Sorted (· < ·) (r.mergeAssigned remote).1 := sorted_mergeMap hr.1.1 _ _
  refine ⟨⟨?_, fun _ _ _ => trivial⟩, ?_⟩
  · rw [merge_eq]
    rcases hassigned : r.mergeAssigned remote with ⟨entries, e | c⟩
    · rw [hassigned] at hloop
      exact hloop
    · rw [hassigned] at hloop
      exact sorted_eraseAll hloop _
  · rw [removed_merge]
    exact removals_laws.wf _ _ hr.2 hremote.2

/-- Assignments that both sides know and neither has replaced are the same. -/
theorem agree_of_succeeds {r remote : MvRegister S V} (hremote : WF remote)
    (hok : Succeeds (r.merge remote)) {id : S} {v w : V} (hv : get r.entries id = some v)
    (hw : get remote.entries id = some w)
    (hid : (contains r.removed id || contains remote.removed id) = false) : v = w := by
  have hw' : get (r.unreplaced remote) id = some w := by
    rw [get_unreplaced hremote, hid]
    exact hw
  obtain ⟨c, hc⟩ := (succeeds_merge.mp hok).entry (sorted_unreplaced hremote) hv hw'
  by_contra hne
  simp [keepFirst, hne] at hc

theorem get_merge {r remote : MvRegister S V} (hr : WF r) (hremote : WF remote)
    (hok : Succeeds (r.merge remote)) (id : S) :
    get (r.merge remote).1.entries id =
      if contains r.removed id || contains remote.removed id then none
      else (get r.entries id).or (get remote.entries id) := by
  have hloop : Sorted (· < ·) (r.mergeAssigned remote).1 := sorted_mergeMap hr.1.1 _ _
  rw [entries_merge hok, get_eraseAll hloop]
  simp only [← contains_iff_mem_keys, contains_mergeRemovals hremote.2.1]
  split_ifs with hid
  · rfl
  · rw [mergeAssigned, get_mergeMap (sorted_unreplaced hremote) (succeeds_merge.mp hok),
      get_unreplaced hremote, if_neg hid]
    cases get r.entries id <;> cases get remote.entries id <;> rfl

/-- Removals that are covered add none. -/
theorem contains_of_coversMap {removed remote : List (S × S)}
    (h : CoversMap (fun l r => r ≤ l) removed remote) (id : S) :
    (contains removed id || contains remote id) = contains removed id := by
  cases hr : get remote id with
  | none => simp [contains, hr]
  | some r =>
    obtain ⟨l, hl, -⟩ := h id r hr
    simp [contains, hl]

theorem mergeRemovals_unchanged {removed remote : List (S × S)} (hl : WMap (fun _ => True) removed)
    (hr : WMap (fun _ => True) remote) :
    (mergeRemovals removed remote).2 = false ↔ CoversMap (fun l r => r ≤ l) removed remote := by
  rw [← removals_laws.unchanged _ _ hl hr]
  simp [liftOk]

theorem mergeRemovals_same {removed remote : List (S × S)} (hl : WMap (fun _ => True) removed)
    (hr : WMap (fun _ => True) remote) :
    (mergeRemovals removed remote).1 = removed ↔ CoversMap (fun l r => r ≤ l) removed remote :=
  removals_laws.same _ _ hl hr (succeeds_liftOk _ _ _)

theorem mergeAssigned_unchanged {r remote : MvRegister S V} (hremote : WF remote)
    (hremoved : CoversMap (fun l r => r ≤ l) r.removed remote.removed) :
    (r.mergeAssigned remote).2 = .ok false ↔ ∀ id v, get remote.entries id = some v →
      contains r.removed id = true ∨ get r.entries id = some v := by
  rw [mergeAssigned, mergeMap_unchanged (sorted_unreplaced hremote)]
  refine forall_congr' fun id => forall_congr' fun w => ?_
  rw [get_unreplaced hremote, contains_of_coversMap hremoved]
  cases contains r.removed id with
  | true => simp
  | false => simp [keepFirst]

theorem merge_unchanged (r remote : MvRegister S V) (hr : WF r) (hremote : WF remote) :
    (r.merge remote).2 = .ok false ↔ Covers r remote := by
  have hanswer : (r.merge remote).2 = .ok false ↔
      (mergeRemovals r.removed remote.removed).2 = false ∧ (r.mergeAssigned remote).2 = .ok false ∧
        (eraseAll (r.mergeAssigned remote).1
          ((mergeRemovals r.removed remote.removed).1.map Prod.fst)).2 = false := by
    rw [merge_eq]
    rcases r.mergeAssigned remote with ⟨entries, e | c⟩ <;> simp [and_assoc]
  rw [hanswer, mergeRemovals_unchanged hr.2 hremote.2, Covers]
  refine and_congr_right fun hremoved => ?_
  rw [mergeAssigned_unchanged hremote hremoved]
  refine and_congr_right fun hassigned => ?_
  have hloop := (mergeAssigned_unchanged hremote hremoved).mpr hassigned
  have hsame : (r.mergeAssigned remote).1 = r.entries := by
    rw [mergeAssigned, mergeMap_same hr.1.1 (sorted_unreplaced hremote) ⟨false, hloop⟩]
    intro id w hw
    obtain ⟨v, hv, -⟩ := (mergeMap_unchanged (sorted_unreplaced hremote)).mp hloop id w hw
    exact ⟨v, hv, rfl⟩
  rw [hsame, (mergeRemovals_same hr.2 hremote.2).mpr hremoved, ← Bool.not_eq_true,
    eraseAll_changed hr.1.1]
  simp [← contains_iff_mem_keys]

theorem merge_same (r remote : MvRegister S V) (hr : WF r) (hremote : WF remote)
    (hok : Succeeds (r.merge remote)) : (r.merge remote).1 = r ↔ Covers r remote := by
  have hext : (r.merge remote).1 = r ↔
      (r.merge remote).1.removed = r.removed ∧ (r.merge remote).1.entries = r.entries := by
    rcases r.merge remote with ⟨⟨entries, removed⟩, answer⟩
    rcases r with ⟨entries', removed'⟩
    simp [and_comm]
  rw [hext, removed_merge, mergeRemovals_same hr.2 hremote.2, Covers]
  refine and_congr_right fun hremoved => ?_
  have hget := get_merge hr hremote hok
  simp only [contains_of_coversMap hremoved] at hget
  constructor
  · intro h
    rw [h] at hget
    refine ⟨?_, fun id hid => by simpa [hid] using hget id⟩
    intro id w hw
    have hid := hget id
    cases hrem : contains r.removed id with
    | true => exact Or.inl rfl
    | false =>
      right
      rw [hrem, hw] at hid
      cases hv : get r.entries id with
      | none => simp [hv] at hid
      | some v =>
        have hdead : (contains r.removed id || contains remote.removed id) = false := by
          rw [contains_of_coversMap hremoved, hrem]
        rw [agree_of_succeeds hremote hok hv hw hdead]
  · rintro ⟨hassigned, hdead⟩
    refine ext (merge_wf r remote hr hremote).1.1 hr.1.1 ?_
    intro id
    rw [hget]
    split_ifs with hid
    · exact (hdead id hid).symm
    · cases hw : get remote.entries id with
      | none => simp
      | some w => simp [(hassigned id w hw).resolve_left hid]

theorem laws : MergeLaws WF (merge : MvRegister S V → MvRegister S V → _) Covers
    (fun _ _ => True) := by
  have hext : ∀ {a b : MvRegister S V}, WF a → WF b → a.removed = b.removed →
      (∀ id, get a.entries id = get b.entries id) → a = b := by
    intro a b ha hb hremoved hget
    have hentries : a.entries = b.entries := ext ha.1.1 hb.1.1 hget
    cases a
    cases b
    exact congr (congrArg MvRegister.mk hentries) hremoved
  refine ⟨merge_wf, merge_unchanged, merge_same, ?_, ?_⟩
  · intro a b ha hb hok hok'
    refine iff_of_true (hext (merge_wf a b ha hb) (merge_wf b a hb ha) ?_ ?_) trivial
    · rw [removed_merge, removed_merge]
      exact (removals_laws.comm _ _ ha.2 hb.2 (succeeds_liftOk _ _ _) (succeeds_liftOk _ _ _)).mpr
        fun _ _ _ _ _ => trivial
    · intro id
      rw [get_merge ha hb hok, get_merge hb ha hok', Bool.or_comm]
      split_ifs with hid
      · rfl
      · cases hv : get a.entries id with
        | none => simp
        | some v =>
          cases hw : get b.entries id with
          | none => simp
          | some w =>
            have hdead : (contains a.removed id || contains b.removed id) = false := by
              rw [Bool.or_comm]
              simpa using hid
            rw [agree_of_succeeds hb hok hv hw hdead]
  · intro a b c ha hb hc hab habc hbc habc'
    have hwab := merge_wf a b ha hb
    have hwbc := merge_wf b c hb hc
    refine hext (merge_wf _ c hwab hc) (merge_wf a _ ha hwbc) ?_ ?_
    · simp only [removed_merge]
      exact removals_laws.assoc _ _ _ ha.2 hb.2 hc.2 (succeeds_liftOk _ _ _) (succeeds_liftOk _ _ _)
        (succeeds_liftOk _ _ _) (succeeds_liftOk _ _ _)
    · intro id
      rw [get_merge hwab hc habc, get_merge ha hwbc habc', get_merge ha hb hab,
        get_merge hb hc hbc, removed_merge, removed_merge, contains_mergeRemovals hb.2.1,
        contains_mergeRemovals hc.2.1]
      cases contains a.removed id <;> cases contains b.removed id <;>
        cases contains c.removed id <;> simp [Option.or_assoc]

end MvRegister

end MvRegister

end ZenDB.Crdt
