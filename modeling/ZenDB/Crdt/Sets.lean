import ZenDB.Crdt.Laws
import ZenDB.Lib.Replica

namespace ZenDB.Crdt

open SortedMap

/-! The two sets as functions of their operations. -/

variable {S K : Type} [LinearOrder S]

section Clocks

theorem raise_or {stamps : Set S} {c : Option S} (s : S) (h : IsLatest stamps c) :
    IsLatest (insert s stamps) ((raise s c).or c) := by
  cases c with
  | none => exact h.insert_none
  | some t =>
    have hmax : (raise s (some t)).or (some t) = some (max s t) := by
      rw [raise]
      split_ifs with hlt
      · simp [max_eq_left hlt.le]
      · simp [max_eq_right (not_lt.mp hlt)]
    rw [hmax]
    exact h.insert_some

theorem isLatest_mergeClock {stamps stamps' : Set S} {c c' : Option S} (h : IsLatest stamps c)
    (h' : IsLatest stamps' c') : IsLatest (stamps ∪ stamps') (mergeClock c c').1 := by
  cases c' with
  | none =>
    rw [show stamps' = ∅ from h', Set.union_empty]
    exact h
  | some r =>
    cases c with
    | none =>
      rw [show stamps = ∅ from h, Set.empty_union]
      exact h'
    | some l =>
      rw [mergeClock_some]
      exact h.union_some h'

/-- Removals under one id merge to the later one. -/
theorem joinEntry_required {stamps stamps' : Set S} {c c' : Option S} (h : IsLatest stamps c)
    (h' : IsLatest stamps' c') :
    IsLatest (stamps ∪ stamps') (joinEntry mergeRequiredClock c c') := by
  have hclock : joinEntry mergeRequiredClock c c' = (mergeClock c c').1 := by
    cases c <;> cases c' <;>
      simp [joinEntry, mergeRequiredClock_eq, mergeClock_some, mergeClock_none, mergeClock_none_some]
  rw [hclock]
  exact isLatest_mergeClock h h'

end Clocks

section OrSet

def OrSetOp.key : OrSetOp K S → K
  | .add key => key
  | .remove key _ => key

namespace OrSet

variable {ops ops' : Set (OrSetOp K S × S)} {key : K}

/-- The stamps of the removes that observed a tag. -/
def removalsOf (ops : Set (OrSetOp K S × S)) (key : K) (tag : S) : Set S :=
  {s | ∃ observed, (.remove key observed, s) ∈ ops ∧ tag ∈ observed}

def Added (key : K) (ops : Set (OrSetOp K S × S)) (tag : S) (v : Option Unit) : Prop :=
  v.isSome ↔ (.add key, tag) ∈ ops

def Removed (key : K) (ops : Set (OrSetOp K S × S)) (tag : S) (v : Option S) : Prop :=
  IsLatest (removalsOf ops key tag) v

/-- What a set has under a key after `ops`. -/
def EntryOf (ops : Set (OrSetOp K S × S)) (key : K) (v : Option (OrSetEntry S)) : Prop :=
  (v.isSome ↔ ∃ e ∈ ops, e.1.key = key) ∧ MapOf (Added key) ops (v.getD ⟨[], []⟩).adds ∧
    MapOf (Removed key) ops (v.getD ⟨[], []⟩).rems

def Of [LinearOrder K] (ops : Set (OrSetOp K S × S)) (o : OrSet K S) : Prop :=
  MapOf EntryOf ops o.entries

omit [LinearOrder S] in
theorem added_unique (tag : S) (v v' : Option Unit) (h : Added key ops tag v)
    (h' : Added key ops tag v') : v = v' := by
  have hsome : v.isSome ↔ v'.isSome := Iff.trans h h'.symm
  cases v <;> cases v' <;> simp_all

theorem entryOf_unique (key : K) (v v' : Option (OrSetEntry S)) (h : EntryOf ops key v)
    (h' : EntryOf ops key v') : v = v' := by
  have hadds := h.2.1.unique added_unique h'.2.1
  have hrems := h.2.2.unique (fun _ _ _ => IsLatest.unique) h'.2.2
  have hsome : v.isSome ↔ v'.isSome := h.1.trans h'.1.symm
  cases v with
  | none => cases v' <;> simp_all
  | some e =>
    cases v' with
    | none => simp_all
    | some e' =>
      obtain ⟨adds, rems⟩ := e
      obtain ⟨adds', rems'⟩ := e'
      simp_all

/-- An operation on another key changes nothing here. -/
theorem entryOf_frame {e : OrSetOp K S × S} (hkey : key ≠ e.1.key) {v : Option (OrSetEntry S)}
    (h : EntryOf ops key v) : EntryOf (insert e ops) key v := by
  obtain ⟨op, s⟩ := e
  have hadds : ∀ tag, (OrSetOp.add key, tag) ∈ insert (op, s) ops ↔ (OrSetOp.add key, tag) ∈ ops := by
    intro tag
    rw [Set.mem_insert_iff, or_iff_right]
    rintro heq
    cases heq
    exact hkey rfl
  have hrems : ∀ tag, removalsOf (insert (op, s) ops) key tag = removalsOf ops key tag := by
    intro tag
    ext t
    refine exists_congr fun observed => and_congr_left fun _ => ?_
    rw [Set.mem_insert_iff, or_iff_right]
    rintro heq
    cases heq
    exact hkey rfl
  refine ⟨?_, ⟨h.2.1.1, fun tag => ?_⟩, ⟨h.2.2.1, fun tag => ?_⟩⟩
  · rw [h.1]
    constructor
    · rintro ⟨e, he, hk⟩
      exact ⟨e, Set.mem_insert_of_mem _ he, hk⟩
    · rintro ⟨e, he, hk⟩
      rcases he with rfl | he
      · exact absurd hk.symm hkey
      · exact ⟨e, he, hk⟩
  · exact (h.2.1.2 tag).trans (hadds tag).symm
  · rw [Removed, hrems]
    exact h.2.2.2 tag

theorem entryOf_add (s : S) {v : Option (OrSetEntry S)} (h : EntryOf ops key v) :
    EntryOf (insert (.add key, s) ops) key
      (some ⟨SortedMap.insert (v.getD ⟨[], []⟩).adds s (), (v.getD ⟨[], []⟩).rems⟩) := by
  refine ⟨iff_of_true rfl ⟨_, Set.mem_insert _ _, rfl⟩, ?_, ?_⟩
  · refine h.2.1.insert ?_ ?_
    · exact iff_of_true rfl (Set.mem_insert _ _)
    · intro tag htag hadded
      refine hadded.trans ?_
      rw [Set.mem_insert_iff, or_iff_right]
      intro heq
      cases heq
      exact htag rfl
  · refine ⟨h.2.2.1, fun tag => ?_⟩
    have hrems : removalsOf (insert (OrSetOp.add key, s) ops) key tag = removalsOf ops key tag := by
      ext t
      simp [removalsOf]
    rw [Removed, hrems]
    exact h.2.2.2 tag

theorem entryOf_remove (observed : List S) (s : S) {v : Option (OrSetEntry S)}
    (h : EntryOf ops key v) :
    EntryOf (insert (.remove key observed, s) ops) key
      (some ⟨(v.getD ⟨[], []⟩).adds,
        (updateAll (fun _ => raise s) (v.getD ⟨[], []⟩).rems observed).1⟩) := by
  refine ⟨iff_of_true rfl ⟨_, Set.mem_insert _ _, rfl⟩, ⟨h.2.1.1, fun tag => ?_⟩, ?_⟩
  · refine (h.2.1.2 tag).trans ?_
    simp
  · refine h.2.2.updateAll (settles_raise s) ?_ ?_
    · intro tag htag c hc
      have hrems : removalsOf (insert (OrSetOp.remove key observed, s) ops) key tag =
          insert s (removalsOf ops key tag) := by
        ext t
        simp only [removalsOf, Set.mem_ofPred_eq, Set.mem_insert_iff, Prod.mk.injEq,
          OrSetOp.remove.injEq, true_and]
        constructor
        · rintro ⟨obs, ⟨-, rfl⟩ | hmem, hobs⟩
          · exact Or.inl rfl
          · exact Or.inr ⟨obs, hmem, hobs⟩
        · rintro (rfl | ⟨obs, hmem, hobs⟩)
          · exact ⟨observed, Or.inl ⟨rfl, rfl⟩, htag⟩
          · exact ⟨obs, Or.inr hmem, hobs⟩
      rw [Removed, hrems]
      exact raise_or s hc
    · intro tag htag c hc
      have hrems : removalsOf (insert (OrSetOp.remove key observed, s) ops) key tag =
          removalsOf ops key tag := by
        ext t
        refine exists_congr fun obs => ?_
        rw [Set.mem_insert_iff]
        constructor
        · rintro ⟨heq | hmem, hobs⟩
          · cases heq
            exact absurd hobs htag
          · exact ⟨hmem, hobs⟩
        · rintro ⟨hmem, hobs⟩
          exact ⟨Or.inr hmem, hobs⟩
      rw [Removed, hrems]
      exact hc

theorem mergeTotal_added {m m' : List (S × Unit)} (hm : MapOf (Added key) ops m)
    (hm' : MapOf (Added key) ops' m') :
    MapOf (Added key) (ops ∪ ops') (mergeTotal (fun _ _ => ((), false)) m m').1 := by
  refine hm.mergeTotal hm' ?_
  intro tag v v' hv hv'
  have hboth : (.add key, tag) ∈ ops ∪ ops' ↔ v.isSome ∨ v'.isSome := or_congr hv.symm hv'.symm
  rw [Added, hboth]
  cases v <;> cases v' <;> simp [joinEntry]

theorem mergeRemovals_removed {m m' : List (S × S)} (hm : MapOf (Removed key) ops m)
    (hm' : MapOf (Removed key) ops' m') :
    MapOf (Removed key) (ops ∪ ops') (mergeRemovals m m').1 := by
  refine hm.mergeTotal hm' ?_
  intro tag v v' hv hv'
  have hunion : removalsOf (ops ∪ ops') key tag =
      removalsOf ops key tag ∪ removalsOf ops' key tag := by
    ext t
    simp [removalsOf, or_and_right, exists_or]
  rw [Removed, hunion]
  exact joinEntry_required hv hv'

theorem entryOf_merge {l r : Option (OrSetEntry S)} (hl : EntryOf ops key l)
    (hr : EntryOf ops' key r) : EntryOf (ops ∪ ops') key (joinEntry mergeEntry l r) := by
  have hadds := mergeTotal_added hl.2.1 hr.2.1
  have hrems := mergeRemovals_removed hl.2.2 hr.2.2
  have hsome : (joinEntry mergeEntry l r).isSome ↔ l.isSome ∨ r.isSome := by
    cases l <;> cases r <;> simp [joinEntry]
  -- a missing entry merges like a blank one
  have hentry : (joinEntry mergeEntry l r).getD ⟨[], []⟩ =
      (mergeEntry (l.getD ⟨[], []⟩) (r.getD ⟨[], []⟩)).1 := by
    cases l with
    | none =>
      change r.getD ⟨[], []⟩ = _
      rw [mergeEntry, mergeRemovals]
      dsimp only [Option.getD_none]
      rw [mergeTotal_nil _ hr.2.1.1, mergeTotal_nil _ hr.2.2.1]
    | some l => cases r <;> rfl
  refine ⟨?_, ?_, ?_⟩
  · rw [hsome, hl.1, hr.1]
    simp [or_and_right, exists_or]
  · rw [hentry]
    exact hadds
  · rw [hentry]
    exact hrems

variable [LinearOrder K]

theorem determined :
    Determined (⟨[]⟩ : OrSet K S) (applyOk OrSet.apply) (liftOk OrSet.merge) Set.univ Of := by
  refine ⟨?_, ?_, ?_, ?_⟩
  · refine MapOf.empty fun key => ⟨by simp, MapOf.empty fun tag => by simp [Added], ?_⟩
    refine MapOf.empty fun tag => ?_
    simp [Removed, IsLatest, removalsOf]
  · rintro ops o ⟨op, s⟩ - - ho
    refine ⟨⟨_, rfl⟩, ?_⟩
    cases op with
    | add key => exact ho.insert (entryOf_add s (ho.2 key)) fun k hk hentry => entryOf_frame hk hentry
    | remove key observed =>
      exact ho.insert (entryOf_remove observed s (ho.2 key)) fun k hk hentry => entryOf_frame hk hentry
  · intro ops ops' o o' _ _ ho ho'
    exact ⟨⟨_, rfl⟩, ho.mergeTotal ho' fun key l r => entryOf_merge⟩
  · rintro ops ⟨entries⟩ ⟨entries'⟩ - ho ho'
    exact congrArg OrSet.mk (ho.unique entryOf_unique ho')

/-- A key is in the set if one of its add tags was never observed by a remove. -/
theorem contains_iff {o : OrSet K S} (ho : Of ops o) (key : K) :
    o.contains key = true ↔ ∃ tag, (.add key, tag) ∈ ops ∧
      ∀ observed s, (.remove key observed, s) ∈ ops → tag ∉ observed := by
  obtain ⟨htouched, hadds, hrems⟩ := ho.2 key
  have hremoved : ∀ {rems : List (S × S)}, MapOf (Removed key) ops rems → ∀ tag,
      (!SortedMap.contains rems tag) = true ↔
        ∀ observed s, (.remove key observed, s) ∈ ops → tag ∉ observed := by
    intro rems h tag
    rw [SortedMap.contains, Bool.not_eq_true', ← Bool.not_eq_true, (h.2 tag).isSome_iff,
      Set.not_nonempty_iff_eq_empty, Set.eq_empty_iff_forall_notMem]
    simp only [removalsOf, Set.mem_ofPred_eq, not_exists, not_and]
    exact forall_comm
  rw [OrSet.contains]
  cases hget : get o.entries key with
  | none =>
    refine iff_of_false (by simp) ?_
    rintro ⟨tag, htag, -⟩
    have hno := htouched.mpr ⟨_, htag, rfl⟩
    rw [hget] at hno
    cases hno
  | some e =>
    rw [hget, Option.getD_some] at hadds hrems
    rw [Option.any_some, OrSetEntry.isLive, List.any_eq_true]
    constructor
    · rintro ⟨⟨tag, u⟩, hmem, hlive⟩
      refine ⟨tag, ?_, (hremoved hrems tag).mp hlive⟩
      exact (hadds.2 tag).mp (by rw [get_of_mem hadds.1 hmem]; rfl)
    · rintro ⟨tag, htag, hlive⟩
      obtain ⟨u, hu⟩ := Option.isSome_iff_exists.mp ((hadds.2 tag).mpr htag)
      exact ⟨(tag, u), mem_of_get hu, (hremoved hrems tag).mpr hlive⟩

end OrSet

end OrSet

section Set

variable [Inhabited S]

def SetOp.key : SetOp K → K
  | .add key => key
  | .remove key => key

namespace LwwSet

variable {ops ops' : Set (SetOp K × S)} {key : K}

def addsOf (ops : Set (SetOp K × S)) (key : K) : Set S := {s | (.add key, s) ∈ ops}

def removesOf (ops : Set (SetOp K × S)) (key : K) : Set S := {s | (.remove key, s) ∈ ops}

/-- The clocks of a key: the greatest stamps, counted from the default one. -/
def Clocks (ops : Set (SetOp K × S)) (key : K) (m : Meta S) : Prop :=
  IsGreatest (insert default (addsOf ops key)) m.updated ∧
    IsGreatest (insert default (removesOf ops key)) m.deleted

def EntryOf (ops : Set (SetOp K × S)) (key : K) (v : Option (Meta S)) : Prop :=
  (v.isSome ↔ ∃ e ∈ ops, e.1.key = key) ∧ Clocks ops key (v.getD ⟨default, default⟩)

def Of [LinearOrder K] (ops : Set (SetOp K × S)) (s : LwwSet K S) : Prop :=
  MapOf EntryOf ops s.entries

theorem clocks_unique {m m' : Meta S} (h : Clocks ops key m) (h' : Clocks ops key m') : m = m' := by
  obtain ⟨updated, deleted⟩ := m
  obtain ⟨updated', deleted'⟩ := m'
  obtain rfl : updated = updated' := h.1.unique h'.1
  obtain rfl : deleted = deleted' := h.2.unique h'.2
  rfl

theorem entryOf_unique (key : K) (v v' : Option (Meta S)) (h : EntryOf ops key v)
    (h' : EntryOf ops key v') : v = v' := by
  have hclocks := clocks_unique h.2 h'.2
  have hsome : v.isSome ↔ v'.isSome := h.1.trans h'.1.symm
  cases v <;> cases v' <;> simp_all

theorem entryOf_frame {e : SetOp K × S} (hkey : key ≠ e.1.key) {v : Option (Meta S)}
    (h : EntryOf ops key v) : EntryOf (insert e ops) key v := by
  obtain ⟨op, s⟩ := e
  have hother : ∀ op' : SetOp K, op'.key = key → ∀ t, (op', t) ∈ insert (op, s) ops ↔ (op', t) ∈ ops := by
    intro op' hop' t
    rw [Set.mem_insert_iff, or_iff_right]
    intro heq
    cases heq
    exact hkey hop'.symm
  have hadds : addsOf (insert (op, s) ops) key = addsOf ops key := Set.ext (hother _ rfl)
  have hremoves : removesOf (insert (op, s) ops) key = removesOf ops key := Set.ext (hother _ rfl)
  refine ⟨?_, ?_⟩
  · rw [h.1]
    constructor
    · rintro ⟨e, he, hk⟩
      exact ⟨e, Set.mem_insert_of_mem _ he, hk⟩
    · rintro ⟨e, he, hk⟩
      rcases he with rfl | he
      · exact absurd hk.symm hkey
      · exact ⟨e, he, hk⟩
  · rw [Clocks, hadds, hremoves]
    exact h.2

theorem clocks_add (s : S) {m : Meta S} (h : Clocks ops key m) :
    Clocks (insert (.add key, s) ops) key {m with updated := (mergeRequiredClock m.updated s).1} := by
  have hadds : addsOf (insert (SetOp.add key, s) ops) key = insert s (addsOf ops key) := by
    ext t
    simp [addsOf]
  have hremoves : removesOf (insert (SetOp.add key, s) ops) key = removesOf ops key := by
    ext t
    simp [removesOf]
  refine ⟨?_, hremoves ▸ h.2⟩
  rw [hadds, Set.insert_comm, mergeRequiredClock_eq, max_comm]
  exact h.1.insert s

theorem clocks_remove (s : S) {m : Meta S} (h : Clocks ops key m) :
    Clocks (insert (.remove key, s) ops) key
      {m with deleted := (mergeRequiredClock m.deleted s).1} := by
  have hadds : addsOf (insert (SetOp.remove key, s) ops) key = addsOf ops key := by
    ext t
    simp [addsOf]
  have hremoves : removesOf (insert (SetOp.remove key, s) ops) key = insert s (removesOf ops key) := by
    ext t
    simp [removesOf]
  refine ⟨hadds ▸ h.1, ?_⟩
  rw [hremoves, Set.insert_comm, mergeRequiredClock_eq, max_comm]
  exact h.2.insert s

theorem clocks_merge {l r : Meta S} (hl : Clocks ops key l) (hr : Clocks ops' key r) :
    Clocks (ops ∪ ops') key (mergeMeta l r).1 := by
  have hadds : insert default (addsOf (ops ∪ ops') key) =
      insert default (addsOf ops key) ∪ insert default (addsOf ops' key) :=
    Set.insert_union_distrib _ _ _
  have hremoves : insert default (removesOf (ops ∪ ops') key) =
      insert default (removesOf ops key) ∪ insert default (removesOf ops' key) :=
    Set.insert_union_distrib _ _ _
  refine ⟨?_, ?_⟩
  · rw [hadds, mergeMeta, mergeRequiredClock_eq]
    exact hl.1.union hr.1
  · rw [hremoves, mergeMeta, mergeRequiredClock_eq, mergeRequiredClock_eq]
    exact hl.2.union hr.2

theorem entryOf_merge {l r : Option (Meta S)} (hl : EntryOf ops key l) (hr : EntryOf ops' key r) :
    EntryOf (ops ∪ ops') key (joinEntry mergeMeta l r) := by
  have hsome : (joinEntry mergeMeta l r).isSome ↔ l.isSome ∨ r.isSome := by
    cases l <;> cases r <;> simp [joinEntry]
  have hclocks := clocks_merge hl.2 hr.2
  -- the default clocks of a missing entry are below all others
  have hentry : (joinEntry mergeMeta l r).getD ⟨default, default⟩ =
      (mergeMeta (l.getD ⟨default, default⟩) (r.getD ⟨default, default⟩)).1 := by
    have hr₁ : default ≤ (r.getD ⟨default, default⟩).updated := hr.2.1.2 (Set.mem_insert _ _)
    have hr₂ : default ≤ (r.getD ⟨default, default⟩).deleted := hr.2.2.2 (Set.mem_insert _ _)
    have hl₁ : default ≤ (l.getD ⟨default, default⟩).updated := hl.2.1.2 (Set.mem_insert _ _)
    have hl₂ : default ≤ (l.getD ⟨default, default⟩).deleted := hl.2.2.2 (Set.mem_insert _ _)
    cases l <;> cases r <;> simp_all [joinEntry, mergeMeta, mergeRequiredClock_eq]
  refine ⟨?_, ?_⟩
  · rw [hsome, hl.1, hr.1]
    simp [or_and_right, exists_or]
  · rw [hentry]
    exact hclocks

variable [LinearOrder K]

theorem determined :
    Determined (⟨[]⟩ : LwwSet K S) (applyOk LwwSet.apply) (liftOk LwwSet.merge) Set.univ Of := by
  refine ⟨?_, ?_, ?_, ?_⟩
  · refine MapOf.empty fun key => ⟨by simp, ?_⟩
    simp [Clocks, addsOf, removesOf]
  · rintro ops m ⟨op, s⟩ - - hm
    refine ⟨⟨_, rfl⟩, ?_⟩
    cases op with
    | add key =>
      refine hm.insert ⟨iff_of_true rfl ⟨_, Set.mem_insert _ _, rfl⟩, ?_⟩
        fun k hk hentry => entryOf_frame hk hentry
      exact clocks_add s (hm.2 key).2
    | remove key =>
      refine hm.insert ⟨iff_of_true rfl ⟨_, Set.mem_insert _ _, rfl⟩, ?_⟩
        fun k hk hentry => entryOf_frame hk hentry
      exact clocks_remove s (hm.2 key).2
  · intro ops ops' m m' _ _ hm hm'
    exact ⟨⟨_, rfl⟩, hm.mergeTotal hm' fun key l r => entryOf_merge⟩
  · rintro ops ⟨entries⟩ ⟨entries'⟩ - hm hm'
    exact congrArg LwwSet.mk (hm.unique entryOf_unique hm')

/-- A key is in the set if its greatest add is later than the default stamp and all its removes. -/
theorem contains_iff {m : LwwSet K S} (hm : Of ops m) (key : K) :
    m.contains key = true ↔
      ∃ s, IsGreatest (addsOf ops key) s ∧ default < s ∧ ∀ t ∈ removesOf ops key, t < s := by
  obtain ⟨htouched, hupdated, hdeleted⟩ := hm.2 key
  rw [LwwSet.contains]
  cases hget : get m.entries key with
  | none =>
    refine iff_of_false (by simp) ?_
    rintro ⟨s, hs, -⟩
    have hno := htouched.mpr ⟨_, hs.1, rfl⟩
    rw [hget] at hno
    cases hno
  | some e =>
    rw [hget, Option.getD_some] at hupdated hdeleted
    rw [Option.any_some, Meta.isLive, decide_eq_true_iff]
    constructor
    · intro hlive
      have hdefault : default < e.updated := (hdeleted.2 (Set.mem_insert _ _)).trans_lt hlive
      refine ⟨e.updated, ⟨hupdated.1.resolve_left hdefault.ne', ?_⟩, hdefault, ?_⟩
      · exact fun s hs => hupdated.2 (Set.mem_insert_of_mem _ hs)
      · exact fun t ht => (hdeleted.2 (Set.mem_insert_of_mem _ ht)).trans_lt hlive
    · rintro ⟨s, hs, hdefault, hremoves⟩
      have hle : s ≤ e.updated := hupdated.2 (Set.mem_insert_of_mem _ hs.1)
      rcases hdeleted.1 with heq | hmem
      · rw [heq]
        exact hdefault.trans_le hle
      · exact (hremoves _ hmem).trans_le hle

end LwwSet

end Set

section Replicas

/-- The replica of an observed-remove set that a history leads to. -/
def OrSet.replica [LinearOrder K] (h : History (OrSetOp K S × S)) : Option (OrSet K S) :=
  h.run ⟨[]⟩ (applyOk OrSet.apply) (liftOk OrSet.merge)

def LwwSet.replica [Inhabited S] [LinearOrder K] (h : History (SetOp K × S)) : Option (LwwSet K S) :=
  h.run ⟨[]⟩ (applyOk LwwSet.apply) (liftOk LwwSet.merge)

variable {P : Type} [LinearOrder P] [Inhabited P]

/-- Both sets are functions of the operations that reached them, in whatever order, however often,
and through whatever merges. -/
theorem sets_determined_by_operations :
    (∀ h : History (OrSetOp (PrimaryKey P) (EventStamp P) × EventStamp P),
      ∃ o, OrSet.replica h = some o ∧
        (∀ key, o.contains key = true ↔ ∃ s, (.add key, s) ∈ h.events ∧
          ∀ observed t, (.remove key observed, t) ∈ h.events → s ∉ observed) ∧
        ∀ h', (∀ e, e ∈ h.events ↔ e ∈ h'.events) → OrSet.replica h' = some o) ∧
    ∀ h : History (SetOp (PrimaryKey P) × EventStamp P),
      ∃ m, LwwSet.replica h = some m ∧
        (∀ key, m.contains key = true ↔ ∃ s, IsGreatest {s | (.add key, s) ∈ h.events} s ∧
          default < s ∧ ∀ t, (.remove key, t) ∈ h.events → t < s) ∧
        ∀ h', (∀ e, e ∈ h.events ↔ e ∈ h'.events) → LwwSet.replica h' = some m := by
  refine ⟨fun h => ?_, fun h => ?_⟩
  · obtain ⟨o, ho, hof⟩ := OrSet.determined.run_eq_some h fun _ _ => trivial
    refine ⟨o, ho, fun key => OrSet.contains_iff hof key, ?_⟩
    intro h' hsame
    rw [← ho]
    exact (OrSet.determined.run_eq_run h h' (fun _ _ => trivial) hsame).symm
  · obtain ⟨m, hm, hof⟩ := LwwSet.determined.run_eq_some h fun _ _ => trivial
    refine ⟨m, hm, fun key => LwwSet.contains_iff hof key, ?_⟩
    intro h' hsame
    rw [← hm]
    exact (LwwSet.determined.run_eq_run h h' (fun _ _ => trivial) hsame).symm

/-- A stamp of time zero whose peer is below the sentinel: an identity multihash of no bytes. -/
def belowDefault : EventStamp PeerId := ⟨⟨⟨0, []⟩, 1⟩, ⟨0, 0⟩⟩

/-- One replica that has added a key with that stamp. -/
def addedBelowDefault : History (SetOp (PrimaryKey PeerId) × EventStamp PeerId) :=
  .apply .empty (.add (.int 7), belowDefault)

/-- The add is lost, though its stamp is not the default one and nothing removes the key. -/
theorem set_add_below_default_lost :
    belowDefault ≠ default ∧
      (LwwSet.replica addedBelowDefault).map (fun m => m.contains (.int 7)) = some false ∧
      IsGreatest {s | (.add (.int 7), s) ∈ addedBelowDefault.events} belowDefault ∧
      ∀ t, (.remove (.int 7), t) ∉ addedBelowDefault.events := by
  refine ⟨by decide +kernel, by decide +kernel, ?_, ?_⟩
  · simp [addedBelowDefault, History.events]
  · simp [addedBelowDefault, History.events]

end Replicas

end ZenDB.Crdt
