import ZenDB.Crdt.Cell
import ZenDB.Crdt.Sets

namespace ZenDB.Crdt

open SortedMap

/-! The multi-value register as a function of its assignments. -/

variable {S V : Type} [LinearOrder S]

namespace MvRegister

variable {ops ops' : Set (MvRegisterOp S V × S)} {r r' : MvRegister S V}

/-- The stamps of the assignments that replace one. -/
def replacementsOf (ops : Set (MvRegisterOp S V × S)) (id : S) : Set S :=
  {s | ∃ value replaces, (.assign value replaces, s) ∈ ops ∧ id ∈ replaces}

/-- An assignment is visible while nothing replaces it. -/
def Assigned (ops : Set (MvRegisterOp S V × S)) (id : S) (v : Option V) : Prop :=
  ∀ value, v = some value ↔
    (∃ replaces, (.assign value replaces, id) ∈ ops) ∧ replacementsOf ops id = ∅

def Replaced (ops : Set (MvRegisterOp S V × S)) (id : S) (c : Option S) : Prop :=
  IsLatest (replacementsOf ops id) c

def Of (ops : Set (MvRegisterOp S V × S)) (r : MvRegister S V) : Prop :=
  MapOf Assigned ops r.entries ∧ MapOf Replaced ops r.removed

omit [LinearOrder S] in
theorem assigned_unique (id : S) (v v' : Option V) (h : Assigned ops id v)
    (h' : Assigned ops id v') : v = v' :=
  Option.ext fun value => (h value).trans (h' value).symm

omit [LinearOrder S] in
/-- With distinct stamps a stamp has one assignment. -/
theorem assign_eq {U : Set (MvRegisterOp S V × S)} (hU : DistinctStamps U) {id : S} {v w : V}
    {replaces replaces' : List S} (hv : (.assign v replaces, id) ∈ U)
    (hw : (.assign w replaces', id) ∈ U) : v = w := by
  have heq := hU _ hv _ hw rfl
  cases heq
  rfl

theorem contains_removed (h : MapOf Replaced ops r.removed) (id : S) :
    contains r.removed id = false ↔ replacementsOf ops id = ∅ := by
  rw [contains, ← Bool.not_eq_true, (h.2 id).isSome_iff, Set.not_nonempty_iff_eq_empty]

theorem replacementsOf_insert {value : V} {replaces : List S} {s id : S} :
    replacementsOf (insert (.assign value replaces, s) ops) id =
      if id ∈ replaces then insert s (replacementsOf ops id) else replacementsOf ops id := by
  ext t
  split_ifs with hid
  · constructor
    · rintro ⟨v, reps, heq | hmem, hin⟩
      · cases heq
        exact Set.mem_insert _ _
      · exact Set.mem_insert_of_mem _ ⟨v, reps, hmem, hin⟩
    · rintro (rfl | ⟨v, reps, hmem, hin⟩)
      · exact ⟨value, replaces, Set.mem_insert _ _, hid⟩
      · exact ⟨v, reps, Set.mem_insert_of_mem _ hmem, hin⟩
  · constructor
    · rintro ⟨v, reps, heq | hmem, hin⟩
      · cases heq
        exact absurd hin hid
      · exact ⟨v, reps, hmem, hin⟩
    · rintro ⟨v, reps, hmem, hin⟩
      exact ⟨v, reps, Set.mem_insert_of_mem _ hmem, hin⟩

omit [LinearOrder S] in
theorem replacementsOf_union (id : S) :
    replacementsOf (ops ∪ ops') id = replacementsOf ops id ∪ replacementsOf ops' id := by
  ext t
  simp [replacementsOf, or_and_right, exists_or]

theorem replaced_apply {value : V} {replaces : List S} {s : S} {removed : List (S × S)}
    (h : MapOf Replaced ops removed) :
    MapOf Replaced (insert (.assign value replaces, s) ops)
      (updateAll (fun _ => raise s) removed replaces).1 := by
  refine h.updateAll (settles_raise s) ?_ ?_
  · intro id hid c hc
    rw [Replaced, replacementsOf_insert, if_pos hid]
    exact raise_or s hc
  · intro id hid c hc
    rw [Replaced, replacementsOf_insert, if_neg hid]
    exact hc

/-- The assignments behind an operation: those it replaces are gone, and its own is visible unless
something replaces it. -/
theorem assigned_apply {U : Set (MvRegisterOp S V × S)} (hU : DistinctStamps U) (hops : ops ⊆ U)
    {value : V} {replaces : List S} {s : S} (he : (.assign value replaces, s) ∈ U) (hr : Of ops r)
    (id : S) :
    Assigned (insert (.assign value replaces, s) ops) id
      (if id ∈ replaces then none
        else if id = s ∧ replacementsOf ops s = ∅ then some value else get r.entries id) := by
  intro w
  rw [replacementsOf_insert]
  split_ifs with hid hs
  · refine iff_of_false (by simp) ?_
    rintro ⟨-, hempty⟩
    exact (Set.insert_nonempty _ _).ne_empty hempty
  · obtain ⟨rfl, hempty⟩ := hs
    constructor
    · intro heq
      cases heq
      exact ⟨⟨replaces, Set.mem_insert _ _⟩, hempty⟩
    · rintro ⟨⟨replaces', hmem⟩, -⟩
      have hw : (.assign w replaces', id) ∈ U := Set.insert_subset he hops hmem
      rw [assign_eq hU he hw]
  · rw [hr.1.2 id w]
    refine and_congr_left fun hempty => exists_congr fun replaces' => ?_
    rw [Set.mem_insert_iff, or_iff_right]
    intro heq
    cases heq
    exact hs ⟨rfl, hempty⟩

variable [DecidableEq V]

theorem apply_eq {value : V} (replaces : List S) {s : S}
    (hknown : ∀ v, get r.entries s = some v → v = value) :
    ∃ changed, r.apply (.assign value replaces) s =
      (⟨if contains (updateAll (fun _ => raise s) r.removed replaces).1 s then
          (eraseAll r.entries replaces).1
        else SortedMap.insert (eraseAll r.entries replaces).1 s value,
        (updateAll (fun _ => raise s) r.removed replaces).1⟩, .ok changed) := by
  have hany : (get r.entries s).any (· ≠ value) = false := by
    cases hv : get r.entries s with
    | none => rfl
    | some v => simp [hknown v hv]
  rw [apply, hany, if_neg Bool.false_ne_true]
  dsimp only
  by_cases hc : contains (updateAll (fun _ => raise s) r.removed replaces).1 s = true
  · exact ⟨_, by rw [if_pos hc, if_pos hc]⟩
  · exact ⟨_, by rw [if_neg hc, if_neg hc]⟩

theorem of_apply {U : Set (MvRegisterOp S V × S)} (hU : DistinctStamps U) (hops : ops ⊆ U)
    {value : V} {replaces : List S} {s : S} (he : (.assign value replaces, s) ∈ U) (hr : Of ops r) :
    Succeeds (r.apply (.assign value replaces) s) ∧
      Of (insert (.assign value replaces, s) ops) (r.apply (.assign value replaces) s).1 := by
  have hknown : ∀ v, get r.entries s = some v → v = value := by
    intro v hv
    obtain ⟨⟨replaces', hmem⟩, -⟩ := (hr.1.2 s v).mp hv
    exact assign_eq hU (hops hmem) he
  obtain ⟨changed, happly⟩ := apply_eq replaces hknown
  have hremoved : MapOf Replaced (insert (.assign value replaces, s) ops)
      (updateAll (fun _ => raise s) r.removed replaces).1 := replaced_apply hr.2
  have hcontains : contains (updateAll (fun _ => raise s) r.removed replaces).1 s = true ↔
      ¬ (s ∉ replaces ∧ replacementsOf ops s = ∅) := by
    rw [contains, (hremoved.2 s).isSome_iff, replacementsOf_insert, Set.nonempty_iff_ne_empty]
    split_ifs with hs
    · simp [hs, (Set.insert_nonempty s (replacementsOf ops s)).ne_empty]
    · simp [hs]
  have hsorted := sorted_eraseAll hr.1.1 replaces
  rw [happly]
  refine ⟨⟨changed, rfl⟩, ⟨?_, ?_⟩, hremoved⟩
  · dsimp only
    split_ifs
    · exact hsorted
    · exact sorted_insert hsorted s value
  · intro id
    have hassigned := assigned_apply hU hops he hr id
    have hget : get (if contains (updateAll (fun _ => raise s) r.removed replaces).1 s then
        (eraseAll r.entries replaces).1
        else SortedMap.insert (eraseAll r.entries replaces).1 s value) id =
        if id ∈ replaces then none
        else if id = s ∧ replacementsOf ops s = ∅ then some value else get r.entries id := by
      split_ifs with hc hid hs hid hs
      · rw [get_eraseAll hr.1.1, if_pos hid]
      · obtain ⟨rfl, hempty⟩ := hs
        exact absurd ⟨hid, hempty⟩ (hcontains.mp hc)
      · rw [get_eraseAll hr.1.1, if_neg hid]
      · rw [get_insert, get_eraseAll hr.1.1, if_pos hid, if_neg]
        rintro rfl
        exact hc (hcontains.mpr fun h => h.1 hid)
      · rw [get_insert, if_pos hs.1]
      · have hne : id ≠ s := by
          rintro rfl
          have hno := mt hcontains.mpr hc
          rw [not_not] at hno
          exact hs ⟨rfl, hno.2⟩
        rw [get_insert, if_neg hne, get_eraseAll hr.1.1, if_neg hid]
    rw [hget]
    exact hassigned

omit [DecidableEq V] in
theorem of_wf (hr : Of ops r) : WF r := ⟨⟨hr.1.1, fun _ _ _ => trivial⟩, ⟨hr.2.1, fun _ _ _ => trivial⟩⟩

theorem of_merge {U : Set (MvRegisterOp S V × S)} (hU : DistinctStamps U) (hops : ops ⊆ U)
    (hops' : ops' ⊆ U) (hr : Of ops r) (hr' : Of ops' r') :
    Succeeds (r.merge r') ∧ Of (ops ∪ ops') (r.merge r').1 := by
  -- what both know is the same assignment
  have hagree : ∀ {id v w}, get r.entries id = some v → get r'.entries id = some w → v = w := by
    intro id v w hv hw
    obtain ⟨⟨replaces, hmem⟩, -⟩ := (hr.1.2 id v).mp hv
    obtain ⟨⟨replaces', hmem'⟩, -⟩ := (hr'.1.2 id w).mp hw
    exact assign_eq hU (hops hmem) (hops' hmem')
  have hwf := of_wf hr
  have hwf' := of_wf hr'
  have hok : Succeeds (r.merge r') := by
    rw [succeeds_merge, mergeAssigned, succeeds_mergeMap (sorted_unreplaced hwf')]
    intro id v w hv hw
    rw [get_unreplaced hwf'] at hw
    split_ifs at hw
    exact ⟨false, by simp [keepFirst, hagree hv hw]⟩
  refine ⟨hok, ⟨(merge_wf r r' hwf hwf').1.1, ?_⟩, ?_⟩
  · intro id w
    have hempty : (contains r.removed id || contains r'.removed id) = false ↔
        replacementsOf (ops ∪ ops') id = ∅ := by
      rw [Bool.or_eq_false_iff, contains_removed hr.2, contains_removed hr'.2, replacementsOf_union,
        Set.union_empty_iff]
    rw [get_merge hwf hwf' hok]
    split_ifs with hc
    · refine iff_of_false (by simp) ?_
      rintro ⟨-, h⟩
      rw [hempty.mpr h] at hc
      cases hc
    · rw [Bool.not_eq_true] at hc
      have hnone := hempty.mp hc
      have hparts := hnone
      rw [replacementsOf_union, Set.union_empty_iff] at hparts
      have hleft : get r.entries id = some w ↔ ∃ replaces, (.assign w replaces, id) ∈ ops := by
        rw [hr.1.2 id w, and_iff_left hparts.1]
      have hright : get r'.entries id = some w ↔ ∃ replaces, (.assign w replaces, id) ∈ ops' := by
        rw [hr'.1.2 id w, and_iff_left hparts.2]
      have hboth : (∃ replaces, (MvRegisterOp.assign w replaces, id) ∈ ops ∪ ops') ↔
          get r.entries id = some w ∨ get r'.entries id = some w := by
        rw [hleft, hright, ← exists_or]
        rfl
      rw [and_iff_left hnone, hboth, or_eq_some_of_agree fun v v' hv hv' => hagree hv hv']
  · rw [removed_merge]
    refine hr.2.mergeTotal hr'.2 ?_
    intro id c c' hc hc'
    rw [Replaced, replacementsOf_union]
    exact joinEntry_required hc hc'

theorem determined {U : Set (MvRegisterOp S V × S)} (hU : DistinctStamps U) :
    Determined (⟨[], []⟩ : MvRegister S V) (applyStamped apply) merge U Of := by
  refine ⟨⟨?_, ?_⟩, ?_, ?_, ?_⟩
  · exact MapOf.empty fun id value => by simp
  · exact MapOf.empty fun id => by simp [Replaced, IsLatest, replacementsOf]
  · rintro ops r ⟨⟨value, replaces⟩, s⟩ hops he hr
    exact of_apply hU hops he hr
  · intro ops ops' r r' hops hops' hr hr'
    exact of_merge hU hops hops' hr hr'
  · rintro ops ⟨entries, removed⟩ ⟨entries', removed'⟩ - h h'
    obtain rfl : entries = entries' := h.1.unique assigned_unique h'.1
    obtain rfl : removed = removed' := h.2.unique (fun _ _ _ => IsLatest.unique) h'.2
    rfl

/-- The replica of a register that a history leads to. -/
def replica (h : History (MvRegisterOp S V × S)) : Option (MvRegister S V) :=
  h.run ⟨[], []⟩ (applyStamped apply) merge

/-- An assignment made on what a replica shows, with a stamp that it does not know, is all that it
shows then. -/
theorem values_assign (hr : WF r) (value : V) {s : S} (hentries : get r.entries s = none)
    (hremoved : contains r.removed s = false) :
    Succeeds (r.apply (r.assign value) s) ∧ (r.apply (r.assign value) s).1.values = [value] := by
  have hknown : ∀ v, get r.entries s = some v → v = value := by
    intro v hv
    rw [hentries] at hv
    cases hv
  obtain ⟨changed, happly⟩ := apply_eq (r.entries.map Prod.fst) hknown
  have hkeys : s ∉ r.entries.map Prod.fst := by
    rw [← contains_iff_mem_keys, contains, hentries]
    exact Bool.false_ne_true
  have hcontains : contains (updateAll (fun _ => raise s) r.removed (r.entries.map Prod.fst)).1 s =
      false := by
    rw [contains, get_updateAll (settles_raise s), if_neg hkeys]
    exact hremoved
  have herased : (eraseAll r.entries (r.entries.map Prod.fst)).1 = [] := by
    refine ext (sorted_eraseAll hr.1.1 _) List.Pairwise.nil ?_
    intro id
    rw [get_eraseAll hr.1.1, get_nil]
    split_ifs with hid
    · rfl
    · rw [← contains_iff_mem_keys, contains] at hid
      simpa using hid
  rw [assign, happly, hcontains]
  refine ⟨⟨changed, rfl⟩, ?_⟩
  simp [values, herased, SortedMap.insert]

end MvRegister

variable {P : Type} [LinearOrder P]

/-- A register shows exactly the assignments that no assignment replaces, and a new one over what it
shows is then alone. -/
theorem register_keeps_unsuperseded
    (h : History (MvRegisterOp (EventStamp P) (Value P) × EventStamp P))
    (hdistinct : DistinctStamps {e | e ∈ h.events}) :
    ∃ r, MvRegister.replica h = some r ∧
      (∀ id value, (id, value) ∈ r.entries ↔ (∃ replaces, (.assign value replaces, id) ∈ h.events) ∧
        ∀ value' replaces s, (.assign value' replaces, s) ∈ h.events → id ∉ replaces) ∧
      (∀ id, ¬ (contains r.entries id = true ∧ contains r.removed id = true)) ∧
      (∀ h', (∀ e, e ∈ h.events ↔ e ∈ h'.events) → MvRegister.replica h' = some r) ∧
      ∀ value s, contains r.entries s = false → contains r.removed s = false →
        Succeeds (r.apply (r.assign value) s) ∧ (r.apply (r.assign value) s).1.values = [value] := by
  obtain ⟨r, hr, hof⟩ := (MvRegister.determined hdistinct).run_eq_some h fun _ he => he
  have hget : ∀ id value, get r.entries id = some value ↔
      (∃ replaces, (.assign value replaces, id) ∈ h.events) ∧
        ∀ value' replaces s, (.assign value' replaces, s) ∈ h.events → id ∉ replaces := by
    intro id value
    rw [hof.1.2 id value]
    refine and_congr_right fun _ => ?_
    rw [Set.eq_empty_iff_forall_notMem]
    constructor
    · intro hno value' replaces s hmem hid
      exact hno s ⟨value', replaces, hmem, hid⟩
    · rintro hno s ⟨value', replaces, hmem, hid⟩
      exact hno value' replaces s hmem hid
  refine ⟨r, hr, ?_, ?_, ?_, ?_⟩
  · intro id value
    rw [← hget]
    exact ⟨get_of_mem hof.1.1, mem_of_get⟩
  · rintro id ⟨hentry, hremoved⟩
    obtain ⟨value, hvalue⟩ := Option.isSome_iff_exists.mp hentry
    have hempty := ((hof.1.2 id value).mp hvalue).2
    rw [(MvRegister.contains_removed hof.2 id).mpr hempty] at hremoved
    cases hremoved
  · intro h' hsame
    rw [← hr]
    exact ((MvRegister.determined hdistinct).run_eq_run h h' (fun _ he => he) hsame).symm
  · intro value s hentries hremoved
    exact MvRegister.values_assign (MvRegister.of_wf hof) value (by simpa [contains] using hentries)
      hremoved

/-- Two replicas; the second one has replaced what it saw of the first. -/
def replacedAssignment : History (MvRegisterOp (EventStamp Nat) (Value Nat) × EventStamp Nat) :=
  .merge (.apply .empty (.assign (.scalar (.int 1)) [], ⟨⟨1, 1⟩, ⟨3, 0⟩⟩))
    (.apply .empty (.assign (.scalar (.int 2)) [⟨⟨1, 1⟩, ⟨3, 0⟩⟩], ⟨⟨2, 1⟩, ⟨5, 0⟩⟩))

theorem register_keeps_unsuperseded_two :
    ∃ r, MvRegister.replica replacedAssignment = some r ∧
      (⟨⟨1, 1⟩, ⟨3, 0⟩⟩, .scalar (.int 1)) ∉ r.entries := by
  have hdistinct : DistinctStamps {e | e ∈ replacedAssignment.events} := by
    simp [DistinctStamps, replacedAssignment, History.events]
  obtain ⟨r, hr, hentries, -⟩ := register_keeps_unsuperseded replacedAssignment hdistinct
  refine ⟨r, hr, ?_⟩
  rw [hentries]
  rintro ⟨-, hno⟩
  exact hno (.scalar (.int 2)) [⟨⟨1, 1⟩, ⟨3, 0⟩⟩] ⟨⟨2, 1⟩, ⟨5, 0⟩⟩
    (by simp [replacedAssignment, History.events]) (by simp)

end ZenDB.Crdt
