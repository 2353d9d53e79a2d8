import Mathlib.Data.List.MinMax
import ZenDB.Crdt.Cell
import ZenDB.Crdt.Sets

namespace ZenDB.Crdt

open SortedMap

/-! The priority queue as a function of its pushes and pops. -/

variable {S V : Type} [LinearOrder S]

namespace PriorityQueue

variable {ops ops' : Set (PqOp S V × S)} {id : S}

/-- The stamps of the pops of an element; one that is not later than the element has no effect. -/
def popsOf (ops : Set (PqOp S V × S)) (id : S) : Set S := {s | (.pop id, s) ∈ ops ∧ id < s}

/-- What a queue has under an id after `ops`. -/
def EntryOf (ops : Set (PqOp S V × S)) (id : S) (v : Option (PqEntry S V)) : Prop :=
  (∀ priority value, v.bind PqEntry.content = some (priority, value) ↔
    (.push priority value, id) ∈ ops) ∧ IsLatest (popsOf ops id) (v.bind PqEntry.deletedAt)

def Of (ops : Set (PqOp S V × S)) (q : PriorityQueue S V) : Prop := MapOf EntryOf ops q.entries

omit [LinearOrder S] in
/-- An entry has a content or a pop. -/
theorem eq_of_content_deletedAt {v v' : Option (PqEntry S V)}
    (hcontent : v.bind PqEntry.content = v'.bind PqEntry.content)
    (hdeleted : v.bind PqEntry.deletedAt = v'.bind PqEntry.deletedAt) : v = v' := by
  rcases v with _ | (d | ⟨p, w, d⟩) <;> rcases v' with _ | (d' | ⟨p', w', d'⟩) <;>
    simp_all [PqEntry.content, PqEntry.deletedAt]

theorem entryOf_unique (id : S) (v v' : Option (PqEntry S V)) (h : EntryOf ops id v)
    (h' : EntryOf ops id v') : v = v' := by
  apply eq_of_content_deletedAt
  · exact Option.ext fun content => (h.1 content.1 content.2).trans (h'.1 content.1 content.2).symm
  · exact h.2.unique h'.2

omit [LinearOrder S] in
theorem push_eq {U : Set (PqOp S V × S)} (hU : DistinctStamps U) {p p' : Int} {v v' : V}
    (h : (.push p v, id) ∈ U) (h' : (.push p' v', id) ∈ U) : p = p' ∧ v = v' := by
  have heq := hU _ h _ h' rfl
  cases heq
  exact ⟨rfl, rfl⟩

theorem entryOf_frame_push {s : S} {p : Int} {value : V} (hid : id ≠ s)
    {v : Option (PqEntry S V)} (h : EntryOf ops id v) :
    EntryOf (insert (.push p value, s) ops) id v := by
  constructor
  · intro p' v'
    rw [h.1, Set.mem_insert_iff, or_iff_right]
    intro heq
    cases heq
    exact hid rfl
  · have hpops : popsOf (insert (.push p value, s) ops) id = popsOf ops id := by
      ext t
      simp [popsOf]
    rw [hpops]
    exact h.2

/-- A pop that is not later than its target, or that has another target. -/
theorem entryOf_frame_pop {s target : S} (hid : id = target → s ≤ id)
    {v : Option (PqEntry S V)} (h : EntryOf ops id v) : EntryOf (insert (.pop target, s) ops) id v := by
  constructor
  · intro p' v'
    rw [h.1]
    simp
  · have hpops : popsOf (insert (.pop target, s) ops) id = popsOf ops id := by
      ext t
      constructor
      · rintro ⟨heq | hmem, hlt⟩
        · cases heq
          exact absurd (hid rfl) (not_le.mpr hlt)
        · exact ⟨hmem, hlt⟩
      · rintro ⟨hmem, hlt⟩
        exact ⟨Set.mem_insert_of_mem _ hmem, hlt⟩
    rw [hpops]
    exact h.2

/-- A push of content that was not known. -/
theorem entryOf_push {U : Set (PqOp S V × S)} (hU : DistinctStamps U) (hops : ops ⊆ U) {p : Int}
    {value : V} (he : (.push p value, id) ∈ U) {v : Option (PqEntry S V)} (h : EntryOf ops id v) :
    EntryOf (insert (.push p value, id) ops) id
      (some (.present p value (v.bind PqEntry.deletedAt))) := by
  constructor
  · intro p' v'
    constructor
    · intro heq
      cases heq
      exact Set.mem_insert _ _
    · intro hmem
      obtain ⟨rfl, rfl⟩ := push_eq hU he (Set.insert_subset he hops hmem)
      rfl
  · have hpops : popsOf (insert (.push p value, id) ops) id = popsOf ops id := by
      ext t
      simp [popsOf]
    rw [hpops]
    exact h.2

theorem entryOf_pop {s : S} (hs : id < s) {v : Option (PqEntry S V)} (h : EntryOf ops id v)
    {e : PqEntry S V} (hcontent : e.content = v.bind PqEntry.content)
    (hdeleted : e.deletedAt =
      (raise s (v.bind PqEntry.deletedAt)).or (v.bind PqEntry.deletedAt)) :
    EntryOf (insert (.pop id, s) ops) id (some e) := by
  constructor
  · intro p' v'
    rw [Option.bind_some, hcontent, h.1]
    simp
  · have hpops : popsOf (insert (.pop id, s) ops) id = insert s (popsOf ops id) := by
      ext t
      constructor
      · rintro ⟨heq | hmem, hlt⟩
        · cases heq
          exact Set.mem_insert _ _
        · exact Set.mem_insert_of_mem _ ⟨hmem, hlt⟩
      · rintro (rfl | ⟨hmem, hlt⟩)
        · exact ⟨Set.mem_insert _ _, hs⟩
        · exact ⟨Set.mem_insert_of_mem _ hmem, hlt⟩
    rw [hpops, Option.bind_some, hdeleted]
    exact raise_or s h.2

variable [DecidableEq V]

theorem of_push {U : Set (PqOp S V × S)} (hU : DistinctStamps U) (hops : ops ⊆ U) {p : Int}
    {value : V} {s : S} (he : (.push p value, s) ∈ U) {q : PriorityQueue S V} (hq : Of ops q) :
    Succeeds (q.apply (.push p value) s) ∧
      Of (insert (.push p value, s) ops) (q.apply (.push p value) s).1 := by
  have hentry := hq.2 s
  have hwrite := hq.insert (entryOf_push hU hops he hentry) fun k hk h => entryOf_frame_push hk h
  rw [apply]
  rcases hget : get q.entries s with _ | (d | ⟨p', v', d⟩)
  · rw [hget] at hwrite
    exact ⟨⟨true, rfl⟩, hwrite⟩
  · rw [hget] at hwrite
    exact ⟨⟨true, rfl⟩, hwrite⟩
  · rw [hget] at hentry
    have hmem : (.push p' v', s) ∈ ops := (hentry.1 p' v').mp rfl
    obtain ⟨rfl, rfl⟩ := push_eq hU he (hops hmem)
    dsimp only
    rw [if_neg (by simp), Set.insert_eq_of_mem hmem]
    exact ⟨⟨false, rfl⟩, hq⟩

theorem of_pop {s target : S} {q : PriorityQueue S V} (hq : Of ops q) :
    Succeeds (q.apply (.pop target) s) ∧
      Of (insert (.pop target, s) ops) (q.apply (.pop target) s).1 := by
  have hentry := hq.2 target
  have hframe : ∀ k, k ≠ target → EntryOf ops k (get q.entries k) →
      EntryOf (insert (.pop target, s) ops) k (get q.entries k) :=
    fun k hk h => entryOf_frame_pop (fun heq => absurd heq hk) h
  rw [apply]
  dsimp only
  split_ifs with hs
  · refine ⟨⟨false, rfl⟩, hq.1, fun k => ?_⟩
    exact entryOf_frame_pop (fun heq => heq ▸ hs) (hq.2 k)
  · have hlt := not_le.mp hs
    rcases hget : get q.entries target with _ | (d | ⟨p', v', d⟩)
    · rw [hget] at hentry
      exact ⟨⟨true, rfl⟩, hq.insert (entryOf_pop hlt hentry rfl rfl) hframe⟩
    · rw [hget] at hentry
      refine ⟨⟨_, rfl⟩, hq.insert (entryOf_pop hlt hentry rfl ?_) hframe⟩
      change some (mergeRequiredClock d s).1 = (raise s (some d)).or (some d)
      rw [mergeRequiredClock]
      cases raise s (some d) <;> rfl
    · rw [hget] at hentry
      exact ⟨⟨_, rfl⟩, hq.insert (entryOf_pop hlt hentry rfl rfl) hframe⟩

omit [DecidableEq V] in
theorem popsOf_union : popsOf (ops ∪ ops') id = popsOf ops id ∪ popsOf ops' id := by
  ext t
  simp [popsOf, or_and_right]

omit [DecidableEq V] in
theorem content_agree {U : Set (PqOp S V × S)} (hU : DistinctStamps U) (hops : ops ⊆ U)
    (hops' : ops' ⊆ U) {v v' : Option (PqEntry S V)} (h : EntryOf ops id v)
    (h' : EntryOf ops' id v') :
    ∀ c c', v.bind PqEntry.content = some c → v'.bind PqEntry.content = some c' → c = c' := by
  intro c c' hc hc'
  obtain ⟨hp, hv⟩ := push_eq hU (hops ((h.1 c.1 c.2).mp hc)) (hops' ((h'.1 c'.1 c'.2).mp hc'))
  exact Prod.ext hp hv

theorem mergeEntry_succeeds {U : Set (PqOp S V × S)} (hU : DistinctStamps U) (hops : ops ⊆ U)
    (hops' : ops' ⊆ U) {l r : PqEntry S V} (h : EntryOf ops id (some l))
    (h' : EntryOf ops' id (some r)) : Succeeds (mergeEntry id l r) := by
  have hagree := content_agree hU hops hops' h h'
  rw [succeeds_mergeEntry]
  rw [Option.bind_some, Option.bind_some] at hagree
  rcases hl : l.content with _ | c <;> rcases hr : r.content with _ | c'
  · exact ⟨_, rfl⟩
  · exact ⟨_, rfl⟩
  · exact ⟨_, rfl⟩
  · rw [hagree c c' hl hr]
    exact ⟨false, by simp [mergeContent]⟩

theorem entryOf_merge {U : Set (PqOp S V × S)} (hU : DistinctStamps U) (hops : ops ⊆ U)
    (hops' : ops' ⊆ U) {v v' : Option (PqEntry S V)} (h : EntryOf ops id v)
    (h' : EntryOf ops' id v') :
    EntryOf (ops ∪ ops') id (SortedMap.mergeEntry mergeEntry id v v') := by
  have hparts : (SortedMap.mergeEntry mergeEntry id v v').bind PqEntry.content =
        (v.bind PqEntry.content).or (v'.bind PqEntry.content) ∧
      (SortedMap.mergeEntry mergeEntry id v v').bind PqEntry.deletedAt =
        (mergeClock (v.bind PqEntry.deletedAt) (v'.bind PqEntry.deletedAt)).1 := by
    cases v with
    | none =>
      refine ⟨by simp [SortedMap.mergeEntry], ?_⟩
      cases hd : v'.bind PqEntry.deletedAt <;> simp [SortedMap.mergeEntry, mergeClock, raise, hd]
    | some l =>
      cases v' with
      | none => simp [SortedMap.mergeEntry, mergeClock_none]
      | some r =>
        have hpair := congrArg Prod.fst (mergeEntry_eq (mergeEntry_succeeds hU hops hops' h h'))
        rw [mergePairs, Prod.mk.injEq] at hpair
        refine ⟨?_, hpair.2⟩
        change (mergeEntry id l r).1.content = l.content.or r.content
        rw [hpair.1]
        cases l.content <;> cases r.content <;> rfl
  constructor
  · intro p value
    rw [hparts.1, or_eq_some_of_agree (content_agree hU hops hops' h h'), h.1, h'.1, Set.mem_union]
  · rw [hparts.2, popsOf_union]
    exact isLatest_mergeClock h.2 h'.2

theorem determined {U : Set (PqOp S V × S)} (hU : DistinctStamps U) :
    Determined (⟨[]⟩ : PriorityQueue S V) (applyStamped apply) merge U Of := by
  refine ⟨?_, ?_, ?_, ?_⟩
  · exact MapOf.empty fun id => ⟨fun _ _ => by simp, by simp [IsLatest, popsOf]⟩
  · rintro ops q ⟨op, s⟩ hops he hq
    cases op with
    | push p value => exact of_push hU hops he hq
    | pop target => exact of_pop hq
  · intro ops ops' q q' hops hops' hq hq'
    exact hq.mergeMap hq' (fun id l r => mergeEntry_succeeds hU hops hops')
      fun id v v' => entryOf_merge hU hops hops'
  · rintro ops ⟨entries⟩ ⟨entries'⟩ - hq hq'
    exact congrArg PriorityQueue.mk (hq.unique entryOf_unique hq')

/-- The replica of a queue that a history leads to. -/
def replica (h : History (PqOp S V × S)) : Option (PriorityQueue S V) :=
  h.run ⟨[]⟩ (applyStamped apply) merge

omit [DecidableEq V]

theorem mem_present {q : PriorityQueue S V} (hq : Sorted (· < ·) q.entries) (p : Int) (id : S)
    (value : V) : ((p, id), value) ∈ q.present ↔ get q.entries id = some (.present p value none) := by
  rw [present, List.mem_filterMap]
  constructor
  · rintro ⟨⟨id', e⟩, hmem, heq⟩
    rcases e with d | ⟨p', v', _ | d⟩
    · cases heq
    · cases heq
      exact get_of_mem hq hmem
    · cases heq
  · intro h
    exact ⟨_, mem_of_get h, rfl⟩

theorem nodup_present {q : PriorityQueue S V} (hq : Sorted (· < ·) q.entries) :
    (q.present.map Prod.fst).Nodup := by
  rw [List.Nodup, List.pairwise_map, present, List.pairwise_filterMap]
  refine List.Pairwise.imp ?_ hq
  rintro ⟨id, e⟩ ⟨id', e'⟩ hlt x hx x' hx' heq
  have hid : x.1.2 = id := by
    rcases e with d | ⟨p, v, _ | d⟩ <;> cases hx
    rfl
  have hid' : x'.1.2 = id' := by
    rcases e' with d | ⟨p, v, _ | d⟩ <;> cases hx'
    rfl
  exact hlt.ne (by rw [← hid, ← hid', heq])

theorem sorted_live {q : PriorityQueue S V} (hq : Sorted (· < ·) q.entries) :
    q.live.Pairwise fun a b => toLex (a.1, a.2.1) < toLex (b.1, b.2.1) := by
  rw [live, List.pairwise_map]
  exact sorted_sortBy toLex q.present (nodup_present hq) fun a _ b _ h => h

theorem mem_live {q : PriorityQueue S V} (hq : Sorted (· < ·) q.entries) (p : Int) (id : S)
    (value : V) : (p, id, value) ∈ q.live ↔ get q.entries id = some (.present p value none) := by
  rw [live, List.mem_map, ← mem_present hq]
  constructor
  · rintro ⟨⟨⟨p', id'⟩, v'⟩, hmem, heq⟩
    cases heq
    exact (mem_sortBy _ _ _).mp hmem
  · intro h
    exact ⟨((p, id), value), (mem_sortBy _ _ _).mpr h, rfl⟩

/-- The least element in `pop` is the first one of the sorted list. -/
theorem pop_eq_head (q : PriorityQueue S V) (hq : Sorted (· < ·) q.entries) :
    q.pop = q.live.head?.map fun e => .pop e.2.1 := by
  have hsorted := sorted_sortBy toLex q.present (nodup_present hq) fun a _ b _ h => h
  rw [pop, live]
  cases hlist : sortBy toLex q.present with
  | nil =>
    have hnil : q.present = [] := List.eq_nil_iff_forall_not_mem.mpr fun e he => by
      rw [← mem_sortBy toLex, hlist] at he
      cases he
    simp [hnil]
  | cons e rest =>
    rw [hlist] at hsorted
    have hmin : (q.present.map fun e => toLex e.1).min? = some (toLex e.1) := by
      rw [List.min?_eq_some_iff]
      constructor
      · have hmem : e ∈ q.present := by
          rw [← mem_sortBy toLex, hlist]
          exact List.mem_cons_self
        exact List.mem_map.mpr ⟨e, hmem, rfl⟩
      · intro key hkey
        obtain ⟨e', he', rfl⟩ := List.mem_map.mp hkey
        rw [← mem_sortBy toLex, hlist] at he'
        rcases List.mem_cons.mp he' with rfl | hrest
        · exact le_rfl
        · exact ((List.pairwise_cons.mp hsorted).1 e' hrest).le
    rw [hmin]
    rfl

end PriorityQueue

variable {P : Type} [LinearOrder P]

/-- A queue is a function of its pushes and pops: the elements that no later pop takes out, in the
order of priority and id, and `pop` takes the first of them. -/
theorem queue_determined_by_operations
    (h : History (PqOp (EventStamp P) (Value P) × EventStamp P))
    (hdistinct : DistinctStamps {e | e ∈ h.events}) :
    ∃ q, PriorityQueue.replica h = some q ∧
      (∀ h', (∀ e, e ∈ h.events ↔ e ∈ h'.events) → PriorityQueue.replica h' = some q) ∧
      (∀ p id value, (p, id, value) ∈ q.live ↔
        (.push p value, id) ∈ h.events ∧ ∀ s, (.pop id, s) ∈ h.events → ¬ id < s) ∧
      q.live.Pairwise (fun a b => toLex (a.1, a.2.1) < toLex (b.1, b.2.1)) ∧
      (q.pop = q.live.head?.map fun e => .pop e.2.1) ∧ (q.pop = none ↔ q.live = []) := by
  obtain ⟨q, hq, hof⟩ := (PriorityQueue.determined hdistinct).run_eq_some h fun _ he => he
  have hpop := PriorityQueue.pop_eq_head q hof.1
  refine ⟨q, hq, ?_, ?_, PriorityQueue.sorted_live hof.1, hpop, ?_⟩
  · intro h' hsame
    rw [← hq]
    exact ((PriorityQueue.determined hdistinct).run_eq_run h h' (fun _ he => he) hsame).symm
  · intro p id value
    obtain ⟨hcontent, hpops⟩ := hof.2 id
    have hempty : (∀ s, (PqOp.pop id, s) ∈ h.events → ¬ id < s) ↔
        PriorityQueue.popsOf {e | e ∈ h.events} id = ∅ := by
      rw [Set.eq_empty_iff_forall_notMem]
      exact forall_congr' fun s => by simp [PriorityQueue.popsOf]
    rw [PriorityQueue.mem_live hof.1, hempty]
    have hpushed := hcontent p value
    rw [Set.mem_ofPred_eq] at hpushed
    rw [← hpushed]
    rcases hget : get q.entries id with _ | (d | ⟨p', v', _ | d⟩) <;> rw [hget] at hpops
    · simp
    · simp [PqEntry.content]
    · have hnone : PriorityQueue.popsOf {e | e ∈ h.events} id = ∅ := hpops
      simp [PqEntry.content, hnone]
    · have hsome : (PriorityQueue.popsOf {e | e ∈ h.events} id) ≠ ∅ :=
        Set.nonempty_iff_ne_empty.mp ⟨d, hpops.1⟩
      simp [PqEntry.content, hsome]
  · rw [hpop]
    simp

/-- A pop that reaches its replica before the push of its element. -/
def earlyPop : History (PqOp (EventStamp Nat) (Value Nat) × EventStamp Nat) :=
  .merge (.apply .empty (.pop ⟨⟨1, 1⟩, ⟨3, 0⟩⟩, ⟨⟨2, 1⟩, ⟨5, 0⟩⟩))
    (.apply .empty (.push 4 (.scalar (.int 1)), ⟨⟨1, 1⟩, ⟨3, 0⟩⟩))

theorem queue_determined_by_operations_early_pop :
    ∃ q, PriorityQueue.replica earlyPop = some q ∧ q.live = [] := by
  have hdistinct : DistinctStamps {e | e ∈ earlyPop.events} := by
    simp [DistinctStamps, earlyPop, History.events]
  obtain ⟨q, hq, -, hlive, -⟩ := queue_determined_by_operations earlyPop hdistinct
  refine ⟨q, hq, List.eq_nil_iff_forall_not_mem.mpr ?_⟩
  rintro ⟨p, id, value⟩ hmem
  obtain ⟨hpush, hpop⟩ := (hlive p id value).mp hmem
  obtain ⟨-, rfl⟩ : (p = 4 ∧ value = .scalar (.int 1)) ∧ id = ⟨⟨1, 1⟩, ⟨3, 0⟩⟩ := by
    simpa [earlyPop, History.events] using hpush
  exact hpop ⟨⟨2, 1⟩, ⟨5, 0⟩⟩ (by simp [earlyPop, History.events]) (by decide +kernel)

end ZenDB.Crdt
