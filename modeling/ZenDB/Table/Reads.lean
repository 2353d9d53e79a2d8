import Mathlib.Data.List.Induction
import ZenDB.Crdt.Row
import ZenDB.Table.System

namespace ZenDB

variable {K V E : Type} [LinearOrder K]

namespace State

variable (enc : K → Bytes)

/-- The rows in the order of the backend: a B+ tree goes by the encoded keys, a skip list by the
order of the keys, a key directory in no order. -/
def entries (s : State K V) : List (K × V) :=
  match s.kind with
  | .ordered => sortBy enc (ZenDB.rows s.rows)
  | .unordered => ZenDB.rows s.rows
  | .inMemory _ => sortBy id (ZenDB.rows s.rows)

def range (s : State K V) (start stop : K) : List (K × V) :=
  match s.kind with
  | .ordered => (s.entries enc).filter fun row => enc start ≤ enc row.1 ∧ enc row.1 < enc stop
  | .unordered => sortBy id ((s.entries enc).filter fun row => start ≤ row.1 ∧ row.1 < stop)
  | .inMemory _ => (s.entries enc).filter fun row => start ≤ row.1 ∧ row.1 < stop

/-- The rows as the ordered reads go through them; those of a key directory are sorted for it. -/
def ordered (s : State K V) : List (K × V) :=
  match s.kind with
  | .unordered => sortBy id (s.entries enc)
  | _ => s.entries enc

def first (s : State K V) : Option (K × V) := (s.ordered enc).head?

def last (s : State K V) : Option (K × V) := (s.ordered enc).getLast?

def entriesRev (s : State K V) : List (K × V) := (s.ordered enc).reverse

def rangeRev (s : State K V) (start stop : K) : List (K × V) := (s.range enc start stop).reverse

end State

inductive IterationOrder where
  | ascending
  | descending

def IterationOrder.compare (o : IterationOrder) (a b : K) : Ordering :=
  match o with
  | .ascending => cmp a b
  | .descending => (cmp a b).swap

def IterationOrder.lt : IterationOrder → K → K → Prop
  | .ascending => fun a b => a < b
  | .descending => fun a b => b < a

/-- `MergedEntries`: where both have a key, the row of the cache is taken. -/
def mergedEntries (o : IterationOrder) (state cache : List (K × V)) : List (K × V) :=
  mergeBy o.compare state cache

namespace Table

variable (enc : K → Bytes)

/-- The cache is a skip list. -/
def cacheEntries (t : Table K V E) : List (K × V) := sortBy id (rows t.cache)

def cacheRange (t : Table K V E) (start stop : K) : List (K × V) :=
  t.cacheEntries.filter fun row => start ≤ row.1 ∧ row.1 < stop

def entries (t : Table K V E) : List (K × V) :=
  match t.state.kind with
  | .unordered =>
    ((t.state.entries enc).filter fun row => (t.cache.lookup row.1).isNone) ++ t.cacheEntries
  | _ => mergedEntries .ascending (t.state.entries enc) t.cacheEntries

def range (t : Table K V E) (start stop : K) : List (K × V) :=
  mergedEntries .ascending (t.state.range enc start stop) (t.cacheRange start stop)

def first (t : Table K V E) : Option (K × V) :=
  match t.state.first enc, t.cacheEntries.head? with
  | none, none => none
  | some row, none => some row
  | none, some row => some row
  | some state, some cache => if state.1 < cache.1 then some state else some cache

def last (t : Table K V E) : Option (K × V) :=
  match t.state.last enc, t.cacheEntries.getLast? with
  | none, none => none
  | some row, none => some row
  | none, some row => some row
  | some state, some cache => if cache.1 < state.1 then some state else some cache

def entriesRev (t : Table K V E) : List (K × V) :=
  mergedEntries .descending (t.state.entriesRev enc) t.cacheEntries.reverse

def rangeRev (t : Table K V E) (start stop : K) : List (K × V) :=
  mergedEntries .descending (t.state.rangeRev enc start stop) (t.cacheRange start stop).reverse

end Table

section Logical

variable (ro : RowOps K V E)

namespace Table

/-- One call, and the change that it reports as applied. -/
def call (t : Table K V E) (c : Call E V) : Table K V E × Option (Change E V) :=
  match c with
  | .insert event =>
    match t.insert ro event with
    | (t', .applied change) => (t', some change)
    | (t', _) => (t', none)
  | c => ((t.exec (t.effects ro c)).1, none)

/-- A run of calls, and the changes applied in it. -/
def run (t : Table K V E) : List (Call E V) → Table K V E × List (Change E V)
  | [] => (t, [])
  | c :: cs =>
    let rest := run (t.call ro c).1 cs
    (rest.1, (t.call ro c).2.toList ++ rest.2)

/-- The logical map: the last cell applied under each key. -/
def lastCells (changes : List (Change E V)) : AList (fun _ : K => V) :=
  changes.foldl (fun m change =>
    match change.current with
    | some value => m.insert (ro.key change.event) value
    | none => m.erase (ro.key change.event)) ∅

/-- The rows of the logical map in key order. -/
def logicalRows (changes : List (Change E V)) : List (K × V) := sortBy id (rows (lastCells ro changes))

theorem lastCell_snoc (changes : List (Change E V)) (change : Change E V) (key : K) :
    lastCell ro (changes ++ [change]) key =
      if key = ro.key change.event then change.current else lastCell ro changes key := by
  rw [lastCell, lastChange_snoc]
  by_cases h : ro.key change.event = key
  · rw [if_pos h, if_pos h.symm]
    rfl
  · rw [if_neg h, if_neg (Ne.symm h)]
    rfl

theorem lookup_lastCells (changes : List (Change E V)) (key : K) :
    (lastCells ro changes).lookup key = lastCell ro changes key := by
  induction changes using List.reverseRecOn with
  | nil => rfl
  | append_singleton changes change ih =>
    rw [lastCell_snoc, lastCells, List.foldl_append, ← lastCells, List.foldl_cons, List.foldl_nil]
    cases hcell : change.current with
    | some value =>
      dsimp only
      rw [lookup_insert_ite, ih]
    | none =>
      dsimp only
      rw [lookup_erase_ite, ih]

theorem sorted_logicalRows (changes : List (Change E V)) :
    Sorted (· < ·) (logicalRows ro changes) :=
  sorted_sortBy id _ (nodup_rows _) fun _ _ _ _ h => h

theorem mem_logicalRows (changes : List (Change E V)) (row : K × V) :
    row ∈ logicalRows ro changes ↔ lastCell ro changes row.1 = some row.2 := by
  rw [logicalRows, mem_sortBy, ← lookup_lastCells]
  exact mem_rows _ _ _

end Table

end Logical

section Gets

variable {ro : RowOps K V E} {t : Table K V E}

theorem State.put_rows {s s' : State K V} {key : K} {value : V} (h : s.put key value = some s') :
    s'.rows = s.rows.insert key value ∧ s'.kind = s.kind := by
  obtain ⟨kind, rows⟩ := s
  rw [State.put] at h
  split at h
  · split_ifs at h
    cases h
    exact ⟨rfl, rfl⟩
  · cases h
    exact ⟨rfl, rfl⟩

namespace Table

/-- All reads by key and the kind of the state are as before. -/
structure SameGets (t t' : Table K V E) : Prop where
  kind : t'.state.kind = t.state.kind
  get : ∀ key, t'.get key = t.get key

theorem SameGets.refl (t : Table K V E) : SameGets t t := ⟨rfl, fun _ => rfl⟩

/-- A partial drain has copied rows of the cache, which hide the rows of the state. -/
theorem Drained.get_eq {done : List (K × V)} {s : Table K V E} (h : Drained t done s)
    (hdone : ∀ row ∈ done, t.cache.lookup row.1 = some row.2) (key : K) : s.get key = t.get key := by
  have hcache : s.cache = t.cache := by rw [h.rest]
  rw [Table.get, Table.get, hcache, h.lookup]
  split_ifs with hmem
  · obtain ⟨row, hrow, rfl⟩ := List.mem_map.mp hmem
    rw [hdone row hrow]
    rfl
  · rfl

/-- A drain changes no read, also one that a full state breaks off. -/
theorem drainCache_sameGets (t : Table K V E) :
    CrashTriple perform (SameGets t) t t.drainCache fun t' _ => SameGets t t' := by
  rw [Table.drainCache]
  split_ifs with hempty
  · exact .nil (SameGets.refl t) (SameGets.refl t)
  have hall : ∀ row ∈ sortBy id (rows t.cache), t.cache.lookup row.1 = some row.2 :=
    fun row hrow => cache_lookup_of_mem hrow
  refine CrashTriple.append (CrashTriple.forEach
    (fun done s => Drained t done s ∧ s.state.kind = t.state.kind ∧
      ∀ row ∈ done, t.cache.lookup row.1 = some row.2) (SameGets t) _
    (fun _ _ hinv => ⟨hinv.2.1, hinv.1.get_eq hinv.2.2⟩) ?_ ?_) ?_ ?_
  · rintro done row s hpre ⟨hs, hkind, hdone⟩
    have hsame : SameGets t s := ⟨hkind, hs.get_eq hdone⟩
    have hmem : row ∈ sortBy id (rows t.cache) :=
      hpre.subset (List.mem_append_right done (List.mem_singleton_self row))
    have hrow := hall row hmem
    refine CrashTriple.cons hsame ?_ ?_
    · intro s' hput
      obtain ⟨state, hstate, rfl⟩ : ∃ state, s.state.put row.1 row.2 = some state ∧
          s' = {s with state := state} := by
        rw [perform] at hput
        cases hstate : s.state.put row.1 row.2 with
        | none => rw [hstate] at hput; cases hput
        | some state => rw [hstate] at hput; cases hput; exact ⟨state, rfl, rfl⟩
      obtain ⟨hrows, hkind'⟩ := State.put_rows hstate
      have hput := hs.put hrow hrows
      have hdone' : ∀ row' ∈ done ++ [row], t.cache.lookup row'.1 = some row'.2 := by
        intro row' hrow'
        rcases List.mem_append.mp hrow' with hrow' | hrow'
        · exact hdone row' hrow'
        · rw [List.mem_singleton.mp hrow']
          exact hrow
      exact .nil ⟨hkind'.trans hkind, hput.get_eq hdone'⟩
        ⟨fun _ => ⟨hput, hkind'.trans hkind, hdone'⟩, (fun hfalse => by cases hfalse)⟩
    · intro _
      exact ⟨(fun htrue => by cases htrue), fun _ => hsame⟩
  · exact ⟨⟨rfl, by simp⟩, rfl, by simp⟩
  · intro s hpost
    obtain ⟨hs, hkind, hdone⟩ := hpost.1 rfl
    have hcleared : SameGets t {s with cache := ∅, novelPending := 0} :=
      ⟨hkind, fun key => hs.lookup_eq_get key⟩
    exact .step ⟨hkind, hs.get_eq hdone⟩ rfl (.nil hcleared hcleared)
  · intro s hpost
    exact hpost.2 rfl

/-- Storing a cell under `key` went through, or the table reads as before. -/
structure Recorded (t : Table K V E) (key : K) (current : V) (t' : Table K V E) (ok : Bool) : Prop where
  kind : t'.state.kind = t.state.kind
  get : ∀ k, t'.get k = if ok = true ∧ k = key then some current else t.get k

theorem SameGets.recorded {t t' : Table K V E} (h : SameGets t t') (key : K) (current : V) :
    Recorded t key current t' false :=
  ⟨h.kind, fun k => by rw [h.get]; simp⟩

/-- A change is stored at once: wherever it is cut off, the table reads as before or as after. -/
theorem recordChange_recorded (ro : RowOps K V E) (t : Table K V E) (event : E) (current : V) :
    CrashTriple perform (fun t' => ∃ ok, Recorded t (ro.key event) current t' ok) t
      (t.recordChange ro event current) (Recorded t (ro.key event) current) := by
  have hprepare : CrashTriple perform (fun t' => ∃ ok, Recorded t (ro.key event) current t' ok) t
      (t.prepareCache (ro.key event)) fun t' _ => SameGets t t' := by
    rw [Table.prepareCache]
    split_ifs
    · have hdrain := drainCache_sameGets t
      exact ⟨fun n => ⟨false, (hdrain.during n).recorded _ _⟩, hdrain.after⟩
    · exact .nil ⟨false, (SameGets.refl t).recorded _ _⟩ (SameGets.refl t)
  have hstore : ∀ t₁ change, SameGets t t₁ →
      CrashTriple perform (fun t' => ∃ ok, Recorded t (ro.key event) current t' ok) t₁
        [.append change, .cachePut (ro.key event) current] (Recorded t (ro.key event) current) := by
    intro t₁ change h₁
    have h₂ : SameGets t {t₁ with topic := (t₁.topic.step (.append change)).1} := ⟨h₁.kind, h₁.get⟩
    refine .step ⟨false, h₁.recorded _ _⟩ rfl (.cons ⟨false, h₂.recorded _ _⟩ ?_ ?_)
    · intro t₂ hput
      rw [perform] at hput
      split_ifs at hput
      cases hput
      have hstored : Recorded t (ro.key event) current
          {t₁ with
            topic := (t₁.topic.step (.append change)).1
            cache := t₁.cache.insert (ro.key event) current} true := by
        refine ⟨h₁.kind, ?_⟩
        intro k
        show ((t₁.cache.insert (ro.key event) current).lookup k).or (t₁.state.rows.lookup k) = _
        rw [lookup_insert_ite, ← h₁.get]
        by_cases hk : k = ro.key event
        · rw [if_pos hk, if_pos ⟨rfl, hk⟩]
          rfl
        · rw [if_neg hk, if_neg (fun h => hk h.2)]
          rfl
      exact .nil ⟨true, hstored⟩ hstored
    · intro _
      exact h₂.recorded _ _
  have hnovel : ∀ t₁ : Table K V E, Recorded t (ro.key event) current t₁ true →
      CrashTriple perform (fun t' => ∃ ok, Recorded t (ro.key event) current t' ok) t₁
        (if (t.get (ro.key event)).isNone then [.countNovel] else [])
        (Recorded t (ro.key event) current) := by
    intro t₁ h₁
    split_ifs
    · have hcounted : Recorded t (ro.key event) current
          {t₁ with novelPending := t₁.novelPending+1} true := ⟨h₁.kind, h₁.get⟩
      exact .step ⟨true, h₁⟩ rfl (.nil ⟨true, hcounted⟩ hcounted)
    · exact .nil ⟨true, h₁⟩ h₁
  refine .append (.append (.append hprepare (fun t₁ h₁ => hstore t₁ _ h₁) ?_) hnovel ?_) ?_ ?_
  · intro t₁ h₁
    exact h₁.recorded _ _
  · intro t₁ h₁
    exact h₁
  · intro t₁ h₁
    have hseek : Recorded t (ro.key event) current
        {t₁ with topic := t₁.topic.seek recoveryConsumer (t.topic.log.length+1)} true :=
      ⟨h₁.kind, h₁.get⟩
    exact .step ⟨true, h₁⟩ rfl (.nil ⟨true, hseek⟩ hseek)
  · intro t₁ h₁
    exact h₁

/-- What a call does to the reads by key: an applied change is read, other calls change nothing. -/
theorem call_get (ro : RowOps K V E) (t : Table K V E) (c : Call E V) :
    (t.call ro c).1.state.kind = t.state.kind ∧ ∀ key, (t.call ro c).1.get key =
      match (t.call ro c).2 with
      | some change => if key = ro.key change.event then change.current else t.get key
      | none => t.get key := by
  have hflush : SameGets t (t.exec (t.drainCache ++ t.commitRecovery)).1 := by
    have hsame : CrashTriple perform (SameGets t) t (t.drainCache ++ t.commitRecovery)
        fun t' _ => SameGets t t' := by
      refine CrashTriple.append (drainCache_sameGets t) ?_ fun t' h => h
      intro t' h
      rw [Table.commitRecovery]
      split_ifs
      · exact .nil h h
      · have hcommit : SameGets t {t' with topic := (t'.topic.step (.commit recoveryConsumer)).1} :=
          ⟨h.kind, h.get⟩
        exact .step h rfl (.nil hcommit hcommit)
    exact hsame.after
  cases c with
  | insert event =>
    rw [call, Table.insert]
    cases happly : ro.apply (t.get (ro.key event)) event with
    | error => exact ⟨rfl, fun _ => rfl⟩
    | unchanged => exact ⟨rfl, fun _ => rfl⟩
    | changed current =>
      have h := (recordChange_recorded ro t event current).after
      rw [← Table.exec] at h
      dsimp only
      cases hexec : t.exec (t.recordChange ro event current) with
      | mk t' ok =>
        rw [hexec] at h
        cases ok with
        | true => exact ⟨h.kind, fun key => by rw [h.get]; simp⟩
        | false => exact ⟨h.kind, fun key => by rw [h.get]; simp⟩
  | flush => exact ⟨hflush.kind, hflush.get⟩
  | sync => exact ⟨hflush.kind, hflush.get⟩
  | compact => exact ⟨rfl, fun _ => rfl⟩
  | consumer op =>
    simp only [call, effects]
    split_ifs
    · exact ⟨rfl, fun _ => rfl⟩
    · exact ⟨rfl, fun _ => rfl⟩

/-- At every point of a run the table reads as the logical map. -/
theorem run_get (ro : RowOps K V E) (t : Table K V E) (cs : List (Call E V)) (done : List (Change E V))
    (h : ∀ key, t.get key = lastCell ro done key) :
    (t.run ro cs).1.state.kind = t.state.kind ∧
      ∀ key, (t.run ro cs).1.get key = lastCell ro (done ++ (t.run ro cs).2) key := by
  induction cs generalizing t done with
  | nil => exact ⟨rfl, by rw [run, List.append_nil]; exact h⟩
  | cons c cs ih =>
    obtain ⟨hkind, hget⟩ := call_get ro t c
    have hdone : ∀ key, (t.call ro c).1.get key = lastCell ro (done ++ (t.call ro c).2.toList) key := by
      intro key
      rw [hget key]
      cases (t.call ro c).2 with
      | none => rw [h, Option.toList_none, List.append_nil]
      | some change => rw [h, Option.toList_some, lastCell_snoc]
    obtain ⟨hkind', hget'⟩ := ih _ _ hdone
    refine ⟨hkind'.trans hkind, ?_⟩
    rw [run, ← List.append_assoc]
    exact hget'

end Table

section Orders

variable {enc : K → Bytes} {S : Set K}

theorem IterationOrder.compares (o : IterationOrder) : Compares (K := K) o.compare o.lt := by
  cases o with
  | ascending =>
    exact ⟨fun a b h => (cmp_eq_lt_iff _ _).mp h, fun a b h => (cmp_eq_eq_iff _ _).mp h,
      fun a b h => (cmp_eq_gt_iff _ _).mp h, fun a b c => lt_trans, fun a b h => lt_asymm h⟩
  | descending =>
    refine ⟨?_, ?_, ?_, fun a b c hab hbc => lt_trans hbc hab, fun a b h => lt_asymm h⟩
    · intro a b h
      rw [IterationOrder.compare, cmp_swap] at h
      exact (cmp_eq_lt_iff _ _).mp h
    · intro a b h
      rw [IterationOrder.compare, cmp_swap] at h
      exact ((cmp_eq_eq_iff _ _).mp h).symm
    · intro a b h
      rw [IterationOrder.compare, cmp_swap] at h
      exact (cmp_eq_gt_iff _ _).mp h

theorem mergedEntries_eq (o : IterationOrder) {s c l : List (K × V)} (hs : Sorted o.lt s)
    (hc : Sorted o.lt c) (hl : Sorted o.lt l)
    (hmem : ∀ row, row ∈ l ↔ row ∈ c ∨ (row ∈ s ∧ ∀ y ∈ c, y.1 ≠ row.1)) :
    mergedEntries o s c = l := by
  have hcmp := o.compares (K := K)
  refine (sorted_mergeBy hcmp s c hs hc).eq_of_mem_iff hcmp.asymm hl ?_
  intro row
  rw [mem_mergeBy hcmp s c hs hc, hmem]

/-- The iterator itself: the rows that the two peekable iterators still have. -/
structure MergedEntries (K V : Type) where
  state : List (K × V)
  cache : List (K × V)
  order : IterationOrder

namespace MergedEntries

/-- The row that `next` returns, and the iterator after it. -/
def next (m : MergedEntries K V) : Option ((K × V) × MergedEntries K V) :=
  match m.state, m.cache with
  | [], [] => none
  | row :: state, [] => some (row, { m with state })
  | [], row :: cache => some (row, { m with cache })
  | stateRow :: state, cacheRow :: cache =>
    match m.order.compare stateRow.1 cacheRow.1 with
    | .lt => some (stateRow, { m with state })
    | .gt => some (cacheRow, { m with cache })
    -- The row of the state is shadowed and dropped with it.
    | .eq => some (cacheRow, { m with state, cache })

/-- The rows returned until the first `None`. -/
inductive Yields : MergedEntries K V → List (K × V) → Prop
  | done {m : MergedEntries K V} : m.next = none → Yields m []
  | more {m m' : MergedEntries K V} {row : K × V} {rows : List (K × V)} :
      m.next = some (row, m') → Yields m' rows → Yields m (row :: rows)

theorem Yields.unique {m : MergedEntries K V} {rows rows' : List (K × V)} (h : Yields m rows)
    (h' : Yields m rows') : rows = rows' := by
  induction h generalizing rows' with
  | done hnext =>
    cases h' with
    | done _ => rfl
    | more hnext' _ => simp [hnext] at hnext'
  | more hnext _ ih =>
    cases h' with
    | done hnext' => simp [hnext] at hnext'
    | more hnext' hrest =>
      obtain ⟨rfl, rfl⟩ := Prod.mk.inj (Option.some.inj (hnext.symm.trans hnext'))
      rw [ih hrest]

theorem yields_rest (o : IterationOrder) (s c : List (K × V)) (h : s = [] ∨ c = []) :
    Yields ⟨s, c, o⟩ (s ++ c) := by
  rcases h with rfl | rfl
  · induction c with
    | nil => exact .done rfl
    | cons row c ih => exact .more rfl ih
  · induction s with
    | nil => exact .done rfl
    | cons row s ih => exact .more rfl ih

/-- Driven to its end, the iterator returns the merge. -/
theorem yields_mergedEntries (o : IterationOrder) (s c : List (K × V)) :
    Yields ⟨s, c, o⟩ (mergedEntries o s c) := by
  unfold mergedEntries
  induction s, c using mergeBy.induct (o.compare (K := K)) with
  | case1 c => simpa [mergeBy] using yields_rest o [] c (.inl rfl)
  | case2 a s => simpa [mergeBy] using yields_rest o (a :: s) [] (.inr rfl)
  | case3 a s b c hcmp ih =>
    rw [mergeBy, hcmp]
    refine .more ?_ ih
    simp [next, hcmp]
  | case4 a s b c hcmp ih =>
    rw [mergeBy, hcmp]
    refine .more ?_ ih
    simp [next, hcmp]
  | case5 a s b c hcmp ih =>
    rw [mergeBy, hcmp]
    refine .more ?_ ih
    simp [next, hcmp]

/-- Over sorted rows the iterator returns the sorted union, with the cell of the cache where both
have the key. -/
theorem yields_sorted_union (o : IterationOrder) {state cache : List (K × V)}
    (hstate : Sorted o.lt state) (hcache : Sorted o.lt cache) :
    ∃ rows, Yields ⟨state, cache, o⟩ rows ∧
      (∀ rows', Yields ⟨state, cache, o⟩ rows' → rows' = rows) ∧
      Sorted o.lt rows ∧
      (∀ key, key ∈ rows.map Prod.fst ↔ key ∈ state.map Prod.fst ∨ key ∈ cache.map Prod.fst) ∧
      ∀ key cell, (key, cell) ∈ rows ↔
        (key, cell) ∈ cache ∨ ((key, cell) ∈ state ∧ key ∉ cache.map Prod.fst) := by
  have hcmp := o.compares (K := K)
  have hmem := mem_mergeBy hcmp state cache hstate hcache
  refine ⟨mergedEntries o state cache, yields_mergedEntries o state cache,
    fun rows' h => h.unique (yields_mergedEntries o state cache),
    sorted_mergeBy hcmp state cache hstate hcache, ?_, ?_⟩
  · intro key
    simp only [mergedEntries, List.mem_map, hmem]
    constructor
    · rintro ⟨row, hrow | ⟨hrow, -⟩, rfl⟩
      · exact Or.inr ⟨row, hrow, rfl⟩
      · exact Or.inl ⟨row, hrow, rfl⟩
    · rintro (⟨row, hrow, rfl⟩ | ⟨row, hrow, rfl⟩)
      · -- Where the cache has the key too, its row stands for it.
        by_cases hshadowed : ∃ y ∈ cache, y.1 = row.1
        · obtain ⟨y, hy, hkey⟩ := hshadowed
          exact ⟨y, Or.inl hy, hkey⟩
        · exact ⟨row, Or.inr ⟨hrow, fun y hy hkey => hshadowed ⟨y, hy, hkey⟩⟩, rfl⟩
      · exact ⟨row, Or.inl hrow, rfl⟩
  · intro key cell
    rw [mergedEntries, hmem]
    simp only [List.mem_map, not_exists, not_and, ne_eq]

theorem yields_sorted_union_descending :
    ∃ rows, Yields ⟨[(3, "s"), (1, "s")], [(3, "c"), (2, "c")], .descending⟩ rows ∧
      Sorted (IterationOrder.descending.lt (K := Nat)) rows := by
  have hstate : Sorted (IterationOrder.descending.lt (K := Nat)) [(3, "s"), (1, "s")] := by
    simp [Sorted, IterationOrder.lt]
  have hcache : Sorted (IterationOrder.descending.lt (K := Nat)) [(3, "c"), (2, "c")] := by
    simp [Sorted, IterationOrder.lt]
  obtain ⟨rows, hyields, -, hsorted, -⟩ := yields_sorted_union .descending hstate hcache
  exact ⟨rows, hyields, hsorted⟩

end MergedEntries

/-- The B+ tree order of the keys in `S` is their own order. -/
def OrderAgrees (enc : K → Bytes) (S : Set K) : Prop := ∀ a ∈ S, ∀ b ∈ S, enc a < enc b ↔ a < b

theorem OrderAgrees.le_iff (h : OrderAgrees enc S) {a b : K} (ha : a ∈ S) (hb : b ∈ S) :
    enc a ≤ enc b ↔ a ≤ b := by
  rw [← not_lt, h b hb a ha, not_lt]

namespace State

variable {s : State K V}

theorem mem_ordered (enc : K → Bytes) (s : State K V) (row : K × V) :
    row ∈ s.ordered enc ↔ s.rows.lookup row.1 = some row.2 := by
  rw [← mem_rows, ordered, entries]
  cases s.kind <;> simp only [mem_sortBy]

theorem sorted_ordered (hagree : s.kind = .ordered → OrderAgrees enc S)
    (hS : ∀ row ∈ s.ordered enc, row.1 ∈ S) : Sorted (· < ·) (s.ordered enc) := by
  have hid : Sorted (· < ·) (sortBy id (ZenDB.rows s.rows)) :=
    sorted_sortBy id _ (nodup_rows _) fun _ _ _ _ h => h
  cases hkind : s.kind with
  | unordered => rwa [ordered, entries, hkind]
  | inMemory capacity => rwa [ordered, entries, hkind]
  | ordered =>
    have hord : s.ordered enc = sortBy enc (ZenDB.rows s.rows) := by rw [ordered, entries, hkind]
    rw [hord] at hS ⊢
    have hagree := hagree hkind
    refine List.Pairwise.imp_of_mem ?_ (sorted_sortBy enc _ (nodup_rows _) ?_)
    · intro a b ha hb hab
      exact (hagree _ (hS a ha) _ (hS b hb)).mp hab
    · intro a ha b hb heq
      rw [← mem_sortBy enc] at ha hb
      refine le_antisymm ?_ ?_
      · exact (hagree.le_iff (hS a ha) (hS b hb)).mp heq.le
      · exact (hagree.le_iff (hS b hb) (hS a ha)).mp heq.ge

theorem range_eq (hkind : s.kind ≠ .unordered) (hagree : s.kind = .ordered → OrderAgrees enc S)
    (hS : ∀ row ∈ s.ordered enc, row.1 ∈ S) {start stop : K} (hstart : start ∈ S) (hstop : stop ∈ S) :
    s.range enc start stop =
      (s.ordered enc).filter fun row => start ≤ row.1 ∧ row.1 < stop := by
  rw [range]
  cases hk : s.kind with
  | unordered => exact absurd hk hkind
  | inMemory capacity => rw [ordered, hk]
  | ordered =>
    have hagree := hagree hk
    have hord : s.ordered enc = s.entries enc := by rw [ordered, hk]
    rw [hord] at hS ⊢
    refine List.filter_congr ?_
    intro row hrow
    have hrow := hS row hrow
    simp only [hagree.le_iff hstart hrow, hagree _ hrow _ hstop]

end State

end Orders

namespace Table

variable {enc : K → Bytes} {S : Set K}

/-- All ordered reads are those of the list `l`; `range` for bounds in `S`. -/
structure ReadsAs (enc : K → Bytes) (S : Set K) (t : Table K V E) (l : List (K × V)) : Prop where
  entries : t.entries enc = l
  entriesRev : t.entriesRev enc = l.reverse
  range : ∀ start ∈ S, ∀ stop ∈ S,
    t.range enc start stop = l.filter fun row => start ≤ row.1 ∧ row.1 < stop
  rangeRev : ∀ start ∈ S, ∀ stop ∈ S,
    t.rangeRev enc start stop = (l.filter fun row => start ≤ row.1 ∧ row.1 < stop).reverse
  first : t.first enc = l.head?
  last : t.last enc = l.getLast?

theorem first_eq (t : Table K V E) : t.first enc =
    (mergedEntries .ascending (t.state.ordered enc) t.cacheEntries).head? := by
  rw [mergedEntries, head?_mergeBy, first, State.first]
  cases (t.state.ordered enc).head? with
  | none => cases t.cacheEntries.head? <;> rfl
  | some a =>
    cases t.cacheEntries.head? with
    | none => rfl
    | some b => exact if_congr (cmp_eq_lt_iff _ _).symm rfl rfl

theorem last_eq (t : Table K V E) : t.last enc =
    (mergedEntries .descending (t.state.ordered enc).reverse t.cacheEntries.reverse).head? := by
  rw [mergedEntries, head?_mergeBy, last, State.last, List.head?_reverse, List.head?_reverse]
  cases (t.state.ordered enc).getLast? with
  | none => cases t.cacheEntries.getLast? <;> rfl
  | some a =>
    cases t.cacheEntries.getLast? with
    | none => rfl
    | some b =>
      refine if_congr ?_ rfl rfl
      rw [IterationOrder.compare, cmp_swap, cmp_eq_lt_iff]

theorem sorted_cacheEntries (t : Table K V E) : Sorted (· < ·) t.cacheEntries :=
  sorted_sortBy id _ (nodup_rows _) fun _ _ _ _ h => h

theorem mem_cacheEntries (t : Table K V E) (row : K × V) :
    row ∈ t.cacheEntries ↔ t.cache.lookup row.1 = some row.2 := by
  rw [cacheEntries, mem_sortBy]
  exact mem_rows _ _ _

/-- A row that the table reads is in the cache, or in the state under a key that is not cached. -/
theorem get_eq_some_iff (enc : K → Bytes) (t : Table K V E) (row : K × V) :
    t.get row.1 = some row.2 ↔ row ∈ t.cacheEntries ∨
      (row ∈ t.state.ordered enc ∧ ∀ y ∈ t.cacheEntries, y.1 ≠ row.1) := by
  have hfree : (∀ y ∈ t.cacheEntries, y.1 ≠ row.1) ↔ t.cache.lookup row.1 = none := by
    constructor
    · intro h
      cases hc : t.cache.lookup row.1 with
      | none => rfl
      | some value => exact absurd rfl (h (row.1, value) ((mem_cacheEntries t _).mpr hc))
    · intro hnone y hy heq
      rw [mem_cacheEntries, heq, hnone] at hy
      cases hy
  rw [hfree, mem_cacheEntries, State.mem_ordered, Table.get]
  cases t.cache.lookup row.1 <;> simp

theorem readsAs_of_get {l : List (K × V)} (hkind : t.state.kind ≠ .unordered)
    (hagree : t.state.kind = .ordered → OrderAgrees enc S) (hl : Sorted (· < ·) l)
    (hmem : ∀ row, row ∈ l ↔ t.get row.1 = some row.2) (hS : ∀ row ∈ t.state.ordered enc, row.1 ∈ S) :
    ReadsAs enc S t l := by
  have hs := State.sorted_ordered hagree hS
  have hc := t.sorted_cacheEntries
  have hmem' : ∀ row, row ∈ l ↔ row ∈ t.cacheEntries ∨
      (row ∈ t.state.ordered enc ∧ ∀ y ∈ t.cacheEntries, y.1 ≠ row.1) := by
    intro row
    rw [hmem, get_eq_some_iff enc]
  have hasc : mergedEntries .ascending (t.state.ordered enc) t.cacheEntries = l :=
    mergedEntries_eq .ascending hs hc hl hmem'
  have hdesc : mergedEntries .descending (t.state.ordered enc).reverse t.cacheEntries.reverse =
      l.reverse := by
    refine mergedEntries_eq .descending hs.reverse hc.reverse hl.reverse ?_
    simpa only [List.mem_reverse] using hmem'
  -- restricting both lists to a range restricts the merge
  have hfilter : ∀ (p : K → Bool) row, row ∈ l.filter (fun row => p row.1) ↔
      row ∈ t.cacheEntries.filter (fun row => p row.1) ∨
      (row ∈ (t.state.ordered enc).filter (fun row => p row.1) ∧
        ∀ y ∈ t.cacheEntries.filter (fun row => p row.1), y.1 ≠ row.1) := by
    intro p row
    simp only [List.mem_filter, hmem']
    constructor
    · rintro ⟨hrow | ⟨hrow, hfree⟩, hp⟩
      · exact Or.inl ⟨hrow, hp⟩
      · exact Or.inr ⟨⟨hrow, hp⟩, fun y hy => hfree y hy.1⟩
    · rintro (⟨hrow, hp⟩ | ⟨⟨hrow, hp⟩, hfree⟩)
      · exact ⟨Or.inl hrow, hp⟩
      · refine ⟨Or.inr ⟨hrow, fun y hy heq => hfree y ⟨hy, ?_⟩ heq⟩, hp⟩
        rwa [heq]
  refine ⟨?_, hdesc, ?_, ?_, ?_, ?_⟩
  · rw [entries, ← hasc]
    cases hk : t.state.kind with
    | unordered => exact absurd hk hkind
    | ordered => rw [State.ordered, hk]
    | inMemory capacity => rw [State.ordered, hk]
  · intro start hstart stop hstop
    rw [range, State.range_eq hkind hagree hS hstart hstop, cacheRange]
    exact mergedEntries_eq .ascending (hs.filter _) (hc.filter _) (hl.filter _)
      (hfilter fun key => start ≤ key ∧ key < stop)
  · intro start hstart stop hstop
    rw [rangeRev, State.rangeRev, State.range_eq hkind hagree hS hstart hstop, cacheRange]
    refine mergedEntries_eq .descending (hs.filter _).reverse (hc.filter _).reverse
      (hl.filter _).reverse ?_
    simpa only [List.mem_reverse] using hfilter fun key => start ≤ key ∧ key < stop
  · rw [first_eq, hasc]
  · rw [last_eq, hdesc, List.head?_reverse]

end Table

end Gets

namespace Table

open Crdt

/-- The applied changes are of events that were inserted. -/
theorem run_changes {ro : RowOps K V E} (t : Table K V E) (calls : List (Call E V))
    (change : Change E V) (h : change ∈ (t.run ro calls).2) : .insert change.event ∈ calls := by
  induction calls generalizing t with
  | nil => cases h
  | cons c calls ih =>
    rw [run] at h
    rcases List.mem_append.mp h with h | h
    · have hcall : (t.call ro c).2 = some change := by simpa using h
      suffices c = .insert change.event by simp [this]
      cases c with
      | insert event =>
        simp only [call, Table.insert] at hcall
        split at hcall
        · rename_i t' change' hins
          obtain rfl : change' = change := by simpa using hcall
          split at hins
          · cases hins
          · cases hins
          · split at hins
            · cases hins
              rfl
            · cases hins
        · cases hcall
      | _ => cases hcall
    · exact List.mem_cons_of_mem _ (ih _ h)

variable {P : Type} [LinearOrder P] [Inhabited P]

/-- In a run over keys that the B+ tree orders as `PrimaryKey` does, all ordered reads are those of
the logical map, however much of it is drained. -/
theorem ordered_reads_logical (peerBytes : P → Bytes) (kind : StateKind) (hkind : kind ≠ .unordered)
    (maxBuffered : Nat) (S : Set (PrimaryKey P))
    (hS : kind = .ordered → OrderAgrees (PrimaryKey.encode peerBytes) S)
    (calls : List (Call (Event P) (RowCell P)))
    (hcalls : ∀ event, Call.insert event ∈ calls → event.primaryKey ∈ S) :
    ReadsAs (PrimaryKey.encode peerBytes) S ((create kind maxBuffered).run rowOps calls).1
      (logicalRows rowOps ((create kind maxBuffered).run rowOps calls).2) := by
  obtain ⟨hkind', hget⟩ := run_get rowOps (create kind maxBuffered) calls [] fun _ => rfl
  rw [List.nil_append] at hget
  refine readsAs_of_get (hkind'.trans_ne hkind) (fun h => hS (hkind'.symm.trans h))
    (sorted_logicalRows _ _) ?_ ?_
  · intro row
    rw [mem_logicalRows, hget]
  · intro row hrow
    -- a row of the state is read, so some change of it was applied
    have hread : lastCell rowOps ((create kind maxBuffered).run rowOps calls).2 row.1 ≠ none := by
      rw [← hget, Table.get, (State.mem_ordered _ _ _).mp hrow]
      simp
    have hlast : lastChange rowOps ((create kind maxBuffered).run rowOps calls).2 row.1 ≠ none := by
      intro hnone
      exact hread (by rw [lastCell, hnone]; rfl)
    rw [Ne, lastChange_eq_none_iff] at hlast
    push Not at hlast
    obtain ⟨change, hmem, hkey⟩ := hlast
    rw [← hkey]
    exact hcalls change.event (run_changes _ calls change hmem)

/-- A row that is written as an integer under itself. -/
def upsertInt (key : Int) (sequence : Nat) : Event Nat :=
  ⟨.int key, [], .upsert (.scalar (.int key)), ⟨⟨1, sequence⟩, ⟨sequence, 0⟩⟩⟩

theorem ordered_reads_logical_two_rows :
    ReadsAs (PrimaryKey.encode (leBytes 8)) ({.int 1, .int 2} : Set (PrimaryKey Nat))
      ((create .ordered 1).run rowOps [.insert (upsertInt 2 1), .insert (upsertInt 1 2)]).1
      (logicalRows rowOps
        ((create .ordered 1).run rowOps [.insert (upsertInt 2 1), .insert (upsertInt 1 2)]).2) := by
  refine ordered_reads_logical (leBytes 8) .ordered (by decide) 1 _ (fun _ => ?_) _ ?_
  · rintro a (rfl | rfl) b (rfl | rfl) <;> decide +kernel
  · intro event hevent
    simp only [List.mem_cons, Call.insert.injEq, List.not_mem_nil, or_false] at hevent
    rcases hevent with rfl | rfl <;> simp [upsertInt]

/-- A B+ tree goes through the rows 1 and 256 in the order of their little-endian bytes. -/
theorem entries_out_of_order_after_flush :
    let calls := [.insert (upsertInt 1 1), .insert (upsertInt 256 2)]
    let before := (create .ordered 8).run rowOps calls
    let after := (create .ordered 8).run rowOps (calls ++ [.flush])
    (before.1.entries (PrimaryKey.encode (leBytes 8))).map Prod.fst = [.int 1, .int 256] ∧
    (after.1.entries (PrimaryKey.encode (leBytes 8))).map Prod.fst = [.int 256, .int 1] := by
  intro calls before after
  have hstate : before.1.state.entries (PrimaryKey.encode (leBytes 8)) = [] := by decide +kernel
  have hcache : after.1.cacheEntries = [] := by decide +kernel
  have hbefore : before.1.entries (PrimaryKey.encode (leBytes 8)) = before.1.cacheEntries := by
    have hkind : before.1.state.kind = .ordered := by decide +kernel
    rw [entries, hkind, hstate, mergedEntries, mergeBy]
  have hafter : after.1.entries (PrimaryKey.encode (leBytes 8)) =
      after.1.state.entries (PrimaryKey.encode (leBytes 8)) := by
    have hkind : after.1.state.kind = .ordered := by decide +kernel
    rw [entries, hkind, hcache, mergedEntries]
    cases after.1.state.entries (PrimaryKey.encode (leBytes 8)) <;> rw [mergeBy]
  rw [hbefore, hafter]
  exact ⟨by decide +kernel, by decide +kernel⟩

end Table

end ZenDB
