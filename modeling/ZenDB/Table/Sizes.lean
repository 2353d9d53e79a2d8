import Mathlib.Data.Finset.Card
import ZenDB.Table.Accepts

namespace ZenDB

/-! How many rows a table counts: those of the state, and the cached rows under new keys. -/

variable {K V E : Type} [LinearOrder K]

namespace Table

def contains (t : Table K V E) (key : K) : Bool :=
  (t.cache.lookup key).isSome || (t.state.rows.lookup key).isSome

def size (t : Table K V E) : Nat := t.state.rows.entries.length+t.novelPending

def isEmpty (t : Table K V E) : Bool := t.state.rows.entries.isEmpty && t.novelPending == 0

theorem contains_eq (t : Table K V E) (key : K) : t.contains key = (t.get key).isSome := by
  rw [contains, Table.get, Option.isSome_or]

omit [LinearOrder K] in
theorem isEmpty_iff (t : Table K V E) : t.isEmpty = true ↔ t.size = 0 := by
  simp [isEmpty, size]

def heldKeys (t : Table K V E) : Finset K := (t.state.rows.keys ++ t.cache.keys).toFinset

theorem mem_heldKeys (t : Table K V E) (key : K) : key ∈ t.heldKeys ↔ (t.get key).isSome := by
  rw [heldKeys, List.mem_toFinset, List.mem_append, Table.get, Option.isSome_or, Bool.or_eq_true,
    AList.lookup_isSome, AList.lookup_isSome, ← AList.mem_keys, ← AList.mem_keys]
  exact Or.comm

/-- The rows of the state and the pending new ones are all rows. -/
def Counted (t : Table K V E) : Prop := t.size = t.heldKeys.card

variable {ro : RowOps K V E} {t : Table K V E}

theorem counted_of_cache_empty (hcache : t.cache = ∅) (hnovel : t.novelPending = 0) : t.Counted := by
  have hkeys : t.heldKeys = t.state.rows.keys.toFinset := by
    rw [heldKeys, hcache, AList.keys_empty, List.append_nil]
  rw [Counted, size, hnovel, hkeys, List.toFinset_card_of_nodup t.state.rows.keys_nodup, AList.keys,
    List.keys, List.length_map, Nat.add_zero]

/-- A row goes to the cache; it is counted when its key is new. -/
theorem Counted.cachePut (h : t.Counted) (key : K) (value : V) {t' : Table K V E}
    (hstate : t'.state = t.state) (hcache : t'.cache = t.cache.insert key value)
    (hnovel : t'.novelPending = t.novelPending+if (t.get key).isNone then 1 else 0) : t'.Counted := by
  have hkeys : t'.heldKeys = Insert.insert key t.heldKeys := by
    ext k
    rw [Finset.mem_insert, mem_heldKeys, mem_heldKeys, Table.get, hstate, hcache, lookup_insert_ite]
    by_cases hk : k = key
    · simp [hk]
    · simp [hk, Table.get]
  rw [Counted, size] at h
  rw [Counted, size, hstate, hnovel, hkeys, ← Nat.add_assoc, h]
  cases hget : t.get key with
  | none =>
    have hnew : key ∉ t.heldKeys := by
      rw [mem_heldKeys, hget]
      simp
    rw [Finset.card_insert_of_notMem hnew]
    rfl
  | some old =>
    have hold : key ∈ t.heldKeys := by
      rw [mem_heldKeys, hget]
      rfl
    rw [Finset.insert_eq_of_mem hold]
    rfl

theorem Counted.drainCache (h : t.Counted) (hok : (t.exec t.drainCache).2 = true) :
    (t.exec t.drainCache).1.Counted := by
  rw [Table.drainCache] at hok ⊢
  split_ifs at hok ⊢ with hempty
  · exact h
  · rw [exec, execEffects_append_ok] at hok
    rw [exec, execEffects_append, if_pos hok.1]
    exact counted_of_cache_empty rfl rfl

theorem Counted.prepareCache (h : t.Counted) (key : K)
    (hok : (t.exec (t.prepareCache key)).2 = true) : (t.exec (t.prepareCache key)).1.Counted := by
  rw [Table.prepareCache] at hok ⊢
  split_ifs at hok ⊢
  · exact h.drainCache hok
  · exact h

/-- What storing a change does to the rows, behind the drain that may come first. -/
theorem exec_recordChange_rows {event : E} {current : V}
    (hok : (t.exec (t.recordChange ro event current)).2 = true) :
    let drained := t.exec (t.prepareCache (ro.key event))
    let stored := (t.exec (t.recordChange ro event current)).1
    drained.2 = true ∧ stored.state = drained.1.state ∧
      stored.cache = drained.1.cache.insert (ro.key event) current ∧
      stored.novelPending =
        drained.1.novelPending+if (t.get (ro.key event)).isNone then 1 else 0 := by
  rw [recordChange, List.append_assoc, List.append_assoc, exec, execEffects_append_ok] at hok
  simp only [recordChange, List.append_assoc, exec]
  rw [execEffects_append, if_pos hok.1]
  obtain ⟨hdrain, hstore⟩ := hok
  refine ⟨hdrain, ?_⟩
  generalize (execEffects perform t (t.prepareCache (ro.key event))).1 = t₁ at hstore ⊢
  have happend : ∀ change : Change E V, t₁.perform (.append change) =
      some {t₁ with topic := (t₁.topic.step (.append change)).1} := fun _ => rfl
  simp only [List.cons_append, List.nil_append, execEffects, happend] at hstore ⊢
  cases hput : perform {t₁ with topic := (t₁.topic.step (.append
      ⟨event, t.get (ro.key event), some current⟩)).1} (.cachePut (ro.key event) current) with
  | none =>
    rw [hput] at hstore
    cases hstore
  | some t₂ =>
    rw [perform] at hput
    split_ifs at hput
    cases hput
    cases (t.get (ro.key event)).isNone <;> exact ⟨rfl, rfl, rfl⟩

theorem Counted.recordChange (h : t.Counted) {event : E} {current : V}
    (hok : (t.exec (t.recordChange ro event current)).2 = true) :
    (t.exec (t.recordChange ro event current)).1.Counted := by
  obtain ⟨hdrain, hstate, hcache, hnovel⟩ := exec_recordChange_rows hok
  have hget : (t.exec (t.prepareCache (ro.key event))).1.get (ro.key event) = t.get (ro.key event) := by
    rw [Table.prepareCache]
    split_ifs
    · exact (drainCache_sameGets t).after.get _
    · rfl
  rw [← hget] at hnovel
  exact (h.prepareCache _ hdrain).cachePut _ _ hstate hcache hnovel

/-- A call in which no store fails keeps the count. -/
theorem Counted.effects (h : t.Counted) {c : Call E V} (hok : (t.exec (t.effects ro c)).2 = true) :
    (t.exec (t.effects ro c)).1.Counted := by
  have hflush : (t.exec (t.drainCache ++ t.commitRecovery)).2 = true →
      (t.exec (t.drainCache ++ t.commitRecovery)).1.Counted := by
    intro hok
    rw [exec, execEffects_append_ok] at hok
    rw [exec, execEffects_append, if_pos hok.1]
    have hdrained := h.drainCache hok.1
    rw [commitRecovery]
    split_ifs
    · exact hdrained
    · exact hdrained
  cases c with
  | insert event =>
    rw [Table.effects] at hok ⊢
    cases happly : ro.apply (t.get (ro.key event)) event with
    | error => exact h
    | unchanged => exact h
    | changed current =>
      rw [happly] at hok
      exact h.recordChange hok
  | flush => exact hflush hok
  | sync => exact hflush hok
  | compact => exact h
  | consumer op =>
    rw [Table.effects]
    split_ifs
    · exact h
    · exact h

section Runs

variable (ro)

/-- No store of the run fails; an event that `apply_walk` rejects stores nothing. -/
def Unfailing (t : Table K V E) : List (Call E V) → Prop
  | [] => True
  | c :: cs => (t.exec (t.effects ro c)).2 = true ∧ Unfailing (t.call ro c).1 cs

theorem call_fst (t : Table K V E) (c : Call E V) :
    (t.call ro c).1 = (t.exec (t.effects ro c)).1 := by
  cases c with
  | insert event =>
    rw [← insert_fst, call]
    cases hins : t.insert ro event with
    | mk t' outcome => cases outcome <;> rfl
  | _ => rfl

/-- An applied change starts from the cell that was read, and leaves a cell. -/
theorem call_change {t : Table K V E} {c : Call E V} {change : Change E V}
    (h : (t.call ro c).2 = some change) :
    change.previous = t.get (ro.key change.event) ∧ change.current.isSome = true := by
  cases c with
  | insert event =>
    rw [call, Table.insert] at h
    cases happly : ro.apply (t.get (ro.key event)) event with
    | error =>
      rw [happly] at h
      cases h
    | unchanged =>
      rw [happly] at h
      cases h
    | changed current =>
      rw [happly] at h
      cases hexec : t.exec (t.recordChange ro event current) with
      | mk t' ok =>
        simp only [hexec] at h
        cases ok with
        | false => cases h
        | true =>
          cases h
          exact ⟨rfl, rfl⟩
  | _ => cases h

/-- Each change starts from the cell before it. -/
def Chained : Option V → List (Change E V) → Prop
  | _, [] => True
  | cell, change :: rest => change.previous = cell ∧ Chained change.current rest

theorem run_counted {calls : List (Call E V)} (h : t.Counted) (hrun : Unfailing ro t calls) :
    (t.run ro calls).1.Counted := by
  induction calls generalizing t with
  | nil => exact h
  | cons c calls ih =>
    obtain ⟨hok, hrest⟩ := hrun
    refine ih ?_ hrest
    rw [call_fst]
    exact h.effects hok

theorem run_current (t : Table K V E) (calls : List (Call E V)) :
    ∀ change ∈ (t.run ro calls).2, change.current.isSome = true := by
  induction calls generalizing t with
  | nil => simp [run]
  | cons c calls ih =>
    intro change hmem
    rw [run] at hmem
    rcases List.mem_append.mp hmem with hmem | hmem
    · exact (call_change ro (Option.mem_toList.mp hmem)).2
    · exact ih _ change hmem

theorem run_chained (t : Table K V E) (calls : List (Call E V)) (key : K) :
    Chained (t.get key) ((t.run ro calls).2.filter fun change => ro.key change.event = key) := by
  induction calls generalizing t with
  | nil => trivial
  | cons c calls ih =>
    have hrest := ih (t.call ro c).1
    have hget := (call_get ro t c).2 key
    rw [run, List.filter_append]
    cases hcall : (t.call ro c).2 with
    | none =>
      rw [hcall] at hget
      rw [hget] at hrest
      exact hrest
    | some change =>
      rw [hcall] at hget
      dsimp only at hget
      by_cases hkey : ro.key change.event = key
      · rw [if_pos hkey.symm] at hget
        rw [hget] at hrest
        have hprevious := (call_change ro hcall).1
        rw [hkey] at hprevious
        simpa [hkey, Chained] using ⟨hprevious, hrest⟩
      · rw [if_neg (Ne.symm hkey)] at hget
        rw [hget] at hrest
        simpa [hkey] using hrest

/-- What the reads by key and the counts tell about the changes applied so far. -/
structure CountsAs (t : Table K V E) (changes : List (Change E V)) : Prop where
  get : ∀ key, t.get key = lastCell ro changes key
  contains : ∀ key, t.contains key = true ↔ ∃ change ∈ changes, ro.key change.event = key
  size : t.size = (changes.map fun change => ro.key change.event).toFinset.card
  isEmpty : t.isEmpty = true ↔ (changes.map fun change => ro.key change.event).toFinset.card = 0
  chain : ∀ key, Chained none (changes.filter fun change => ro.key change.event = key)

/-- After every run without a failing store the counts are those of the applied changes, however
much of it was drained. -/
theorem run_countsAs (kind : StateKind) (maxBuffered : Nat) (calls : List (Call E V))
    (hrun : Unfailing ro (create kind maxBuffered) calls) :
    CountsAs ro ((create kind maxBuffered).run ro calls).1
      ((create kind maxBuffered).run ro calls).2 := by
  have hget := (run_get ro (create kind maxBuffered) calls [] fun _ => rfl).2
  rw [List.nil_append] at hget
  have hcounted := run_counted ro (counted_of_cache_empty rfl rfl) hrun
  have hcurrent := run_current ro (create kind maxBuffered) calls
  have hchain := run_chained ro (create kind maxBuffered) calls
  generalize ((create kind maxBuffered).run ro calls).1 = t at hget hcounted ⊢
  generalize ((create kind maxBuffered).run ro calls).2 = changes at hget hcurrent hchain ⊢
  have hcell : ∀ key, (t.get key).isSome = true ↔ ∃ change ∈ changes, ro.key change.event = key := by
    intro key
    rw [hget, lastCell]
    cases hlast : lastChange ro changes key with
    | none =>
      rw [lastChange_eq_none_iff] at hlast
      simpa using hlast
    | some change =>
      have hmem : change ∈ changes.filter fun change => ro.key change.event = key :=
        List.mem_of_getLast? hlast
      have hfound : change ∈ changes ∧ ro.key change.event = key := by simpa using hmem
      exact iff_of_true (hcurrent change hfound.1) ⟨change, hfound⟩
  have hkeys : t.heldKeys = (changes.map fun change => ro.key change.event).toFinset := by
    ext key
    rw [mem_heldKeys, hcell, List.mem_toFinset, List.mem_map]
  have hsize : t.size = (changes.map fun change => ro.key change.event).toFinset.card := by
    rw [hcounted, hkeys]
  refine ⟨hget, ?_, hsize, ?_, hchain⟩
  · intro key
    rw [contains_eq, hcell]
  · rw [isEmpty_iff, hsize]

/-- A buffer of one row is drained by the second and by the third insert. -/
theorem run_countsAs_drained :
    let calls := [.insert (upsertInt 2 1), .insert (upsertInt 1 2), .insert (upsertInt 2 3), .flush,
      .compact]
    CountsAs rowOps ((create (.inMemory (some 2)) 1).run rowOps calls).1
      ((create (.inMemory (some 2)) 1).run rowOps calls).2 := by
  refine run_countsAs _ _ _ _ ⟨?_, ?_, ?_, ?_, ?_, trivial⟩ <;> decide +kernel

end Runs

end Table

end ZenDB
