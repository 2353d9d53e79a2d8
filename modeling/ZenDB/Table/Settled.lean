import ZenDB.Table.Reads

namespace ZenDB

/-! Tables between calls: what they read is what a restart makes of their files. -/

namespace Table

variable {K V E : Type} [LinearOrder K] {ro : RowOps K V E} {t : Table K V E}

theorem perform_config {t' : Table K V E} {e : Effect K V E} (h : t.perform e = some t') :
    t'.maxBuffered = t.maxBuffered ∧ t'.state.kind = t.state.kind := by
  cases e with
  | put key value =>
    rw [perform] at h
    cases hput : t.state.put key value with
    | none =>
      rw [hput] at h
      cases h
    | some state =>
      rw [hput] at h
      cases h
      exact ⟨rfl, (State.put_rows hput).2⟩
  | cachePut key value =>
    rw [perform] at h
    split_ifs at h
    cases h
    exact ⟨rfl, rfl⟩
  | _ =>
    cases h
    exact ⟨rfl, rfl⟩

/-- Effects leave the configuration of a table alone. -/
theorem exec_config (t : Table K V E) (es : List (Effect K V E)) :
    (t.exec es).1.maxBuffered = t.maxBuffered ∧ (t.exec es).1.state.kind = t.state.kind := by
  rw [exec]
  induction es generalizing t with
  | nil => exact ⟨rfl, rfl⟩
  | cons e es ih =>
    rw [execEffects]
    cases he : t.perform e with
    | none => exact ⟨rfl, rfl⟩
    | some t' =>
      obtain ⟨hmax, hkind⟩ := perform_config he
      obtain ⟨hmax', hkind'⟩ := ih t'
      exact ⟨hmax'.trans hmax, hkind'.trans hkind⟩

theorem insert_config (ro : RowOps K V E) (t : Table K V E) (event : E) :
    (t.insert ro event).1.maxBuffered = t.maxBuffered ∧
      (t.insert ro event).1.state.kind = t.state.kind := by
  rw [insert_fst]
  exact exec_config t _

/-- An insert that reports a change has stored the cell of `apply`; any other changes no read. -/
theorem insert_get (ro : RowOps K V E) (t : Table K V E) (event : E) :
    match t.insert ro event with
    | (t', .applied change) => ∃ current, ro.apply (t.get (ro.key event)) event = .changed current ∧
        change.event = event ∧ ∀ key, t'.get key = if key = ro.key event then some current else t.get key
    | (t', .ignored) => ro.apply (t.get (ro.key event)) event = .unchanged ∧ ∀ key, t'.get key = t.get key
    | (t', .error) => ∀ key, t'.get key = t.get key := by
  rw [Table.insert]
  cases happly : ro.apply (t.get (ro.key event)) event with
  | error => exact fun _ => rfl
  | unchanged => exact ⟨rfl, fun _ => rfl⟩
  | changed current =>
    have h := (recordChange_recorded ro t event current).after
    rw [← Table.exec] at h
    dsimp only
    cases hexec : t.exec (t.recordChange ro event current) with
    | mk t' ok =>
      rw [hexec] at h
      cases ok with
      | true => exact ⟨current, rfl, rfl, fun key => by rw [h.get]; simp⟩
      | false => exact fun key => by rw [h.get]; simp

/-- A running table all of whose rows read as their last change. -/
structure Settled (ro : RowOps K V E) (t : Table K V E) : Prop where
  running : Running ro t
  get : ∀ key, t.get key = lastCell ro t.topic.log key

theorem Running.settled (h : Running ro t) (hpos : 0 < t.maxBuffered) : Settled ro t := by
  obtain ⟨committed, volatile, hrun⟩ := h
  refine ⟨⟨committed, volatile, hrun⟩, fun key => hrun.get key ?_⟩
  rw [hrun.buffered hpos, List.drop_length]
  rfl

theorem settled_create (ro : RowOps K V E) (kind : StateKind)
    (hkind : kind = .ordered ∨ kind = .unordered) (maxBuffered : Nat) :
    Settled ro (Table.create kind maxBuffered : Table K V E) :=
  ⟨(TableSystem.create_valid ro kind hkind maxBuffered).opened rfl, fun _ => rfl⟩

theorem Settled.insert (h : Settled ro t) (hpos : 0 < t.maxBuffered) (event : E) :
    Settled ro (t.insert ro event).1 := by
  obtain ⟨committed, volatile, hrun⟩ := h.running
  have hafter : Running ro (t.insert ro event).1 := by
    rw [insert_fst]
    exact (hrun.effects (.insert event)).after
  refine hafter.settled ?_
  rw [(insert_config ro t event).1]
  exact hpos

/-- A flush moves rows to the state, and appends nothing. -/
theorem Settled.flush (h : Settled ro t) :
    Settled ro (t.exec t.flush).1 ∧ ∀ key, (t.exec t.flush).1.get key = t.get key := by
  obtain ⟨committed, volatile, hrun⟩ := h.running
  have hget : ∀ key, (t.exec t.flush).1.get key = t.get key := (call_get ro t .flush).2
  have hafter : CrashTriple perform (Recoverable ro) t t.flush fun t' _ =>
      Running ro t' ∧ t'.topic.log = t.topic.log := by
    refine hrun.drainCache.append ?_ ?_
    · rintro t₁ ⟨-, h₁, hempty, htopic, -⟩
      have hcommit : t.commitRecovery = t₁.commitRecovery := by
        rw [Table.commitRecovery, Table.commitRecovery, hrun.disk.durable, h₁.disk.durable]
      rw [hcommit]
      refine (h₁.commitRecovery hempty).weaken ?_
      rintro t' ok ⟨-, ht', hlog, -⟩
      exact ⟨ht', by rw [hlog, htopic]⟩
    · rintro t₁ ⟨hfalse, -⟩
      cases hfalse
  obtain ⟨hrunning, hlog⟩ := hafter.after
  refine ⟨⟨hrunning, ?_⟩, hget⟩
  intro key
  have hlog' : (t.exec t.flush).1.topic.log = t.topic.log := hlog
  rw [hget, hlog', h.get]

/-- A restart goes through and reads the same rows. -/
theorem Settled.openTable (h : Settled ro t) (maxBuffered : Nat) :
    ∃ t', t.openTable ro maxBuffered = (t', true) ∧ Settled ro t' ∧ t'.maxBuffered = maxBuffered ∧
      t'.state.kind = t.state.kind ∧ ∀ key, t'.get key = t.get key := by
  obtain ⟨committed, volatile, hrun⟩ := h.running
  obtain ⟨hok, hrunning, hlog, hget⟩ := (hrun.disk.openTable maxBuffered).after
  obtain ⟨hmax, hkind⟩ :=
    exec_config (t.load maxBuffered) ((t.load maxBuffered).replayRecovery ro)
  have hstate : (t.load maxBuffered).state.kind = t.state.kind := by
    show t.state.reopen.kind = t.state.kind
    rw [State.reopen]
    split_ifs <;> rfl
  refine ⟨(t.openTable ro maxBuffered).1, Prod.ext rfl hok, ⟨hrunning, ?_⟩, hmax, hkind.trans hstate, ?_⟩
  · intro key
    have hlog' : (t.openTable ro maxBuffered).1.topic.log = t.topic.log := hlog
    rw [hlog']
    exact hget key
  · intro key
    rw [h.get]
    exact hget key

/-- A table over an in-memory state that no row was inserted into. -/
structure Blank (t : Table K V E) : Prop where
  memory : t.state.isInMemory = true
  rows : t.state.rows = ∅
  cache : t.cache = ∅
  log : t.topic.log = []
  consumer : t.topic.consumers.lookup recoveryConsumer = some ⟨0, some 0⟩

omit [LinearOrder K] in
theorem blank_create (capacity : Option Nat) (maxBuffered : Nat) :
    Blank (Table.create (.inMemory capacity) maxBuffered : Table K V E) :=
  ⟨rfl, rfl, rfl, rfl, rfl⟩

theorem Blank.get (h : Blank t) (key : K) : t.get key = none := by
  rw [Table.get, h.cache, h.rows]
  rfl

theorem Blank.flush (h : Blank t) : (t.exec t.flush).1 = t := by
  have hnone : t.flush = [] := by
    rw [Table.flush, drainCache, commitRecovery, if_pos h.memory, if_pos (by rw [h.cache]; rfl)]
    rfl
  rw [hnone]
  rfl

theorem Blank.openTable (h : Blank t) (ro : RowOps K V E) (maxBuffered : Nat) :
    ∃ t', t.openTable ro maxBuffered = (t', true) ∧ Blank t' ∧ t'.maxBuffered = maxBuffered ∧
      t'.state.kind = t.state.kind := by
  have hstate : t.state.reopen = ⟨t.state.kind, ∅⟩ := by
    rw [State.reopen, if_pos h.memory]
  have hcrash : t.topic.crash.consumers.lookup recoveryConsumer = some ⟨0, none⟩ := by
    rw [lookup_crash, h.consumer]
    rfl
  have htopic : (t.load maxBuffered).topic =
      t.topic.crash.setReader recoveryConsumer 0 (some 0) := by
    show (t.topic.crash.step (.register recoveryConsumer)).1 = _
    simp only [TopicSpec.step, hcrash]
  have hlog : (t.load maxBuffered).topic.log = [] := by
    rw [htopic]
    exact h.log
  have hmemory : (t.load maxBuffered).state.isInMemory = true := by
    show t.state.reopen.isInMemory = true
    rw [hstate]
    exact h.memory
  have hreplay : (t.load maxBuffered).replayRecovery ro = [] := by
    rw [replayRecovery, hlog, commitRecovery, if_pos hmemory, List.drop_nil]
    rfl
  have hopen : t.openTable ro maxBuffered = (t.load maxBuffered, true) := by
    rw [Table.openTable, hreplay]
    rfl
  refine ⟨t.load maxBuffered, hopen, ⟨hmemory, ?_, rfl, hlog, ?_⟩, rfl, ?_⟩
  · show t.state.reopen.rows = ∅
    rw [hstate]
  · rw [htopic, lookup_setReader]
  · show t.state.reopen.kind = t.state.kind
    rw [hstate]

/-- The rows of a key directory are those under its keys, each once. -/
theorem mem_entries_unordered (enc : K → Bytes) (h : t.state.kind = .unordered) (row : K × V) :
    row ∈ t.entries enc ↔ t.get row.1 = some row.2 := by
  rw [entries, h, Table.get, State.entries, h]
  simp only [List.mem_append, List.mem_filter, mem_cacheEntries, Option.isNone_iff_eq_none]
  have hstate : row ∈ ZenDB.rows t.state.rows ↔ t.state.rows.lookup row.1 = some row.2 := mem_rows _ _ _
  rw [hstate]
  cases t.cache.lookup row.1 with
  | none => simp
  | some value => simp

theorem nodup_entries_unordered (enc : K → Bytes) (h : t.state.kind = .unordered) :
    ((t.entries enc).map Prod.fst).Nodup := by
  rw [entries, h, State.entries, h]
  dsimp only
  rw [List.map_append, List.nodup_append]
  refine ⟨(nodup_rows t.state.rows).sublist (List.filter_sublist.map _), ?_, ?_⟩
  · exact List.pairwise_map.mpr ((sorted_cacheEntries t).imp fun hlt => ne_of_lt hlt)
  · intro key hkey key' hkey'
    obtain ⟨row, hrow, rfl⟩ := List.mem_map.mp hkey
    obtain ⟨row', hrow', rfl⟩ := List.mem_map.mp hkey'
    obtain ⟨-, hfree⟩ := List.mem_filter.mp hrow
    rw [mem_cacheEntries] at hrow'
    rintro heq
    rw [heq, hrow'] at hfree
    cases hfree

end Table

end ZenDB
