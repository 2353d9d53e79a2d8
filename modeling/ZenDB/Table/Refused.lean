import ZenDB.Table.Sizes

namespace ZenDB

/-! What an insert that fails leaves behind: the record of a row that the cache refuses, and the rows
of a drain that a full state breaks off. -/

variable {K V E : Type} [LinearOrder K]

/-- A bounded skip list that takes no new key. -/
def State.Full (s : State K V) : Prop :=
  match s.kind with
  | .inMemory (some maxEntries) => maxEntries ≤ s.rows.entries.length
  | _ => False

/-- Only a bounded skip list refuses a row, and only when it is full. -/
theorem State.put_cases (s : State K V) (key : K) (value : V) :
    (∃ s', s.put key value = some s' ∧ s'.kind = s.kind ∧
      (s'.rows.entries.length = s.rows.entries.length ∨
        s'.rows.entries.length = s.rows.entries.length+1 ∧ ¬ s.Full)) ∨
    s.put key value = none ∧ s.Full := by
  obtain ⟨kind, rows⟩ := s
  have hlen : (rows.insert key value).entries.length = rows.entries.length ∨
      (rows.insert key value).entries.length = rows.entries.length+1 ∧ rows.lookup key = none := by
    cases hrow : rows.lookup key with
    | none => exact Or.inr ⟨length_entries_insert_of_not_mem _ hrow, rfl⟩
    | some old => exact Or.inl (length_entries_insert_of_mem _ (by rw [hrow]; rfl))
  cases kind with
  | ordered => exact Or.inl ⟨_, rfl, rfl, hlen.imp_right fun h => ⟨h.1, fun hfull => hfull⟩⟩
  | unordered => exact Or.inl ⟨_, rfl, rfl, hlen.imp_right fun h => ⟨h.1, fun hfull => hfull⟩⟩
  | inMemory capacity =>
    cases capacity with
    | none => exact Or.inl ⟨_, rfl, rfl, hlen.imp_right fun h => ⟨h.1, fun hfull => hfull⟩⟩
    | some maxEntries =>
      by_cases hroom : (rows.lookup key).isSome ∨ rows.entries.length < maxEntries
      · refine Or.inl ⟨_, if_pos hroom, rfl, hlen.imp_right ?_⟩
        intro h
        refine ⟨h.1, ?_⟩
        intro hfull
        rw [h.2] at hroom
        have hlt : rows.entries.length < maxEntries := by simpa using hroom
        exact absurd hfull (not_le.mpr hlt)
      · exact Or.inr ⟨if_neg hroom, not_lt.mp (not_or.mp hroom).2⟩

namespace Table

variable {ro : RowOps K V E} {t : Table K V E}

/-- Nothing of a call can be seen: not in the reads, the count and the records, nor after a crash
or a close and the next open. -/
structure Untouched (ro : RowOps K V E) (t t' : Table K V E) : Prop where
  get : ∀ key, t'.get key = t.get key
  size : t'.size = t.size
  records : t'.topic.log = t.topic.log
  crashed : ∀ maxBuffered, t'.openTable ro maxBuffered = t.openTable ro maxBuffered
  closed : ∀ maxBuffered, (t'.exec t'.flush).1.openTable ro maxBuffered =
    (t.exec t.flush).1.openTable ro maxBuffered

theorem Untouched.refl (ro : RowOps K V E) (t : Table K V E) : Untouched ro t t :=
  ⟨fun _ => rfl, rfl, rfl, fun _ => rfl, fun _ => rfl⟩

/-- A loop of puts breaks off at a full state; until then it has filled the room there was. -/
theorem exec_puts_broken (t : Table K V E) {l : List (K × V)}
    (hbroken : (t.exec (l.flatMap fun row => [.put row.1 row.2])).2 = false) :
    ∃ state maxEntries, (t.exec (l.flatMap fun row => [.put row.1 row.2])).1 = {t with state := state} ∧
      t.state.kind = .inMemory (some maxEntries) ∧ state.kind = t.state.kind ∧
      state.rows.entries.length = max t.state.rows.entries.length maxEntries := by
  induction l generalizing t with
  | nil => cases hbroken
  | cons row l ih =>
    rw [List.flatMap_cons, List.cons_append, List.nil_append, exec, execEffects, perform] at hbroken ⊢
    rcases State.put_cases t.state row.1 row.2 with ⟨s, hput, hkind, hlen⟩ | ⟨hput, hfull⟩
    · simp only [hput] at hbroken ⊢
      obtain ⟨state, maxEntries, hframe, hbound, hkind', hlen'⟩ := ih {t with state := s} hbroken
      refine ⟨state, maxEntries, hframe, hkind ▸ hbound, hkind'.trans hkind, ?_⟩
      have hbound' : t.state.kind = .inMemory (some maxEntries) := hkind ▸ hbound
      rw [hlen']
      rcases hlen with hsame | ⟨hmore, hroom⟩
      · simp only [hsame]
      · rw [State.Full, hbound'] at hroom
        simp only [hmore]
        omega
    · rw [State.Full] at hfull
      split at hfull
      · rename_i maxEntries hkind
        simp only [hput]
        exact ⟨t.state, maxEntries, rfl, hkind, rfl, (max_eq_left hfull).symm⟩
      · cases hfull

/-- A drain that breaks off has left the cache, the counter and the topic alone. -/
theorem exec_drainCache_broken (hbroken : (t.exec t.drainCache).2 = false) :
    ∃ state maxEntries, (t.exec t.drainCache).1 = {t with state := state} ∧
      t.state.kind = .inMemory (some maxEntries) ∧ state.kind = t.state.kind ∧
      state.rows.entries.length = max t.state.rows.entries.length maxEntries := by
  rw [drainCache] at hbroken ⊢
  split_ifs at hbroken ⊢ with hempty
  · cases hbroken
  · rw [exec, execEffects_append] at hbroken ⊢
    split_ifs at hbroken ⊢ with hok
    · cases hbroken
    · exact exec_puts_broken t (Bool.eq_false_of_not_eq_true hok)

theorem exec_drainCache_topic (t : Table K V E) : (t.exec t.drainCache).1.topic = t.topic := by
  rw [drainCache]
  split_ifs with hempty
  · rfl
  · have hnodup : ((sortBy id (rows t.cache)).map Prod.fst).Nodup :=
      ((perm_sortBy id (rows t.cache)).map Prod.fst).nodup_iff.mpr (nodup_rows t.cache)
    obtain ⟨-, state, hframe⟩ := t.exec_puts hnodup
    rw [exec] at hframe ⊢
    rw [execEffects_append]
    split_ifs
    · rw [hframe]
      rfl
    · rw [hframe]

/-- A skip list is filled from the topic alone. -/
theorem openTable_inMemory {t' : Table K V E} (h : t.state.isInMemory = true)
    (hkind : t'.state.kind = t.state.kind) (htopic : t'.topic = t.topic) (maxBuffered : Nat) :
    t'.openTable ro maxBuffered = t.openTable ro maxBuffered := by
  have h' : t'.state.isInMemory = true := by
    rw [State.isInMemory, hkind]
    exact h
  have hload : t'.load maxBuffered = t.load maxBuffered := by
    rw [load, load, State.reopen, State.reopen, if_pos h, if_pos h', hkind, htopic]
  rw [openTable, hload, ← openTable]

theorem flush_inMemory (h : t.state.isInMemory = true) :
    (t.exec t.flush).1.state.kind = t.state.kind ∧ (t.exec t.flush).1.topic = t.topic := by
  rw [flush, commitRecovery, if_pos h, List.append_nil]
  exact ⟨(drainCache_sameGets t).after.kind, t.exec_drainCache_topic⟩

/-- A broken drain shows in the count, unless the state was full before it. -/
theorem untouched_drainCache_iff (ro : RowOps K V E) (hbroken : (t.exec t.drainCache).2 = false) :
    Untouched ro t (t.exec t.drainCache).1 ↔ t.state.Full := by
  have hget := (drainCache_sameGets t).after.get
  rw [← exec] at hget
  obtain ⟨state, maxEntries, hframe, hbound, hkind, hlen⟩ := exec_drainCache_broken hbroken
  have hsize : (t.exec t.drainCache).1.size = t.size ↔ t.state.Full := by
    rw [hframe, size, size, hlen, State.Full, hbound]
    dsimp only
    omega
  refine ⟨fun h => hsize.mp h.size, ?_⟩
  intro hfull
  have hmem : t.state.isInMemory = true := by rw [State.isInMemory, hbound]
  have hkind' : (t.exec t.drainCache).1.state.kind = t.state.kind := by rw [hframe]; exact hkind
  have htopic := t.exec_drainCache_topic
  have hmem' : (t.exec t.drainCache).1.state.isInMemory = true := by
    rw [State.isInMemory, hkind', hbound]
  obtain ⟨hflush, hflushed⟩ := flush_inMemory hmem
  obtain ⟨hflush', hflushed'⟩ := flush_inMemory hmem'
  refine ⟨hget, hsize.mpr hfull, by rw [htopic], ?_, ?_⟩
  · intro maxBuffered
    exact openTable_inMemory hmem hkind' htopic maxBuffered
  · intro maxBuffered
    refine openTable_inMemory ?_ ?_ ?_ maxBuffered
    · rw [State.isInMemory, hflush]
      exact hmem
    · rw [hflush', hflush, hkind']
    · rw [hflushed', hflushed, htopic]

/-- Without room in an empty buffer the record is written before the row is refused. -/
theorem exec_recordChange_refused {event : E} (current : V)
    (hprepare : t.prepareCache (ro.key event) = t.drainCache)
    (hdrain : (t.exec t.drainCache).2 = true) (hmax : t.maxBuffered = 0) :
    (t.exec (t.recordChange ro event current)).1.topic.log =
      t.topic.log ++ [⟨event, t.get (ro.key event), some current⟩] := by
  obtain ⟨-, hmax', hempty⟩ := t.exec_drainCache
  have htopic := t.exec_drainCache_topic
  have hcache := (entries_eq_nil_iff _).mp (hempty hdrain)
  rw [hmax] at hmax'
  rw [exec] at htopic hcache hmax' hdrain
  rw [recordChange, hprepare, List.append_assoc, List.append_assoc, exec, execEffects_append,
    if_pos hdrain]
  generalize (execEffects perform t t.drainCache).1 = t₁ at htopic hcache hmax' ⊢
  have happend : ∀ change : Change E V, t₁.perform (.append change) =
      some {t₁ with topic := (t₁.topic.step (.append change)).1} := fun _ => rfl
  have hput : ∀ topic : TopicSpec String (Change E V),
      perform {t₁ with topic := topic} (.cachePut (ro.key event) current) = none := by
    intro topic
    refine if_neg ?_
    simp [hcache, hmax']
  simp only [List.cons_append, List.nil_append, execEffects, happend, hput]
  rw [htopic]
  rfl

theorem insert_accepted {event : E} {current : V}
    (happly : ro.apply (t.get (ro.key event)) event = .changed current)
    (haccepts : t.Accepts (ro.key event)) :
    (t.insert ro event).2 = .applied ⟨event, t.get (ro.key event), some current⟩ := by
  have hok := (exec_recordChange ro t event current).mpr haccepts
  rw [Table.insert, happly]
  dsimp only
  cases hexec : t.exec (t.recordChange ro event current) with
  | mk t' ok =>
    rw [hexec] at hok
    cases hok
    rfl

theorem insert_refused {event : E} {current : V}
    (happly : ro.apply (t.get (ro.key event)) event = .changed current)
    (hrefuses : ¬ t.Accepts (ro.key event)) :
    t.insert ro event = ((t.exec (t.recordChange ro event current)).1, .error) := by
  have hok := mt (exec_recordChange ro t event current).mp hrefuses
  rw [Table.insert, happly]
  dsimp only
  cases hexec : t.exec (t.recordChange ro event current) with
  | mk t' ok =>
    rw [hexec] at hok
    cases ok with
    | true => exact absurd rfl hok
    | false => rfl

/-- A change that is not accepted is traceless only where a full state stops the drain. -/
theorem untouched_recordChange_iff {event : E} {current : V} (hrefuses : ¬ t.Accepts (ro.key event)) :
    Untouched ro t (t.exec (t.recordChange ro event current)).1 ↔
      ¬ t.state.Fits (rows t.cache) ∧ t.state.Full := by
  rw [Accepts, not_or, not_or, not_and] at hrefuses
  obtain ⟨hcached, hlen, hdrain⟩ := hrefuses
  have hprepare : t.prepareCache (ro.key event) = t.drainCache :=
    if_pos ⟨not_lt.mp hlen, by simpa using hcached⟩
  by_cases hfits : t.state.Fits (rows t.cache)
  · have hmax : t.maxBuffered = 0 := by
      by_contra hne
      exact hdrain (Nat.pos_of_ne_zero hne) hfits
    refine iff_of_false ?_ fun h => h.1 hfits
    intro huntouched
    have hdrained := t.exec_drainCache.1.mpr hfits
    have hlog := exec_recordChange_refused current hprepare hdrained hmax
    rw [huntouched.records] at hlog
    simpa using congrArg List.length hlog
  · have hbroken : (t.exec t.drainCache).2 = false :=
      Bool.eq_false_of_not_eq_true (mt t.exec_drainCache.1.mp hfits)
    have hstop : t.exec (t.recordChange ro event current) = t.exec t.drainCache := by
      rw [exec] at hbroken
      rw [recordChange, hprepare, List.append_assoc, List.append_assoc, exec, execEffects_append,
        if_neg (by rw [hbroken]; exact Bool.false_ne_true), ← exec]
    rw [hstop, untouched_drainCache_iff ro hbroken]
    exact (and_iff_right hfits).symm

/-- A failed insert leaves no trace unless it goes past `apply_walk` and then finds no room: not in
the buffer, and not by a drain, be it that there is no buffer or that the drain fills the state. -/
theorem refused_insert_untouched_iff (ro : RowOps K V E) (t : Table K V E) (event : E) :
    ((t.insert ro event).2 = .error → Untouched ro t (t.insert ro event).1) ↔
      (∀ current, ro.apply (t.get (ro.key event)) event ≠ .changed current) ∨
      t.Accepts (ro.key event) ∨ ¬ t.state.Fits (rows t.cache) ∧ t.state.Full := by
  cases happly : ro.apply (t.get (ro.key event)) event with
  | error =>
    have hins : t.insert ro event = (t, .error) := by rw [Table.insert, happly]
    rw [hins]
    exact iff_of_true (fun _ => Untouched.refl ro t) (Or.inl fun current h => by cases h)
  | unchanged =>
    have hins : t.insert ro event = (t, .ignored) := by rw [Table.insert, happly]
    rw [hins]
    exact iff_of_true (fun _ => Untouched.refl ro t) (Or.inl fun current h => by cases h)
  | changed current =>
    have hpast : ¬ ∀ current', Applied.changed current ≠ .changed current' := fun h => h current rfl
    rw [or_iff_right hpast]
    by_cases haccepts : t.Accepts (ro.key event)
    · rw [insert_accepted happly haccepts]
      exact iff_of_true (fun herror => by cases herror) (Or.inl haccepts)
    · rw [insert_refused happly haccepts, or_iff_right haccepts, ← untouched_recordChange_iff haccepts]
      exact ⟨fun h => h rfl, fun h _ => h⟩

/-- Without a buffer the record of a refused row is there at the next open; a skip list for one row
takes one of two rows before it refuses, and the row is counted twice. -/
theorem refused_insert_leaves_trace :
    let unbuffered := create .ordered 0
    let refused := unbuffered.insert rowOps (upsertInt 1 1)
    let bounded := ((create (.inMemory (some 1)) 2).run rowOps
      [.insert (upsertInt 1 1), .insert (upsertInt 2 2)]).1
    let broken := bounded.insert rowOps (upsertInt 3 3)
    refused.2 = .error ∧ unbuffered.topic.log.length = 0 ∧ refused.1.topic.log.length = 1 ∧
      ((refused.1.openTable rowOps 8).1.get (.int 1)).isSome = true ∧
      broken.2 = .error ∧ bounded.size = 2 ∧ broken.1.size = 3 := by
  intro unbuffered refused bounded broken
  refine ⟨rfl, ?_, ?_, ?_, rfl, ?_, ?_⟩ <;> decide +kernel

end Table

end ZenDB
