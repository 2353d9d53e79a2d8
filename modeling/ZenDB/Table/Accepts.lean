import ZenDB.Table.Settled

namespace ZenDB

/-! When a table has room for a change, and what its topic holds afterwards. -/

variable {K V E : Type} [LinearOrder K]

namespace State

/-- How many of the rows have a new key. -/
def novel (s : State K V) (l : List (K × V)) : Nat :=
  (l.filter fun row => (s.rows.lookup row.1).isNone).length

/-- A bounded skip list has room for the new keys among the rows. -/
def Fits (s : State K V) (l : List (K × V)) : Prop :=
  match s.kind with
  | .inMemory (some maxEntries) => s.novel l = 0 ∨ s.rows.entries.length+s.novel l ≤ maxEntries
  | _ => True

theorem novel_insert (kind : StateKind) (rows : AList fun _ : K => V) (row : K × V)
    {l : List (K × V)} (hnot : row.1 ∉ l.map Prod.fst) :
    novel ⟨kind, rows.insert row.1 row.2⟩ l = novel ⟨kind, rows⟩ l := by
  refine congrArg List.length (List.filter_congr fun row' hrow' => ?_)
  have hne : row'.1 ≠ row.1 := fun heq => hnot (heq ▸ List.mem_map_of_mem hrow')
  rw [AList.lookup_insert_ne hne]

theorem fits_nil (s : State K V) : s.Fits [] := by
  rw [Fits]
  split
  · exact Or.inl rfl
  · trivial

theorem fits_of_perm {s : State K V} {l l' : List (K × V)} (h : l.Perm l') :
    s.Fits l ↔ s.Fits l' := by
  have hnovel : s.novel l = s.novel l' := (h.filter _).length_eq
  rw [Fits, Fits, hnovel]

/-- A list of rows fits when its first row can be put and the others fit behind it. -/
theorem fits_cons (s : State K V) (row : K × V) {l : List (K × V)} (hnot : row.1 ∉ l.map Prod.fst) :
    s.Fits (row :: l) ↔ ∃ s', s.put row.1 row.2 = some s' ∧ s'.Fits l := by
  obtain ⟨kind, rows⟩ := s
  have hnovel := novel_insert kind rows row hnot
  cases kind with
  | ordered => simp [Fits, put]
  | unordered => simp [Fits, put]
  | inMemory capacity =>
    cases capacity with
    | none => simp [Fits, put]
    | some maxEntries =>
      simp only [Fits, put]
      cases hrow : rows.lookup row.1 with
      | some value =>
        have hlen : (rows.insert row.1 row.2).entries.length = rows.entries.length :=
          length_entries_insert_of_mem _ (by rw [hrow]; rfl)
        have hhead : novel ⟨.inMemory (some maxEntries), rows⟩ (row :: l) =
            novel ⟨.inMemory (some maxEntries), rows⟩ l := by
          simp [novel, hrow]
        simp only [Option.isSome_some, true_or, if_true, Option.some.injEq, exists_eq_left', hnovel,
          hlen, hhead]
      | none =>
        have hlen : (rows.insert row.1 row.2).entries.length = rows.entries.length+1 :=
          length_entries_insert_of_not_mem _ hrow
        have hhead : novel ⟨.inMemory (some maxEntries), rows⟩ (row :: l) =
            novel ⟨.inMemory (some maxEntries), rows⟩ l+1 := by
          simp [novel, hrow]
        rw [hhead]
        by_cases hroom : rows.entries.length < maxEntries
        · simp only [Option.isSome_none, Bool.false_eq_true, hroom, or_true, if_true,
            Option.some.injEq, exists_eq_left', hnovel, hlen]
          omega
        · simp only [Option.isSome_none, Bool.false_eq_true, hroom, or_false, if_false, reduceCtorEq,
            false_and, exists_false, iff_false, false_or]
          omega

end State

namespace Table

variable {ro : RowOps K V E}

/-- There is room for a row under the key: it is cached already, the cache has room, or a drain
makes room. -/
def Accepts (t : Table K V E) (key : K) : Prop :=
  (t.cache.lookup key).isSome ∨ t.cache.entries.length < t.maxBuffered ∨
    0 < t.maxBuffered ∧ t.state.Fits (rows t.cache)

/-- The loop of a drain goes through when its rows fit; it writes to the state only. -/
theorem exec_puts (t : Table K V E) {l : List (K × V)} (hnodup : (l.map Prod.fst).Nodup) :
    ((t.exec (l.flatMap fun row => [.put row.1 row.2])).2 = true ↔ t.state.Fits l) ∧
      ∃ state, (t.exec (l.flatMap fun row => [.put row.1 row.2])).1 = {t with state := state} := by
  induction l generalizing t with
  | nil => exact ⟨iff_of_true rfl t.state.fits_nil, t.state, rfl⟩
  | cons row l ih =>
    obtain ⟨hnot, hnodup⟩ := List.nodup_cons.mp hnodup
    rw [State.fits_cons t.state row hnot, List.flatMap_cons, List.cons_append, List.nil_append]
    have hstep : t.perform (.put row.1 row.2) = (t.state.put row.1 row.2).map fun state =>
        {t with state := state} := by
      rw [perform]
      cases t.state.put row.1 row.2 <;> rfl
    rw [exec, execEffects, hstep]
    cases hput : t.state.put row.1 row.2 with
    | none => exact ⟨iff_of_false (by simp) (by simp), t.state, rfl⟩
    | some state =>
      obtain ⟨hok, state', hframe⟩ := ih {t with state := state} hnodup
      refine ⟨?_, state', hframe⟩
      simp only [Option.map_some, Option.some.injEq, exists_eq_left']
      exact hok

/-- A drain goes through when the rows of the cache fit, and then the cache is empty. -/
theorem exec_drainCache (t : Table K V E) :
    ((t.exec t.drainCache).2 = true ↔ t.state.Fits (rows t.cache)) ∧
      (t.exec t.drainCache).1.maxBuffered = t.maxBuffered ∧
      ((t.exec t.drainCache).2 = true → (t.exec t.drainCache).1.cache.entries = []) := by
  refine ⟨?_, (exec_config t _).1, ?_⟩
  · rw [drainCache]
    split_ifs with hempty
    · have hrows : rows t.cache = [] := by rw [rows, hempty, List.map_nil]
      rw [hrows]
      exact iff_of_true rfl t.state.fits_nil
    · have hnodup : ((sortBy id (rows t.cache)).map Prod.fst).Nodup :=
        ((perm_sortBy id (rows t.cache)).map Prod.fst).nodup_iff.mpr (nodup_rows t.cache)
      obtain ⟨hok, -⟩ := t.exec_puts hnodup
      rw [← State.fits_of_perm (perm_sortBy id (rows t.cache)), ← hok, exec, execEffects_append_ok]
      exact and_iff_left rfl
  · rw [drainCache]
    split_ifs with hempty
    · exact fun _ => hempty
    · rw [exec, execEffects_append]
      cases hputs : execEffects perform t _ with
      | mk t' ok =>
        cases ok with
        | true => exact fun _ => rfl
        | false => exact fun hfalse => by cases hfalse

/-- Of the effects from the append on, only the cache can refuse. -/
theorem exec_store (t : Table K V E) (change : Change E V) (key : K) (current : V)
    {es : List (Effect K V E)} (hes : ∀ t' : Table K V E, (t'.exec es).2 = true) :
    (t.exec (.append change :: .cachePut key current :: es)).2 = true ↔
      (t.cache.lookup key).isSome ∨ t.cache.entries.length < t.maxBuffered := by
  rw [exec, execEffects]
  show (execEffects perform {t with topic := (t.topic.step (.append change)).1}
    (.cachePut key current :: es)).2 = true ↔ _
  by_cases hroom : (t.cache.lookup key).isSome ∨ t.cache.entries.length < t.maxBuffered
  · have hput : perform {t with topic := (t.topic.step (.append change)).1} (.cachePut key current) =
        some {t with
          topic := (t.topic.step (.append change)).1
          cache := t.cache.insert key current} := if_pos hroom
    rw [execEffects, hput]
    exact iff_of_true (hes _) hroom
  · have hput : perform {t with topic := (t.topic.step (.append change)).1} (.cachePut key current) =
        none := if_neg hroom
    rw [execEffects, hput]
    exact iff_of_false (by simp) hroom

/-- A change is stored exactly when the table has room for its row. -/
theorem exec_recordChange (ro : RowOps K V E) (t : Table K V E) (event : E) (current : V) :
    (t.exec (t.recordChange ro event current)).2 = true ↔ t.Accepts (ro.key event) := by
  have htail : ∀ t' : Table K V E, (t'.exec ((if (t.get (ro.key event)).isNone then [.countNovel]
      else []) ++ [.seek (t.topic.log.length+1)])).2 = true := by
    intro t'
    cases (t.get (ro.key event)).isNone <;> rfl
  rw [recordChange, List.append_assoc, List.append_assoc]
  generalize (if (t.get (ro.key event)).isNone then [Effect.countNovel] else []) ++
    [.seek (t.topic.log.length+1)] = tail at htail ⊢
  have hstore := fun t₁ : Table K V E =>
    t₁.exec_store ⟨event, t.get (ro.key event), some current⟩ (ro.key event) current htail
  refine (execEffects_append_ok perform t (t.prepareCache (ro.key event)) _).trans ?_
  refine (and_congr_right fun _ => hstore _).trans ?_
  rw [Accepts, prepareCache]
  by_cases hfull : t.cache.entries.length ≥ t.maxBuffered ∧ (t.cache.lookup (ro.key event)).isNone
  · obtain ⟨hfits, hmax, hcleared⟩ := t.exec_drainCache
    rw [if_pos hfull, ← exec, ← hfits, hmax]
    have hnone : (t.cache.lookup (ro.key event)).isSome = false := by simpa using hfull.2
    constructor
    · intro hand
      obtain ⟨hdrain, hroom⟩ := hand
      have hempty := hcleared hdrain
      rw [(entries_eq_nil_iff _).mp hempty] at hroom
      exact Or.inr (Or.inr ⟨by simpa using hroom, hdrain⟩)
    · intro hor
      rw [hnone] at hor
      have hpos : 0 < t.maxBuffered ∧ (t.exec t.drainCache).2 = true := by
        rcases hor with hcached | hlt | hand
        · cases hcached
        · omega
        · exact hand
      refine ⟨hpos.2, Or.inr ?_⟩
      rw [hcleared hpos.2]
      exact hpos.1
  · rw [if_neg hfull]
    constructor
    · exact fun hand => hand.2.imp_right Or.inl
    · intro _
      refine ⟨rfl, ?_⟩
      rw [execEffects]
      by_contra hno
      obtain ⟨hnone, hlen⟩ := not_or.mp hno
      exact hfull ⟨not_lt.mp hlen, by simpa using hnone⟩

end Table

/-- The record that an effect leaves in the topic. -/
def Effect.appended : Effect K V E → List (Change E V)
  | .append change => [change]
  | .consumer op => op.appended
  | _ => []

namespace Table

theorem perform_log {t t' : Table K V E} {e : Effect K V E} (h : t.perform e = some t') :
    t'.topic.log = t.topic.log ++ e.appended := by
  cases e with
  | put key value =>
    rw [perform] at h
    cases hput : t.state.put key value with
    | none =>
      rw [hput] at h
      cases h
    | some state =>
      rw [hput] at h
      cases h
      exact (List.append_nil _).symm
  | cachePut key value =>
    rw [perform] at h
    split_ifs at h
    cases h
    exact (List.append_nil _).symm
  | seek offset =>
    cases h
    simp only [Effect.appended, List.append_nil]
    exact t.topic.log_withReader _ fun _ _ => rfl
  | append change =>
    cases h
    rfl
  | next =>
    cases h
    exact t.topic.log_step _
  | commit =>
    cases h
    exact t.topic.log_step _
  | consumer op =>
    cases h
    exact t.topic.log_step op
  | _ =>
    cases h
    exact (List.append_nil _).symm

/-- The topic behind a program: what was there, then the records of the effects that were done. -/
theorem exec_log (t : Table K V E) (es : List (Effect K V E)) :
    ∃ done, done <+: es ∧ ((t.exec es).2 = true → done = es) ∧
      (t.exec es).1.topic.log = t.topic.log ++ done.flatMap Effect.appended := by
  rw [exec]
  induction es generalizing t with
  | nil => exact ⟨[], List.prefix_refl _, fun _ => rfl, (List.append_nil _).symm⟩
  | cons e es ih =>
    rw [execEffects]
    cases he : t.perform e with
    | none => exact ⟨[], List.nil_prefix, (fun hfalse => by cases hfalse), (List.append_nil _).symm⟩
    | some t' =>
      obtain ⟨done, hprefix, hall, hlog⟩ := ih t'
      refine ⟨e :: done, (List.prefix_cons_inj e).mpr hprefix, fun hok => by rw [hall hok], ?_⟩
      rw [hlog, perform_log he, List.flatMap_cons, List.append_assoc]

theorem appended_recordChange (ro : RowOps K V E) (t : Table K V E) (event : E) (current : V) :
    (t.recordChange ro event current).flatMap Effect.appended =
      [⟨event, t.get (ro.key event), some current⟩] := by
  have hprepare : (t.prepareCache (ro.key event)).flatMap Effect.appended = [] := by
    rw [prepareCache, drainCache]
    split_ifs <;> simp [List.flatMap_append, List.flatMap_assoc, Effect.appended]
  rw [recordChange, List.flatMap_append, List.flatMap_append, List.flatMap_append, hprepare]
  cases (t.get (ro.key event)).isNone <;> rfl

/-- A change that was stored is in the topic. -/
theorem mem_log_of_applied {ro : RowOps K V E} {t t' : Table K V E} {event : E} {change : Change E V}
    (h : t.insert ro event = (t', .applied change)) :
    change.event = event ∧ change ∈ t'.topic.log := by
  rw [Table.insert] at h
  cases happly : ro.apply (t.get (ro.key event)) event with
  | error =>
    rw [happly] at h
    cases h
  | unchanged =>
    rw [happly] at h
    cases h
  | changed current =>
    rw [happly] at h
    dsimp only at h
    obtain ⟨done, -, hall, hlog⟩ := t.exec_log (t.recordChange ro event current)
    cases hexec : t.exec (t.recordChange ro event current) with
    | mk t₁ ok =>
      rw [hexec] at h hall hlog
      cases ok with
      | false => cases h
      | true =>
        cases h
        rw [hall rfl, appended_recordChange] at hlog
        exact ⟨rfl, by rw [hlog]; simp⟩

end Table

end ZenDB
