import ZenDB.Table.Model

namespace ZenDB

namespace Table

variable {K V E : Type} [LinearOrder K] (ro : RowOps K V E)

/-- The last change of a row in a log. -/
def lastChange (log : List (Change E V)) (key : K) : Option (Change E V) :=
  (log.filter fun c => ro.key c.event = key).getLast?

/-- The cell a log leaves for a row. -/
def lastCell (log : List (Change E V)) (key : K) : Option V :=
  (lastChange ro log key).bind Change.current

theorem lastChange_append (p q : List (Change E V)) (key : K) :
    lastChange ro (p ++ q) key = (lastChange ro q key).or (lastChange ro p key) := by
  rw [lastChange, List.filter_append, List.getLast?_append]
  rfl

theorem lastChange_snoc (log : List (Change E V)) (c : Change E V) (key : K) :
    lastChange ro (log ++ [c]) key =
      if ro.key c.event = key then some c else lastChange ro log key := by
  rw [lastChange_append]
  by_cases h : ro.key c.event = key
  · simp [lastChange, h]
  · simp [lastChange, h]

theorem lastChange_eq_none_iff (log : List (Change E V)) (key : K) :
    lastChange ro log key = none ↔ ∀ c ∈ log, ro.key c.event ≠ key := by
  rw [lastChange, List.getLast?_eq_none_iff, List.filter_eq_nil_iff]
  simp

theorem lastChange_drop_mono {log : List (Change E V)} {m n : Nat} (hmn : m ≤ n) {key : K}
    (h : lastChange ro (log.drop m) key = none) : lastChange ro (log.drop n) key = none := by
  rw [lastChange_eq_none_iff] at h ⊢
  intro c hc
  refine h c (List.IsSuffix.subset ?_ hc)
  rw [← Nat.sub_add_cancel hmn, Nat.add_comm, ← List.drop_drop]
  exact List.drop_suffix _ _

/-- What is on disk determines every row: a row whose last change is committed is in the state, and
the others are behind the committed offset. -/
structure OnDisk (t : Table K V E) (committed : Nat) : Prop where
  durable : t.state.isInMemory = false
  consumer : (t.topic.consumers.lookup recoveryConsumer).map ConsumerSpec.committed = some committed
  committed_le : committed ≤ t.topic.log.length
  cells : ∀ c ∈ t.topic.log, c.current.isSome
  rows : ∀ key, lastChange ro (t.topic.log.drop committed) key = none →
    t.state.rows.lookup key = lastCell ro t.topic.log key

def Recoverable (t : Table K V E) : Prop := ∃ committed, OnDisk ro t committed

/-- An open table between two calls; `volatile` is the offset of the recovery handle. Without a
buffer the cache refuses every row and the handle stays behind the topic. -/
structure RunningAt (t : Table K V E) (committed volatile : Nat) : Prop where
  disk : OnDisk ro t committed
  handle : t.topic.consumers.lookup recoveryConsumer = some ⟨committed, some volatile⟩
  committed_le : committed ≤ volatile
  volatile_le : volatile ≤ t.topic.log.length
  unbuffered : t.maxBuffered = 0 → t.cache.entries = []
  buffered : 0 < t.maxBuffered → volatile = t.topic.log.length
  get : ∀ key, lastChange ro (t.topic.log.drop volatile) key = none →
    t.get key = lastCell ro t.topic.log key

def Running (t : Table K V E) : Prop := ∃ committed volatile, RunningAt ro t committed volatile

variable {ro} {t : Table K V E} {committed volatile : Nat}

theorem put_durable {s : State K V} (h : s.isInMemory = false) (key : K) (value : V) :
    s.put key value = some {s with rows := s.rows.insert key value} := by
  obtain ⟨kind, rows⟩ := s
  cases kind with
  | ordered => rfl
  | unordered => rfl
  | inMemory capacity => simp [State.isInMemory] at h

theorem OnDisk.congr (h : OnDisk ro t committed) {t' : Table K V E} (hstate : t'.state = t.state)
    (hlog : t'.topic.log = t.topic.log)
    (hcons : t'.topic.consumers.lookup recoveryConsumer =
      t.topic.consumers.lookup recoveryConsumer) : OnDisk ro t' committed := by
  obtain ⟨h1, h2, h3, h4, h5⟩ := h
  exact ⟨by rw [hstate]; exact h1, by rw [hcons]; exact h2, by rw [hlog]; exact h3,
    by rw [hlog]; exact h4, by rw [hlog, hstate]; exact h5⟩

/-- Storing a cell is harmless unless it hides a committed one. -/
theorem OnDisk.put (h : OnDisk ro t committed) (key : K) (value : V)
    (hvalue : lastChange ro (t.topic.log.drop committed) key = none →
      lastCell ro t.topic.log key = some value) :
    OnDisk ro {t with state := {t.state with rows := t.state.rows.insert key value}} committed := by
  refine ⟨h.durable, h.consumer, h.committed_le, h.cells, ?_⟩
  intro k hk
  show (t.state.rows.insert key value).lookup k = _
  rw [lookup_insert_ite]
  split_ifs with heq
  · subst heq
    exact (hvalue hk).symm
  · exact h.rows k hk

theorem OnDisk.remove (h : OnDisk ro t committed) (key : K)
    (hkey : lastChange ro (t.topic.log.drop committed) key ≠ none) :
    OnDisk ro {t with state := t.state.delete key} committed := by
  refine ⟨h.durable, h.consumer, h.committed_le, h.cells, ?_⟩
  intro k hk
  show (t.state.rows.erase key).lookup k = _
  rw [lookup_erase_ite]
  split_ifs with heq
  · subst heq
    exact absurd hk hkey
  · exact h.rows k hk

theorem OnDisk.append (h : OnDisk ro t committed) (change : Change E V)
    (hcell : change.current.isSome) :
    OnDisk ro {t with topic := (t.topic.step (.append change)).1} committed := by
  refine ⟨h.durable, h.consumer, ?_, ?_, ?_⟩
  · exact h.committed_le.trans (by simp [TopicSpec.step])
  · intro c hc
    rcases List.mem_append.mp hc with hc | hc
    · exact h.cells c hc
    · rw [List.mem_singleton.mp hc]
      exact hcell
  · intro k hk
    change lastChange ro ((t.topic.log ++ [change]).drop committed) k = none at hk
    show t.state.rows.lookup k = lastCell ro (t.topic.log ++ [change]) k
    rw [List.drop_append_of_le_length h.committed_le, lastChange_snoc] at hk
    split_ifs at hk with heq
    rw [h.rows k hk, lastCell, lastCell, lastChange_snoc, if_neg heq]

theorem RunningAt.recoverable (h : RunningAt ro t committed volatile) : Recoverable ro t :=
  ⟨committed, h.disk⟩

omit [LinearOrder K] in
theorem entries_eq_nil_iff (m : AList (fun _ : K => V)) : m.entries = [] ↔ m = ∅ := by
  constructor
  · intro h
    exact AList.ext h
  · rintro rfl
    rfl

/-- A cached row whose last change is committed has the cell of that change. -/
theorem RunningAt.cached (h : RunningAt ro t committed volatile) {key : K} {value : V}
    (hcache : t.cache.lookup key = some value)
    (hlast : lastChange ro (t.topic.log.drop committed) key = none) :
    lastCell ro t.topic.log key = some value := by
  rw [← h.get key (lastChange_drop_mono ro h.committed_le hlast), Table.get, hcache]
  rfl

/-- The table after the first rows of a drain. -/
structure Drained (t : Table K V E) (done : List (K × V)) (s : Table K V E) : Prop where
  rest : s = {t with state := s.state}
  lookup : ∀ key, s.state.rows.lookup key =
    if key ∈ done.map Prod.fst then t.cache.lookup key else t.state.rows.lookup key

theorem Drained.put {done : List (K × V)} {s : Table K V E} (h : Drained t done s) {row : K × V}
    (hrow : t.cache.lookup row.1 = some row.2) {state : State K V}
    (hstate : state.rows = s.state.rows.insert row.1 row.2) :
    Drained t (done ++ [row]) {s with state := state} := by
  refine ⟨by rw [h.rest], ?_⟩
  intro key
  show state.rows.lookup key = _
  rw [hstate, lookup_insert_ite, h.lookup]
  by_cases heq : key = row.1
  · rw [if_pos heq, if_pos (by simp [heq]), heq, hrow]
  · rw [if_neg heq]
    exact if_congr (by simp [heq]) rfl rfl

theorem cache_lookup_of_mem {row : K × V} (h : row ∈ sortBy id (rows t.cache)) :
    t.cache.lookup row.1 = some row.2 :=
  (mem_rows _ _ _).mp ((mem_sortBy _ _ _).mp h)

/-- Once all cached rows are in the state, it reads as the table did. -/
theorem Drained.lookup_eq_get {s : Table K V E} (h : Drained t (sortBy id (rows t.cache)) s)
    (key : K) : s.state.rows.lookup key = t.get key := by
  rw [h.lookup, Table.get]
  split_ifs with hmem
  · obtain ⟨row, hrow, rfl⟩ := List.mem_map.mp hmem
    rw [cache_lookup_of_mem hrow]
    rfl
  · cases hc : t.cache.lookup key with
    | none => rfl
    | some value =>
      refine absurd (List.mem_map.mpr ⟨(key, value), ?_, rfl⟩) hmem
      exact (mem_sortBy _ _ _).mpr ((mem_rows _ _ _).mpr hc)

/-- Draining moves the cached rows into the state; no read changes. -/
theorem RunningAt.drainCache (h : RunningAt ro t committed volatile) :
    CrashTriple perform (Recoverable ro) t t.drainCache fun t' ok =>
      ok = true ∧ RunningAt ro t' committed volatile ∧ t'.cache = ∅ ∧ t'.topic = t.topic ∧
        t'.maxBuffered = t.maxBuffered := by
  rw [Table.drainCache]
  split_ifs with hempty
  · refine .nil h.recoverable ⟨rfl, h, (entries_eq_nil_iff _).mp hempty, rfl, rfl⟩
  refine CrashTriple.append (CrashTriple.forEach
    (fun done s => OnDisk ro s committed ∧ Drained t done s) (fun _ => False) _ ?_ ?_ ?_) ?_ ?_
  · intro done s hs
    exact ⟨committed, hs.1⟩
  · rintro done row s hpre ⟨hdisk, hs⟩
    have hmem : row ∈ sortBy id (rows t.cache) :=
      hpre.subset (List.mem_append_right done (List.mem_singleton_self row))
    have hrow := cache_lookup_of_mem hmem
    have hput : s.perform (.put row.1 row.2) =
        some {s with state := {s.state with rows := s.state.rows.insert row.1 row.2}} := by
      rw [perform, put_durable hdisk.durable]
      rfl
    have hdisk' := hdisk.put row.1 row.2 (by rw [hs.rest]; exact h.cached hrow)
    exact .step ⟨committed, hdisk⟩ hput (.nil ⟨committed, hdisk'⟩
      ⟨fun _ => ⟨hdisk', hs.put hrow rfl⟩, fun hfalse => by cases hfalse⟩)
  · exact ⟨h.disk, rfl, by simp⟩
  · intro s hpost
    obtain ⟨hdisk, hs⟩ := hpost.1 rfl
    have htopic : s.topic = t.topic := by rw [hs.rest]
    have hmax : s.maxBuffered = t.maxBuffered := by rw [hs.rest]
    have hdisk' : OnDisk ro {s with cache := ∅, novelPending := 0} committed :=
      hdisk.congr rfl rfl rfl
    refine .step ⟨committed, hdisk⟩ rfl (.nil ⟨committed, hdisk'⟩ ⟨rfl, ?_, rfl, htopic, hmax⟩)
    refine ⟨hdisk', ?_, h.committed_le, ?_, fun _ => rfl, ?_, ?_⟩
    · show s.topic.consumers.lookup recoveryConsumer = _
      rw [htopic]
      exact h.handle
    · show volatile ≤ s.topic.log.length
      rw [htopic]
      exact h.volatile_le
    · show 0 < s.maxBuffered → volatile = s.topic.log.length
      rw [htopic, hmax]
      exact h.buffered
    · show ∀ key, lastChange ro (s.topic.log.drop volatile) key = none → s.state.rows.lookup key =
        lastCell ro s.topic.log key
      rw [htopic]
      intro key hlast
      rw [hs.lookup_eq_get]
      exact h.get key hlast
  · intro s hpost
    exact absurd (hpost.2 rfl) id

/-- `prepare_cache` leaves room for the row unless the table has no buffer. -/
theorem RunningAt.prepareCache (h : RunningAt ro t committed volatile) (key : K) :
    CrashTriple perform (Recoverable ro) t (t.prepareCache key) fun t' ok =>
      ok = true ∧ RunningAt ro t' committed volatile ∧ t'.topic = t.topic ∧
        (0 < t'.maxBuffered →
          (t'.cache.lookup key).isSome ∨ t'.cache.entries.length < t'.maxBuffered) := by
  rw [Table.prepareCache]
  split_ifs with hfull
  · refine h.drainCache.weaken ?_
    rintro t' ok ⟨hok, ht', hempty, htopic, hmax⟩
    refine ⟨hok, ht', htopic, fun hpos => Or.inr ?_⟩
    rw [hempty]
    exact hpos
  · refine .nil h.recoverable ⟨rfl, h, rfl, fun _ => ?_⟩
    by_contra hno
    obtain ⟨hnone, hlen⟩ := not_or.mp hno
    exact hfull ⟨by omega, by simpa using hnone⟩

/-- The recovery handle after a seek or a commit. -/
theorem lookup_setReader (s : TopicSpec String (Change E V)) (committed : Nat)
    (reader : Option Nat) :
    (s.setReader recoveryConsumer committed reader).consumers.lookup recoveryConsumer =
      some ⟨committed, reader⟩ := AList.lookup_insert _

theorem seek_eq {s : TopicSpec String (Change E V)}
    (h : s.consumers.lookup recoveryConsumer = some ⟨committed, some volatile⟩) (offset : Nat) :
    s.seek recoveryConsumer offset = s.setReader recoveryConsumer committed (some offset) := by
  rw [TopicSpec.seek, TopicSpec.withReader, h]

/-- Once every row reads as its last change, the handle may move to the end of the topic. -/
theorem OnDisk.seekEnd (h : OnDisk ro t committed)
    (hhandle : t.topic.consumers.lookup recoveryConsumer = some ⟨committed, some volatile⟩)
    (hpos : 0 < t.maxBuffered) (hget : ∀ key, t.get key = lastCell ro t.topic.log key)
    (novel : Bool) :
    CrashTriple perform (Recoverable ro) t
      ((if novel then [.countNovel] else []) ++ [.seek t.topic.log.length]) fun t' _ =>
        Running ro t' := by
  have hseek : ∀ n, CrashTriple perform (Recoverable ro) {t with novelPending := n}
      [.seek t.topic.log.length] fun t' _ => Running ro t' := by
    intro n
    have hdisk : OnDisk ro {t with novelPending := n} committed := h.congr rfl rfl rfl
    have heq := seek_eq hhandle t.topic.log.length
    have hend : RunningAt ro {t with
        novelPending := n
        topic := t.topic.seek recoveryConsumer t.topic.log.length} committed t.topic.log.length := by
      rw [heq]
      refine ⟨⟨h.durable, ?_, h.committed_le, h.cells, h.rows⟩, lookup_setReader _ _ _,
        h.committed_le, le_refl _, fun hzero => absurd hzero hpos.ne', fun _ => rfl,
        fun key _ => hget key⟩
      rw [lookup_setReader]
      rfl
    exact .step ⟨committed, hdisk⟩ rfl (.nil hend.recoverable ⟨_, _, hend⟩)
  cases novel with
  | false => exact hseek t.novelPending
  | true => exact .step ⟨committed, h⟩ rfl (hseek (t.novelPending+1))

/-- An open table records a change: from the append on, the change is what recovery finds. -/
theorem RunningAt.recordChange (h : RunningAt ro t committed volatile) (event : E) (current : V) :
    CrashTriple perform (Recoverable ro) t (t.recordChange ro event current) fun t' _ =>
      Running ro t' := by
  rw [Table.recordChange, List.append_assoc, List.append_assoc]
  refine (h.prepareCache (ro.key event)).append ?_ ?_
  swap
  · rintro s ⟨hfalse, -⟩
    cases hfalse
  rintro t₁ ⟨-, h₁, htopic, hroom⟩
  rw [← htopic]
  generalize t.get (ro.key event) = previous
  obtain ⟨change, hchange⟩ : ∃ change : Change E V, change = ⟨event, previous, some current⟩ :=
    ⟨_, rfl⟩
  rw [← hchange]
  have hkey : ro.key change.event = ro.key event := by rw [hchange]
  have hcell : change.current = some current := by rw [hchange]
  have hdisk := h₁.disk.append change (by rw [hcell]; rfl)
  have hother : ∀ key, key ≠ ro.key event →
      lastChange ro (t₁.topic.log ++ [change]) key = lastChange ro t₁.topic.log key := by
    intro key hne
    rw [lastChange_snoc, hkey, if_neg (Ne.symm hne)]
  refine .step h₁.recoverable rfl (.cons ⟨committed, hdisk⟩ ?_ ?_)
  · -- the row is cached, so the handle may move behind the new record
    intro t₃ hput
    rw [perform] at hput
    split_ifs at hput with hfits
    rw [← Option.some.inj hput]
    have hpos : 0 < t₁.maxBuffered := by
      by_contra hnot
      have hzero : t₁.maxBuffered = 0 := by omega
      have hnil := (entries_eq_nil_iff _).mp (h₁.unbuffered hzero)
      change (t₁.cache.lookup _).isSome ∨ t₁.cache.entries.length < t₁.maxBuffered at hfits
      rw [hnil, hzero] at hfits
      simp at hfits
    have hlen : t₁.topic.log.length+1 = (t₁.topic.log ++ [change]).length := by simp
    have hcached : OnDisk ro {t₁ with
        topic := (t₁.topic.step (.append change)).1
        cache := t₁.cache.insert (ro.key event) current} committed := hdisk.congr rfl rfl rfl
    rw [hlen]
    refine hcached.seekEnd h₁.handle hpos ?_ _
    intro key
    show ((t₁.cache.insert (ro.key event) current).lookup key).or (t₁.state.rows.lookup key) =
      lastCell ro (t₁.topic.log ++ [change]) key
    rw [lookup_insert_ite, lastCell]
    split_ifs with heq
    · rw [lastChange_snoc, hkey, if_pos heq.symm, Option.bind_some, hcell]
      rfl
    · rw [hother key heq]
      exact h₁.get key (by rw [h₁.buffered hpos, List.drop_length]; rfl)
  · -- without a buffer the call fails behind the append
    intro hnone
    have hnot : ¬ 0 < t₁.maxBuffered := by
      intro hpos
      rw [perform, if_pos (hroom hpos)] at hnone
      cases hnone
    refine ⟨committed, volatile, hdisk, h₁.handle, h₁.committed_le, ?_, h₁.unbuffered,
      fun hpos => absurd hpos hnot, ?_⟩
    · exact h₁.volatile_le.trans (by simp [TopicSpec.step])
    · intro key hlast
      change lastChange ro ((t₁.topic.log ++ [change]).drop volatile) key = none at hlast
      rw [List.drop_append_of_le_length h₁.volatile_le, lastChange_snoc] at hlast
      split_ifs at hlast with heq
      show t₁.get key = lastCell ro (t₁.topic.log ++ [change]) key
      rw [lastCell, hother key (by rw [← hkey]; exact fun hne => heq hne.symm)]
      exact h₁.get key hlast

/-- Once the state holds every row up to the handle's offset, that offset may be committed. -/
theorem RunningAt.commitRecovery (h : RunningAt ro t committed volatile) (hempty : t.cache = ∅) :
    CrashTriple perform (Recoverable ro) t t.commitRecovery fun t' ok =>
      ok = true ∧ Running ro t' ∧ t'.topic.log = t.topic.log ∧ ∀ key, t'.get key = t.get key := by
  have hstate : ∀ key, t.state.rows.lookup key = t.get key := by
    intro key
    rw [Table.get, hempty]
    rfl
  have heq : (t.topic.step (.commit recoveryConsumer)).1 =
      t.topic.setReader recoveryConsumer volatile (some volatile) := by
    rw [TopicSpec.step, TopicSpec.withReader, h.handle]
  have hdone : RunningAt ro {t with topic := (t.topic.step (.commit recoveryConsumer)).1}
      volatile volatile := by
    rw [heq]
    refine ⟨⟨h.disk.durable, ?_, h.volatile_le, h.disk.cells, ?_⟩, lookup_setReader _ _ _, le_refl _,
      h.volatile_le, h.unbuffered, h.buffered, h.get⟩
    · rw [lookup_setReader]
      rfl
    · intro key hlast
      exact (hstate key).trans (h.get key hlast)
  rw [Table.commitRecovery, h.disk.durable]
  refine .step h.recoverable rfl (.nil hdone.recoverable ⟨rfl, ⟨_, _, hdone⟩, ?_, fun _ => rfl⟩)
  show (t.topic.step (.commit recoveryConsumer)).1.log = t.topic.log
  rw [heq]
  rfl

theorem RunningAt.flush (h : RunningAt ro t committed volatile) :
    CrashTriple perform (Recoverable ro) t t.flush fun t' _ => Running ro t' := by
  refine h.drainCache.append ?_ ?_
  · rintro t₁ ⟨-, h₁, hempty, htopic, -⟩
    have hcommit : t.commitRecovery = t₁.commitRecovery := by
      rw [Table.commitRecovery, Table.commitRecovery, h.disk.durable, h₁.disk.durable]
    rw [hcommit]
    exact (h₁.commitRecovery hempty).weaken fun t' ok hpost => hpost.2.1
  · rintro t₁ ⟨hfalse, -⟩
    cases hfalse

/-- Other holders of handles neither append nor move the recovery handle. -/
theorem foreign_step {s : TopicSpec String (Change E V)} {op : Topic.Op String (Change E V)}
    (hop : op.foreign = true)
    (h : s.consumers.lookup recoveryConsumer = some ⟨committed, some volatile⟩) :
    (s.step op).1.log = s.log ∧
      (s.step op).1.consumers.lookup recoveryConsumer = s.consumers.lookup recoveryConsumer := by
  have hset : ∀ name c r, name ≠ recoveryConsumer →
      (s.setReader name c r).consumers.lookup recoveryConsumer =
        s.consumers.lookup recoveryConsumer := by
    intro name c r hne
    exact AList.lookup_insert_ne (Ne.symm hne)
  have hwith : ∀ name f, name ≠ recoveryConsumer →
      (∀ c o, (f c o : TopicSpec String (Change E V) × Topic.Ret (Change E V)).1.log = s.log ∧
        (f c o).1.consumers.lookup recoveryConsumer = s.consumers.lookup recoveryConsumer) →
      (s.withReader name f).1.log = s.log ∧
        (s.withReader name f).1.consumers.lookup recoveryConsumer =
          s.consumers.lookup recoveryConsumer := by
    intro name f hne hf
    unfold TopicSpec.withReader
    split
    · exact hf _ _
    · exact ⟨rfl, rfl⟩
  cases op with
  | append value => cases hop
  | reopen => cases hop
  | compact => exact ⟨rfl, rfl⟩
  | register name =>
    by_cases hne : name = recoveryConsumer
    · subst hne
      simp only [TopicSpec.step, h, and_self]
    · simp only [TopicSpec.step]
      split
      · exact ⟨rfl, hset _ _ _ hne⟩
      · exact ⟨rfl, hset _ _ _ hne⟩
      · exact ⟨rfl, rfl⟩
  | next name =>
    have hne : name ≠ recoveryConsumer := by simpa [Topic.Op.foreign] using hop
    refine hwith name _ hne fun c o => ?_
    split
    · exact ⟨rfl, hset _ _ _ hne⟩
    · exact ⟨rfl, rfl⟩
  | commit name | reset name | drop name =>
    have hne : name ≠ recoveryConsumer := by simpa [Topic.Op.foreign] using hop
    exact hwith name _ hne fun c o => ⟨rfl, hset _ _ _ hne⟩
  | delete name =>
    have hne : name ≠ recoveryConsumer := by simpa [Topic.Op.foreign] using hop
    exact hwith name _ hne fun c o => ⟨rfl, AList.lookup_erase_ne (Ne.symm hne)⟩

theorem RunningAt.consumer (h : RunningAt ro t committed volatile)
    {op : Topic.Op String (Change E V)} (hop : op.foreign = true) :
    CrashTriple perform (Recoverable ro) t [.consumer op] fun t' _ => Running ro t' := by
  obtain ⟨hlog, hcons⟩ := foreign_step hop h.handle
  have hdisk : OnDisk ro {t with topic := (t.topic.step op).1} committed :=
    h.disk.congr rfl hlog hcons
  have hdone : RunningAt ro {t with topic := (t.topic.step op).1} committed volatile := by
    refine ⟨hdisk, hcons.trans h.handle, h.committed_le, ?_, h.unbuffered, ?_, ?_⟩
    · exact hlog ▸ h.volatile_le
    · exact hlog ▸ h.buffered
    · show ∀ key, lastChange ro ((t.topic.step op).1.log.drop volatile) key = none → t.get key =
        lastCell ro (t.topic.step op).1.log key
      rw [hlog]
      exact h.get
  exact .step h.recoverable rfl (.nil hdone.recoverable ⟨_, _, hdone⟩)

end Table

end ZenDB
