import ZenDB.Table.Recovery

namespace ZenDB

/-- The calls on an open table. -/
inductive Call (E V : Type) where
  | insert (event : E)
  | flush
  | sync
  | compact
  | consumer (op : Topic.Op String (Change E V))

namespace Table

variable {K V E : Type} [LinearOrder K] (ro : RowOps K V E)

def effects (t : Table K V E) : Call E V → List (Effect K V E)
  | .insert event =>
    match ro.apply (t.get (ro.key event)) event with
    | .changed current => t.recordChange ro event current
    | _ => []
  | .flush => t.flush
  | .sync => t.sync
  | .compact => [.consumer .compact]
  | .consumer op => if op.foreign then [.consumer op] else []

/-- `insert` leaves the table its effects lead to. -/
theorem insert_fst (t : Table K V E) (event : E) :
    (t.insert ro event).1 = (t.exec (t.effects ro (.insert event))).1 := by
  rw [Table.insert, effects]
  split
  · rename_i hcase
    rw [hcase]
    rfl
  · rename_i hcase
    rw [hcase]
    rfl
  · rename_i current hcase
    rw [hcase]
    cases hexec : t.exec (t.recordChange ro event current) with
    | mk t' ok => cases ok <;> rfl

end Table

/-- A table that is open, or the files a crash has left. -/
structure TableSystem (K V E : Type) where
  table : Table K V E
  isOpen : Bool

/-- A crash cuts a call, or `open` itself, after its first `n` effects. -/
inductive Action (E V : Type) where
  | call (c : Call E V)
  | crash (c : Call E V) (n : Nat)
  | reopen (maxBuffered : Nat)
  | crashReopen (maxBuffered n : Nat)

namespace TableSystem

variable {K V E : Type} [LinearOrder K] (ro : RowOps K V E)

def step (s : TableSystem K V E) : Action E V → TableSystem K V E
  | .call c => if s.isOpen then ⟨(s.table.exec (s.table.effects ro c)).1, true⟩ else s
  | .crash c n =>
    if s.isOpen then ⟨(s.table.exec ((s.table.effects ro c).take n)).1, false⟩ else s
  | .reopen maxBuffered =>
    if s.isOpen then s
    else ⟨(s.table.openTable ro maxBuffered).1, (s.table.openTable ro maxBuffered).2⟩
  | .crashReopen maxBuffered n =>
    if s.isOpen then s
    else
      let loaded := s.table.load maxBuffered
      ⟨(loaded.exec ((loaded.replayRecovery ro).take n)).1, false⟩

def run (s : TableSystem K V E) : List (Action E V) → TableSystem K V E
  | [] => s
  | a :: as => (s.step ro a).run as

end TableSystem

namespace Table

variable {K V E : Type} [LinearOrder K] {ro : RowOps K V E} {t : Table K V E} {committed : Nat}

theorem lookup_crash {T : Type} (s : TopicSpec String T) (name : String) :
    s.crash.consumers.lookup name = (s.consumers.lookup name).map fun c => ⟨c.committed, none⟩ :=
  lookup_insertAll_map s.consumers (fun c => ConsumerSpec.mk c.committed none) name

/-- Opening starts from the committed offset with an empty cache. -/
theorem OnDisk.load (h : OnDisk ro t committed) (maxBuffered : Nat) :
    OnDisk ro (t.load maxBuffered) committed ∧ (t.load maxBuffered).topic.log = t.topic.log ∧
      (t.load maxBuffered).topic.consumers.lookup recoveryConsumer =
        some ⟨committed, some committed⟩ ∧
      (t.load maxBuffered).cache = ∅ := by
  have hstate : (t.load maxBuffered).state = t.state := by
    show t.state.reopen = t.state
    rw [State.reopen, h.durable]
    rfl
  obtain ⟨c, hc, hcommitted⟩ := Option.map_eq_some_iff.mp h.consumer
  have hcrash : t.topic.crash.consumers.lookup recoveryConsumer = some ⟨committed, none⟩ := by
    rw [lookup_crash, hc, ← hcommitted]
    rfl
  have htopic : (t.load maxBuffered).topic =
      t.topic.crash.setReader recoveryConsumer committed (some committed) := by
    show (t.topic.crash.step (.register recoveryConsumer)).1 = _
    simp only [TopicSpec.step, hcrash]
  have hlog : (t.load maxBuffered).topic.log = t.topic.log := by
    rw [htopic]
    rfl
  have hlook : (t.load maxBuffered).topic.consumers.lookup recoveryConsumer =
      some ⟨committed, some committed⟩ := by
    rw [htopic, lookup_setReader]
  refine ⟨⟨?_, ?_, ?_, ?_, ?_⟩, hlog, hlook, rfl⟩
  · rw [hstate]
    exact h.durable
  · rw [hlook]
    rfl
  · rw [hlog]
    exact h.committed_le
  · rw [hlog]
    exact h.cells
  · rw [hlog, hstate]
    exact h.rows

/-- The table after replaying the first records behind the committed offset. -/
structure Replaying (ro : RowOps K V E) (t : Table K V E) (committed : Nat)
    (done : List (Change E V)) (s : Table K V E) : Prop where
  disk : OnDisk ro s committed
  log : s.topic.log = t.topic.log
  handle : s.topic.consumers.lookup recoveryConsumer =
    some ⟨committed, some (committed+done.length)⟩
  cache : s.cache = ∅
  lookup : ∀ key, s.state.rows.lookup key =
    match lastChange ro done key with
    | some c => c.current
    | none => t.state.rows.lookup key

theorem Replaying.record {done : List (Change E V)} {s : Table K V E} {change : Change E V}
    (h : Replaying ro t committed done s) (hpre : done ++ [change] <+: t.topic.log.drop committed) :
    CrashTriple perform (Recoverable ro) s [.next, replayChange ro change]
      (CrashTriple.LoopPost (Replaying ro t committed) (fun _ => False) (done ++ [change])) := by
  obtain ⟨rest, hrest⟩ := hpre
  have hread : s.topic.log[committed+done.length]? = some change := by
    rw [h.log, ← List.getElem?_drop, ← hrest, List.append_assoc,
      List.getElem?_append_right (le_refl _), Nat.sub_self]
    rfl
  have hnext : (s.topic.step (.next recoveryConsumer)).1 =
      s.topic.setReader recoveryConsumer committed (some (committed+done.length+1)) := by
    simp only [TopicSpec.step, TopicSpec.withReader, h.handle, hread]
  have hpending : lastChange ro (s.topic.log.drop committed) (ro.key change.event) ≠ none := by
    rw [Ne, lastChange_eq_none_iff, h.log, ← hrest]
    intro hno
    exact hno change (by simp) rfl
  have hmoved : OnDisk ro {s with topic := (s.topic.step (.next recoveryConsumer)).1} committed := by
    rw [hnext]
    refine ⟨h.disk.durable, ?_, h.disk.committed_le, h.disk.cells, h.disk.rows⟩
    rw [lookup_setReader]
    rfl
  have hhandle : (s.topic.step (.next recoveryConsumer)).1.consumers.lookup recoveryConsumer =
      some ⟨committed, some (committed+(done ++ [change]).length)⟩ := by
    rw [hnext, lookup_setReader, List.length_append, Nat.add_assoc]
    rfl
  have hlog : (s.topic.step (.next recoveryConsumer)).1.log = t.topic.log := by
    rw [hnext]
    exact h.log
  refine .step ⟨committed, h.disk⟩ rfl ?_
  cases hcell : change.current with
  | some value =>
    have hdisk := hmoved.put (ro.key change.event) value fun hnone => by
      rw [hnext] at hnone
      exact absurd hnone hpending
    rw [replayChange, hcell]
    have hput : perform {s with topic := (s.topic.step (.next recoveryConsumer)).1}
        (.put (ro.key change.event) value) = some {s with
          topic := (s.topic.step (.next recoveryConsumer)).1
          state := {s.state with rows := s.state.rows.insert (ro.key change.event) value}} := by
      rw [perform, put_durable hmoved.durable]
      rfl
    refine .step ⟨committed, hmoved⟩ hput
      (.nil ⟨committed, hdisk⟩ ⟨fun _ => ⟨hdisk, hlog, hhandle, h.cache, ?_⟩,
        fun hfalse => by cases hfalse⟩)
    intro key
    show (s.state.rows.insert (ro.key change.event) value).lookup key = _
    rw [lookup_insert_ite, h.lookup, lastChange_snoc]
    by_cases heq : key = ro.key change.event
    · rw [if_pos heq, if_pos heq.symm]
      exact hcell.symm
    · rw [if_neg heq, if_neg (Ne.symm heq)]
  | none =>
    have hdisk := hmoved.remove (ro.key change.event) (by
      rw [hnext]
      exact hpending)
    rw [replayChange, hcell]
    refine .step ⟨committed, hmoved⟩ rfl
      (.nil ⟨committed, hdisk⟩ ⟨fun _ => ⟨hdisk, hlog, hhandle, h.cache, ?_⟩,
        fun hfalse => by cases hfalse⟩)
    intro key
    show (s.state.rows.erase (ro.key change.event)).lookup key = _
    rw [lookup_erase_ite, h.lookup, lastChange_snoc]
    by_cases heq : key = ro.key change.event
    · rw [if_pos heq, if_pos heq.symm]
      exact hcell.symm
    · rw [if_neg heq, if_neg (Ne.symm heq)]

/-- `open` completes, and every row then reads as its last change. -/
theorem OnDisk.openTable (h : OnDisk ro t committed) (maxBuffered : Nat) :
    CrashTriple perform (Recoverable ro) (t.load maxBuffered)
      ((t.load maxBuffered).replayRecovery ro) fun t' ok =>
        ok = true ∧ Running ro t' ∧ t'.topic.log = t.topic.log ∧
          ∀ key, t'.get key = lastCell ro t.topic.log key := by
  obtain ⟨hdisk, hlog, hhandle, hcache⟩ := h.load maxBuffered
  have hoffset : (t.load maxBuffered).recoveryOffset = committed := by
    rw [recoveryOffset, hhandle]
    rfl
  rw [replayRecovery, hoffset]
  refine CrashTriple.append
    (CrashTriple.forEach (Replaying ro (t.load maxBuffered) committed) (fun _ => False) _ ?_ ?_ ?_)
    ?_ ?_
  · intro done s hs
    exact ⟨committed, hs.disk⟩
  · intro done change s hpre hs
    exact hs.record hpre
  · exact ⟨hdisk, rfl, hhandle, hcache, fun key => rfl⟩
  · intro s hpost
    have hs := hpost.1 rfl
    have hend : committed+((t.load maxBuffered).topic.log.drop committed).length =
        s.topic.log.length := by
      have hle := hdisk.committed_le
      rw [List.length_drop, hs.log]
      omega
    have hget : ∀ key, s.get key = lastCell ro s.topic.log key := by
      intro key
      rw [Table.get, hs.cache, hs.lookup key, hs.log]
      have hsplit := lastChange_append ro ((t.load maxBuffered).topic.log.take committed)
        ((t.load maxBuffered).topic.log.drop committed) key
      rw [List.take_append_drop] at hsplit
      cases hlast : lastChange ro ((t.load maxBuffered).topic.log.drop committed) key with
      | none => exact hdisk.rows key hlast
      | some c =>
        rw [lastCell, hsplit, hlast]
        rfl
    have hrunning : RunningAt ro s committed s.topic.log.length := by
      refine ⟨hs.disk, ?_, hs.disk.committed_le, le_refl _, fun _ => ?_, fun _ => rfl,
        fun key _ => hget key⟩
      · rw [hs.handle, hend]
      · rw [hs.cache]
        rfl
    have hcommit : (t.load maxBuffered).commitRecovery = s.commitRecovery := by
      rw [Table.commitRecovery, Table.commitRecovery, hdisk.durable, hs.disk.durable]
    rw [hcommit]
    refine (hrunning.commitRecovery hs.cache).weaken ?_
    rintro t' ok ⟨hok, ht', hlog', hget'⟩
    have hsame : s.topic.log = t.topic.log := hs.log.trans hlog
    refine ⟨hok, ht', hlog'.trans hsame, ?_⟩
    intro key
    rw [hget' key, hget key, hsame]
  · intro s hpost
    exact absurd (hpost.2 rfl) id

theorem RunningAt.effects {volatile : Nat} (h : RunningAt ro t committed volatile) (c : Call E V) :
    CrashTriple perform (Recoverable ro) t (t.effects ro c) fun t' _ => Running ro t' := by
  have hnone : CrashTriple perform (Recoverable ro) t [] fun t' _ => Running ro t' :=
    .nil h.recoverable ⟨_, _, h⟩
  cases c with
  | insert event =>
    rw [Table.effects]
    split
    · exact h.recordChange event _
    · exact hnone
  | flush => exact h.flush
  | sync => exact h.flush
  | compact => exact h.consumer rfl
  | consumer op =>
    rw [Table.effects]
    split_ifs with hop
    · exact h.consumer hop
    · exact hnone

end Table

namespace TableSystem

variable {K V E : Type} [LinearOrder K] {ro : RowOps K V E} {s : TableSystem K V E}

/-- An open table is running; a closed one can be recovered. -/
structure Valid (ro : RowOps K V E) (s : TableSystem K V E) : Prop where
  opened : s.isOpen = true → s.table.Running ro
  files : s.table.Recoverable ro

theorem Valid.step (h : Valid ro s) (a : Action E V) : Valid ro (s.step ro a) := by
  cases a with
  | call c =>
    rw [TableSystem.step]
    split_ifs with hopen
    · obtain ⟨committed, volatile, hrun⟩ := h.opened hopen
      obtain ⟨committed', volatile', hafter⟩ := (hrun.effects c).after
      exact ⟨fun _ => ⟨_, _, hafter⟩, hafter.recoverable⟩
    · exact h
  | crash c n =>
    rw [TableSystem.step]
    split_ifs with hopen
    · obtain ⟨committed, volatile, hrun⟩ := h.opened hopen
      exact ⟨(fun hfalse => by cases hfalse), (hrun.effects c).during n⟩
    · exact h
  | reopen maxBuffered =>
    rw [TableSystem.step]
    split_ifs with hopen
    · exact h
    · obtain ⟨committed, hdisk⟩ := h.files
      obtain ⟨-, ⟨committed', volatile', hrun⟩, -⟩ := (hdisk.openTable maxBuffered).after
      exact ⟨fun _ => ⟨_, _, hrun⟩, hrun.recoverable⟩
  | crashReopen maxBuffered n =>
    rw [TableSystem.step]
    split_ifs with hopen
    · exact h
    · obtain ⟨committed, hdisk⟩ := h.files
      exact ⟨(fun hfalse => by cases hfalse), (hdisk.openTable maxBuffered).during n⟩

theorem Valid.run (h : Valid ro s) (as : List (Action E V)) : Valid ro (s.run ro as) := by
  induction as generalizing s with
  | nil => exact h
  | cons a as ih => exact ih (h.step a)

theorem create_valid (ro : RowOps K V E) (kind : StateKind) (hkind : kind = .ordered ∨ kind = .unordered)
    (maxBuffered : Nat) : Valid ro ⟨Table.create kind maxBuffered, true⟩ := by
  have hdurable : (Table.create kind maxBuffered : Table K V E).state.isInMemory = false := by
    rcases hkind with rfl | rfl <;> rfl
  have hrun : Table.RunningAt ro (Table.create kind maxBuffered) 0 0 :=
    ⟨⟨hdurable, rfl, le_refl _, (fun c hc => by cases hc), fun key _ => rfl⟩, rfl, le_refl _,
      le_refl _, fun _ => rfl, fun _ => rfl, fun key _ => rfl⟩
  exact ⟨fun _ => ⟨_, _, hrun⟩, hrun.recoverable⟩

/-- After any run of calls and crashes, `open` restores exactly the changes in the topic. -/
theorem open_reads_last_change (ro : RowOps K V E) (kind : StateKind)
    (hkind : kind = .ordered ∨ kind = .unordered) (maxBuffered : Nat) (as : List (Action E V))
    (maxBuffered' : Nat) (key : K) :
    let t := (run ro ⟨Table.create kind maxBuffered, true⟩ as).table
    let opened := t.openTable ro maxBuffered'
    opened.2 = true ∧ opened.1.topic.log = t.topic.log ∧
      opened.1.get key = Table.lastCell ro t.topic.log key ∧
      (opened.1.get key = none ↔ ∀ c ∈ t.topic.log, ro.key c.event ≠ key) := by
  intro t opened
  obtain ⟨committed, hdisk⟩ := ((create_valid ro kind hkind maxBuffered).run as).files
  obtain ⟨hok, -, hlog, hget⟩ := (hdisk.openTable maxBuffered').after
  refine ⟨hok, hlog, hget key, ?_⟩
  have hread : opened.1.get key = Table.lastCell ro t.topic.log key := hget key
  rw [hread, ← Table.lastChange_eq_none_iff, Table.lastCell]
  cases hlast : Table.lastChange ro t.topic.log key with
  | none => simp
  | some c =>
    have hmem : c ∈ t.topic.log := List.mem_of_mem_filter (List.mem_of_getLast? hlast)
    have hcell := hdisk.cells c hmem
    rw [Option.bind_some]
    constructor
    · intro hnone
      rw [hnone] at hcell
      cases hcell
    · intro hnone
      cases hnone

end TableSystem

/-- Events that set the row they name. -/
def setRow : RowOps Nat Nat (Nat × Nat) where
  key := Prod.fst
  apply _ event := .changed event.2

/-- A crash right behind the append of an insert keeps the row. -/
theorem TableSystem.open_reads_last_change_crash_append :
    let t := (run setRow ⟨Table.create .ordered 4, true⟩
      [.call (.insert (1, 7)), .call .flush, .crash (.insert (2, 8)) 1]).table
    (t.openTable setRow 4).1.get 2 = some 8 :=
  (open_reads_last_change setRow .ordered (Or.inl rfl) 4
    [.call (.insert (1, 7)), .call .flush, .crash (.insert (2, 8)) 1] 4 2).2.2.1

end ZenDB
