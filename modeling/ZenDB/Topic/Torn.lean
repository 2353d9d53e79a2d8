import ZenDB.Topic.Run

namespace ZenDB

variable {T : Type} (tc : Codec T)

/-! A crash may tear the end off the active file. `open` then finds the records that are complete. -/

/-- How many of the records are complete in the first `n` bytes of their frames. -/
def completeRecords : List T → Nat → Nat
  | [], _ => 0
  | v :: recs, n =>
    if (frame tc v).length ≤ n then completeRecords recs (n-(frame tc v).length)+1 else 0

theorem completeRecords_le_length (recs : List T) (n : Nat) :
    completeRecords tc recs n ≤ recs.length := by
  induction recs generalizing n with
  | nil => rfl
  | cons v recs ih =>
    rw [completeRecords]
    split_ifs
    · have hle := ih (n-(frame tc v).length)
      rw [List.length_cons]
      omega
    · exact Nat.zero_le _

/-- The first bytes of some frames are those of the complete ones and a torn tail. -/
theorem take_frames (recs : List T) (hrecs : ∀ v ∈ recs, (tc.enc v).length < 2^32) (n : Nat) :
    ∃ tail, Torn tail ∧ (frames tc recs).take n =
      frames tc (recs.take (completeRecords tc recs n)) ++ tail := by
  induction recs generalizing n with
  | nil => exact ⟨[], torn_nil, by simp⟩
  | cons v recs ih =>
    rw [completeRecords, frames_cons]
    split_ifs with hfit
    · obtain ⟨tail, htail, hrest⟩ :=
        ih (fun x hx => hrecs x (List.mem_cons_of_mem _ hx)) (n-(frame tc v).length)
      refine ⟨tail, htail, ?_⟩
      rw [List.take_succ_cons, frames_cons, List.append_assoc, ← hrest, List.take_append,
        List.take_of_length_le hfit]
    · refine ⟨(frame tc v).take n, torn_frame tc (hrecs v (by simp)) (not_le.mp hfit), ?_⟩
      rw [List.take_append_of_le_length (not_le.mp hfit).le]
      rfl

theorem take_segmentFile (recs : List T) (hrecs : ∀ v ∈ recs, (tc.enc v).length < 2^32) {n : Nat}
    (hn : segmentHeaderSize ≤ n) :
    ∃ tail, Torn tail ∧ (segmentFile tc recs).take n =
      segmentFile tc (recs.take (completeRecords tc recs (n-segmentHeaderSize))) ++ tail := by
  have hlen : (leBytes 4 topicMagic).length = segmentHeaderSize := by simp [segmentHeaderSize]
  obtain ⟨tail, htail, htake⟩ := take_frames tc recs hrecs (n-segmentHeaderSize)
  refine ⟨tail, htail, ?_⟩
  rw [segmentFile, List.take_append, hlen, List.take_of_length_le (hlen ▸ hn), htake, segmentFile,
    List.append_assoc]

namespace Topic

variable {Name : Type} [DecidableEq Name]

/-- A crash in which the active file keeps `n` of its bytes, and the following open. The persisted
cursors are all there, and so are the files of removed segments that a cursor shared. -/
def crash (t : Topic Name) (n : Nat) : Option (Topic Name) := do
  let active ← t.segments.getLast?
  let file ← t.dir.lookup active.baseOffset
  openDir t.maxSegmentBytes (t.dir.insert active.baseOffset (file.take n)) t.offsets

variable {tc} {t t' : Topic Name} {s : TopicSpec Name T} {log : List T} {origin n : Nat} {name : Name}

/-- The records that are left, with every consumer at its persisted offset. -/
def recoveredSpec (log : List T) (offsets : AList (fun _ : Name => Nat)) : TopicSpec Name T :=
  ⟨log, insertAll ∅ (offsets.entries.map fun e => ⟨e.1, ⟨e.2, none⟩⟩)⟩

theorem lookup_recoveredSpec (log : List T) (offsets : AList (fun _ : Name => Nat)) (name : Name) :
    (recoveredSpec log offsets).consumers.lookup name =
      (offsets.lookup name).map fun n => ConsumerSpec.mk n none :=
  lookup_insertAll_map offsets (fun n => ConsumerSpec.mk n none) name

/-- No consumer stands beyond the tail, and a consumer that opens its handle after any calls of
others and reads to the end gets every record that was appended in the meantime. -/
structure Recovered (tc : Codec T) (t : Topic Name) : Prop where
  bounded : ∀ name c, t.consumers.lookup name = some c →
    c.committed ≤ t.stats.nextOffset ∧ c.volatile ≤ t.stats.nextOffset
  yields : ∀ name, (t.consumers.lookup name).isSome → ∀ ops : List (Op Name T),
    (∀ op ∈ ops, op.Fits tc ∧ op.consumer? ≠ some name) →
    ∃ older rets t', rets.length = ops.length ∧
      t.run tc (ops ++ .register name ::
          List.replicate ((older ++ ops.flatMap Op.appended).length+1) (.next name)) =
        some (t', rets ++ .done ::
          ((older ++ ops.flatMap Op.appended).map (fun v => .next (.item v)) ++ [.next .none]))

/-- A consumer of the specification reads on from its committed offset. -/
theorem run_to_end (s : TopicSpec Name T) {committed : Nat}
    (h : s.consumers.lookup name = some ⟨committed, none⟩) (hle : committed ≤ s.log.length)
    (ops : List (Op Name T)) (hops : ∀ op ∈ ops, op.consumer? ≠ some name) :
    (s.run (ops ++ .register name :: List.replicate
        ((s.log.drop committed ++ ops.flatMap Op.appended).length+1) (.next name))).2 =
      (s.run ops).2 ++ .done :: ((s.log.drop committed ++ ops.flatMap Op.appended).map
        (fun v => .next (.item v)) ++ [.next .none]) := by
  have hlook := (s.lookup_run hops).trans h
  have hlog : (s.run ops).1.log.drop committed = s.log.drop committed ++ ops.flatMap Op.appended := by
    rw [s.log_run, List.drop_append_of_le_length hle]
  have hregister : (s.run ops).1.step (.register name) =
      ((s.run ops).1.setReader name committed (some committed), .done) := by
    rw [TopicSpec.step, hlook]
  have hnexts := ((s.run ops).1.setReader name committed (some committed)).run_nexts
    (AList.lookup_insert _)
  rw [show ((s.run ops).1.setReader name committed (some committed)).log.drop committed =
    s.log.drop committed ++ ops.flatMap Op.appended from hlog] at hnexts
  rw [TopicSpec.run_append, TopicSpec.run, hregister]
  simp only [hnexts]

/-- A topic that represents the records left and has every consumer at its persisted offset. -/
theorem Refines.recovered {offsets : AList (fun _ : Name => Nat)}
    (h : t.Refines tc (recoveredSpec log offsets) origin) : t.Recovered tc := by
  have hcons : ∀ name, t.consumers.lookup name =
      (offsets.lookup name).map fun n => ConsumerState.mk n n false := by
    intro name
    rw [h.consumers, lookup_recoveredSpec, Option.map_map]
    rfl
  have hspec : ∀ name n, offsets.lookup name = some n →
      (recoveredSpec log offsets).consumers.lookup name = some ⟨n, none⟩ ∧ n ≤ log.length := by
    intro name n hn
    have hlook : (recoveredSpec log offsets).consumers.lookup name = some ⟨n, none⟩ := by
      rw [lookup_recoveredSpec, hn]
      rfl
    exact ⟨hlook, (h.bounds name _ hlook).2.2.2⟩
  constructor
  · intro name c hc
    rw [hcons, Option.map_eq_some_iff] at hc
    obtain ⟨n, hn, rfl⟩ := hc
    rw [h.nextOffset]
    exact ⟨(hspec name n hn).2, (hspec name n hn).2⟩
  · intro name hname ops hops
    rw [hcons, Option.isSome_map, Option.isSome_iff_exists] at hname
    obtain ⟨n, hn⟩ := hname
    obtain ⟨hlook, hle⟩ := hspec name n hn
    have hend := run_to_end _ hlook hle ops fun op hop => (hops op hop).2
    obtain ⟨t', hrun, -⟩ := h.run (ops ++ .register name :: List.replicate
      ((log.drop n ++ ops.flatMap Op.appended).length+1) (.next name)) (by
        intro op hop
        rcases List.mem_append.mp hop with hop | hop
        · exact (hops op hop).1
        rcases List.mem_cons.mp hop with rfl | hop
        · exact trivial
        · rw [List.eq_of_mem_replicate hop]
          exact trivial)
    refine ⟨log.drop n, ((recoveredSpec log offsets).run ops).2, t', TopicSpec.length_run _ ops, ?_⟩
    rw [hrun]
    exact congrArg (fun rets => some (t', rets)) hend

/-- No persisted offset lies in front of the oldest segment. Only `seek` can bring one there. -/
def Retained (t : Topic Name) : Prop :=
  ∀ x ∈ t.segments.head?, ∀ name n, t.offsets.lookup name = some n → x.baseOffset ≤ n

/-- No persisted offset lies behind the records that are complete in the first `n` bytes of the
active file; `log` are the records that were appended. -/
def Covered (tc : Codec T) (t : Topic Name) (log : List T) (n : Nat) : Prop :=
  ∀ a ∈ t.segments.getLast?, ∀ name m, t.offsets.lookup name = some m →
    m ≤ a.baseOffset+completeRecords tc (log.drop a.baseOffset) (n-segmentHeaderSize)

/-- Without `seek` the topic represents its specification all along. -/
theorem Refines.calls (h : t.Refines tc s origin) {cs : List (Call Name T)}
    (hfit : ∀ c ∈ cs, c.Fits tc) (hsteps : ∀ c ∈ cs, ∃ op, c = .step op)
    (hrun : t.calls tc cs = some t') : ∃ s', t'.Refines tc s' origin := by
  induction cs generalizing t s with
  | nil =>
    cases hrun
    exact ⟨s, h⟩
  | cons c cs ih =>
    obtain ⟨op, rfl⟩ := hsteps c (by simp)
    obtain ⟨t₁, hcall, hrun⟩ := Option.bind_eq_some_iff.mp hrun
    obtain ⟨t₂, hstep, h₂⟩ := h.step op (hfit (.step op) (by simp))
    rw [Topic.call, hstep] at hcall
    cases hcall
    exact ih h₂ (fun c hc => hfit c (List.mem_cons_of_mem _ hc))
      (fun c hc => hsteps c (List.mem_cons_of_mem _ hc)) hrun

theorem Refines.retained (h : t.Refines tc s origin) : t.Retained := by
  obtain ⟨x, hx, hbase⟩ := h.ready.stocked.head_base
  intro y hy name n hn
  rw [hx] at hy
  cases hy
  rw [hbase]
  rw [h.offsets, Option.map_eq_some_iff] at hn
  obtain ⟨c, hc, rfl⟩ := hn
  exact (h.bounds name c hc).1

/-- The recovered topic has the complete records, and every consumer is at its persisted offset. Of
removed segments whose files were left nothing is known. -/
theorem Stocked.crash (h : t.Stocked tc False log 0) {a : Segment}
    (ha : t.segments.getLast? = some a) (hn : segmentHeaderSize ≤ n) {stop : Nat}
    (hstop : a.baseOffset+completeRecords tc (log.drop a.baseOffset) (n-segmentHeaderSize) = stop) :
    ∃ t', t.crash n = some t' ∧ t'.stats.nextOffset = stop ∧
      (∀ name, t'.consumers.lookup name =
        (t.offsets.lookup name).map fun n => ConsumerState.mk n n false) ∧
      ((∀ name m, t.offsets.lookup name = some m → t.stats.earliestOffset ≤ m ∧ m ≤ stop) →
        t'.Refines tc (recoveredSpec (log.take stop) t.offsets) t.stats.earliestOffset) := by
  obtain ⟨rest, hrest | ⟨hf, -⟩, hfile⟩ := h.filled_active ha
  swap
  · exact absurd hf id
  have hamem : a ∈ t.segments := List.mem_of_getLast? ha
  obtain ⟨hfirst, hmid, hhi⟩ := h.cover.mem_bounds a hamem
  have hend : a.endOffset = log.length := by
    obtain ⟨-, b, -, hb, hend⟩ := h.exists_active
    rw [ha] at hb
    cases hb
    rw [hend, Nat.zero_add]
  have hwin : a.records log 0 = log.drop a.baseOffset := by
    rw [Segment.records, window, Nat.sub_zero, Nat.sub_zero, hend, List.take_of_length_le]
    rw [List.length_drop]
  have hcount := completeRecords_le_length tc (log.drop a.baseOffset) (n-segmentHeaderSize)
  rw [List.length_drop] at hcount
  have hlen : ((log.take stop).drop t.stats.earliestOffset).length =
      stop-t.stats.earliestOffset := by
    rw [List.length_drop, List.length_take]
    omega
  obtain ⟨tail, htail, htake⟩ := take_segmentFile tc (log.drop a.baseOffset)
    (fun v hv => h.fits v (List.mem_of_mem_drop hv)) hn
  rw [hrest, List.append_nil, hwin] at hfile
  have hcut : (t.dir.insert a.baseOffset ((segmentFile tc (log.drop a.baseOffset)).take n)).lookup
      a.baseOffset = _ := (AList.lookup_insert _).trans (congrArg some htake)
  have hrecs : ((log.take stop).drop t.stats.earliestOffset).drop
      (a.baseOffset-t.stats.earliestOffset) =
        (log.drop a.baseOffset).take
          (completeRecords tc (log.drop a.baseOffset) (n-segmentHeaderSize)) := by
    rw [List.drop_drop, Nat.add_sub_cancel' hfirst, List.drop_take, ← hstop, Nat.add_sub_cancel_left]
  obtain ⟨x, hx, hxbase⟩ := h.head_base
  have hfits : ∀ v ∈ (log.take stop).drop t.stats.earliestOffset, (tc.enc v).length < 2^32 :=
    fun v hv => h.fits v (List.mem_of_mem_take (List.mem_of_mem_drop hv))
  obtain ⟨t', hrun, ht', hst, hearliest⟩ := h.openDir (h.whole id) ha t.maxSegmentBytes t.offsets
    (fun b hb => AList.lookup_insert_ne hb) hcut htail hfits hfirst (by omega) hrecs
    (fun y hy => ⟨(h.held y hy).2.2, x, List.mem_of_mem_head? hx, hxbase⟩) (by
      intro y hy hlt
      have hyb := (h.cover.mem_bounds y hy).1
      have hye := h.cover.end_le_of_base_lt hy hamem hlt
      refine Or.inr ⟨hyb, ?_⟩
      obtain ⟨rest, hrest, hfile⟩ := (h.shelved y (List.mem_append_left _ hy)).filled (Nat.zero_le _)
      refine ⟨rest, hrest, ?_⟩
      rw [hfile, Segment.records, Segment.records, window, window, List.drop_drop,
        Nat.add_sub_cancel' hyb, List.drop_take, List.take_take, Nat.sub_zero, Nat.sub_zero,
        min_eq_left (by omega), Nat.sub_sub_sub_cancel_right hyb])
  refine ⟨t', ?_, ?_, ht'.lookup_consumers, ?_⟩
  · rw [Topic.crash, ha]
    simp only [Option.bind_eq_bind, Option.bind_some, hfile]
    exact hrun
  · rw [ht'.nextOffset, List.length_take, List.length_drop, min_eq_left hcount, hstop]
  · intro hoffsets
    have hlook := lookup_recoveredSpec (log.take stop) t.offsets
    have hlog : (log.take stop).length = stop := by
      rw [List.length_take]
      omega
    refine ⟨ht'.ready hst, ?_, ?_, ?_, ?_⟩
    · show t.stats.earliestOffset ≤ (log.take stop).length
      omega
    · intro name
      rw [ht'.lookup_consumers, hlook, Option.map_map]
      rfl
    · intro name
      rw [ht'.persisted, hlook, Option.map_map]
      exact Option.map_id'.symm
    · intro name c hc
      rw [hlook, Option.map_eq_some_iff] at hc
      obtain ⟨m, hm, rfl⟩ := hc
      obtain ⟨hlo, hhi⟩ := hoffsets name m hm
      exact ⟨hearliest.trans hlo, hlo, le_refl _, by rw [recoveredSpec, hlog]; exact hhi⟩

/-- After a torn tail every consumer is within the log and misses no later record, in every run in
which the crash leaves all records below the persisted offsets complete. -/
theorem crash_recovered_iff {maxSegmentBytes : Nat} {t₀ : Topic Name}
    (hcreate : Topic.create maxSegmentBytes = some t₀) {cs : List (Call Name T)}
    (hfit : ∀ c ∈ cs, c.Fits tc) (hrun : t₀.calls tc cs = some t) (hn : segmentHeaderSize ≤ n) :
    ((∀ c ∈ cs, ∃ op, c = .step op) → t.Retained) ∧
      ∃ t', t.crash n = some t' ∧
        (t.Retained → (t'.Recovered tc ↔ t.Covered tc (cs.flatMap Call.appended) n)) := by
  have hready : t.Ready tc False (cs.flatMap Call.appended) 0 :=
    (ready_create hcreate).calls id hfit hrun
  constructor
  · intro hsteps
    obtain ⟨s, hs⟩ : ∃ s, t.Refines tc s 0 := (refines_create hcreate).calls hfit hsteps hrun
    exact hs.retained
  · obtain ⟨init, a, -, ha, -⟩ := hready.stocked.exists_active
    obtain ⟨t', hcrash, hnext, hcons, hrefines⟩ := hready.stocked.crash ha hn rfl
    refine ⟨t', hcrash, fun hretained => ⟨?_, ?_⟩⟩
    · intro hrec b hb name m hm
      rw [ha] at hb
      cases hb
      have hlook := hcons name
      rw [hm] at hlook
      have hbound := (hrec.bounded name _ hlook).1
      rw [hnext] at hbound
      exact hbound
    · intro hcovered
      obtain ⟨x, hx, hbase⟩ := hready.stocked.head_base
      refine (hrefines fun name m hm => ⟨?_, hcovered a ha name m hm⟩).recovered
      rw [← hbase]
      exact hretained x hx name m hm

/-- The second record is torn, and the consumer has committed the first. -/
theorem crash_recovered_second_torn :
    ∃ t₀ t t' : Topic Unit, Topic.create 1024 = some t₀ ∧
      t₀.calls byteCodec [.step (.register ()), .step (.append 7), .step (.append 9),
        .step (.next ()), .step (.commit ())] = some t ∧
      t.crash 12 = some t' ∧ t.Retained ∧ t.Covered byteCodec [7, 9] 12 ∧ t'.Recovered byteCodec := by
  have hrun : ((Topic.create 1024 : Option (Topic Unit)).bind fun t₀ => t₀.calls byteCodec
      [.step (.register ()), .step (.append 7), .step (.append 9), .step (.next ()),
        .step (.commit ())]).map
        (fun t => (t.segments.getLast?.map Segment.baseOffset, t.offsets.lookup ())) =
      some (some 0, some 1) := by decide +kernel
  obtain ⟨t, hrun, hstate⟩ := Option.map_eq_some_iff.mp hrun
  obtain ⟨t₀, hcreate, hrun⟩ := Option.bind_eq_some_iff.mp hrun
  obtain ⟨hlast, hoffset⟩ := Prod.mk.inj hstate
  obtain ⟨hsteps, t', hcrash, hiff⟩ := crash_recovered_iff hcreate
    (by simp [Call.Fits, Op.Fits, byteCodec]) hrun (show segmentHeaderSize ≤ 12 by decide)
  have hretained := hsteps (by simp)
  have hcovered : t.Covered byteCodec [7, 9] 12 := by
    intro a ha name m hm
    rw [ha] at hlast
    have hbase : a.baseOffset = 0 := Option.some.inj hlast
    have hm1 : m = 1 := Option.some.inj (hm.symm.trans hoffset)
    rw [hbase, hm1]
    decide
  exact ⟨t₀, t, t', hcreate, hrun, hcrash, hretained, hcovered, (hiff hretained).mpr hcovered⟩

/-- The consumer has committed two records when the crash tears the second. The tail is then below
its offset, and the record appended next is one it never sees. -/
theorem torn_record_skipped :
    (((Topic.create 1024 : Option (Topic Unit)).bind fun t₀ => t₀.calls byteCodec
      [.step (.register ()), .step (.append 7), .step (.append 9), .step (.next ()),
        .step (.next ()), .step (.commit ())]).bind fun t => t.crash 13).map
      (fun t => (t.stats.nextOffset, t.consumers.lookup (),
        (t.run byteCodec [.append 5, .register (), .next ()]).map Prod.snd)) =
    some (1, some ⟨2, 2, false⟩, some [.offset 1, .done, .next .none]) := by
  decide +kernel

end Topic

end ZenDB
