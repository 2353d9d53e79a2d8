import ZenDB.Topic.Readers

namespace ZenDB

namespace Topic

variable {Name T : Type} [DecidableEq Name] {tc : Codec T} {t : Topic Name} {s : TopicSpec Name T}
  {origin : Nat}

theorem refines_create {max : Nat} (hcreate : Topic.create max = some t) : t.Refines tc ⟨[], ∅⟩ 0 := by
  refine ⟨ready_create hcreate, le_refl _, ?_, ?_, by simp⟩
  · intro name
    cases hcreate
    rfl
  · intro name
    cases hcreate
    rfl

/-- One call answers as the specification does and keeps the representation. -/
theorem Refines.step (h : t.Refines tc s origin) (op : Op Name T) (hfit : op.Fits tc) :
    ∃ t', t.step tc op = some (t', (s.step op).2) ∧ t'.Refines tc (s.step op).1 origin := by
  cases op with
  | append value =>
    obtain ⟨t', happend, ht'⟩ := h.append value hfit
    exact ⟨t', by rw [Topic.step, happend]; rfl, ht'⟩
  | compact =>
    obtain ⟨t', hcompact, ht'⟩ := h.compact
    exact ⟨t', by rw [Topic.step, hcompact]; rfl, ht'⟩
  | register name => exact h.register name
  | next name => exact h.next name
  | commit name => exact h.commit name
  | reset name => exact h.reset name
  | drop name => exact h.dropReader name
  | delete name => exact h.delete name
  | reopen => exact h.reopen

theorem Refines.run (h : t.Refines tc s origin) (ops : List (Op Name T)) (hfit : ∀ op ∈ ops, op.Fits tc) :
    ∃ t', t.run tc ops = some (t', (s.run ops).2) ∧ t'.Refines tc (s.run ops).1 origin := by
  induction ops generalizing t s with
  | nil => exact ⟨t, rfl, h⟩
  | cons op ops ih =>
    obtain ⟨t₁, hstep, h₁⟩ := h.step op (hfit op (by simp))
    obtain ⟨t₂, hrun, h₂⟩ := ih h₁ (fun op hop => hfit op (List.mem_cons_of_mem _ hop))
    refine ⟨t₂, ?_, h₂⟩
    simp only [Topic.run, hstep, hrun, Option.bind_eq_bind, Option.bind_some]
    rfl

/-- The offsets a topic shows are those of the specification: the tail, and for each consumer the
committed and the volatile offset, none of them beyond the tail. -/
structure Agrees (t : Topic Name) (s : TopicSpec Name T) : Prop where
  tail : t.stats.nextOffset = s.log.length
  consumers : ∀ name, t.consumers.lookup name = (s.consumers.lookup name).map ConsumerSpec.state
  volatile_le : ∀ name c, t.consumers.lookup name = some c →
    c.committed ≤ c.volatile ∧ c.volatile ≤ t.stats.nextOffset

theorem Refines.agrees (h : t.Refines tc s origin) : t.Agrees s := by
  refine ⟨h.nextOffset, h.consumers, ?_⟩
  intro name c hc
  rw [h.consumers name, Option.map_eq_some_iff] at hc
  obtain ⟨d, hd, rfl⟩ := hc
  rw [h.nextOffset]
  exact (h.bounds name d hd).2.2

variable (tc) in
/-- Over every run each handle reads the log in order, from where its consumer stands. -/
theorem topic_run_agrees (max : Nat) (ops : List (Op Name T))
    (hfit : ∀ op ∈ ops, op.Fits tc) :
    ∃ t₀ t : Topic Name, Topic.create max = some t₀ ∧
      t₀.run tc ops = some (t, (TopicSpec.run ⟨[], ∅⟩ ops).2) ∧
      t.Agrees (TopicSpec.run ⟨[], ∅⟩ ops).1 := by
  have h₀ : ∀ t₀ : Topic Name, Topic.create max = some t₀ → t₀.Refines tc ⟨[], ∅⟩ 0 :=
    fun _ hcreate => refines_create hcreate
  obtain ⟨t, hrun, h⟩ := (h₀ _ rfl).run ops hfit
  exact ⟨_, t, rfl, hrun, h.agrees⟩

theorem topic_run_agrees_register_append_next :
    ∃ t₀ t : Topic Unit, Topic.create 8 = some t₀ ∧
      t₀.run byteCodec [.register (), .append 7, .append 9, .next (), .next (), .next ()] =
        some (t, [.done, .offset 0, .offset 1, .next (.item 7), .next (.item 9), .next .none]) ∧
      t.Agrees (⟨[7, 9], AList.insert () ⟨0, some 2⟩ ∅⟩ : TopicSpec Unit UInt8) :=
  topic_run_agrees byteCodec 8 [.register (), .append 7, .append 9, .next (), .next (), .next ()]
    (by simp [Op.Fits, byteCodec])

/-- Whatever the record is, a zero length field makes `next` decode no bytes at all. -/
theorem readRecord_zero (tc : Codec T) (v : T) (hlen : (tc.enc v).length = 2^32)
    (hdec : tc.dec [] = none) :
    readRecord tc (leBytes 4 topicMagic ++ frame tc v) segmentHeaderSize =
      (segmentHeaderSize+4, none) := by
  have hsize : readU32Le (leBytes 4 topicMagic ++ frame tc v) segmentHeaderSize = some 0 := by
    have hslice := slice?_append (leBytes 4 topicMagic) (leBytes 4 (2^32)) (tc.enc v)
      segmentHeaderSize 4 rfl rfl
    rw [frame, hlen, ← List.append_assoc, readU32Le, hslice]
    rfl
  have hbody : slice? (leBytes 4 topicMagic ++ frame tc v) (segmentHeaderSize+4) 0 = some [] := by
    rw [slice?, if_pos, List.take_zero]
    simp only [frame, segmentHeaderSize, List.length_append, length_leBytes]
    omega
  simp only [readRecord, hsize, hbody, hdec, Nat.add_zero]

theorem answers_of_oversized (tc : Codec T) (v : T) (hlen : (tc.enc v).length = 2^32)
    (hdec : tc.dec [] = none) :
    ((Topic.create 1024 : Option (Topic Unit)).bind fun t =>
        t.run tc [.register (), .append v, .next ()]).map Prod.snd =
      some [.done, .offset 0, .next .error] := by
  have hread := readRecord_zero tc v hlen hdec
  simp [Topic.create, createSegment, Topic.run, Topic.step, consumer, setConsumer, setCursor,
    Topic.append, Segment.fresh, Segment.recordCount, writeRecord, Topic.next, positionAndRead,
    Topic.release, Topic.position, skipRecords, readCursor, hread, -AList.insert_empty]

/-- `n` zero bytes. -/
def zeros (n : Nat) (h : n < 2^64) : {b : Bytes // b.length < 2^64} :=
  ⟨List.replicate n 0, by rw [List.length_replicate]; exact h⟩

/-- The length field of a record of 2^32 bytes is zero, and `next` fails on it. -/
theorem next_error_of_oversized :
    ((Topic.create 1024 : Option (Topic Unit)).bind fun t =>
        t.run byteVecCodec [.register (), .append (zeros (2^32-8) (by decide)), .next ()]).map Prod.snd =
      some [.done, .offset 0, .next .error] ∧
    (TopicSpec.run ⟨[], ∅⟩ [.register (), .append (zeros (2^32-8) (by decide)), .next ()]).2 =
      [.done, .offset 0, .next (.item (zeros (2^32-8) (by decide)))] := by
  refine ⟨answers_of_oversized _ _ ?_ rfl, ?_⟩
  · simp only [byteVecCodec, zeros, List.length_append, length_leBytes, List.length_replicate]
    norm_num
  · simp [TopicSpec.run, TopicSpec.step, TopicSpec.setReader, TopicSpec.withReader, -AList.insert_empty]

end Topic

end ZenDB
