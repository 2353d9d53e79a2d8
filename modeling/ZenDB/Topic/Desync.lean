import ZenDB.Topic.Handles

namespace ZenDB

/-! What a consumer sees of records that do not decode. The file position of a cursor moves when a
record is read, its offset only when the record also decodes. -/

/-- Reading at the boundary behind `p` consumes the next record, whether or not it decodes. -/
theorem readRecord_raw {T : Type} (tc : Codec T) (p q : List Bytes) (r : Bytes)
    (hr : r.length < 2^32) :
    readRecord tc (segmentFile rawCodec (p ++ r :: q))
        (segmentHeaderSize+(frames rawCodec p).length) =
      (segmentHeaderSize+(frames rawCodec (p ++ [r])).length, tc.dec r) := by
  have hfile : segmentFile rawCodec (p ++ r :: q) =
      segmentFile rawCodec p ++ (frame rawCodec r ++ frames rawCodec q) := by
    simp [segmentFile, List.append_assoc]
  have hsize := readSize_frame rawCodec (segmentFile rawCodec p) (frames rawCodec q) r _
    (length_segmentFile rawCodec p).symm hr
  have hbody : slice? (segmentFile rawCodec p ++ (frame rawCodec r ++ frames rawCodec q))
      (segmentHeaderSize+(frames rawCodec p).length+4) r.length = some r := by
    rw [show segmentFile rawCodec p ++ (frame rawCodec r ++ frames rawCodec q) =
      (segmentFile rawCodec p ++ leBytes 4 r.length) ++ r ++ frames rawCodec q by
        simp [frame, rawCodec, List.append_assoc]]
    exact slice?_append _ _ _ _ _ (by simp [length_segmentFile]) rfl
  change readU32Le _ _ = some r.length at hsize
  rw [hfile]
  simp only [readRecord, hsize, hbody]
  simp only [frames_append, frames_cons, frames_nil, List.append_nil, List.length_append,
    length_frame, Nat.add_assoc]
  rfl

/-- At the end of the file a read fails and the position stays. -/
theorem readRecord_end {T : Type} (tc : Codec T) (file : Bytes) :
    readRecord tc file file.length = (file.length, none) := by
  have hsize : readU32Le file file.length = none := by
    simp [readU32Le, slice?]
  simp [readRecord, hsize]

namespace Topic

variable {Name T : Type} [DecidableEq Name] (tc : Codec T)

/-- Calls of `next` on one handle: the answers, each with the offset that the consumer then has. -/
def nexts (t : Topic Name) (name : Name) : Nat → Option (Topic Name × List (Next T × Nat))
  | 0 => some (t, [])
  | n+1 => do
    let (t, r) ← t.next tc name
    let c ← t.consumers.lookup name
    let (t, rs) ← t.nexts name n
    return (t, (r, c.volatile) :: rs)

/-- What one call of `next` answers at an offset, and the offset that follows. -/
def nextAt (log : List Bytes) (offset : Nat) : Next T × Nat :=
  match log[offset]? with
  | none => (.none, offset)
  | some r =>
    match tc.dec r with
    | none => (.error, offset)
    | some v => (.item v, offset+1)

/-- The answers of a consumer that reads the record at its offset in every call. -/
def nextsAt (log : List Bytes) : Nat → Nat → List (Next T × Nat)
  | _, 0 => []
  | offset, n+1 => nextAt tc log offset :: nextsAt log (nextAt tc log offset).2 n

/-- All calls on the handle that return answer as they should from `offset` on. -/
def Follows (t : Topic Name) (name : Name) (log : List Bytes) (offset : Nat) : Prop :=
  ∀ n t' rs, t.nexts tc name n = some (t', rs) → rs = nextsAt tc log offset n

/-- The record at an offset is there and decodes. -/
def Decodes (log : List Bytes) (offset : Nat) : Prop := ∃ r v, log[offset]? = some r ∧ tc.dec r = some v

/-- Behind the first record from `offset` on that does not decode, no other record of its segment
decodes. -/
def Clear (t : Topic Name) (log : List Bytes) (offset : Nat) : Prop :=
  ∀ s ∈ t.segments, ∀ k, offset ≤ k → s.baseOffset ≤ k → k < s.endOffset →
    (∀ i, offset ≤ i → i < k → Decodes tc log i) → ¬ Decodes tc log k →
    ∀ j, k < j → j < s.endOffset → ¬ Decodes tc log j

variable {tc} {t t' : Topic Name} {name : Name} {log : List Bytes} {k : Nat}

theorem nextAt_item {r : Bytes} {v : T} (hr : log[k]? = some r) (hv : tc.dec r = some v) :
    nextAt tc log k = (.item v, k+1) := by
  simp only [nextAt, hr, hv]

theorem nextAt_error {r : Bytes} (hr : log[k]? = some r) (hv : tc.dec r = none) :
    nextAt tc log k = (.error, k) := by
  simp only [nextAt, hr, hv]

theorem nextAt_none (hk : log.length ≤ k) : nextAt tc log k = (.none, k) := by
  simp only [nextAt, List.getElem?_eq_none hk]

theorem nextAt_of_not_decodes (hk : k < log.length) (hdec : ¬ Decodes tc log k) :
    nextAt tc log k = (.error, k) := by
  cases hv : tc.dec log[k] with
  | none => exact nextAt_error (List.getElem?_eq_getElem hk) hv
  | some v => exact absurd ⟨_, v, List.getElem?_eq_getElem hk, hv⟩ hdec

theorem nextAt_of_decodes (hdec : Decodes tc log k) : (nextAt tc log k).2 = k+1 := by
  obtain ⟨r, v, hr, hv⟩ := hdec
  rw [nextAt_item hr hv]

/-- A call that returns answers as it should, and so do the calls behind it. -/
theorem Follows.next (h : t.Follows tc name log k) {r : Next T} {c : ConsumerState}
    (hnext : t.next tc name = some (t', r)) (hc : t'.consumers.lookup name = some c) :
    (r, c.volatile) = nextAt tc log k ∧ t'.Follows tc name log (nextAt tc log k).2 := by
  have hrun : ∀ n u rs, t'.nexts tc name n = some (u, rs) →
      (r, c.volatile) :: rs = nextsAt tc log k (n+1) := by
    intro n u rs hrs
    refine h (n+1) u _ ?_
    simp only [nexts, hnext, hc, hrs, Option.bind_eq_bind, Option.bind_some]
    rfl
  refine ⟨(List.cons.inj (hrun 0 t' [] rfl)).1, ?_⟩
  intro n u rs hrs
  exact (List.cons.inj (hrun n u rs hrs)).2

/-- An invariant under which every call answers as it should. -/
theorem follows_of_invariant (P : Topic Name → Nat → Prop)
    (hstep : ∀ t k, P t k → ∀ t' r, t.next tc name = some (t', r) →
      ∃ c, t'.consumers.lookup name = some c ∧ (r, c.volatile) = nextAt tc log k ∧
        P t' (nextAt tc log k).2) (h : P t k) : t.Follows tc name log k := by
  intro n
  induction n generalizing t k with
  | zero =>
    intro t' rs hrs
    cases hrs
    rfl
  | succ n ih =>
    intro t' rs hrs
    obtain ⟨⟨t₁, r⟩, hnext, hrs⟩ := Option.bind_eq_some_iff.mp hrs
    obtain ⟨c, hc, hrs⟩ := Option.bind_eq_some_iff.mp hrs
    obtain ⟨⟨t₂, tail⟩, htail, hrs⟩ := Option.bind_eq_some_iff.mp hrs
    obtain ⟨c', hc', hanswer, h₁⟩ := hstep t k h t₁ r hnext
    have hsame : c' = c := Option.some.inj (hc'.symm.trans hc)
    subst hsame
    cases hrs
    rw [nextsAt, ← hanswer, ih h₁ _ _ htail, ← hanswer]

/-- Where record `k` begins in the file of its segment. -/
def recordPos (log : List Bytes) (s : Segment) (k : Nat) : Nat :=
  segmentHeaderSize+(frames rawCodec (window log s.baseOffset k)).length

/-- The files of the topic hold `log`, and the consumer with an open handle has offset `k`. -/
structure Reading (t : Topic Name) (name : Name) (log : List Bytes) (k : Nat)
    (current : Option SegmentCursor) : Prop where
  files : t.Stocked rawCodec False log 0
  reader : t.readers.lookup name = some current
  volatile : ∃ c, t.consumers.lookup name = some c ∧ c.volatile = k

/-- The cursor of the handle, if it has one, stands in front of the record at the offset. -/
structure Aligned (t : Topic Name) (name : Name) (log : List Bytes) (k : Nat)
    (current : Option SegmentCursor) : Prop extends Reading t name log k current where
  retained : t.stats.earliestOffset ≤ k
  cursor : ∀ cur, current = some cur → ∃ s ∈ t.segments, s.baseOffset ≤ k ∧ k ≤ s.endOffset ∧
    cur = ⟨recordPos log s k, s.baseOffset, k⟩

/-- Record `k` of segment `s` has been refused, and the file position has moved on to record `j`. -/
structure Stuck (t : Topic Name) (name : Name) (log : List Bytes) (k : Nat) (s : Segment)
    (j : Nat) : Prop
    extends Reading t name log k (some ⟨recordPos log s j, s.baseOffset, k⟩) where
  segment : s ∈ t.segments
  base_le : s.baseOffset ≤ k
  lt_end : k < s.endOffset
  ahead : k < j
  le_end : j ≤ s.endOffset

omit [DecidableEq Name] in
/-- Without failed writes a file holds the records of its segment and nothing else. -/
theorem Stocked.lookup_raw (h : t.Stocked rawCodec False log 0) {s : Segment} (hs : s ∈ t.segments) :
    t.dir.lookup s.baseOffset =
      some (segmentFile rawCodec (window log s.baseOffset s.endOffset)) := by
  obtain ⟨rest, rfl | ⟨hf, -⟩, hfile⟩ :=
    (h.shelved s (List.mem_append_left _ hs)).filled (Nat.zero_le _)
  · rw [hfile, List.append_nil]
    rfl
  · exact absurd hf id

omit [DecidableEq Name] in
theorem Stocked.end_le_length (h : t.Stocked rawCodec False log 0) {s : Segment}
    (hs : s ∈ t.segments) : s.endOffset ≤ log.length := by
  have hle := (h.shelved s (List.mem_append_left _ hs)).end_le
  rwa [Nat.zero_add] at hle

/-- The read at a cursor that stands in front of record `j`. -/
theorem Stocked.readCursor_raw (h : t.Stocked rawCodec False log 0) {s : Segment}
    (hs : s ∈ t.segments)
    {j : Nat} (hb : s.baseOffset ≤ j) (hj : j < s.endOffset) (c : ConsumerState) :
    ∃ r, log[j]? = some r ∧
      (∀ v, tc.dec r = some v → t.readCursor tc name c ⟨recordPos log s j, s.baseOffset, k⟩ =
        some ((t.setConsumer name {c with volatile := k+1}).setCursor name
          (some ⟨recordPos log s (j+1), s.baseOffset, k+1⟩), .item v)) ∧
      (tc.dec r = none → t.readCursor tc name c ⟨recordPos log s j, s.baseOffset, k⟩ =
        some (t.setCursor name (some ⟨recordPos log s (j+1), s.baseOffset, k⟩), .error)) := by
  have hfile := h.lookup_raw hs
  have hend := h.end_le_length hs
  obtain ⟨r, hr, hwin⟩ := window_cons log j s.endOffset hj hend
  have hsplit : window log s.baseOffset s.endOffset =
      window log s.baseOffset j ++ r :: window log (j+1) s.endOffset := by
    rw [window_split log _ j _ hb hj.le, hwin]
  have hnext : window log s.baseOffset (j+1) = window log s.baseOffset j ++ [r] := by
    obtain ⟨r', hr', hwin'⟩ := window_cons log j (j+1) (by omega) (by omega)
    rw [hr, Option.some.injEq] at hr'
    rw [window_split log _ j _ hb (by omega), hwin', window_self, hr']
  have hread := readRecord_raw tc (window log s.baseOffset j) (window log (j+1) s.endOffset) r
    (h.fits r (List.mem_of_getElem? hr))
  rw [← hsplit, ← hnext] at hread
  refine ⟨r, hr, ?_, ?_⟩
  · intro v hv
    simp only [Topic.readCursor, hfile, Option.bind_eq_bind, Option.bind_some, recordPos, hread,
      hv]
  · intro hv
    simp only [Topic.readCursor, hfile, Option.bind_eq_bind, Option.bind_some, recordPos, hread,
      hv]

/-- Behind the last record of the segment every read fails. -/
theorem Stocked.readCursor_end (h : t.Stocked rawCodec False log 0) {s : Segment}
    (hs : s ∈ t.segments) (c : ConsumerState) :
    t.readCursor tc name c ⟨recordPos log s s.endOffset, s.baseOffset, k⟩ =
      some (t.setCursor name (some ⟨recordPos log s s.endOffset, s.baseOffset, k⟩), .error) := by
  have hfile := h.lookup_raw hs
  have hread := readRecord_end tc (segmentFile rawCodec (window log s.baseOffset s.endOffset))
  rw [length_segmentFile] at hread
  simp only [Topic.readCursor, hfile, Option.bind_eq_bind, Option.bind_some, recordPos, hread]

section Move

variable {u : Topic Name} {c : ConsumerState} {current current' : Option SegmentCursor}

/-- Moving the cursor of the handle touches neither the files nor the consumer. -/
theorem Reading.setCursor (h : t.Reading name log k current) :
    (t.setCursor name current').Reading name log k current' :=
  ⟨h.files.setReaders _ _ _, AList.lookup_insert _, h.volatile⟩

theorem Reading.setVolatile (h : t.Reading name log k current) (c : ConsumerState) :
    ((t.setConsumer name c).setCursor name current').Reading name log c.volatile current' :=
  ⟨h.files.setReaders _ _ _, AList.lookup_insert _, c, AList.lookup_insert _, rfl⟩

theorem Reading.release (h : t.Reading name log k current) :
    t.release.Reading name log k current :=
  ⟨h.files.release, h.reader, h.volatile⟩

end Move

/-- While records of its segment remain, `next` reads at the cursor. -/
theorem Reading.next_eq {cur : SegmentCursor} (h : t.Reading name log k (some cur))
    {s : Segment} (hs : s ∈ t.segments) (hseg : cur.segment = s.baseOffset)
    (hlt : cur.logicalOffset < s.endOffset) :
    ∃ c, t.consumers.lookup name = some c ∧ c.volatile = k ∧
      t.next tc name = t.readCursor tc name c cur := by
  obtain ⟨c, hc, hvol⟩ := h.volatile
  have hfind := h.files.find_base (List.mem_append_left t.held hs)
  rw [← hseg] at hfind
  refine ⟨c, hc, hvol, ?_⟩
  simp only [Topic.next, h.reader, hc, Option.bind_eq_bind, Option.bind_some, hfind, if_pos hlt]

section Stuck

variable {s : Segment} {j : Nat}

theorem Stuck.next_eq (h : t.Stuck name log k s j) :
    ∃ c, t.consumers.lookup name = some c ∧ c.volatile = k ∧
      t.next tc name = t.readCursor tc name c ⟨recordPos log s j, s.baseOffset, k⟩ :=
  h.toReading.next_eq h.segment rfl h.lt_end

/-- A further record that does not decode is passed in the same way. -/
theorem Stuck.next_error (h : t.Stuck name log k s j) (hj : j < s.endOffset)
    (hdec : ¬ Decodes tc log j) :
    ∃ t', t.next tc name = some (t', .error) ∧ t'.segments = t.segments ∧
      t'.Stuck name log k s (j+1) := by
  obtain ⟨c, hc, -, hnext⟩ := h.next_eq
  have hb := h.base_le
  have hahead := h.ahead
  obtain ⟨r, hr, -, herror⟩ := h.files.readCursor_raw h.segment (by omega) hj c
  have hnone : tc.dec r = none := by
    cases hv : tc.dec r with
    | none => rfl
    | some v => exact absurd ⟨r, v, hr, hv⟩ hdec
  exact ⟨_, hnext.trans (herror hnone), rfl, h.toReading.setCursor, h.segment, h.base_le, h.lt_end,
    by omega, hj⟩

theorem Stuck.next_end (h : t.Stuck name log k s s.endOffset) :
    ∃ t', t.next tc name = some (t', .error) ∧ t'.segments = t.segments ∧
      t'.Stuck name log k s s.endOffset := by
  obtain ⟨c, hc, -, hnext⟩ := h.next_eq
  exact ⟨_, hnext.trans (h.files.readCursor_end h.segment c), rfl, h.toReading.setCursor, h.segment,
    h.base_le, h.lt_end, h.ahead, h.le_end⟩

/-- A record that decodes is taken for record `k`. -/
theorem Stuck.next_item (h : t.Stuck name log k s j) (hj : j < s.endOffset)
    (hdec : Decodes tc log j) :
    ∃ t' v c, t.next tc name = some (t', .item v) ∧ t'.consumers.lookup name = some c := by
  obtain ⟨c, hc, -, hnext⟩ := h.next_eq
  have hb := h.base_le
  have hahead := h.ahead
  obtain ⟨r, hr, hitem, -⟩ := h.files.readCursor_raw h.segment (by omega) hj c
  obtain ⟨r', v, hr', hv⟩ := hdec
  rw [hr, Option.some.injEq] at hr'
  subst hr'
  exact ⟨_, v, _, hnext.trans (hitem v hv), AList.lookup_insert _⟩

end Stuck

section Aligned

variable {current : Option SegmentCursor}

/-- What one call leaves: the right answer, and the handle in front of the record at its offset,
unless that record was refused. -/
structure Read (tc : Codec T) (name : Name) (log : List Bytes) (k : Nat) (t t' : Topic Name)
    (r : Next T) : Prop where
  answer : ∃ c, t'.consumers.lookup name = some c ∧ (r, c.volatile) = nextAt tc log k
  segments : t'.segments = t.segments
  aligned : Decodes tc log k ∨ log.length ≤ k →
    ∃ current, t'.Aligned name log (nextAt tc log k).2 current
  stuck : k < log.length → ¬ Decodes tc log k →
    ∃ s ∈ t.segments, s.baseOffset ≤ k ∧ k < s.endOffset ∧ t'.Stuck name log k s (k+1)

theorem Reading.readCursor {s : Segment}
    (h : t.Reading name log k (some ⟨recordPos log s k, s.baseOffset, k⟩))
    (hfirst : t.stats.earliestOffset ≤ k) (hs : s ∈ t.segments) (hb : s.baseOffset ≤ k) (hk : k < s.endOffset)
    {c : ConsumerState} (hc : t.consumers.lookup name = some c) (hvol : c.volatile = k) :
    ∃ t' r, t.readCursor tc name c ⟨recordPos log s k, s.baseOffset, k⟩ = some (t', r) ∧
      Read tc name log k t t' r := by
  obtain ⟨r, hr, hitem, herror⟩ := h.files.readCursor_raw hs hb hk c
  have hlen : k < log.length := (List.getElem?_eq_some_iff.mp hr).1
  cases hv : tc.dec r with
  | some v =>
    refine ⟨_, _, hitem v hv, ⟨_, AList.lookup_insert _, (nextAt_item hr hv).symm⟩, rfl, ?_, ?_⟩
    · intro _
      rw [nextAt_item hr hv]
      refine ⟨_, h.setVolatile _, hfirst.trans (Nat.le_succ k), ?_⟩
      intro cur hcur
      cases hcur
      exact ⟨s, hs, by omega, hk, rfl⟩
    · intro _ hdec
      exact absurd ⟨r, v, hr, hv⟩ hdec
  | none =>
    refine ⟨_, _, herror hv, ⟨c, hc, ?_⟩, rfl, ?_, ?_⟩
    · rw [nextAt_error hr hv, hvol]
    · intro hdec
      rcases hdec with ⟨r', v, hr', hv'⟩ | hle
      · rw [hr, Option.some.injEq] at hr'
        rw [hr', hv'] at hv
        cases hv
      · omega
    · intro _ _
      exact ⟨s, hs, hb, hk, h.setCursor, hs, hb, hk, by omega, hk⟩

theorem Reading.positionAndRead (h : t.Reading name log k current) (hfirst : t.stats.earliestOffset ≤ k)
    {c : ConsumerState} (hc : t.consumers.lookup name = some c) (hvol : c.volatile = k) :
    ∃ t' r, t.positionAndRead tc name c = some (t', r) ∧ Read tc name log k t t' r := by
  have hclear : (t.setCursor name none).release.Reading name log k none :=
    h.setCursor.release
  have hsegs : (t.setCursor name none).release.segments = t.segments := rfl
  have hc' : (t.setCursor name none).release.consumers.lookup name = some c := hc
  have hfirst' : (t.setCursor name none).release.stats.earliestOffset ≤ k := hfirst
  rw [Topic.positionAndRead]
  generalize (t.setCursor name none).release = u at hclear hsegs hc' hfirst'
  rw [hvol]
  by_cases hlt : k < log.length
  · have hnext : k < u.stats.nextOffset := by
      rw [hclear.files.nextOffset, Nat.zero_add]
      exact hlt
    obtain ⟨s, hs, hk, ⟨-, hfront⟩ | ⟨cur, hpos, hseg, hlog, s', hs', hbase, hb, -, hfile⟩⟩ :=
      hclear.files.position hfirst' hnext
    · exact absurd hfront (Nat.not_lt_zero _)
    have hsame : s' = s := hclear.files.base_inj hs' (List.mem_append_left _ hs) (hbase.trans hseg.symm)
    subst hsame
    have hcur : cur = ⟨recordPos log s' k, s'.baseOffset, k⟩ := by
      obtain ⟨pos, seg, off⟩ := cur
      have hfile := hfile (Nat.zero_le _)
      dsimp only at hlog hseg hfile
      rw [hlog, ← hseg, hfile, recordPos]
      rfl
    subst hcur
    have hmoved : (u.setCursor name (some ⟨recordPos log s' k, s'.baseOffset, k⟩)).Reading name log
        k (some ⟨recordPos log s' k, s'.baseOffset, k⟩) := hclear.setCursor
    obtain ⟨t', r, hread, hr⟩ := hmoved.readCursor hfirst' hs hb hk hc' hvol
    refine ⟨t', r, ?_, hr.answer, hr.segments.trans hsegs, hr.aligned, hsegs ▸ hr.stuck⟩
    simp only [hpos, hread, Option.bind_eq_bind, Option.bind_some]
  · have hge : log.length ≤ k := not_lt.mp hlt
    refine ⟨u, .none, ?_, ⟨c, hc', by rw [nextAt_none hge, hvol]⟩, hsegs, ?_, ?_⟩
    · rw [Topic.position, if_pos (by rw [hclear.files.nextOffset, Nat.zero_add]; exact hge)]
      rfl
    · intro _
      rw [nextAt_none hge]
      exact ⟨none, hclear, hfirst', fun cur hcur => by cases hcur⟩
    · intro hlen
      omega

/-- A handle whose cursor stands right reads the record at its offset. -/
theorem Aligned.next (h : t.Aligned name log k current) :
    ∃ t' r, t.next tc name = some (t', r) ∧ Read tc name log k t t' r := by
  obtain ⟨c, hc, hvol⟩ := h.volatile
  have hmove : ∃ t' r, t.positionAndRead tc name c = some (t', r) ∧
      Read tc name log k t t' r := h.toReading.positionAndRead h.retained hc hvol
  cases current with
  | none =>
    simpa only [Topic.next, h.reader, hc, Option.bind_eq_bind, Option.bind_some] using hmove
  | some cur =>
    obtain ⟨s, hs, hb, hle, rfl⟩ := h.cursor cur rfl
    have hfind := h.files.find_base (List.mem_append_left t.held hs)
    simp only [Topic.next, h.reader, hc, Option.bind_eq_bind, Option.bind_some, hfind]
    split_ifs with hlt hge
    · exact h.toReading.readCursor h.retained hs hb hlt hc hvol
    · rw [h.files.nextOffset, Nat.zero_add] at hge
      refine ⟨t, .none, rfl, ⟨c, hc, by rw [nextAt_none hge, hvol]⟩, rfl, ?_, ?_⟩
      · intro _
        rw [nextAt_none hge]
        exact ⟨_, h⟩
      · intro hlen
        omega
    · exact hmove

end Aligned

section Synced

variable {s : Segment} {j : Nat} {current : Option SegmentCursor}

/-- Once a record has been refused, the answers stay right as long as no later record of the segment
decodes. -/
theorem Stuck.decodes_none (h : t.Stuck name log k s j) (hdec : ¬ Decodes tc log k)
    (hfollows : t.Follows tc name log k) :
    ∀ i, j ≤ i → i < s.endOffset → ¬ Decodes tc log i := by
  have hk : k < log.length := by
    have hle := h.files.end_le_length h.segment
    have hlt := h.lt_end
    omega
  have herror := nextAt_of_not_decodes hk hdec
  intro i hji hi
  obtain ⟨d, rfl⟩ := Nat.exists_eq_add_of_le hji
  induction d generalizing t j with
  | zero =>
    intro hdecodes
    obtain ⟨t', v, c, hnext, hc⟩ := h.next_item hi hdecodes
    have hanswer := (hfollows.next hnext hc).1
    rw [herror] at hanswer
    cases hanswer
  | succ d ih =>
    have hj : ¬ Decodes tc log j := by
      intro hdecodes
      obtain ⟨t', v, c, hnext, hc⟩ := h.next_item (by omega) hdecodes
      have hanswer := (hfollows.next hnext hc).1
      rw [herror] at hanswer
      cases hanswer
    obtain ⟨t', hnext, -, h'⟩ := h.next_error (by omega) hj
    obtain ⟨c, hc, -⟩ := h'.volatile
    have hfollows' := (hfollows.next hnext hc).2
    rw [herror] at hfollows'
    have hnone := ih h' hfollows' (by omega) (by omega)
    rwa [show j+(d+1) = j+1+d by omega]

/-- Only a segment whose records behind a refused one are all refused keeps the answers right. -/
theorem Aligned.clear (h : t.Aligned name log k current) (hfollows : t.Follows tc name log k) :
    t.Clear tc log k := by
  intro s hs m hkm hb hm hall hdec
  obtain ⟨d, rfl⟩ := Nat.exists_eq_add_of_le hkm
  have hlen : k+d < log.length := by
    have hle := h.files.end_le_length hs
    omega
  -- the records in front of the refused one are read first
  induction d generalizing t k current with
  | zero =>
    rw [Nat.add_zero] at hb hm hdec hlen ⊢
    obtain ⟨t', r, hnext, hread⟩ := h.next
    obtain ⟨s', hs', hb', hk', hstuck⟩ := hread.stuck hlen hdec
    have hsame : s' = s := h.files.cover.unique hs' ⟨hb', hk'⟩ hs ⟨hb, hm⟩
    subst hsame
    obtain ⟨c, hc, -⟩ := hread.answer
    have hfollows' := (hfollows.next hnext hc).2
    rw [nextAt_of_not_decodes hlen hdec] at hfollows'
    exact hstuck.decodes_none hdec hfollows'
  | succ d ih =>
    obtain ⟨t', r, hnext, hread⟩ := h.next
    have hdecodes : Decodes tc log k := hall k (le_refl _) (by omega)
    obtain ⟨current', h'⟩ := hread.aligned (Or.inl hdecodes)
    obtain ⟨c, hc, -⟩ := hread.answer
    have hfollows' := (hfollows.next hnext hc).2
    rw [nextAt_of_decodes hdecodes] at h' hfollows'
    have hshift : k+1+d = k+(d+1) := by omega
    rw [← hshift] at hb hm hall hdec hlen ⊢
    exact ih h' hfollows' (hread.segments ▸ hs) (by omega) hb hm
      (fun i hi hid => hall i (by omega) hid) hdec hlen

omit [DecidableEq Name] in
theorem Clear.next (h : t.Clear tc log k) (hsegs : t'.segments = t.segments)
    (hdec : Decodes tc log k) : t'.Clear tc log (k+1) := by
  intro s hs m hkm hb hm hall
  refine h s (hsegs ▸ hs) m (by omega) hb hm ?_
  intro i hi him
  rcases Nat.lt_or_eq_of_le hi with hlt | rfl
  · exact hall i hlt him
  · exact hdec

/-- Where `Follows` rests on: the handle stands right and what lies ahead is clear, or it has refused
a record and nothing behind that decodes. -/
def Steady (tc : Codec T) (name : Name) (log : List Bytes) (t : Topic Name) (k : Nat) : Prop :=
  (∃ current, t.Aligned name log k current ∧ t.Clear tc log k) ∨
    ∃ s j, t.Stuck name log k s j ∧ ¬ Decodes tc log k ∧
      ∀ i, j ≤ i → i < s.endOffset → ¬ Decodes tc log i

theorem Steady.next (h : Steady tc name log t k) {r : Next T}
    (hnext : t.next tc name = some (t', r)) :
    ∃ c, t'.consumers.lookup name = some c ∧ (r, c.volatile) = nextAt tc log k ∧
      Steady tc name log t' (nextAt tc log k).2 := by
  rcases h with ⟨current, haligned, hclear⟩ | ⟨s, j, hstuck, hdec, hnone⟩
  · obtain ⟨t₁, r₁, hnext₁, hread⟩ := haligned.next
    have heq := Option.some.inj (hnext₁.symm.trans hnext)
    cases heq
    obtain ⟨c, hc, hanswer⟩ := hread.answer
    refine ⟨c, hc, hanswer, ?_⟩
    by_cases hdec : Decodes tc log k
    · obtain ⟨current', h'⟩ := hread.aligned (Or.inl hdec)
      rw [nextAt_of_decodes hdec] at h' ⊢
      exact Or.inl ⟨current', h', hclear.next hread.segments hdec⟩
    · by_cases hlen : k < log.length
      · obtain ⟨s, hs, hb, hk, hstuck⟩ := hread.stuck hlen hdec
        rw [nextAt_of_not_decodes hlen hdec]
        refine Or.inr ⟨s, k+1, hstuck, hdec, ?_⟩
        exact hclear s hs k (le_refl _) hb hk (fun i hi hik => by omega) hdec
      · obtain ⟨current', h'⟩ := hread.aligned (Or.inr (not_lt.mp hlen))
        rw [nextAt_none (not_lt.mp hlen)] at h' ⊢
        refine Or.inl ⟨current', h', ?_⟩
        intro s hs
        exact hclear s (hread.segments ▸ hs)
  · have hk : k < log.length := by
      have hle := hstuck.files.end_le_length hstuck.segment
      have hlt := hstuck.lt_end
      omega
    have herror := nextAt_of_not_decodes hk hdec
    obtain ⟨t₁, j', hnext₁, hstuck', hj⟩ : ∃ t₁ j', t.next tc name = some (t₁, .error) ∧
        t₁.Stuck name log k s j' ∧ j ≤ j' := by
      rcases Nat.lt_or_eq_of_le hstuck.le_end with hlt | rfl
      · obtain ⟨t₁, hnext₁, -, h₁⟩ := hstuck.next_error hlt (hnone j (le_refl _) hlt)
        exact ⟨t₁, j+1, hnext₁, h₁, by omega⟩
      · obtain ⟨t₁, hnext₁, -, h₁⟩ := hstuck.next_end
        exact ⟨t₁, s.endOffset, hnext₁, h₁, le_refl _⟩
    have heq := Option.some.inj (hnext₁.symm.trans hnext)
    cases heq
    obtain ⟨c, hc, hvol⟩ := hstuck'.volatile
    rw [herror]
    exact ⟨c, hc, by rw [hvol], Or.inr ⟨s, j', hstuck', hdec, fun i hi => hnone i (hj.trans hi)⟩⟩

/-- A fresh handle answers as it should in every call exactly when a record it refuses is followed by
no record of the same segment that decodes, or when it stands in front of the retained records. -/
theorem Stocked.follows_iff (h : t.Stocked rawCodec False log 0)
    (hr : t.readers.lookup name = some none) {c : ConsumerState}
    (hc : t.consumers.lookup name = some c) :
    t.Follows tc name log c.volatile ↔
      (t.stats.earliestOffset ≤ c.volatile → t.Clear tc log c.volatile) := by
  have hreading : t.Reading name log c.volatile none := ⟨h, hr, c, hc, rfl⟩
  constructor
  · intro hfollows hfirst
    have haligned : t.Aligned name log c.volatile none :=
      ⟨hreading, hfirst, fun cur hcur => by cases hcur⟩
    exact haligned.clear hfollows
  · intro hclear
    by_cases hfirst : t.stats.earliestOffset ≤ c.volatile
    · have haligned : t.Aligned name log c.volatile none :=
        ⟨hreading, hfirst, fun cur hcur => by cases hcur⟩
      exact follows_of_invariant (Steady tc name log) (fun t k hk t' r hnext => hk.next hnext)
        (Or.inl ⟨none, haligned, hclear hfirst⟩)
    · -- `position` finds no segment
      have hpanic : t.next tc name = none := by
        have hcleared : (t.setCursor name none).Reading name log c.volatile none :=
          hreading.setCursor
        have hclear := hcleared.release.files
        simp only [Topic.next, hr, hc, Option.bind_eq_bind, Option.bind_some, Topic.positionAndRead,
          position_none hclear.cover hclear.first_le (not_le.mp hfirst)]
        rfl
      intro n t' rs hrs
      cases n with
      | zero =>
        cases hrs
        rfl
      | succ n =>
        rw [nexts, hpanic] at hrs
        cases hrs

end Synced

/-- A fresh handle stays in step with its offset over all calls of `next`, whatever the records decode
to, exactly when a record that it refuses is followed by none of the same segment that decodes. In
front of the retained records no call returns. -/
theorem next_synced_iff {maxSegmentBytes : Nat} {t₀ : Topic Name}
    (hcreate : Topic.create maxSegmentBytes = some t₀) {cs : List (Call Name Bytes)}
    (hfit : ∀ c ∈ cs, c.Fits rawCodec) (hrun : t₀.calls rawCodec cs = some t)
    (hr : t.readers.lookup name = some none) {c : ConsumerState}
    (hc : t.consumers.lookup name = some c) :
    t.Follows tc name (cs.flatMap Call.appended) c.volatile ↔
      ((∀ s ∈ t.segments.head?, s.baseOffset ≤ c.volatile) →
        t.Clear tc (cs.flatMap Call.appended) c.volatile) := by
  have hready : t.Ready rawCodec False (cs.flatMap Call.appended) 0 :=
    (ready_create hcreate).calls id hfit hrun
  obtain ⟨s, hs, hbase⟩ := hready.stocked.head_base
  rw [hready.stocked.follows_iff hr hc, hs, ← hbase]
  simp

/-- The last record is empty and does not decode. -/
theorem next_synced_last_refused :
    ∃ (t₀ t : Topic Unit) (c : ConsumerState), Topic.create 1024 = some t₀ ∧
      t₀.calls rawCodec [.step (.register ()), .step (.append [7]), .step (.append [])] = some t ∧
      t.readers.lookup () = some none ∧ t.consumers.lookup () = some c ∧
      t.Follows byteCodec () [[7], []] c.volatile := by
  have hrun : ((Topic.create 1024 : Option (Topic Unit)).bind fun t₀ => t₀.calls rawCodec
      [.step (.register ()), .step (.append [7]), .step (.append [])]).map
        (fun t => (t.readers.lookup (), t.consumers.lookup (), t.segments.map Segment.endOffset)) =
      some (some none, some ⟨0, 0, true⟩, [2]) := by decide +kernel
  obtain ⟨t, hrun, hstate⟩ := Option.map_eq_some_iff.mp hrun
  obtain ⟨t₀, hcreate, hrun⟩ := Option.bind_eq_some_iff.mp hrun
  obtain ⟨hr, hstate⟩ := Prod.mk.inj hstate
  obtain ⟨hc, hends⟩ := Prod.mk.inj hstate
  refine ⟨t₀, t, _, hcreate, hrun, hr, hc, (next_synced_iff hcreate ?_ hrun hr hc).mpr fun _ => ?_⟩
  · simp [Call.Fits, Op.Fits, rawCodec]
  · intro s hs k _ _ hk _ hdec j hkj hj
    have hend : s.endOffset ∈ t.segments.map Segment.endOffset := List.mem_map_of_mem hs
    rw [hends, List.mem_singleton] at hend
    have hzero : k = 0 := by omega
    rw [hzero] at hdec
    exact absurd ⟨[7], 7, rfl, rfl⟩ hdec

/-- The first record is empty and does not decode. The second call returns the second record at
offset 0 and moves the consumer to offset 1. -/
theorem refused_record_desyncs :
    (((Topic.create 1024 : Option (Topic Unit)).bind fun t₀ => t₀.calls rawCodec
      [.step (.register ()), .step (.append []), .step (.append [7])]).bind fun t =>
        t.nexts byteCodec () 2).map Prod.snd = some [(.error, 0), (.item 7, 1)] ∧
    nextsAt byteCodec [[], [7]] 0 2 = [(.error, 0), (.error, 0)] := by
  constructor <;> decide +kernel

end Topic

end ZenDB
