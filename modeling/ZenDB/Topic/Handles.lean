import ZenDB.Topic.Litter

namespace ZenDB

/-! The handles of a topic after any calls, `seek` among them: where their cursors stand, and what
`next` does there. A consumer may then stand anywhere, also in front of the retained records or beyond
the tail. -/

namespace Topic

variable {Name T : Type} [DecidableEq Name]

/-- The length field has 32 bits. -/
def Op.Fits (tc : Codec T) : Op Name T → Prop
  | .append value => (tc.enc value).length < 2^32
  | _ => True

inductive Call (Name T : Type) where
  | step (op : Op Name T)
  | seek (name : Name) (offset : Nat)

def Call.appended : Call Name T → List T
  | .step op => op.appended
  | .seek _ _ => []

def Call.Fits (tc : Codec T) : Call Name T → Prop
  | .step op => op.Fits tc
  | .seek _ _ => True

def call (tc : Codec T) (t : Topic Name) : Call Name T → Option (Topic Name)
  | .step op => (t.step tc op).map Prod.fst
  | .seek name offset => if (t.readers.lookup name).isSome then t.seek name offset else some t

def calls (tc : Codec T) (t : Topic Name) : List (Call Name T) → Option (Topic Name)
  | [] => some t
  | c :: cs => do
    let t ← t.call tc c
    t.calls tc cs

/-- The cursor stands in front of the record at `offset`; in a segment in front of the origin only its
offset is known. -/
def AimedAt (tc : Codec T) (t : Topic Name) (log : List T) (origin : Nat) (cursor : SegmentCursor)
    (offset : Nat) : Prop :=
  cursor.logicalOffset = offset ∧ ∃ s ∈ t.segments ++ t.held, s.baseOffset = cursor.segment ∧
    s.baseOffset ≤ offset ∧ offset ≤ s.endOffset ∧
    (origin ≤ s.baseOffset → cursor.filePos =
      segmentHeaderSize+(frames tc (window log (s.baseOffset-origin) (offset-origin))).length)

/-- A stocked topic with its handles. -/
structure Ready (tc : Codec T) (faults : Prop) (t : Topic Name) (log : List T) (origin : Nat) :
    Prop where
  stocked : t.Stocked tc faults log origin
  kept : ∀ seg ∈ t.held, t.shared seg.baseOffset = true
  active : ∀ name, (t.readers.lookup name).isSome =
    ((t.consumers.lookup name).map ConsumerState.readerActive).getD false
  aimed : ∀ name cursor c, t.readers.lookup name = some (some cursor) →
    t.consumers.lookup name = some c → t.AimedAt tc log origin cursor c.volatile

variable {tc : Codec T} {faults : Prop} {t t' : Topic Name} {log : List T} {origin : Nat}
  {name : Name} {offsets : AList (fun _ : Name => Nat)}
  {consumers : AList (fun _ : Name => ConsumerState)}
  {readers : AList (fun _ : Name => Option SegmentCursor)}

/-- Only the state and the handle of one consumer differ, and they agree with each other. -/
structure Touches (t : Topic Name) (name : Name) (consumers : AList (fun _ : Name => ConsumerState))
    (readers : AList (fun _ : Name => Option SegmentCursor)) : Prop where
  states : ∀ n, n ≠ name → consumers.lookup n = t.consumers.lookup n
  handles : ∀ n, n ≠ name → readers.lookup n = t.readers.lookup n
  active : (readers.lookup name).isSome =
    ((consumers.lookup name).map ConsumerState.readerActive).getD false

theorem Touches.all_active (h : t.Touches name consumers readers)
    (hactive : ∀ n, (t.readers.lookup n).isSome =
      ((t.consumers.lookup n).map ConsumerState.readerActive).getD false) (n : Name) :
    (readers.lookup n).isSome =
      ((consumers.lookup n).map ConsumerState.readerActive).getD false := by
  by_cases hn : n = name
  · rw [hn]
    exact h.active
  · rw [h.states n hn, h.handles n hn]
    exact hactive n

/-- A handle whose cursor stays in its segment gives up nothing. -/
theorem Touches.kept (ht : t.Touches name consumers readers)
    (hkept : ∀ seg ∈ t.held, t.shared seg.baseOffset = true)
    (hcur : ∀ cursor, t.readers.lookup name = some (some cursor) →
      ∃ cursor', readers.lookup name = some (some cursor') ∧ cursor'.segment = cursor.segment) :
    ∀ seg ∈ t.held, shared {t with offsets := offsets, consumers := consumers, readers := readers}
      seg.baseOffset = true := by
  intro seg hseg
  obtain ⟨n, cursor, hn, hbase⟩ := (shared_iff t _).mp (hkept seg hseg)
  refine (shared_iff _ _).mpr ?_
  by_cases hname : n = name
  · subst hname
    obtain ⟨cursor', hn', hsegment⟩ := hcur cursor hn
    exact ⟨n, cursor', hn', hsegment.trans hbase⟩
  · exact ⟨n, cursor, (ht.handles n hname).trans hn, hbase⟩

theorem touches_insert {c : ConsumerState} {current : Option SegmentCursor}
    (hc : c.readerActive = true) :
    t.Touches name (t.consumers.insert name c) (t.readers.insert name current) := by
  refine ⟨fun n hn => AList.lookup_insert_ne hn, fun n hn => AList.lookup_insert_ne hn, ?_⟩
  rw [AList.lookup_insert, AList.lookup_insert, Option.map_some, hc]
  rfl

/-- A cursor shares its segment, so `release` keeps it. -/
theorem AimedAt.release {cursor : SegmentCursor} {offset : Nat}
    (h : t.AimedAt tc log origin cursor offset)
    (hr : t.readers.lookup name = some (some cursor)) :
    t.release.AimedAt tc log origin cursor offset := by
  obtain ⟨hoff, s, hs, hbase, hrest⟩ := h
  refine ⟨hoff, s, ?_, hbase, hrest⟩
  rcases List.mem_append.mp hs with hs | hs
  · exact List.mem_append_left _ hs
  · refine List.mem_append_right _ (List.mem_filter.mpr ⟨hs, ?_⟩)
    exact (shared_iff t _).mpr ⟨name, cursor, hr, hbase.symm⟩

theorem Touches.aimed (ht : t.Touches name consumers readers)
    (haimed : ∀ n cursor c, t.readers.lookup n = some (some cursor) →
      t.consumers.lookup n = some c → t.AimedAt tc log origin cursor c.volatile)
    (hcur : ∀ cursor c, readers.lookup name = some (some cursor) →
      consumers.lookup name = some c → t.AimedAt tc log origin cursor c.volatile) :
    ∀ n cursor c, readers.lookup n = some (some cursor) → consumers.lookup n = some c →
      t.AimedAt tc log origin cursor c.volatile := by
  intro n cursor c hr hc
  by_cases hn : n = name
  · subst hn
    exact hcur cursor c hr hc
  · rw [ht.handles n hn] at hr
    rw [ht.states n hn] at hc
    exact haimed n cursor c hr hc

theorem Ready.released (h : t.Ready tc faults log origin) (ht : t.Touches name consumers readers)
    (hcur : ∀ cursor c, readers.lookup name = some (some cursor) →
      consumers.lookup name = some c → t.AimedAt tc log origin cursor c.volatile) :
    (release {t with offsets := offsets, consumers := consumers, readers := readers}).Ready tc faults
      log origin := by
  refine ⟨(h.stocked.setReaders offsets consumers readers).release, ?_, ht.all_active h.active, ?_⟩
  · intro seg hseg
    exact (List.mem_filter.mp hseg).2
  · intro n cursor c hr hc
    exact AimedAt.release (ht.aimed h.aimed hcur n cursor c hr hc) hr

theorem Ready.moved (h : t.Ready tc faults log origin) (ht : t.Touches name consumers readers)
    (hsame : ∀ cursor, t.readers.lookup name = some (some cursor) →
      ∃ cursor', readers.lookup name = some (some cursor') ∧ cursor'.segment = cursor.segment)
    (hcur : ∀ cursor c, readers.lookup name = some (some cursor) →
      consumers.lookup name = some c → t.AimedAt tc log origin cursor c.volatile) :
    {t with offsets := offsets, consumers := consumers, readers := readers}.Ready tc faults log
      origin := by
  exact ⟨h.stocked.setReaders offsets consumers readers, ht.kept h.kept hsame,
    ht.all_active h.active, ht.aimed h.aimed hcur⟩

/-- The state of a consumer with a handle. -/
theorem Ready.reader (h : t.Ready tc faults log origin) {current : Option SegmentCursor}
    (hr : t.readers.lookup name = some current) :
    ∃ c, t.consumers.lookup name = some c ∧ c.readerActive = true := by
  have hactive := h.active name
  rw [hr] at hactive
  cases hc : t.consumers.lookup name with
  | none => simp [hc] at hactive
  | some c =>
    rw [hc] at hactive
    exact ⟨c, rfl, hactive.symm⟩

/-- A handle without a cursor stands nowhere. -/
theorem aimed_none : ∀ (cursor : SegmentCursor) (c : ConsumerState),
    (readers.insert name none).lookup name = some (some cursor) →
      consumers.lookup name = some c → t.AimedAt tc log origin cursor c.volatile := by
  intro cursor c hr
  rw [AList.lookup_insert] at hr
  cases hr

theorem Ready.register (h : t.Ready tc faults log origin) (hrun : t.consumer name = some t') :
    t'.Ready tc faults log origin := by
  have hactive := h.active name
  rw [Topic.consumer] at hrun
  cases hc : t.consumers.lookup name with
  | some c =>
    rw [hc] at hrun hactive
    dsimp only at hrun
    split_ifs at hrun with hopen
    cases hrun
    refine h.moved (touches_insert (by rfl)) ?_ aimed_none
    intro cursor hcur
    simp [hcur, hopen] at hactive
  | none =>
    rw [hc] at hrun hactive
    cases hrun
    refine h.moved (touches_insert (by rfl)) ?_ aimed_none
    intro cursor hcur
    simp [hcur] at hactive

section Handle

variable {current : Option SegmentCursor}

theorem Ready.commit (h : t.Ready tc faults log origin) (hr : t.readers.lookup name = some current)
    (hrun : t.commit name = some t') : t'.Ready tc faults log origin := by
  obtain ⟨c, hc, hactive⟩ := h.reader hr
  simp only [Topic.commit, hc, Option.bind_eq_bind, Option.bind_some] at hrun
  cases hrun
  refine h.moved ⟨fun n hn => AList.lookup_insert_ne hn, fun _ _ => rfl, ?_⟩
    (fun cursor hcur => ⟨cursor, hcur, rfl⟩) ?_
  · rw [hr, AList.lookup_insert, Option.map_some]
    exact hactive.symm
  · intro cursor c' hcur hc'
    rw [AList.lookup_insert, Option.some.injEq] at hc'
    rw [← hc']
    exact h.aimed name cursor c hcur hc

theorem Ready.seek (h : t.Ready tc faults log origin) (hr : t.readers.lookup name = some current)
    (offset : Nat) (hrun : t.seek name offset = some t') : t'.Ready tc faults log origin := by
  obtain ⟨c, hc, hactive⟩ := h.reader hr
  simp only [Topic.seek, hc, Option.bind_eq_bind, Option.bind_some] at hrun
  cases hrun
  exact h.released (touches_insert hactive) aimed_none

theorem Ready.reset (h : t.Ready tc faults log origin) (hr : t.readers.lookup name = some current)
    (hrun : t.reset name = some t') : t'.Ready tc faults log origin := by
  obtain ⟨c, hc, hactive⟩ := h.reader hr
  simp only [Topic.reset, hc, Option.bind_eq_bind, Option.bind_some] at hrun
  cases hrun
  exact h.released (touches_insert hactive) aimed_none

theorem Ready.dropReader (h : t.Ready tc faults log origin)
    (hr : t.readers.lookup name = some current) (hrun : t.dropReader name = some t') :
    t'.Ready tc faults log origin := by
  obtain ⟨c, hc, -⟩ := h.reader hr
  simp only [Topic.dropReader, hc, Option.bind_eq_bind, Option.bind_some] at hrun
  cases hrun
  refine h.released ⟨fun n hn => AList.lookup_insert_ne hn, fun n hn => AList.lookup_erase_ne hn, ?_⟩ ?_
  · simp only [setConsumer, AList.lookup_insert, AList.lookup_erase]
    rfl
  · intro cursor c' hcur
    rw [setConsumer, AList.lookup_erase] at hcur
    cases hcur

theorem Ready.delete (h : t.Ready tc faults log origin) (name : Name) :
    (t.delete name).Ready tc faults log origin := by
  refine h.released ⟨fun n hn => AList.lookup_erase_ne hn, fun n hn => AList.lookup_erase_ne hn, ?_⟩ ?_
  · rw [AList.lookup_erase, AList.lookup_erase]
    rfl
  · intro cursor c' hcur
    rw [AList.lookup_erase] at hcur
    cases hcur

end Handle

section Next

/-- What `next` answers at an offset, when the log holds nothing but values. -/
def answerAt (log : List T) (i : Nat) : Next T :=
  match log[i]? with
  | some v => .item v
  | none => .none

/-- A consumer after an answer of `next`: behind the record that it got. -/
def advance (c : ConsumerState) : Next T → ConsumerState
  | .item _ => {c with volatile := c.volatile+1}
  | _ => c

/-- What a call of `next` leaves. Behind the origin its answer is the record at the offset. -/
structure Advanced (tc : Codec T) (faults : Prop) (log : List T) (origin : Nat) (name : Name)
    (c : ConsumerState) (t t' : Topic Name) (r : Next T) : Prop where
  ready : t'.Ready tc faults log origin
  answer : origin ≤ c.volatile → r = answerAt log (c.volatile-origin)
  consumers : ∀ n, t'.consumers.lookup n =
    if n = name then some (advance c r) else t.consumers.lookup n
  offsets : t'.offsets = t.offsets
  earliest : t'.stats.earliestOffset = t.stats.earliestOffset

variable {c : ConsumerState} {cursor : SegmentCursor} {current : Option SegmentCursor} {s : Segment}

omit [DecidableEq Name] in
/-- The read in front of a record behind the origin. -/
theorem Stocked.readRecord_known (h : t.Stocked tc faults log origin)
    (hs : s ∈ t.segments ++ t.held) (horigin : origin ≤ s.baseOffset) {offset : Nat}
    (hb : s.baseOffset ≤ offset) (hlt : offset < s.endOffset) :
    ∃ file v, t.dir.lookup s.baseOffset = some file ∧ log[offset-origin]? = some v ∧
      readRecord tc file (segmentHeaderSize+
          (frames tc (window log (s.baseOffset-origin) (offset-origin))).length) =
        (segmentHeaderSize+
          (frames tc (window log (s.baseOffset-origin) (offset+1-origin))).length, some v) := by
  have hsh := h.shelved s hs
  have hend := hsh.end_le
  obtain ⟨rest, -, hfile⟩ := hsh.filled horigin
  obtain ⟨v, hv, hwin⟩ := window_cons log (offset-origin) (s.endOffset-origin) (by omega) (by omega)
  have hsplit : s.records log origin = window log (s.baseOffset-origin) (offset-origin) ++
      v :: window log (offset-origin+1) (s.endOffset-origin) := by
    rw [Segment.records, window_split log _ (offset-origin) _ (by omega) (by omega), hwin]
  have hnext : window log (s.baseOffset-origin) (offset+1-origin) =
      window log (s.baseOffset-origin) (offset-origin) ++ [v] := by
    have hshift : offset+1-origin = offset-origin+1 := by omega
    obtain ⟨v', hv', hwin'⟩ := window_cons log (offset-origin) (offset-origin+1) (by omega) (by omega)
    rw [hv, Option.some.injEq] at hv'
    rw [hshift, window_split log _ (offset-origin) _ (by omega) (by omega), hwin', window_self, hv']
  refine ⟨_, v, hfile, hv, ?_⟩
  have hlen := length_segmentFile tc (window log (s.baseOffset-origin) (offset-origin))
  have hparts : segmentFile tc (s.records log origin) ++ rest =
      segmentFile tc (window log (s.baseOffset-origin) (offset-origin)) ++ (frame tc v ++
        (frames tc (window log (offset-origin+1) (s.endOffset-origin)) ++ rest)) := by
    rw [hsplit]
    simp [segmentFile, List.append_assoc]
  rw [hparts, readRecord_frame tc _ _ v _ hlen.symm (h.fits v (List.mem_of_getElem? hv)), hnext]
  simp [Nat.add_assoc]

/-- Reading at a cursor that has a record of its segment in front of it. -/
theorem Ready.readCursor (h : t.Ready tc faults log origin)
    (hr : t.readers.lookup name = some (some cursor)) (hc : t.consumers.lookup name = some c)
    (hs : s ∈ t.segments ++ t.held) (hbase : s.baseOffset = cursor.segment)
    (hlt : c.volatile < s.endOffset) :
    ∃ t' r, t.readCursor tc name c cursor = some (t', r) ∧
      Advanced tc faults log origin name c t t' r := by
  obtain ⟨d, hd, hactive⟩ := h.reader hr
  have heq : d = c := Option.some.inj (hd.symm.trans hc)
  subst heq
  obtain ⟨hlog, s', hs', hbase', hlo, -, hpos⟩ := h.aimed name cursor d hr hc
  have hsame : s' = s := h.stocked.base_inj hs' hs (hbase'.trans hbase.symm)
  subst hsame
  have hapart := (h.stocked.shelved s' hs).apart
  obtain ⟨file, hfile, -⟩ := (h.stocked.shelved s' hs).magic
  rw [hbase] at hfile
  -- the cursor moves within its segment
  have hstay : ∀ (moved : SegmentCursor), moved.segment = cursor.segment → ∀ cur,
      t.readers.lookup name = some (some cur) →
        ∃ cur', (t.readers.insert name (some moved)).lookup name = some (some cur') ∧
          cur'.segment = cur.segment := by
    intro moved hmoved cur hcur
    rw [hr, Option.some.injEq, Option.some.injEq] at hcur
    exact ⟨moved, AList.lookup_insert _, hcur ▸ hmoved⟩
  have hread : origin ≤ s'.baseOffset → ∃ v, log[d.volatile-origin]? = some v ∧
      readRecord tc file cursor.filePos = (segmentHeaderSize+(frames tc
        (window log (s'.baseOffset-origin) (d.volatile+1-origin))).length, some v) := by
    intro horigin
    obtain ⟨file', v, hfile', hv, hread⟩ := h.stocked.readRecord_known hs horigin hlo hlt
    rw [hbase, hfile, Option.some.injEq] at hfile'
    rw [← hfile', ← hpos horigin] at hread
    exact ⟨v, hv, hread⟩
  rcases hrecord : readRecord tc file cursor.filePos with ⟨pos, _ | value⟩
  · have hfront : ¬ origin ≤ s'.baseOffset := by
      intro horigin
      obtain ⟨v, -, hv⟩ := hread horigin
      rw [hrecord] at hv
      cases hv
    refine ⟨t.setCursor name (some {cursor with filePos := pos}), .error, ?_, ?_, ?_,
      lookup_same _ hd, rfl, rfl⟩
    · simp only [Topic.readCursor, hfile, hrecord, Option.bind_eq_bind, Option.bind_some]
    · refine h.moved ⟨fun _ _ => rfl, fun n hn => AList.lookup_insert_ne hn, ?_⟩ (hstay _ rfl) ?_
      · rw [AList.lookup_insert, hd, Option.map_some]
        exact hactive.symm
      · intro cur c' hcur hc'
        rw [AList.lookup_insert, Option.some.injEq, Option.some.injEq] at hcur
        have hcc : d = c' := Option.some.inj (hd.symm.trans hc')
        subst hcur
        subst hcc
        exact ⟨hlog, s', hs, hbase, hlo, hlt.le, fun horigin => absurd horigin hfront⟩
    · intro hvol
      omega
  · refine ⟨(t.setConsumer name {d with volatile := cursor.logicalOffset+1}).setCursor name
      (some {cursor with filePos := pos, logicalOffset := cursor.logicalOffset+1}), .item value, ?_,
      ?_, ?_, ?_, rfl, rfl⟩
    · simp only [Topic.readCursor, hfile, hrecord, Option.bind_eq_bind, Option.bind_some]
    · refine h.moved (touches_insert hactive) (hstay _ rfl) ?_
      intro cur c' hcur hc'
      rw [AList.lookup_insert, Option.some.injEq, Option.some.injEq] at hcur
      rw [setConsumer, AList.lookup_insert, Option.some.injEq] at hc'
      subst hcur
      subst hc'
      dsimp only
      rw [hlog]
      refine ⟨rfl, s', hs, hbase, hlo.trans (Nat.le_succ _), hlt, ?_⟩
      intro horigin
      obtain ⟨v, -, hv⟩ := hread horigin
      rw [hrecord, Prod.mk.injEq] at hv
      exact hv.1
    · intro hvol
      obtain ⟨v, hv, hread⟩ := hread (by omega)
      rw [hrecord, Prod.mk.injEq] at hread
      rw [answerAt, hv, Option.some.inj hread.2]
    · intro n
      rw [hlog]
      exact lookup_insert_ite _ _ _ _

omit [DecidableEq Name] in
/-- `position` finds the segment of a retained record. Behind the origin it also finds the record. -/
theorem Stocked.position (h : t.Stocked tc faults log origin) {offset : Nat}
    (hfirst : t.stats.earliestOffset ≤ offset) (hlt : offset < t.stats.nextOffset) :
    ∃ s ∈ t.segments, offset < s.endOffset ∧
      ((t.position offset = some .ioError ∧ offset < origin) ∨
        ∃ cursor, t.position offset = some (.found cursor) ∧ s.baseOffset = cursor.segment ∧
          t.AimedAt tc log origin cursor offset) := by
  have hnot : ¬ offset ≥ t.stats.nextOffset := not_le.mpr hlt
  obtain ⟨s, hs, hfind, hlo, hhi⟩ := h.cover.find hfirst (by rw [← h.nextOffset]; exact hlt)
  have hmem := List.mem_append_left t.held hs
  have hsh := h.shelved s hmem
  have hend := hsh.end_le
  obtain ⟨file, hfile, -⟩ := hsh.magic
  have hfound : ∀ byteOffset,
      skipRecords file (offset-s.baseOffset) segmentHeaderSize = some byteOffset →
        t.position offset = some (.found ⟨byteOffset, s.baseOffset, offset⟩) := by
    intro byteOffset hskip
    rw [Topic.position, if_neg hnot, hfind]
    simp only [Option.bind_eq_bind, Option.bind_some, hfile, hskip]
  refine ⟨s, hs, hhi, ?_⟩
  by_cases horigin : origin ≤ s.baseOffset
  · obtain ⟨rest, -, hfilled⟩ := hsh.filled horigin
    rw [hfile, Option.some.injEq] at hfilled
    subst hfilled
    have hlen : (window log (s.baseOffset-origin) (offset-origin)).length = offset-s.baseOffset := by
      rw [length_window _ _ _ (by omega)]
      omega
    have hfits : ∀ v ∈ window log (s.baseOffset-origin) (offset-origin), (tc.enc v).length < 2^32 :=
      fun v hv => h.fits v (List.mem_of_mem_drop (List.mem_of_mem_take hv))
    have hskip := skipRecords_frames tc _ hfits (leBytes 4 topicMagic)
      (frames tc (window log (offset-origin) (s.endOffset-origin)) ++ rest) segmentHeaderSize
      (by simp [segmentHeaderSize])
    rw [← List.append_assoc (frames tc _), ← frames_append,
      ← window_split log _ _ _ (by omega) (by omega), ← List.append_assoc, hlen] at hskip
    exact Or.inr ⟨_, hfound _ hskip, rfl, rfl, s, hmem, rfl, hlo, hhi.le, fun _ => rfl⟩
  · have hapart := hsh.apart
    cases hskip : skipRecords file (offset-s.baseOffset) segmentHeaderSize with
    | none =>
      refine Or.inl ⟨?_, by omega⟩
      rw [Topic.position, if_neg hnot, hfind]
      simp only [Option.bind_eq_bind, Option.bind_some, hfile, hskip]
    | some byteOffset =>
      exact Or.inr ⟨_, hfound _ hskip, rfl, rfl, s, hmem, rfl, hlo, hhi.le, fun hge => absurd hge horigin⟩

omit [DecidableEq Name] in
/-- In front of the retained records the `unwrap` of `position` panics. -/
theorem position_none {first offset stop : Nat} (hcover : Cover first t.segments stop)
    (hnext : first ≤ t.stats.nextOffset) (hlt : offset < first) : t.position offset = none := by
  have hnot : ¬ offset ≥ t.stats.nextOffset := by omega
  rw [position, if_neg hnot, hcover.find_none hlt]
  rfl

omit [DecidableEq Name] in
theorem Stocked.position_isSome (h : t.Stocked tc faults log origin) (offset : Nat) :
    (t.position offset).isSome ↔ t.stats.earliestOffset ≤ offset := by
  constructor
  · intro hsome
    by_contra hlt
    rw [position_none h.cover h.first_le (not_le.mp hlt)] at hsome
    cases hsome
  · intro hfirst
    by_cases hlt : offset < t.stats.nextOffset
    · obtain ⟨s, -, -, ⟨hrun, -⟩ | ⟨cursor, hrun, -⟩⟩ := h.position hfirst hlt
      · rw [hrun]
        rfl
      · rw [hrun]
        rfl
    · rw [Topic.position, if_pos (not_lt.mp hlt)]
      rfl

/-- The end of `next` when the handle has no usable cursor. -/
theorem Ready.positionAndRead (h : t.Ready tc faults log origin)
    (hr : t.readers.lookup name = some current) (hc : t.consumers.lookup name = some c) :
    (c.volatile < t.stats.earliestOffset ∧ t.positionAndRead tc name c = none) ∨
      (t.stats.earliestOffset ≤ c.volatile ∧ ∃ t' r, t.positionAndRead tc name c = some (t', r) ∧
        Advanced tc faults log origin name c t t' r) := by
  obtain ⟨d, hd, hactive⟩ := h.reader hr
  have heq : d = c := Option.some.inj (hd.symm.trans hc)
  subst heq
  have hclear : (t.setCursor name none).release.Ready tc faults log origin := by
    refine h.released ⟨fun _ _ => rfl, fun n hn => AList.lookup_insert_ne hn, ?_⟩ aimed_none
    rw [AList.lookup_insert, hd, Option.map_some]
    exact hactive.symm
  have hnone : (t.setCursor name none).release.readers.lookup name = some none :=
    AList.lookup_insert _
  have hd' : (t.setCursor name none).release.consumers.lookup name = some d := hd
  have hstats : (t.setCursor name none).release.stats = t.stats := rfl
  have hconsumers : (t.setCursor name none).release.consumers = t.consumers := rfl
  have hoffsets : (t.setCursor name none).release.offsets = t.offsets := rfl
  rw [Topic.positionAndRead, ← hstats]
  generalize (t.setCursor name none).release = u at hclear hnone hd' hstats hconsumers hoffsets
  by_cases hfirst : u.stats.earliestOffset ≤ d.volatile
  swap
  · refine Or.inl ⟨not_le.mp hfirst, ?_⟩
    rw [position_none hclear.stocked.cover hclear.stocked.first_le (not_le.mp hfirst)]
    rfl
  refine Or.inr ⟨hfirst, ?_⟩
  by_cases hlt : d.volatile < u.stats.nextOffset
  · obtain ⟨s, hs, hhi, ⟨hrun, hfront⟩ | ⟨cursor, hrun, hbase, haimed⟩⟩ :=
      hclear.stocked.position hfirst hlt
    · refine ⟨u, .error, ?_, hclear, fun horigin => by omega, hconsumers ▸ lookup_same _ hd',
        hoffsets, congrArg _ hstats⟩
      rw [hrun]
      rfl
    · have hmoved : (u.setCursor name (some cursor)).Ready tc faults log origin := by
        refine hclear.moved ⟨fun _ _ => rfl, fun n hn => AList.lookup_insert_ne hn, ?_⟩ ?_ ?_
        · rw [AList.lookup_insert, hd', Option.map_some]
          exact hactive.symm
        · intro cur hcur
          rw [hnone] at hcur
          cases hcur
        · intro cur c' hcur hc'
          rw [AList.lookup_insert, Option.some.injEq, Option.some.injEq] at hcur
          rw [← hcur, ← Option.some.inj (hd'.symm.trans hc')]
          exact haimed
      obtain ⟨t', r, hread, hadv⟩ :=
        hmoved.readCursor (AList.lookup_insert _) hd' (List.mem_append_left _ hs) hbase hhi
      rw [hrun]
      exact ⟨t', r, hread, hadv.ready, hadv.answer, hconsumers ▸ hadv.consumers,
        hadv.offsets.trans hoffsets, hadv.earliest.trans (congrArg _ hstats)⟩
  · refine ⟨u, .none, ?_, hclear, ?_, hconsumers ▸ lookup_same _ hd', hoffsets, congrArg _ hstats⟩
    · rw [Topic.position, if_pos (not_lt.mp hlt)]
      rfl
    · intro horigin
      have hnext := hclear.stocked.nextOffset
      rw [answerAt, List.getElem?_eq_none (by omega)]

/-- The consumer stands at a retained record or behind it, or its cursor still shares a segment with a
record for it. -/
def Served (t : Topic Name) (name : Name) (offset : Nat) : Prop :=
  t.stats.earliestOffset ≤ offset ∨ ∃ cursor, t.readers.lookup name = some (some cursor) ∧
    ∃ s ∈ t.segments ++ t.held, s.baseOffset = cursor.segment ∧ offset < s.endOffset

/-- `next` panics where nothing is left to serve the consumer, and otherwise reads at its offset. -/
theorem Ready.next (h : t.Ready tc faults log origin) (hr : t.readers.lookup name = some current)
    (hc : t.consumers.lookup name = some c) :
    (¬ t.Served name c.volatile ∧ t.next tc name = none) ∨
      (t.Served name c.volatile ∧ ∃ t' r, t.next tc name = some (t', r) ∧
        Advanced tc faults log origin name c t t' r) := by
  have hmove := h.positionAndRead hr hc
  cases current with
  | none =>
    have hserved : t.Served name c.volatile ↔ t.stats.earliestOffset ≤ c.volatile := by
      refine ⟨?_, Or.inl⟩
      rintro (hle | ⟨cursor, hcur, -⟩)
      · exact hle
      · rw [hr] at hcur
        cases hcur
    have hrun : t.next tc name = t.positionAndRead tc name c := by
      simp only [Topic.next, hr, hc, Option.bind_eq_bind, Option.bind_some]
    rw [hserved, hrun, not_le]
    exact hmove
  | some cursor =>
    obtain ⟨hlog, s, hs, hbase, hlo, hhi, hpos⟩ := h.aimed name cursor c hr hc
    have hfind := h.stocked.find_base hs
    rw [hbase] at hfind
    have hrun : t.next tc name = if c.volatile < s.endOffset then t.readCursor tc name c cursor
        else if c.volatile ≥ t.stats.nextOffset then some (t, .none)
        else t.positionAndRead tc name c := by
      simp only [Topic.next, hr, hc, Option.bind_eq_bind, Option.bind_some, hfind, hlog]
    by_cases hlt : c.volatile < s.endOffset
    · rw [if_pos hlt] at hrun
      refine Or.inr ⟨Or.inr ⟨cursor, hr, s, hs, hbase, hlt⟩, ?_⟩
      rw [hrun]
      exact h.readCursor hr hc hs hbase hlt
    rw [if_neg hlt] at hrun
    by_cases hge : c.volatile ≥ t.stats.nextOffset
    · rw [if_pos hge] at hrun
      refine Or.inr ⟨Or.inl (h.stocked.first_le.trans hge), t, .none, hrun, h, ?_, lookup_same _ hc,
        rfl, rfl⟩
      intro horigin
      have hnext := h.stocked.nextOffset
      rw [answerAt, List.getElem?_eq_none (by omega)]
    rw [if_neg hge] at hrun
    have hserved : t.Served name c.volatile ↔ t.stats.earliestOffset ≤ c.volatile := by
      refine ⟨?_, Or.inl⟩
      rintro (hle | ⟨cur, hcur, x, hx, hxb, hxe⟩)
      · exact hle
      · rw [hr, Option.some.injEq, Option.some.injEq] at hcur
        subst hcur
        rw [h.stocked.base_inj hx hs (hxb.trans hbase.symm)] at hxe
        exact absurd hxe hlt
    rw [hserved, hrun, not_le]
    exact hmove

end Next

section Write

/-- An opened topic has no handles. -/
theorem Opened.ready {dir : AList (fun _ : Nat => Bytes)} {base : Nat} {recs : List T}
    (h : Opened tc dir offsets base recs t) (hst : t.Stocked tc faults log origin) :
    t.Ready tc faults log origin := by
  refine ⟨hst, by simp [h.held], ?_, ?_⟩
  · intro name
    rw [h.lookup_consumers, h.readers, Option.map_map]
    cases offsets.lookup name with
    | none => rfl
    | some n => rfl
  · intro name cursor c hr
    rw [h.readers] at hr
    cases hr

/-- What writing and compaction leave of the consumers: no record goes that one of them has not
committed. -/
structure Spares (t t' : Topic Name) : Prop where
  offsets : t'.offsets = t.offsets
  consumers : t'.consumers = t.consumers
  earliest : ∀ name c, t.consumers.lookup name = some c → t.stats.earliestOffset ≤ c.committed →
    t'.stats.earliestOffset ≤ c.committed

theorem Spares.trans {t'' : Topic Name} (h : t.Spares t') (h' : t'.Spares t'') : t.Spares t'' :=
  ⟨h'.offsets.trans h.offsets, h'.consumers.trans h.consumers, fun name c hc hle =>
    h'.earliest name c (h.consumers ▸ hc) (h.earliest name c hc hle)⟩

omit [DecidableEq Name] in
/-- A cursor in a removed segment keeps it. -/
theorem AimedAt.compacted {cursor : SegmentCursor} {offset k first' : Nat}
    (h : t.AimedAt tc log origin cursor offset) :
    (t.compacted k first').AimedAt tc log origin cursor offset := by
  obtain ⟨hoff, s, hs, hbase, hrest⟩ := h
  rw [← List.take_append_drop k t.segments, List.append_assoc] at hs
  rcases List.mem_append.mp hs with hs | hs
  · refine ⟨hoff, s.markDeleted, ?_, hbase, hrest⟩
    exact List.mem_append_right _ (List.mem_append_right _ (List.mem_map_of_mem hs))
  · refine ⟨hoff, s, ?_, hbase, hrest⟩
    rcases List.mem_append.mp hs with hs | hs
    · exact List.mem_append_left _ hs
    · exact List.mem_append_right _ (List.mem_append_left _ hs)

/-- `compact` leaves the active segment and its file alone. -/
theorem Ready.compact (h : t.Ready tc faults log origin) :
    ∃ t', t.compact = some t' ∧ t'.Ready tc faults log origin ∧ t.Spares t' ∧
      t'.segments.getLast? = t.segments.getLast? ∧
      ∀ a, t.segments.getLast? = some a → t'.dir.lookup a.baseOffset = t.dir.lookup a.baseOffset := by
  rcases compact_cases h.stocked.nonempty h.stocked.cover with hrun | ⟨k, first', hr, hrun⟩
  · exact ⟨t, hrun, h, ⟨rfl, rfl, fun _ _ _ hle => hle⟩, rfl, fun _ _ => rfl⟩
  · have hst := h.stocked.compacted hr
    have hlast := Stocked.getLast?_compacted hr.lt first'
    refine ⟨_, hrun, ⟨hst.release, ?_, h.active, ?_⟩, ⟨rfl, rfl, ?_⟩, hlast, ?_⟩
    · intro seg hseg
      exact (List.mem_filter.mp hseg).2
    · intro name cursor c hr hc
      exact AimedAt.release (h.aimed name cursor c hr hc).compacted hr
    · intro name c hc
      exact hr.spares _ (AList.mem_lookup_iff.mp hc)
    · intro a ha
      rw [← hlast] at ha
      exact lookup_release_kept hst.marked hst.distinct
        (List.mem_append_left _ (List.mem_of_getLast? ha))

theorem Ready.rotated (h : t.Ready tc faults log origin) {init : List Segment} {a : Segment}
    (hsegs : t.segments = init ++ [a]) (ha : a.baseOffset < a.endOffset) :
    t.rotated.Ready tc faults log origin := by
  refine ⟨h.stocked.rotated hsegs ha, h.kept, h.active, ?_⟩
  intro name cursor c hr hc
  obtain ⟨hoff, s, hs, hrest⟩ := h.aimed name cursor c hr hc
  refine ⟨hoff, s, ?_, hrest⟩
  rcases List.mem_append.mp hs with hs | hs
  · exact List.mem_append_left _ (List.mem_append_left _ hs)
  · exact List.mem_append_right _ hs

/-- The active file ends where its segment says. -/
def Clean (t : Topic Name) : Prop :=
  ∀ a, t.segments.getLast? = some a → (t.dir.lookup a.baseOffset).map List.length = some a.byteLen

omit [DecidableEq Name] in
theorem Stocked.lookup_active (h : t.Stocked tc faults log origin) (hclean : t.Clean)
    {a : Segment} (ha : t.segments.getLast? = some a) :
    t.dir.lookup a.baseOffset = some (segmentFile tc (a.records log origin)) := by
  obtain ⟨rest, -, hfile⟩ := h.filled_active ha
  have hlen := hclean a ha
  rw [hfile, Option.map_some, Option.some.injEq, List.length_append, (h.active a ha).2] at hlen
  have hnil : rest = [] := List.eq_nil_of_length_eq_zero (by omega)
  rw [hfile, hnil, List.append_nil]

theorem Ready.writeRecord (h : t.Ready tc faults log origin) (hclean : t.Clean) {v : T}
    (hv : (tc.enc v).length < 2^32) :
    ∃ t', t.writeRecord tc v = some (t', t.stats.nextOffset) ∧
      t'.Ready tc faults (log ++ [v]) origin ∧ t.Spares t' := by
  obtain ⟨init, a, hsegs, ha, hend⟩ := h.stocked.exists_active
  have hfile := h.stocked.lookup_active hclean ha
  refine ⟨_, writeRecord_eq hsegs hfile v, ⟨h.stocked.written hsegs hv, h.kept, h.active, ?_⟩,
    rfl, rfl, fun _ _ _ hle => hle⟩
  intro name cursor c hr hc
  obtain ⟨hoff, s, hs, hbase, hlo, hhi, hpos⟩ := h.aimed name cursor c hr hc
  have hle := (h.stocked.shelved s hs).end_le
  have hwin : window (log ++ [v]) (s.baseOffset-origin) (c.volatile-origin) =
      window log (s.baseOffset-origin) (c.volatile-origin) :=
    window_append log [v] _ _ (by omega)
  rcases List.mem_append.mp hs with hs | hs
  · rw [hsegs] at hs
    rcases List.mem_append.mp hs with hs | hs
    · refine ⟨hoff, s, ?_, hbase, hlo, hhi, by rwa [hwin]⟩
      exact List.mem_append_left _ (List.mem_append_left _ hs)
    · rw [List.mem_singleton] at hs
      subst hs
      refine ⟨hoff, _, List.mem_append_left _ (List.mem_append_right _ (List.mem_singleton_self _)),
        hbase, hlo, ?_, by rwa [hwin]⟩
      have hnext := h.stocked.nextOffset
      dsimp only
      omega
  · exact ⟨hoff, s, List.mem_append_right _ hs, hbase, hlo, hhi, by rwa [hwin]⟩

/-- An append goes to a new segment, or to a file that ends where its segment says. -/
def Writable (tc : Codec T) (t : Topic Name) (v : T) : Prop :=
  ∀ a ∈ t.segments.getLast?,
    (a.recordCount ≠ 0 ∧ a.byteLen+(4+(tc.enc v).length) > t.maxSegmentBytes) ∨
      (t.dir.lookup a.baseOffset).map List.length = some a.byteLen

instance decidableWritable (tc : Codec T) (t : Topic Name) (v : T) : Decidable (t.Writable tc v) :=
  inferInstanceAs (Decidable (∀ a ∈ t.segments.getLast?,
    (a.recordCount ≠ 0 ∧ a.byteLen+(4+(tc.enc v).length) > t.maxSegmentBytes) ∨
      (t.dir.lookup a.baseOffset).map List.length = some a.byteLen))

omit [DecidableEq Name] in
theorem whole_iff (t : Topic Name) :
    (∀ e ∈ t.dir.entries, segmentHeaderSize ≤ e.2.length) ↔ t.Whole := by
  constructor
  · intro h b file hb
    exact h ⟨b, file⟩ (AList.mem_lookup_iff.mp hb)
  · intro h e he
    exact h e.1 e.2 (AList.mem_lookup_iff.mpr he)

instance decidableWhole (t : Topic Name) : Decidable t.Whole := decidable_of_iff _ t.whole_iff

omit [DecidableEq Name] in
/-- Only a failed creation leaves a file where the next segment would go. -/
theorem Stocked.lookup_nextOffset (h : t.Stocked tc faults log origin) (hfaults : ¬ faults)
    {init : List Segment} {a : Segment} (hsegs : t.segments = init ++ [a])
    (ha : a.baseOffset < a.endOffset) : t.dir.lookup t.stats.nextOffset = none := by
  cases hlook : t.dir.lookup t.stats.nextOffset with
  | none => rfl
  | some file =>
    rcases h.stray _ file hlook with hmem | ⟨hf, -⟩
    · obtain ⟨x, hx, hxb⟩ := List.mem_map.mp hmem
      exact absurd hxb (h.base_lt hsegs ha x hx).ne
    · exact absurd hf hfaults

/-- After rotation the active file holds the magic alone. -/
theorem Ready.rotateSegment (h : t.Ready tc faults log origin) {init : List Segment} {a : Segment}
    (hsegs : t.segments = init ++ [a]) (ha : a.baseOffset < a.endOffset)
    (hnew : t.dir.lookup t.stats.nextOffset = none) :
    ∃ t', t.rotateSegment = some t' ∧ t'.Ready tc faults log origin ∧ t.Spares t' ∧ t'.Clean := by
  obtain ⟨t', hrun, h', hspares, hlast, hfile⟩ := (h.rotated hsegs ha).compact
  have hfresh : t.rotated.segments.getLast? = some (Segment.fresh t.stats.nextOffset) :=
    List.getLast?_concat
  refine ⟨t', (rotateSegment_eq hnew).trans hrun, h', ⟨hspares.offsets, hspares.consumers,
    hspares.earliest⟩, ?_⟩
  intro x hx
  rw [hlast, hfresh, Option.some.injEq] at hx
  subst hx
  rw [hfile _ hfresh]
  show ((t.dir.insert _ _).lookup t.stats.nextOffset).map List.length = _
  rw [AList.lookup_insert]
  rfl

omit [DecidableEq Name] in
/-- The active segment when an append rotates. -/
theorem Segment.base_lt_end {a : Segment} (h : a.recordCount ≠ 0) : a.baseOffset < a.endOffset := by
  unfold Segment.recordCount at h
  omega

omit [DecidableEq Name] in
theorem Writable.clean {v : T} (hw : t.Writable tc v) {a : Segment}
    (ha : t.segments.getLast? = some a)
    (hstay : ¬ (a.recordCount ≠ 0 ∧ a.byteLen+(4+(tc.enc v).length) > t.maxSegmentBytes)) :
    t.Clean := by
  intro b hb
  rw [ha, Option.some.injEq] at hb
  subst hb
  exact (hw a ha).resolve_left hstay

/-- An append is accepted when it stays in a clean file, or nothing is in the way of a new one. -/
theorem Ready.append_accepted (h : t.Ready tc faults log origin) {v : T}
    (hv : (tc.enc v).length < 2^32) (hw : t.Writable tc v)
    (hnew : ∀ a ∈ t.segments.getLast?,
      a.recordCount ≠ 0 ∧ a.byteLen+(4+(tc.enc v).length) > t.maxSegmentBytes →
        t.dir.lookup t.stats.nextOffset = none) :
    ∃ t', t.append tc v = some (t', origin+log.length) ∧ t'.Ready tc faults (log ++ [v]) origin ∧
      t.Spares t' := by
  obtain ⟨init, a, hsegs, ha, -⟩ := h.stocked.exists_active
  simp only [Topic.append, ha, Option.bind_eq_bind, Option.bind_some]
  split_ifs with hrotate
  · obtain ⟨t₁, hrotated, h₁, hspares₁, hclean⟩ :=
      h.rotateSegment hsegs (Segment.base_lt_end hrotate.1) (hnew a ha hrotate)
    obtain ⟨t₂, hwrite, h₂, hspares₂⟩ := h₁.writeRecord hclean hv
    rw [hrotated, Option.bind_some, hwrite, h₁.stocked.nextOffset]
    exact ⟨t₂, rfl, h₂, hspares₁.trans hspares₂⟩
  · obtain ⟨t₂, hwrite, h₂, hspares⟩ := h.writeRecord (hw.clean ha hrotate) hv
    rw [hwrite, h.stocked.nextOffset]
    exact ⟨t₂, rfl, h₂, hspares⟩

theorem Ready.append (h : t.Ready tc faults log origin) {v : T} (hv : (tc.enc v).length < 2^32)
    (hw : t.Writable tc v) {offset : Nat} (hrun : t.append tc v = some (t', offset)) :
    t'.Ready tc faults (log ++ [v]) origin := by
  obtain ⟨t₁, hrun₁, h₁, -⟩ := h.append_accepted hv hw (by
    intro a ha hrotate
    cases hlook : t.dir.lookup t.stats.nextOffset with
    | none => rfl
    | some file =>
      have ha : t.segments.getLast? = some a := ha
      simp only [Topic.append, ha, Option.bind_eq_bind, Option.bind_some, if_pos hrotate,
        Topic.rotateSegment, createSegment, hlook] at hrun
      cases hrun)
  rw [hrun₁] at hrun
  cases hrun
  exact h₁

theorem Ready.reopen (h : t.Ready tc faults log origin) (hempty : t.readers.entries = [])
    (hwhole : t.Whole) :
    ∃ t' base recs, t.reopen = some t' ∧ Opened tc t.dir t.offsets base recs t' ∧
      t'.Ready tc faults log origin ∧ t'.stats.earliestOffset ≤ t.stats.earliestOffset := by
  obtain ⟨t', base, recs, hrun, hopened, hst, hfirst⟩ :=
    h.stocked.reopen (held_eq_nil h.kept hempty) hwhole
  exact ⟨t', base, recs, hrun, hopened, hopened.ready hst, hfirst⟩

end Write

section Calls

omit [DecidableEq Name] in
/-- Without failed writes every append goes well and every segment file is whole. -/
theorem Stocked.writable (h : t.Stocked tc faults log origin) (hfaults : ¬ faults) (v : T) :
    t.Writable tc v := by
  intro a ha
  obtain ⟨rest, hrest | ⟨hf, -⟩, hfile⟩ := h.filled_active ha
  · refine Or.inr ?_
    rw [hfile, hrest, List.append_nil, Option.map_some, (h.active a ha).2]
  · exact absurd hf hfaults

omit [DecidableEq Name] in
theorem Stocked.whole (h : t.Stocked tc faults log origin) (hfaults : ¬ faults) : t.Whole := by
  intro b file hb
  rcases h.stray b file hb with hmem | ⟨hf, -⟩
  · obtain ⟨x, hx, rfl⟩ := List.mem_map.mp hmem
    obtain ⟨file', hfile', hmagic⟩ := (h.shelved x hx).magic
    rw [hb, Option.some.injEq] at hfile'
    subst hfile'
    obtain ⟨bytes, hbytes, -⟩ := Option.map_eq_some_iff.mp hmagic
    rw [slice?] at hbytes
    split_ifs at hbytes with hlen
    exact hlen
  · exact absurd hf hfaults

/-- Without failed writes an append is always accepted. -/
theorem Ready.append_unhindered (h : t.Ready tc faults log origin) (hfaults : ¬ faults) {v : T}
    (hv : (tc.enc v).length < 2^32) :
    ∃ t', t.append tc v = some (t', origin+log.length) ∧ t'.Ready tc faults (log ++ [v]) origin ∧
      t.Spares t' := by
  refine h.append_accepted hv (h.stocked.writable hfaults v) fun a ha hrotate => ?_
  obtain ⟨init, hsegs⟩ := List.getLast?_eq_some_iff.mp ha
  exact h.stocked.lookup_nextOffset hfaults hsegs (Segment.base_lt_end hrotate.1)

/-- What a call needs of the files: an append a clean end, a reopening whole segments. -/
def Op.Sane (tc : Codec T) (t : Topic Name) : Op Name T → Prop
  | .append v => t.Writable tc v
  | .reopen => t.Whole
  | _ => True

instance Op.decidableSane (tc : Codec T) (t : Topic Name) (op : Op Name T) :
    Decidable (op.Sane tc t) := by
  cases op <;> unfold Op.Sane <;> infer_instance

theorem Ready.step (h : t.Ready tc faults log origin) {op : Op Name T} (hfit : op.Fits tc)
    (hsane : op.Sane tc t) {ret : Ret T} (hstep : t.step tc op = some (t', ret)) :
    t'.Ready tc faults (log ++ op.appended) origin := by
  -- the calls on a handle, if there is one
  have hhandle : ∀ {name : Name} {f : Option (Topic Name × Ret T)},
      (∀ current, t.readers.lookup name = some current → ∀ r, f = some r →
        r.1.Ready tc faults log origin) →
      (if (t.readers.lookup name).isSome then f else some (t, .refused)) = some (t', ret) →
      t'.Ready tc faults (log ++ []) origin := by
    intro name f hf hrun
    rw [List.append_nil]
    split_ifs at hrun with hr
    · obtain ⟨current, hcur⟩ := Option.isSome_iff_exists.mp hr
      exact hf current hcur _ hrun
    · cases hrun
      exact h
  cases op with
  | append value =>
    obtain ⟨⟨t₁, offset⟩, hrun, hret⟩ := Option.map_eq_some_iff.mp hstep
    cases hret
    exact h.append hfit hsane hrun
  | compact =>
    obtain ⟨t₁, hrun, h₁, -⟩ := h.compact
    rw [Topic.step, hrun] at hstep
    cases hstep
    simp only [Op.appended, List.append_nil]
    exact h₁
  | register name =>
    simp only [Op.appended, List.append_nil]
    rw [Topic.step] at hstep
    cases hrun : t.consumer name with
    | none =>
      rw [hrun] at hstep
      cases hstep
      exact h
    | some t₁ =>
      rw [hrun] at hstep
      cases hstep
      exact h.register hrun
  | next name =>
    refine hhandle (fun current hr r hf => ?_) hstep
    obtain ⟨r', hrun, rfl⟩ := Option.map_eq_some_iff.mp hf
    obtain ⟨c, hc, -⟩ := h.reader hr
    rcases h.next hr hc with ⟨-, hnone⟩ | ⟨-, t₁, r₁, hrun₁, h₁⟩
    · rw [hnone] at hrun
      cases hrun
    · rw [hrun₁, Option.some.injEq] at hrun
      subst hrun
      exact h₁.ready
  | commit name =>
    refine hhandle (fun current hr r hf => ?_) hstep
    obtain ⟨t₁, hrun, rfl⟩ := Option.map_eq_some_iff.mp hf
    exact h.commit hr hrun
  | reset name =>
    refine hhandle (fun current hr r hf => ?_) hstep
    obtain ⟨t₁, hrun, rfl⟩ := Option.map_eq_some_iff.mp hf
    exact h.reset hr hrun
  | drop name =>
    refine hhandle (fun current hr r hf => ?_) hstep
    obtain ⟨t₁, hrun, rfl⟩ := Option.map_eq_some_iff.mp hf
    exact h.dropReader hr hrun
  | delete name =>
    refine hhandle (fun current hr r hf => ?_) hstep
    cases hf
    exact h.delete name
  | reopen =>
    simp only [Op.appended, List.append_nil]
    rw [Topic.step] at hstep
    split_ifs at hstep with hempty
    · obtain ⟨t₁, base, recs, hrun, -, h₁, -⟩ := h.reopen hempty hsane
      rw [hrun] at hstep
      cases hstep
      exact h₁
    · cases hstep
      exact h

/-- What a call needs of the files. -/
def Call.Sane (tc : Codec T) (t : Topic Name) : Call Name T → Prop
  | .step op => op.Sane tc t
  | .seek _ _ => True

instance Call.decidableSane (tc : Codec T) (t : Topic Name) (c : Call Name T) :
    Decidable (c.Sane tc t) := by
  cases c <;> unfold Call.Sane <;> infer_instance

theorem Ready.call (h : t.Ready tc faults log origin) {c : Call Name T} (hfit : c.Fits tc)
    (hsane : c.Sane tc t) (hcall : t.call tc c = some t') :
    t'.Ready tc faults (log ++ c.appended) origin := by
  cases c with
  | step op =>
    obtain ⟨⟨t₁, ret⟩, hstep, rfl⟩ := Option.map_eq_some_iff.mp hcall
    exact h.step hfit hsane hstep
  | seek name offset =>
    rw [Call.appended, List.append_nil]
    rw [Topic.call] at hcall
    split_ifs at hcall with hr
    · obtain ⟨current, hcur⟩ := Option.isSome_iff_exists.mp hr
      exact h.seek hcur offset hcall
    · cases hcall
      exact h

omit [DecidableEq Name] in
theorem Stocked.sane (h : t.Stocked tc faults log origin) (hfaults : ¬ faults) (c : Call Name T) :
    c.Sane tc t := by
  rcases c with op | ⟨name, offset⟩
  · cases op with
    | append v => exact h.writable hfaults v
    | reopen => exact h.whole hfaults
    | _ => exact trivial
  · exact trivial

/-- Without failed writes a topic stays ready over any calls. -/
theorem Ready.calls (h : t.Ready tc faults log origin) (hfaults : ¬ faults) {cs : List (Call Name T)}
    (hfit : ∀ c ∈ cs, c.Fits tc) (hrun : t.calls tc cs = some t') :
    t'.Ready tc faults (log ++ cs.flatMap Call.appended) origin := by
  induction cs generalizing t log with
  | nil =>
    cases hrun
    simpa using h
  | cons c cs ih =>
    obtain ⟨t₁, hcall, hrun⟩ := Option.bind_eq_some_iff.mp hrun
    have h₁ := h.call (hfit c (by simp)) (h.stocked.sane hfaults c) hcall
    have h₂ := ih h₁ (fun c hc => hfit c (List.mem_cons_of_mem _ hc)) hrun
    rw [List.flatMap_cons, ← List.append_assoc]
    exact h₂

theorem ready_create {maxSegmentBytes : Nat} (hcreate : Topic.create maxSegmentBytes = some t) :
    t.Ready tc faults [] 0 := by
  cases hcreate
  have hfilled : Filled tc faults ([] : List T) 0 (AList.insert 0 (leBytes 4 topicMagic) ∅)
      (Segment.fresh 0) :=
    ⟨[], leftover_nil, (AList.lookup_insert _).trans (by simp [segmentFile, Segment.records, Segment.fresh])⟩
  refine ⟨⟨by simp, rfl, by simp, ?_, ?_, ?_, by simp, ?_, by simp [Segment.fresh], by simp⟩,
    by simp, fun name => rfl, fun name cursor c hr => by cases hr⟩
  · exact ⟨rfl, le_refl _, fun hne => absurd rfl hne, rfl⟩
  · intro s hs
    rw [List.append_nil, List.mem_singleton] at hs
    subst hs
    exact hfilled.shelved (le_refl _) (le_refl _) (le_refl _)
  · intro a ha
    rw [List.getLast?_singleton, Option.some.injEq] at ha
    subst ha
    exact ⟨le_refl _, rfl⟩
  · intro b file hb
    refine Or.inl ?_
    rw [lookup_insert_ite] at hb
    split_ifs at hb with hb0
    · simp [hb0, Segment.fresh]
    · cases hb

end Calls

end Topic

end ZenDB
