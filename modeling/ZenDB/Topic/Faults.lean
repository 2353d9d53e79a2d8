import ZenDB.Topic.Handles

namespace ZenDB

/-! Appends on a disk that may fill up: a `write_all` then writes what fits and fails. -/

/-- `write_all` on a disk with room for `room` bytes: what is written, and the room left if it was
all. -/
def writeAll (room : Nat) (bytes : Bytes) : Bytes × Option Nat :=
  (bytes.take room, if bytes.length ≤ room then some (room-bytes.length) else none)

namespace Topic

variable {Name T : Type} [DecidableEq Name]

/-- `create_segment`; without a segment it has failed, and a file it made stays. -/
def createSegmentWithin (dir : AList (fun _ : Nat => Bytes)) (baseOffset room : Nat) :
    AList (fun _ : Nat => Bytes) × Option (Segment × Nat) :=
  if (dir.lookup baseOffset).isSome then (dir, none)
  else
    match writeAll room (leBytes 4 topicMagic) with
    | (bytes, none) => (dir.insert baseOffset bytes, none)
    | (bytes, some room) => (dir.insert baseOffset bytes, some (.fresh baseOffset, room))

/-- The two `write_all` calls of `append`. Only when both succeed do the counters move. -/
def writeRecordWithin (t : Topic Name) (tc : Codec T) (value : T) (room : Nat) :
    Option (Topic Name × Option Nat) := do
  let active ← t.segments.getLast?
  let file ← t.dir.lookup active.baseOffset
  match writeAll room (leBytes 4 (tc.enc value).length) with
  | (size, none) => some ({t with dir := t.dir.insert active.baseOffset (file ++ size)}, none)
  | (size, some room) =>
    match writeAll room (tc.enc value) with
    | (bytes, none) =>
      some ({t with dir := t.dir.insert active.baseOffset (file ++ size ++ bytes)}, none)
    | (bytes, some _) =>
      let recordSize := 4+(tc.enc value).length
      let offset := t.stats.nextOffset
      some ({ t with
        dir := t.dir.insert active.baseOffset (file ++ size ++ bytes)
        segments := t.segments.dropLast ++
          [{active with byteLen := active.byteLen+recordSize, endOffset := offset+1}]
        stats := { t.stats with
          nextOffset := offset+1
          records := t.stats.records+1
          retainedBytes := t.stats.retainedBytes+recordSize } }, some offset)

/-- `append`; without an offset it has failed. -/
def appendWithin (t : Topic Name) (tc : Codec T) (value : T) (room : Nat) :
    Option (Topic Name × Option Nat) := do
  let active ← t.segments.getLast?
  let recordSize := 4+(tc.enc value).length
  if active.recordCount ≠ 0 ∧ active.byteLen+recordSize > t.maxSegmentBytes then
    match createSegmentWithin t.dir t.stats.nextOffset room with
    | (dir, none) => some ({t with dir := dir}, none)
    | (dir, some (segment, room)) =>
      let t ← compact { t with
        dir := dir
        segments := t.segments ++ [segment]
        stats := {t.stats with retainedBytes := t.stats.retainedBytes+segmentHeaderSize} }
      t.writeRecordWithin tc value room
  else t.writeRecordWithin tc value room

variable {tc : Codec T} {t t' : Topic Name} {log : List T} {origin room : Nat} {v : T}

omit [DecidableEq Name] in
/-- With room for the record the write is the one that cannot fail. -/
theorem writeRecordWithin_whole (hroom : (frame tc v).length ≤ room) :
    t.writeRecordWithin tc v room = (t.writeRecord tc v).map fun r => (r.1, some r.2) := by
  have hlen := length_frame tc v
  have hsize : writeAll room (leBytes 4 (tc.enc v).length) =
      (leBytes 4 (tc.enc v).length, some (room-4)) := by
    rw [writeAll, length_leBytes, if_pos (by omega), List.take_of_length_le]
    rw [length_leBytes]
    omega
  have hbody : writeAll (room-4) (tc.enc v) = (tc.enc v, some (room-4-(tc.enc v).length)) := by
    rw [writeAll, if_pos (by omega), List.take_of_length_le (by omega)]
  cases hlast : t.segments.getLast? with
  | none => simp [writeRecordWithin, writeRecord, hlast]
  | some a =>
    cases hfile : t.dir.lookup a.baseOffset with
    | none => simp [writeRecordWithin, writeRecord, hlast, hfile]
    | some file =>
      simp only [writeRecordWithin, writeRecord, hlast, hfile, hsize, hbody, Option.bind_eq_bind,
        Option.bind_some, frame, List.append_assoc]
      rfl

omit [DecidableEq Name] in
/-- Without it a proper prefix of the frame is left behind the active file. -/
theorem writeRecordWithin_torn (hroom : room < (frame tc v).length) {a : Segment} {file : Bytes}
    (hlast : t.segments.getLast? = some a) (hfile : t.dir.lookup a.baseOffset = some file) :
    t.writeRecordWithin tc v room =
      some ({t with dir := t.dir.insert a.baseOffset (file ++ (frame tc v).take room)}, none) := by
  have hlen := length_frame tc v
  by_cases hsmall : room < 4
  · have hsize : writeAll room (leBytes 4 (tc.enc v).length) =
        ((leBytes 4 (tc.enc v).length).take room, none) := by
      rw [writeAll, length_leBytes, if_neg (by omega)]
    have htake : (frame tc v).take room = (leBytes 4 (tc.enc v).length).take room := by
      rw [frame, List.take_append_of_le_length]
      rw [length_leBytes]
      omega
    simp only [writeRecordWithin, hlast, hfile, hsize, Option.bind_eq_bind, Option.bind_some, htake]
  · have hsize : writeAll room (leBytes 4 (tc.enc v).length) =
        (leBytes 4 (tc.enc v).length, some (room-4)) := by
      rw [writeAll, length_leBytes, if_pos (by omega), List.take_of_length_le]
      rw [length_leBytes]
      omega
    have hbody : writeAll (room-4) (tc.enc v) = ((tc.enc v).take (room-4), none) := by
      rw [writeAll, if_neg (by omega)]
    have htake : (frame tc v).take room =
        leBytes 4 (tc.enc v).length ++ (tc.enc v).take (room-4) := by
      rw [frame, List.take_append, length_leBytes, List.take_of_length_le]
      rw [length_leBytes]
      omega
    simp only [writeRecordWithin, hlast, hfile, hsize, hbody, Option.bind_eq_bind, Option.bind_some,
      htake, List.append_assoc]

theorem Ready.writeRecordWithin (h : t.Ready tc True log origin) (hclean : t.Clean)
    (hv : (tc.enc v).length < 2^32) (room : Nat) :
    ∃ t' r, t.writeRecordWithin tc v room = some (t', r) ∧
      ((r = none ∧ t'.Ready tc True log origin) ∨
        (r = some (origin+log.length) ∧ t'.Ready tc True (log ++ [v]) origin)) := by
  by_cases hroom : (frame tc v).length ≤ room
  · obtain ⟨t', hrun, h', -⟩ := h.writeRecord hclean hv
    refine ⟨t', some t.stats.nextOffset, ?_, Or.inr ⟨by rw [h.stocked.nextOffset], h'⟩⟩
    rw [writeRecordWithin_whole hroom, hrun]
    rfl
  · obtain ⟨init, a, -, hlast, -⟩ := h.stocked.exists_active
    have hfile := h.stocked.lookup_active hclean hlast
    have htorn := torn_frame tc hv (not_le.mp hroom)
    exact ⟨_, none, writeRecordWithin_torn (not_le.mp hroom) hlast hfile, Or.inl ⟨rfl,
      h.stocked.littered hlast (Or.inr ⟨trivial, htorn⟩), h.kept, h.active, h.aimed⟩⟩

/-- An append that goes to a new segment or to a clean file either is accepted at the tail or leaves
the records as they are. -/
theorem Ready.appendWithin (h : t.Ready tc True log origin) (hv : (tc.enc v).length < 2^32)
    (hw : t.Writable tc v) (room : Nat) :
    ∃ t' r, t.appendWithin tc v room = some (t', r) ∧
      ((r = none ∧ t'.Ready tc True log origin) ∨
        (r = some (origin+log.length) ∧ t'.Ready tc True (log ++ [v]) origin)) := by
  obtain ⟨init, a, hsegs, hlast, -⟩ := h.stocked.exists_active
  by_cases hrotate : a.recordCount ≠ 0 ∧ a.byteLen+(4+(tc.enc v).length) > t.maxSegmentBytes
  swap
  · obtain ⟨t', r, hrun, h'⟩ := h.writeRecordWithin (hw.clean hlast hrotate) hv room
    refine ⟨t', r, ?_, h'⟩
    simp only [Topic.appendWithin, hlast, Option.bind_eq_bind, Option.bind_some, if_neg hrotate, hrun]
  have hpos := Segment.base_lt_end hrotate.1
  simp only [Topic.appendWithin, hlast, Option.bind_eq_bind, Option.bind_some, if_pos hrotate]
  cases hnew : t.dir.lookup t.stats.nextOffset with
  | some file =>
    -- `create_new` finds a file whose creation failed before
    refine ⟨t, none, ?_, Or.inl ⟨rfl, h⟩⟩
    simp [createSegmentWithin, hnew]
  | none =>
    by_cases hroom : 4 ≤ room
    · have hmagic : writeAll room (leBytes 4 topicMagic) = (leBytes 4 topicMagic, some (room-4)) := by
        rw [writeAll, length_leBytes, if_pos hroom, List.take_of_length_le]
        rw [length_leBytes]
        exact hroom
      obtain ⟨t₁, hrotated, h₁, -, hclean⟩ := h.rotateSegment hsegs hpos hnew
      rw [rotateSegment_eq hnew] at hrotated
      obtain ⟨t', r, hrun, h'⟩ := h₁.writeRecordWithin hclean hv (room-4)
      refine ⟨t', r, ?_, h'⟩
      simp only [createSegmentWithin, hnew, Option.isSome_none, Bool.false_eq_true, if_false, hmagic]
      show t.rotated.compact.bind (fun u => u.writeRecordWithin tc v (room-4)) = _
      rw [hrotated, Option.bind_some, hrun]
    · have hmagic : writeAll room (leBytes 4 topicMagic) = ((leBytes 4 topicMagic).take room, none) := by
        rw [writeAll, length_leBytes, if_neg hroom]
      have hbase : ∀ x ∈ t.segments ++ t.held, x.baseOffset ≠ t.stats.nextOffset :=
        fun x hx => (h.stocked.base_lt hsegs hpos x hx).ne
      refine ⟨{t with dir := t.dir.insert t.stats.nextOffset ((leBytes 4 topicMagic).take room)}, none,
        ?_, Or.inl ⟨rfl, h.stocked.strayed hbase ⟨trivial, ?_⟩, h.kept, h.active, h.aimed⟩⟩
      · simp only [createSegmentWithin, hnew, Option.isSome_none, Bool.false_eq_true, if_false, hmagic]
      · rw [List.length_take, length_leBytes, segmentHeaderSize]
        omega

/-- An append on a disk with some room left, or any other call. -/
inductive Deed (Name T : Type) where
  | append (value : T) (room : Nat)
  | call (c : Call Name T)

def Deed.Fits (tc : Codec T) : Deed Name T → Prop
  | .append value _ => (tc.enc value).length < 2^32
  | .call c => c.appended = []

/-- The state after it, and the record with its offset that an append has accepted. -/
def deed (tc : Codec T) (t : Topic Name) : Deed Name T → Option (Topic Name × List (Nat × T))
  | .append value room => (t.appendWithin tc value room).map fun r => (r.1, r.2.toList.map (·, value))
  | .call c => (t.call tc c).map (·, [])

def deeds (tc : Codec T) (t : Topic Name) : List (Deed Name T) → Option (Topic Name × List (Nat × T))
  | [] => some (t, [])
  | d :: ds => do
    let (t, accepted) ← t.deed tc d
    let (t, rest) ← t.deeds tc ds
    return (t, accepted ++ rest)

/-- An append that stays in its segment finds no bytes of a failed one at the end of the file, and a
reopening finds no segment file without its magic. -/
def Deed.Sane (tc : Codec T) (t : Topic Name) : Deed Name T → Prop
  | .append value _ => t.Writable tc value
  | .call c => c.Sane tc t

instance Deed.decidableSane (tc : Codec T) (t : Topic Name) (d : Deed Name T) :
    Decidable (d.Sane tc t) := by
  cases d <;> unfold Deed.Sane <;> infer_instance

/-- Every call finds the files as it needs them. -/
def Sanely (tc : Codec T) : Topic Name → List (Deed Name T) → Prop
  | _, [] => True
  | t, d :: ds => d.Sane tc t ∧ ∀ r ∈ t.deed tc d, Sanely tc r.1 ds

instance decidableSanely (tc : Codec T) : (t : Topic Name) → (ds : List (Deed Name T)) →
    Decidable (Sanely tc t ds)
  | _, [] => inferInstanceAs (Decidable True)
  | t, d :: ds =>
    have : ∀ r : Topic Name × List (Nat × T), Decidable (Sanely tc r.1 ds) :=
      fun r => decidableSanely tc r.1 ds
    inferInstanceAs (Decidable (d.Sane tc t ∧ ∀ r ∈ t.deed tc d, Sanely tc r.1 ds))

omit [DecidableEq Name] in
theorem Call.fits_of_appended {c : Call Name T} (h : c.appended = []) : c.Fits tc := by
  rcases c with op | ⟨name, offset⟩
  · cases op with
    | append v => cases h
    | _ => exact trivial
  · exact trivial

theorem Ready.deed (h : t.Ready tc True log 0) {d : Deed Name T} (hfit : d.Fits tc)
    (hsane : d.Sane tc t) {accepted : List (Nat × T)} (hrun : t.deed tc d = some (t', accepted)) :
    ∃ log', log <+: log' ∧ t'.Ready tc True log' 0 ∧ ∀ r ∈ accepted, log'[r.1]? = some r.2 := by
  cases d with
  | append value room =>
    obtain ⟨t₁, r, hwrite, hcases⟩ := h.appendWithin hfit hsane room
    rw [Topic.deed, hwrite, Option.map_some, Option.some.injEq, Prod.mk.injEq] at hrun
    obtain ⟨rfl, rfl⟩ := hrun
    rcases hcases with ⟨rfl, h₁⟩ | ⟨rfl, h₁⟩
    · exact ⟨log, List.prefix_refl _, h₁, by simp⟩
    · exact ⟨log ++ [value], List.prefix_append _ _, h₁, by simp⟩
  | call c =>
    obtain ⟨t₁, hcall, hret⟩ := Option.map_eq_some_iff.mp hrun
    cases hret
    have h₁ := h.call (Call.fits_of_appended hfit) hsane hcall
    rw [show c.appended = [] from hfit, List.append_nil] at h₁
    exact ⟨log, List.prefix_refl _, h₁, by simp⟩

theorem Ready.deeds (h : t.Ready tc True log 0) {ds : List (Deed Name T)}
    (hfit : ∀ d ∈ ds, d.Fits tc) (hsane : Sanely tc t ds) {accepted : List (Nat × T)}
    (hrun : t.deeds tc ds = some (t', accepted)) :
    ∃ log', log <+: log' ∧ t'.Ready tc True log' 0 ∧ ∀ r ∈ accepted, log'[r.1]? = some r.2 := by
  induction ds generalizing t log accepted with
  | nil =>
    cases hrun
    exact ⟨log, List.prefix_refl _, h, by simp⟩
  | cons d ds ih =>
    obtain ⟨hd, hds⟩ := hsane
    obtain ⟨⟨t₁, accepted₁⟩, hdeed, hrun⟩ := Option.bind_eq_some_iff.mp hrun
    obtain ⟨⟨t₂, accepted₂⟩, hrest, hrun⟩ := Option.bind_eq_some_iff.mp hrun
    cases hrun
    obtain ⟨log₁, hpre₁, h₁, hacc₁⟩ := h.deed (hfit d (by simp)) hd hdeed
    obtain ⟨log₂, hpre₂, h₂, hacc₂⟩ :=
      ih h₁ (fun d hd => hfit d (List.mem_cons_of_mem _ hd)) (hds _ hdeed) hrest
    refine ⟨log₂, hpre₁.trans hpre₂, h₂, ?_⟩
    intro r hr
    rcases List.mem_append.mp hr with hr | hr
    · obtain ⟨tail, rfl⟩ := hpre₂
      have hlook := hacc₁ r hr
      rw [List.getElem?_append_left (List.getElem?_eq_some_iff.mp hlook).1]
      exact hlook
    · exact hacc₂ r hr

/-- Records that were accepted are read back at their offsets, in the running topic and after any
reopening, as long as no append goes behind the bytes of a failed one and no reopening meets a segment
file without its magic. A consumer at a retained record does get it. -/
theorem failed_append_harmless {maxSegmentBytes : Nat} {t₀ : Topic Name}
    (hcreate : Topic.create maxSegmentBytes = some t₀) {ds : List (Deed Name T)}
    (hfit : ∀ d ∈ ds, d.Fits tc) (hsane : Sanely tc t₀ ds) {accepted : List (Nat × T)}
    (hrun : t₀.deeds tc ds = some (t, accepted)) {r : Nat × T} (hr : r ∈ accepted) {name : Name}
    {current : Option SegmentCursor} (hcurrent : t.readers.lookup name = some current)
    {c : ConsumerState} (hc : t.consumers.lookup name = some c) (hoffset : c.volatile = r.1) :
    (∀ t' answer, t.next tc name = some (t', answer) → answer = .item r.2) ∧
      (t.stats.earliestOffset ≤ r.1 → (t.next tc name).isSome) := by
  obtain ⟨log, -, hready, haccepted⟩ := (ready_create hcreate).deeds hfit hsane hrun
  have hlook := haccepted r hr
  rcases hready.next hcurrent hc with ⟨hnot, hnone⟩ | ⟨-, t₁, answer₁, hnext, hadv⟩
  · refine ⟨fun t' answer hrun => ?_, fun hfirst => ?_⟩
    · rw [hnone] at hrun
      cases hrun
    · exact absurd (Or.inl (hoffset ▸ hfirst)) hnot
  · have hitem := hadv.answer (Nat.zero_le _)
    rw [answerAt, Nat.sub_zero, hoffset, hlook] at hitem
    refine ⟨fun t' answer hrun => ?_, fun _ => by rw [hnext]; rfl⟩
    rw [hnext] at hrun
    cases hrun
    exact hitem

/-- The second append fails behind the first record; the third begins a new segment and is read back,
also after a reopening. -/
theorem failed_append_harmless_rotated :
    ∃ t₀ t t' : Topic Unit, Topic.create 14 = some t₀ ∧
      t₀.deeds rawCodec [.append [7] 100, .append [] 2, .append [1, 2] 100, .call (.step .reopen),
        .call (.step (.register ())), .call (.seek () 1)] = some (t, [(0, [7]), (1, [1, 2])]) ∧
      t.next rawCodec () = some (t', .item [1, 2]) := by
  have hrun : ((Topic.create 14 : Option (Topic Unit)).bind fun t₀ => (t₀.deeds rawCodec
      [.append [7] 100, .append [] 2, .append [1, 2] 100, .call (.step .reopen),
        .call (.step (.register ())), .call (.seek () 1)]).map fun r => (t₀, r)).map
        (fun r => (r.2.1.readers.lookup (), r.2.1.consumers.lookup (), r.2.1.stats.earliestOffset,
          decide (r.2.2 = [(0, [7]), (1, [1, 2])] ∧ Sanely rawCodec r.1 [.append [7] 100,
            .append [] 2, .append [1, 2] 100, .call (.step .reopen), .call (.step (.register ())),
            .call (.seek () 1)]))) =
      some (some none, some ⟨2, 1, true⟩, 0, true) := by decide +kernel
  obtain ⟨⟨t₀, t, accepted⟩, hrun, hstate⟩ := Option.map_eq_some_iff.mp hrun
  obtain ⟨t₁, hcreate, hrun⟩ := Option.bind_eq_some_iff.mp hrun
  obtain ⟨r, hrun, heq⟩ := Option.map_eq_some_iff.mp hrun
  cases heq
  obtain ⟨hcurrent, hstate⟩ := Prod.mk.inj hstate
  obtain ⟨hc, hstate⟩ := Prod.mk.inj hstate
  obtain ⟨hfirst, hstate⟩ := Prod.mk.inj hstate
  obtain ⟨rfl, hsane⟩ := of_decide_eq_true hstate
  obtain ⟨hitem, hsome⟩ := failed_append_harmless hcreate
    (by simp [Deed.Fits, Call.appended, Op.appended, rawCodec]) hsane hrun
    (r := (1, [1, 2])) (by simp) hcurrent hc rfl
  obtain ⟨⟨t', answer⟩, hnext⟩ := Option.isSome_iff_exists.mp (hsome (by rw [hfirst]; decide))
  refine ⟨t₀, t, t', hcreate, hrun, ?_⟩
  rw [hnext, hitem t' answer hnext]

/-- Two bytes of a failed append shift the record that is accepted next: reading it fails, and after a
reopening it is not there. -/
theorem failed_append_poisons :
    (((Topic.create 1024 : Option (Topic Unit)).bind fun t => t.deeds byteCodec
      [.call (.step (.register ())), .append 7 2, .append 9 100]).map
        fun r => (r.2, (r.1.next byteCodec ()).map Prod.snd)) = some ([(0, 9)], some .error) ∧
    (((Topic.create 1024 : Option (Topic Unit)).bind fun t => t.deeds byteCodec
      [.append 7 2, .append 9 100, .call (.step .reopen)]).map
        fun r => (r.2, r.1.stats.nextOffset)) = some ([(0, 9)], 0) := by
  constructor <;> decide +kernel

section Recovery

variable {dir : AList (fun _ : Nat => Bytes)} {base : Nat} {recs : List T} {tail : Bytes}

/-- `open` on an active file with a torn tail cuts exactly the tail. Appends then continue at the
offset behind the complete records, and a consumer reads those and the new ones in order. Of the other
files nothing is needed but that they are segments. -/
theorem open_torn_recovers (maxSegmentBytes : Nat) (offsets : AList (fun _ : Name => Nat))
    (hfile : dir.lookup base = some (segmentFile tc recs ++ tail))
    (hlast : ∀ b, (dir.lookup b).isSome → b ≤ base) (htail : Torn tail)
    (hfits : ∀ v ∈ recs, (tc.enc v).length < 2^32)
    (hmagic : ∀ b file, b ≠ base → dir.lookup b = some file →
      readU32Le file 0 = some topicMagic) :
    ∃ t, openDir maxSegmentBytes dir offsets = some t ∧
      (∀ b, t.dir.lookup b = if b = base then some (segmentFile tc recs) else dir.lookup b) ∧
      t.stats.nextOffset = base+recs.length ∧
      ∀ (cs : List (Call Name T)) t', (∀ c ∈ cs, c.Fits tc) → t.calls tc cs = some t' →
        (∀ v, (tc.enc v).length < 2^32 →
          ∃ t'', t'.append tc v = some (t'', base+(recs ++ cs.flatMap Call.appended).length)) ∧
        ∀ name current c, t'.readers.lookup name = some current →
          t'.consumers.lookup name = some c → base ≤ c.volatile →
          t'.stats.earliestOffset ≤ c.volatile →
          ∃ t'', t'.next tc name =
            some (t'', answerAt (recs ++ cs.flatMap Call.appended) (c.volatile-base)) := by
  have hmagic' : ∀ b file, dir.lookup b = some file → readU32Le file 0 = some topicMagic := by
    intro b file hb
    by_cases hbase : b = base
    · rw [hbase, hfile, Option.some.injEq] at hb
      rw [← hb]
      exact readMagic_segmentFile tc recs tail
    · exact hmagic b file hbase hb
  obtain ⟨t, hrun, ht⟩ := openDir_litter maxSegmentBytes offsets (getLast?_sorted_keys hfile hlast)
    hfile htail hfits hmagic'
  have hstocked : t.Stocked tc False recs base := by
    refine ht.stocked hfits (le_refl _) (Nat.le_add_right _ _) ?_ hmagic' ?_
    · rw [Nat.sub_self, List.drop_zero]
    · intro x hx hlt
      exact Or.inl (ht.cover.end_le_of_base_lt hx (List.mem_of_getLast? ht.active) hlt)
  refine ⟨t, hrun, ht.files, ht.nextOffset, ?_⟩
  intro cs t' hfit hcalls
  have hready := (ht.ready hstocked).calls id hfit hcalls
  constructor
  · intro v hv
    obtain ⟨t'', happend, -⟩ := hready.append_unhindered id hv
    exact ⟨t'', happend⟩
  · intro name current c hr hc hbase hfirst
    rcases hready.next hr hc with ⟨hnot, -⟩ | ⟨-, t'', r, hnext, hadv⟩
    · exact absurd (Or.inl hfirst) hnot
    · exact ⟨t'', by rw [hnext, hadv.answer hbase]⟩

/-- Three bytes of a length field behind one record. After the next append a consumer that is stored at
the first record reads it, and one more append comes behind both. -/
theorem open_torn_recovers_length_field :
    ∃ t t' : Topic Unit, openDir 1024 (AList.insert 5 (segmentFile byteCodec [7] ++ [1, 0, 0]) ∅)
        (AList.insert () 5 ∅) = some t ∧
      t.dir.lookup 5 = some (segmentFile byteCodec [7]) ∧ t.stats.nextOffset = 6 ∧
      t.calls byteCodec [.step (.append 9), .step (.register ())] = some t' ∧
      (∃ t'', t'.append byteCodec 3 = some (t'', 7)) ∧
      ∃ t'', t'.next byteCodec () = some (t'', .item 7) := by
  have hother : ∀ b, b ≠ 5 → (AList.insert 5 (segmentFile byteCodec [7] ++ [1, 0, 0]) ∅ :
      AList (fun _ : Nat => Bytes)).lookup b = none := by
    intro b hb
    rw [AList.lookup_insert_ne hb]
    rfl
  have hfile : (AList.insert 5 (segmentFile byteCodec [7] ++ [1, 0, 0]) ∅ :
      AList (fun _ : Nat => Bytes)).lookup 5 = some (segmentFile byteCodec [7] ++ [1, 0, 0]) :=
    AList.lookup_insert _
  obtain ⟨t, hopen, hfiles, hnext, hlater⟩ := open_torn_recovers 1024
    (AList.insert () 5 ∅ : AList (fun _ : Unit => Nat)) hfile
    (fun b hb => by
      by_contra hlt
      rw [hother b (by omega)] at hb
      cases hb)
    ⟨[9], 3, by decide, by decide, by decide⟩ (by simp [byteCodec])
    (fun b file hb hlook => by
      rw [hother b hb] at hlook
      cases hlook)
  have hrun : ((openDir 1024 (AList.insert 5 (segmentFile byteCodec [7] ++ [1, 0, 0]) ∅)
      (AList.insert () 5 ∅ : AList (fun _ : Unit => Nat))).bind fun t => t.calls byteCodec
        [.step (.append 9), .step (.register ())]).map
        (fun t => (t.readers.lookup (), t.consumers.lookup (), t.stats.earliestOffset)) =
      some (some none, some ⟨5, 5, true⟩, 5) := by decide +kernel
  rw [hopen, Option.bind_some] at hrun
  obtain ⟨t', hcalls, hstate⟩ := Option.map_eq_some_iff.mp hrun
  obtain ⟨hcurrent, hstate⟩ := Prod.mk.inj hstate
  obtain ⟨hc, hfirst⟩ := Prod.mk.inj hstate
  obtain ⟨hadds, hreads⟩ := hlater _ t' (by simp [Call.Fits, Op.Fits, byteCodec]) hcalls
  exact ⟨t, t', hopen, (hfiles 5).trans (if_pos rfl), hnext, hcalls, hadds 3 (by simp [byteCodec]),
    hreads () none _ hcurrent hc (le_refl _) hfirst.le⟩

end Recovery

end Topic

end ZenDB
