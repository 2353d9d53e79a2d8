import ZenDB.Topic.Reopen

namespace ZenDB

/-! What the segments and statistics of a topic say about each other, whatever the files hold. -/

namespace Topic

variable {Name T : Type} [DecidableEq Name]

/-- The statistics count the segments, and every segment has a file of its length. `first` is the
offset of the oldest record that is retained. -/
structure Accounts (t : Topic Name) (first : Nat) : Prop where
  nonempty : t.segments ≠ []
  cover : Cover first t.segments t.stats.nextOffset
  earliest : t.stats.earliestOffset = first
  records : t.stats.records = t.stats.nextOffset-first
  retained : t.stats.retainedBytes = (t.segments.map Segment.byteLen).sum
  sized : ∀ s ∈ t.segments ++ t.held, (t.dir.lookup s.baseOffset).map List.length = some s.byteLen
  distinct : ((t.segments ++ t.held).map Segment.baseOffset).Nodup
  listed : ∀ b, (t.dir.lookup b).isSome → b ∈ (t.segments ++ t.held).map Segment.baseOffset
  held : ∀ s ∈ t.held, s.baseOffset < first ∧ s.deleteOnDrop = true

/-- The consumers, their persisted offsets and their handles agree, and no consumer has committed
less than what is retained. -/
structure Tracked (t : Topic Name) (first : Nat) : Prop where
  offsets : ∀ name, t.offsets.lookup name = (t.consumers.lookup name).map ConsumerState.committed
  bounds : ∀ name c, t.consumers.lookup name = some c → first ≤ c.committed ∧ c.committed ≤ c.volatile
  active : ∀ name, (t.readers.lookup name).isSome =
    ((t.consumers.lookup name).map ConsumerState.readerActive).getD false
  cursors : ∀ name cursor c, t.readers.lookup name = some (some cursor) →
    t.consumers.lookup name = some c → cursor.logicalOffset = c.volatile

/-- The invariant of a topic between calls. -/
structure Tidy (t : Topic Name) : Prop where
  kept : ∀ seg ∈ t.held, t.shared seg.baseOffset = true
  parts : ∃ first, t.Accounts first ∧ t.Tracked first

variable {tc : Codec T} {t t' : Topic Name} {first : Nat} {name : Name}

section Accounts

omit [DecidableEq Name]

theorem Accounts.setReaders (h : t.Accounts first) (offsets : AList (fun _ : Name => Nat))
    (consumers : AList (fun _ : Name => ConsumerState))
    (readers : AList (fun _ : Name => Option SegmentCursor)) :
    {t with offsets := offsets, consumers := consumers, readers := readers}.Accounts first :=
  ⟨h.nonempty, h.cover, h.earliest, h.records, h.retained, h.sized, h.distinct, h.listed, h.held⟩

theorem Accounts.first_le (h : t.Accounts first) : first ≤ t.stats.nextOffset := by
  cases hsegs : t.segments with
  | nil => exact absurd hsegs h.nonempty
  | cons a rest =>
    have hb := h.cover.mem_bounds a (by simp [hsegs])
    omega

/-- The files that `release` deletes are those of removed segments. -/
theorem Accounts.release (h : t.Accounts first) : t.release.Accounts first := by
  have hsub : (t.segments ++ t.release.held).Sublist (t.segments ++ t.held) :=
    List.Sublist.append (List.Sublist.refl _) List.filter_sublist
  have hmarked : ∀ seg ∈ t.held, seg.deleteOnDrop = true := fun seg hseg => (h.held seg hseg).2
  refine ⟨h.nonempty, h.cover, h.earliest, h.records, h.retained, ?_,
    h.distinct.sublist (hsub.map _), ?_, fun x hx => h.held x (List.mem_of_mem_filter hx)⟩
  · intro x hx
    rw [lookup_release_kept hmarked h.distinct hx]
    exact h.sized x (hsub.subset hx)
  · intro b hb
    obtain ⟨file, hfile⟩ := Option.isSome_iff_exists.mp hb
    obtain ⟨hbefore, hmem⟩ := lookup_of_release hmarked hfile
    exact hmem (h.listed b (by rw [hbefore]; rfl))

/-- Segments move from the front to those that are held. -/
theorem Accounts.compacted (h : t.Accounts first) {k first' : Nat}
    (hr : t.Removal first t.stats.nextOffset k first') : (t.compacted k first').Accounts first' := by
  have hperm := t.bases_removeSegments k
  have hbytes : ((t.segments.take k).map Segment.byteLen).sum+
      ((t.segments.drop k).map Segment.byteLen).sum = t.stats.retainedBytes := by
    rw [h.retained, ← List.sum_append, ← List.map_append, List.take_append_drop]
  have hrecords := h.records
  have hsum := hr.records
  have hle := hr.le
  refine ⟨?_, hr.cover, rfl, ?_, ?_, ?_, hperm.nodup_iff.mpr h.distinct, ?_, ?_⟩
  · show t.segments.drop k ≠ []
    rw [← List.length_pos_iff, List.length_drop]
    exact Nat.sub_pos_of_lt hr.lt
  · show t.stats.records-((t.segments.take k).map Segment.recordCount).sum = t.stats.nextOffset-first'
    omega
  · show t.stats.retainedBytes-((t.segments.take k).map Segment.byteLen).sum =
      ((t.segments.drop k).map Segment.byteLen).sum
    omega
  · intro x hx
    rcases mem_removeSegments hx with hx | ⟨y, hy, rfl⟩
    · exact h.sized x hx
    · exact h.sized y (List.mem_append_left _ (List.mem_of_mem_take hy))
  · intro b hb
    exact hperm.mem_iff.mpr (h.listed b hb)
  · intro x hx
    rcases List.mem_append.mp hx with hx | hx
    · have hold := h.held x hx
      exact ⟨by omega, hold.2⟩
    · obtain ⟨y, hy, rfl⟩ := List.mem_map.mp hx
      obtain ⟨hlt, hend⟩ := hr.below y hy
      exact ⟨hlt.trans_le hend, rfl⟩

/-- A new file at the tail, behind an active segment that holds a record. -/
theorem Accounts.rotated (h : t.Accounts first) {init : List Segment} {a : Segment}
    (hsegs : t.segments = init ++ [a]) (ha : a.baseOffset < a.endOffset)
    (hnew : t.dir.lookup t.stats.nextOffset = none) : t.rotated.Accounts first := by
  have hne : ∀ x ∈ t.segments ++ t.held, x.baseOffset ≠ t.stats.nextOffset := by
    intro x hx heq
    have hsized := h.sized x hx
    rw [heq, hnew] at hsized
    cases hsized
  refine ⟨by simp [Topic.rotated], ?_, h.earliest, h.records, ?_, ?_, distinct_rotated h.distinct hne,
    listed_rotated h.listed, h.held⟩
  · have hcover := h.cover
    show Cover first (t.segments ++ [Segment.fresh t.stats.nextOffset]) t.stats.nextOffset
    rw [hsegs] at hcover ⊢
    exact hcover.snoc ha rfl rfl
  · show t.stats.retainedBytes+segmentHeaderSize =
      ((t.segments ++ [Segment.fresh t.stats.nextOffset]).map Segment.byteLen).sum
    rw [h.retained]
    simp [Segment.fresh]
  · intro x hx
    rcases mem_rotated hx with hx | rfl
    · rw [Topic.rotated, AList.lookup_insert_ne (hne x hx)]
      exact h.sized x hx
    · show ((t.dir.insert _ _).lookup t.stats.nextOffset).map List.length = _
      rw [AList.lookup_insert]
      rfl

/-- The active segment and its file grow by as many bytes as the statistics. -/
theorem Accounts.written (h : t.Accounts first) {init : List Segment} {a : Segment}
    (hsegs : t.segments = init ++ [a]) {file : Bytes}
    (hfile : t.dir.lookup a.baseOffset = some file) (bytes : Bytes) :
    (t.written init a file bytes).Accounts first := by
  have hcover := h.cover
  rw [hsegs] at hcover
  have hbounds := hcover.mem_bounds a (by simp)
  have hlen : file.length = a.byteLen := by
    have hsized := h.sized a (by simp [hsegs])
    rw [hfile] at hsized
    exact Option.some.inj hsized
  have hfirst := h.first_le
  have hrecords := h.records
  refine ⟨by simp [Topic.written], hcover.setLast rfl rfl ?_, h.earliest, ?_, ?_, ?_,
    bases_written hsegs ▸ h.distinct, listed_written hsegs h.listed, h.held⟩
  · show a.baseOffset ≤ t.stats.nextOffset+1
    omega
  · show t.stats.records+1 = t.stats.nextOffset+1-first
    omega
  · show t.stats.retainedBytes+bytes.length = _
    rw [h.retained, hsegs]
    simp only [Topic.written, List.map_append, List.map_cons, List.map_nil, List.sum_append,
      List.sum_cons, List.sum_nil]
    omega
  · intro x hx
    rcases mem_written hsegs h.distinct hx with rfl | ⟨hmem, hne⟩
    · show ((t.dir.insert _ _).lookup a.baseOffset).map List.length = _
      rw [AList.lookup_insert, Option.map_some, List.length_append, hlen]
    · rw [Topic.written, AList.lookup_insert_ne hne]
      exact h.sized x hmem

end Accounts

section Tracked

/-- One consumer changes; `current` is its handle afterwards. -/
theorem Tracked.update (h : t.Tracked first) (c : ConsumerState)
    (current : Option (Option SegmentCursor)) {offsets : AList (fun _ : Name => Nat)}
    {consumers : AList (fun _ : Name => ConsumerState)}
    {readers : AList (fun _ : Name => Option SegmentCursor)}
    (hoff : ∀ n, offsets.lookup n = if n = name then some c.committed else t.offsets.lookup n)
    (hcons : ∀ n, consumers.lookup n = if n = name then some c else t.consumers.lookup n)
    (hread : ∀ n, readers.lookup n = if n = name then current else t.readers.lookup n)
    (hopen : current.isSome = c.readerActive)
    (hb : first ≤ c.committed ∧ c.committed ≤ c.volatile)
    (hcur : ∀ cursor, current = some (some cursor) → cursor.logicalOffset = c.volatile) :
    {t with offsets := offsets, consumers := consumers, readers := readers}.Tracked first := by
  refine ⟨?_, ?_, ?_, ?_⟩
  · intro n
    show offsets.lookup n = (consumers.lookup n).map _
    rw [hoff, hcons]
    split_ifs with hn
    · rfl
    · exact h.offsets n
  · intro n d hd
    change consumers.lookup n = some d at hd
    rw [hcons] at hd
    split_ifs at hd with hn
    · rw [← Option.some.inj hd]
      exact hb
    · exact h.bounds n d hd
  · intro n
    show (readers.lookup n).isSome = ((consumers.lookup n).map _).getD false
    rw [hread, hcons]
    split_ifs with hn
    · exact hopen
    · exact h.active n
  · intro n cursor d hc hd
    change readers.lookup n = some (some cursor) at hc
    change consumers.lookup n = some d at hd
    rw [hread] at hc
    rw [hcons] at hd
    split_ifs at hd hc with hn
    · rw [← Option.some.inj hd]
      exact hcur cursor hc
    · exact h.cursors n cursor d hc hd

/-- The state behind an open handle. -/
theorem Tracked.reader (h : t.Tracked first) {current : Option SegmentCursor}
    (hr : t.readers.lookup name = some current) {c : ConsumerState}
    (hc : t.consumers.lookup name = some c) :
    c.readerActive = true ∧ t.offsets.lookup name = some c.committed ∧
      first ≤ c.committed ∧ c.committed ≤ c.volatile := by
  have hactive := h.active name
  have hoff := h.offsets name
  rw [hr, hc] at hactive
  rw [hc] at hoff
  exact ⟨hactive.symm, hoff, h.bounds name c hc⟩

theorem tidy_release (ha : t.Accounts first) (ht : t.Tracked first) : t.release.Tidy :=
  ⟨fun _ hseg => (List.mem_filter.mp hseg).2, first, ha.release,
    ht.offsets, ht.bounds, ht.active, ht.cursors⟩

end Tracked

section Steps

/-- `compact` keeps everything that a consumer has not committed past. -/
theorem Tidy.compact (h : t.Tidy) (hrun : t.compact = some t') : t'.Tidy := by
  obtain ⟨hkept, first, ha, ht⟩ := id h
  rcases compact_cases ha.nonempty ha.cover with hself | ⟨k, first', hr, hself⟩
  · rw [← Option.some.inj (hself.symm.trans hrun)]
    exact h
  · rw [← Option.some.inj (hself.symm.trans hrun)]
    refine tidy_release (ha.compacted hr) ⟨ht.offsets, fun name c hc => ?_, ht.active, ht.cursors⟩
    obtain ⟨hfirst, hle⟩ := ht.bounds name c hc
    exact ⟨hr.spares _ (AList.mem_lookup_iff.mp hc) hfirst, hle⟩

theorem Tidy.rotateSegment (h : t.Tidy) {init : List Segment} {a : Segment}
    (hsegs : t.segments = init ++ [a]) (hpos : a.baseOffset < a.endOffset)
    (hrun : t.rotateSegment = some t') : t'.Tidy := by
  obtain ⟨hkept, first, ha, ht⟩ := h
  cases hnew : t.dir.lookup t.stats.nextOffset with
  | some file =>
    rw [Topic.rotateSegment, createSegment, hnew] at hrun
    cases hrun
  | none =>
    rw [rotateSegment_eq hnew] at hrun
    refine Tidy.compact ?_ hrun
    exact ⟨hkept, first, ha.rotated hsegs hpos hnew, ht.offsets, ht.bounds, ht.active, ht.cursors⟩

theorem Tidy.writeRecord (h : t.Tidy) {value : T} {offset : Nat}
    (hrun : t.writeRecord tc value = some (t', offset)) : t'.Tidy := by
  obtain ⟨hkept, first, ha, ht⟩ := h
  obtain ⟨init, a, hsegs⟩ : ∃ init a, t.segments = init ++ [a] :=
    ⟨_, _, (List.dropLast_append_getLast ha.nonempty).symm⟩
  obtain ⟨file, hfile, -⟩ := Option.map_eq_some_iff.mp (ha.sized a (by simp [hsegs]))
  rw [writeRecord_eq hsegs hfile] at hrun
  cases hrun
  exact ⟨hkept, first, ha.written hsegs hfile _, ht.offsets, ht.bounds, ht.active, ht.cursors⟩

theorem Tidy.append (h : t.Tidy) {value : T} {offset : Nat}
    (hrun : t.append tc value = some (t', offset)) : t'.Tidy := by
  obtain ⟨init, a, hsegs⟩ : ∃ init a, t.segments = init ++ [a] := by
    obtain ⟨-, first, ha, -⟩ := h
    exact ⟨_, _, (List.dropLast_append_getLast ha.nonempty).symm⟩
  simp only [Topic.append, hsegs, List.getLast?_concat, Option.bind_eq_bind, Option.bind_some] at hrun
  split_ifs at hrun with hrotate
  · have hpos : a.baseOffset < a.endOffset := by
      have hne := hrotate.1
      unfold Segment.recordCount at hne
      omega
    obtain ⟨t₁, hrot, hwrite⟩ := Option.bind_eq_some_iff.mp hrun
    exact (h.rotateSegment hsegs hpos hrot).writeRecord hwrite
  · exact h.writeRecord hrun

/-- Handles that keep their segments keep them shared. -/
theorem shared_mono {u : Topic Name}
    (h : ∀ n cursor, t.readers.lookup n = some (some cursor) →
      ∃ cursor', u.readers.lookup n = some (some cursor') ∧ cursor'.segment = cursor.segment)
    {base : Nat} (hshared : t.shared base = true) : u.shared base = true := by
  obtain ⟨n, cursor, hcur, hseg⟩ := (shared_iff t base).mp hshared
  obtain ⟨cursor', hcur', hseg'⟩ := h n cursor hcur
  exact (shared_iff u base).mpr ⟨n, cursor', hcur', hseg'.trans hseg⟩

/-- A handle without a cursor shares nothing, so it may get any cursor. -/
theorem shared_setCursor {current : Option SegmentCursor}
    (hnone : ∀ cursor, t.readers.lookup name ≠ some (some cursor)) {base : Nat}
    (hshared : t.shared base = true) : (t.setCursor name current).shared base = true := by
  refine shared_mono (fun n cursor hcur => ⟨cursor, ?_, rfl⟩) hshared
  have hne : n ≠ name := fun heq => hnone cursor (heq ▸ hcur)
  exact (AList.lookup_insert_ne hne).trans hcur

theorem Tidy.register (h : t.Tidy) (hrun : t.consumer name = some t') : t'.Tidy := by
  obtain ⟨hkept, first, ha, ht⟩ := h
  rw [Topic.consumer] at hrun
  cases hc : t.consumers.lookup name with
  | some c =>
    rw [hc] at hrun
    dsimp only at hrun
    split_ifs at hrun with hactive
    have hopen := ht.active name
    have hoff := ht.offsets name
    rw [hc] at hopen hoff
    have hclosed : (t.readers.lookup name).isSome = false := by simpa [hactive] using hopen
    have hnone : ∀ cursor, t.readers.lookup name ≠ some (some cursor) := by
      intro cursor hcur
      rw [hcur] at hclosed
      cases hclosed
    rw [← Option.some.inj hrun]
    refine ⟨fun seg hseg => shared_setCursor hnone (hkept seg hseg), first,
      ha.setReaders _ _ _, ?_⟩
    exact ht.update {c with readerActive := true} (some none) (lookup_same _ hoff)
      (lookup_insert_ite _ _ · _) (lookup_insert_ite _ _ · _) rfl (ht.bounds name c hc)
      (fun cursor hcur => by cases hcur)
  | none =>
    rw [hc] at hrun
    have hopen := ht.active name
    rw [hc] at hopen
    have hnone : ∀ cursor, t.readers.lookup name ≠ some (some cursor) := by
      intro cursor hcur
      rw [hcur] at hopen
      cases hopen
    rw [← Option.some.inj hrun]
    refine ⟨fun seg hseg => shared_setCursor hnone (hkept seg hseg), first,
      ha.setReaders _ _ _, ?_⟩
    exact ht.update ⟨t.stats.nextOffset, t.stats.nextOffset, true⟩ (some none)
      (lookup_insert_ite _ _ · _) (lookup_insert_ite _ _ · _) (lookup_insert_ite _ _ · _) rfl
      ⟨ha.first_le, le_refl _⟩ (fun cursor hcur => by cases hcur)

section Handle

variable {current : Option SegmentCursor} {c : ConsumerState}

theorem Tidy.commit (h : t.Tidy) (hcur : t.readers.lookup name = some current)
    (hrun : t.commit name = some t') : t'.Tidy := by
  obtain ⟨hkept, first, ha, ht⟩ := h
  obtain ⟨c, hc, hrun⟩ := Option.bind_eq_some_iff.mp hrun
  obtain ⟨hactive, hoff, hlo, hle⟩ := ht.reader hcur hc
  rw [← Option.some.inj hrun]
  refine ⟨hkept, first, ha.setReaders _ _ _, ?_⟩
  refine ht.update {c with committed := c.volatile} (some current) (lookup_insert_ite _ _ · _)
    (lookup_insert_ite _ _ · _) (lookup_same _ hcur) hactive.symm ⟨hlo.trans hle, le_refl _⟩ ?_
  intro cursor hcursor
  exact ht.cursors name cursor c (hcur.trans hcursor) hc

theorem Tidy.reset (h : t.Tidy) (hcur : t.readers.lookup name = some current)
    (hrun : t.reset name = some t') : t'.Tidy := by
  obtain ⟨-, first, ha, ht⟩ := h
  obtain ⟨c, hc, hrun⟩ := Option.bind_eq_some_iff.mp hrun
  obtain ⟨hactive, hoff, hlo, hle⟩ := ht.reader hcur hc
  rw [← Option.some.inj hrun]
  refine tidy_release (ha.setReaders _ _ _) ?_
  exact ht.update {c with volatile := c.committed} (some none) (lookup_same _ hoff)
    (lookup_insert_ite _ _ · _) (lookup_insert_ite _ _ · _) hactive.symm ⟨hlo, le_refl _⟩
    (fun cursor hcursor => by cases hcursor)

theorem Tidy.dropReader (h : t.Tidy) (hcur : t.readers.lookup name = some current)
    (hrun : t.dropReader name = some t') : t'.Tidy := by
  obtain ⟨-, first, ha, ht⟩ := h
  obtain ⟨c, hc, hrun⟩ := Option.bind_eq_some_iff.mp hrun
  obtain ⟨-, hoff, hlo, hle⟩ := ht.reader hcur hc
  rw [← Option.some.inj hrun]
  refine tidy_release (ha.setReaders _ _ _) ?_
  exact ht.update {c with volatile := c.committed, readerActive := false} none (lookup_same _ hoff)
    (lookup_insert_ite _ _ · _) (lookup_erase_ite _ _ ·) rfl ⟨hlo, le_refl _⟩
    (fun cursor hcursor => by cases hcursor)

theorem Tidy.delete (h : t.Tidy) (name : Name) : (t.delete name).Tidy := by
  obtain ⟨-, first, ha, ht⟩ := h
  refine tidy_release (ha.setReaders _ _ _) ⟨?_, ?_, ?_, ?_⟩
  · intro n
    show (t.offsets.erase name).lookup n = ((t.consumers.erase name).lookup n).map _
    rw [lookup_erase_ite, lookup_erase_ite]
    split_ifs with hn
    · rfl
    · exact ht.offsets n
  · intro n d hd
    change (t.consumers.erase name).lookup n = some d at hd
    rw [lookup_erase_ite] at hd
    split_ifs at hd with hn
    exact ht.bounds n d hd
  · intro n
    show ((t.readers.erase name).lookup n).isSome = (((t.consumers.erase name).lookup n).map _).getD false
    rw [lookup_erase_ite, lookup_erase_ite]
    split_ifs with hn
    · rfl
    · exact ht.active n
  · intro n cursor d hcursor hd
    change (t.readers.erase name).lookup n = some (some cursor) at hcursor
    change (t.consumers.erase name).lookup n = some d at hd
    rw [lookup_erase_ite] at hcursor hd
    split_ifs at hcursor hd with hn
    exact ht.cursors n cursor d hcursor hd

theorem Tidy.readCursor (h : t.Tidy) {cursor : SegmentCursor} {r : Next T}
    (hcur : t.readers.lookup name = some (some cursor)) (hc : t.consumers.lookup name = some c)
    (hrun : t.readCursor tc name c cursor = some (t', r)) : t'.Tidy := by
  obtain ⟨hkept, first, ha, ht⟩ := h
  obtain ⟨hactive, hoff, hlo, hle⟩ := ht.reader hcur hc
  have hlogical := ht.cursors name cursor c hcur hc
  -- the cursor moves within its segment
  have hshared : ∀ (consumers : AList fun _ : Name => ConsumerState) (moved : SegmentCursor),
      moved.segment = cursor.segment → ∀ base, t.shared base = true →
        ({t with consumers := consumers}.setCursor name (some moved)).shared base = true := by
    intro consumers moved hmoved base hbase
    refine shared_mono (fun n cur hn => ?_) hbase
    by_cases hname : n = name
    · subst hname
      rw [hcur, Option.some.injEq, Option.some.injEq] at hn
      exact ⟨moved, AList.lookup_insert _, by rw [hmoved, hn]⟩
    · exact ⟨cur, (AList.lookup_insert_ne hname).trans hn, rfl⟩
  obtain ⟨file, hfile, hrun⟩ := Option.bind_eq_some_iff.mp hrun
  rcases hread : readRecord tc file cursor.filePos with ⟨pos, _ | value⟩ <;> rw [hread] at hrun <;>
    cases hrun
  · refine ⟨fun seg hseg => hshared _ _ rfl _ (hkept seg hseg), first, ha.setReaders _ _ _, ?_⟩
    refine ht.update c (some (some _)) (lookup_same _ hoff) (lookup_same _ hc)
      (lookup_insert_ite _ _ · _) hactive.symm ⟨hlo, hle⟩ ?_
    intro moved hmoved
    rw [← Option.some.inj (Option.some.inj hmoved)]
    exact hlogical
  · refine ⟨fun seg hseg => hshared _ _ rfl _ (hkept seg hseg), first, ha.setReaders _ _ _, ?_⟩
    refine ht.update {c with volatile := cursor.logicalOffset+1} (some (some _)) (lookup_same _ hoff)
      (lookup_insert_ite _ _ · _) (lookup_insert_ite _ _ · _) hactive.symm ⟨hlo, ?_⟩ ?_
    · show c.committed ≤ cursor.logicalOffset+1
      omega
    · intro moved hmoved
      rw [← Option.some.inj (Option.some.inj hmoved)]

omit [DecidableEq Name] in
theorem position_found {offset : Nat} {cursor : SegmentCursor}
    (h : t.position offset = some (.found cursor)) : cursor.logicalOffset = offset := by
  rw [position] at h
  split_ifs at h
  · cases h
  · obtain ⟨segment, -, h⟩ := Option.bind_eq_some_iff.mp h
    split at h
    · cases h
    · split at h
      · cases h
      · cases h
        rfl

theorem Tidy.positionAndRead (h : t.Tidy) {r : Next T} (hcur : t.readers.lookup name = some current)
    (hc : t.consumers.lookup name = some c)
    (hrun : t.positionAndRead tc name c = some (t', r)) : t'.Tidy := by
  have hclear : (t.setCursor name none).release.Tidy := by
    obtain ⟨-, first, ha, ht⟩ := h
    obtain ⟨hactive, hoff, hlo, hle⟩ := ht.reader hcur hc
    refine tidy_release (ha.setReaders _ _ _) ?_
    exact ht.update c (some none) (lookup_same _ hoff) (lookup_same _ hc) (lookup_insert_ite _ _ · _)
      hactive.symm ⟨hlo, hle⟩ (fun cursor hcursor => by cases hcursor)
  have hnone : (t.setCursor name none).release.readers.lookup name = some none :=
    AList.lookup_insert _
  have hc' : (t.setCursor name none).release.consumers.lookup name = some c := hc
  rw [Topic.positionAndRead] at hrun
  generalize (t.setCursor name none).release = u at hclear hnone hc' hrun
  obtain ⟨positioned, hpos, hrun⟩ := Option.bind_eq_some_iff.mp hrun
  cases positioned with
  | atEnd =>
    cases hrun
    exact hclear
  | ioError =>
    cases hrun
    exact hclear
  | found cursor =>
    have hmoved : (u.setCursor name (some cursor)).Tidy := by
      obtain ⟨hkept, first, ha, ht⟩ := hclear
      obtain ⟨hactive, hoff, hlo, hle⟩ := ht.reader hnone hc'
      refine ⟨fun seg hseg => shared_setCursor (fun cur hcur => ?_) (hkept seg hseg), first,
        ha.setReaders _ _ _, ?_⟩
      · rw [hnone] at hcur
        cases hcur
      · refine ht.update c (some (some cursor)) (lookup_same _ hoff) (lookup_same _ hc')
          (lookup_insert_ite _ _ · _) hactive.symm ⟨hlo, hle⟩ ?_
        intro moved hmoved
        rw [← Option.some.inj (Option.some.inj hmoved)]
        exact position_found hpos
    exact hmoved.readCursor (AList.lookup_insert _) hc' hrun

theorem Tidy.next (h : t.Tidy) {r : Next T} (hrun : t.next tc name = some (t', r)) : t'.Tidy := by
  obtain ⟨current, hcur, hrun⟩ := Option.bind_eq_some_iff.mp hrun
  obtain ⟨c, hc, hrun⟩ := Option.bind_eq_some_iff.mp hrun
  cases current with
  | none => exact h.positionAndRead hcur hc hrun
  | some cursor =>
    obtain ⟨segment, -, hrun⟩ := Option.bind_eq_some_iff.mp hrun
    split_ifs at hrun
    · exact h.readCursor hcur hc hrun
    · cases hrun
      exact h
    · exact h.positionAndRead hcur hc hrun

end Handle

end Steps

section Open

theorem scanLoop_bounds {file : Bytes} {fuel records cursor n stop : Nat}
    (h : scanLoop file fuel records cursor = some (n, stop)) (hcursor : cursor ≤ file.length) :
    records ≤ n ∧ stop ≤ file.length := by
  induction fuel generalizing records cursor with
  | zero => cases h
  | succ fuel ih =>
    rw [scanLoop] at h
    split_ifs at h with hroom
    · obtain ⟨size, -, h⟩ := Option.bind_eq_some_iff.mp h
      dsimp only at h
      split_ifs at h with hstop
      · cases h
        exact ⟨le_refl _, hcursor⟩
      · have hnext := ih h (by omega)
        exact ⟨by omega, hnext.2⟩
    · cases h
      exact ⟨le_refl _, hcursor⟩

theorem scanActiveSegment_bounds {file : Bytes} {base stop len : Nat}
    (h : scanActiveSegment file base = some (stop, len)) : base ≤ stop ∧ len ≤ file.length := by
  obtain ⟨magic, hmagic, h⟩ := Option.bind_eq_some_iff.mp h
  have hheader : segmentHeaderSize ≤ file.length := by
    obtain ⟨bytes, hbytes, -⟩ := Option.map_eq_some_iff.mp hmagic
    rw [slice?] at hbytes
    split_ifs at hbytes with hlen
    exact hlen
  by_cases hm : magic = topicMagic
  swap
  · simp [hm] at h
  simp only [hm, ne_eq, not_true_eq_false, if_false] at h
  obtain ⟨⟨records, cursor⟩, hloop, h⟩ := Option.bind_eq_some_iff.mp h
  have hbounds := scanLoop_bounds hloop hheader
  cases h
  exact ⟨by omega, hbounds.2⟩

omit [DecidableEq Name] in
/-- The sorted file names are the bases of the segments, oldest first. -/
theorem Accounts.sorted_bases (h : t.Accounts first) (hheld : t.held = []) :
    t.dir.keys.insertionSort (· ≤ ·) = t.segments.map Segment.baseOffset := by
  refine sorted_keys h.cover.pairwise_base fun b => ⟨?_, ?_⟩
  · intro hb
    simpa [hheld] using h.listed b hb
  · intro hb
    obtain ⟨x, hx, rfl⟩ := List.mem_map.mp hb
    obtain ⟨file, hfile, -⟩ := Option.map_eq_some_iff.mp (h.sized x (List.mem_append_left _ hx))
    rw [hfile]
    rfl

/-- The file of the active segment is cut to what was scanned. -/
theorem lookup_cutFile {dir : AList (fun _ : Nat => Bytes)} {base len : Nat} {file : Bytes}
    (hfile : dir.lookup base = some file) (hlen : len ≤ file.length) (b : Nat) :
    ((if len < file.length then dir.insert base (setLen file len) else dir).lookup b).map List.length =
      if b = base then some len else (dir.lookup b).map List.length := by
  by_cases hshort : len < file.length
  · have hset : (setLen file len).length = len := by
      rw [setLen, List.length_append, List.length_take, List.length_replicate]
      omega
    rw [if_pos hshort, lookup_insert_ite]
    by_cases hb : b = base
    · rw [if_pos hb, if_pos hb, Option.map_some, hset]
    · rw [if_neg hb, if_neg hb]
  · rw [if_neg hshort]
    by_cases hb : b = base
    · rw [if_pos hb, hb, hfile, Option.map_some]
      congr 1
      omega
    · rw [if_neg hb]

/-- The consumers of `open` stand at their persisted offsets. -/
theorem tracked_opened (hoffsets : ∀ name n, t.offsets.lookup name = some n → first ≤ n)
    (hconsumers : t.consumers = insertAll ∅ (t.offsets.entries.map fun e => ⟨e.1, ⟨e.2, e.2, false⟩⟩))
    (hreaders : t.readers = ∅) : t.Tracked first := by
  have hlook : ∀ name, t.consumers.lookup name =
      (t.offsets.lookup name).map fun n => ⟨n, n, false⟩ := by
    intro name
    rw [hconsumers]
    exact lookup_insertAll_map t.offsets (fun n => ConsumerState.mk n n false) name
  refine ⟨?_, ?_, ?_, ?_⟩
  · intro name
    rw [hlook]
    cases t.offsets.lookup name <;> rfl
  · intro name c hc
    rw [hlook] at hc
    obtain ⟨n, hn, rfl⟩ := Option.map_eq_some_iff.mp hc
    exact ⟨hoffsets name n hn, le_refl _⟩
  · intro name
    rw [hlook, hreaders]
    cases t.offsets.lookup name <;> rfl
  · intro name cursor c hcur
    rw [hreaders] at hcur
    cases hcur

/-- `open` counts afresh what the files say. -/
theorem Tidy.reopen (h : t.Tidy) (hempty : t.readers.entries = []) (hrun : t.reopen = some t') :
    t'.Tidy := by
  obtain ⟨hkept, first, ha, ht⟩ := h
  have hheld := held_eq_nil hkept hempty
  obtain ⟨a, rest, hsegs⟩ := List.exists_cons_of_ne_nil ha.nonempty
  have hsorted := ha.cover.pairwise_base
  have hfirst : a.baseOffset = first := by
    have hcover := ha.cover
    rw [hsegs] at hcover
    exact hcover.head_eq
  simp only [Topic.reopen, openDir, ha.sorted_bases hheld] at hrun
  obtain ⟨activeBase, hactive, hrun⟩ := Option.bind_eq_some_iff.mp hrun
  obtain ⟨file, hfile, hrun⟩ := Option.bind_eq_some_iff.mp hrun
  obtain ⟨⟨activeEnd, activeLen⟩, hscan, hrun⟩ := Option.bind_eq_some_iff.mp hrun
  obtain ⟨hstop, hlen⟩ := scanActiveSegment_bounds hscan
  obtain ⟨segments, hsegments, hrun⟩ := Option.bind_eq_some_iff.mp hrun
  obtain ⟨firstSegment, hhead, hrun⟩ := Option.bind_eq_some_iff.mp hrun
  obtain ⟨lastSegment, hlast, hrun⟩ := Option.bind_eq_some_iff.mp hrun
  have hcut := lookup_cutFile hfile hlen
  generalize (if activeLen < file.length then t.dir.insert activeBase (setLen file activeLen)
      else t.dir) = dir at hsegments hrun hcut
  obtain ⟨hbases, hcover, hsized⟩ := openSegments_spec hsegments hsorted (by
    intro base hbase
    rw [hactive] at hbase
    cases hbase
    exact ⟨hstop, (hcut _).trans (if_pos rfl)⟩)
  have hcover := hcover a.baseOffset (by simp [hsegs])
  rw [hfirst] at hcover
  have hne : segments ≠ [] := by
    intro hnil
    rw [hnil] at hhead
    cases hhead
  have hfirstSegment : firstSegment.baseOffset = first := by
    cases hlist : segments with
    | nil => exact absurd hlist hne
    | cons x xs =>
      rw [hlist] at hhead hcover
      cases hhead
      exact hcover.head_eq
  have hlastSegment : lastSegment.endOffset = activeEnd := by
    obtain ⟨init, x, hlist⟩ : ∃ init x, segments = init ++ [x] :=
      ⟨_, _, (List.dropLast_append_getLast hne).symm⟩
    rw [hlist, List.getLast?_concat] at hlast
    rw [hlist] at hcover
    cases hlast
    exact hcover.last_end
  rw [hfirstSegment, hlastSegment] at hrun
  rw [← Option.some.inj hrun]
  have hnodup : (segments.map Segment.baseOffset).Nodup := by
    rw [hbases]
    exact hsorted.imp ne_of_lt
  have hoffsets : ∀ name n, t.offsets.lookup name = some n → first ≤ n := by
    intro name n hn
    rw [ht.offsets] at hn
    obtain ⟨c, hc, rfl⟩ := Option.map_eq_some_iff.mp hn
    exact (ht.bounds name c hc).1
  refine ⟨by simp, first, ⟨hne, hcover, rfl, rfl, rfl, ?_, ?_, ?_, by simp⟩,
    tracked_opened hoffsets rfl rfl⟩
  · simpa using hsized
  · simpa using hnodup
  · intro b hb
    have hlength : ((t.dir.lookup b).map List.length).isSome := by
      have hcutb := hcut b
      by_cases hba : b = activeBase
      · rw [hba, hfile]
        rfl
      · rw [if_neg hba] at hcutb
        rw [← hcutb]
        simpa using hb
    have hmem := ha.listed b (by simpa using hlength)
    simpa [hbases, hheld] using hmem
end Open

theorem tidy_create {maxSegmentBytes : Nat} (hcreate : Topic.create maxSegmentBytes = some t) :
    t.Tidy := by
  cases hcreate
  refine ⟨by simp, 0, ⟨by simp, ?_, rfl, rfl, rfl, ?_, by simp, ?_, by simp⟩, by simp, by simp, by simp,
    by simp⟩
  · exact ⟨rfl, le_refl _, fun hne => absurd rfl hne, rfl⟩
  · intro x hx
    obtain rfl : x = .fresh 0 := by simpa using hx
    rfl
  · intro b hb
    rw [lookup_insert_ite] at hb
    split_ifs at hb with hzero
    · simp [Segment.fresh, hzero]
    · cases hb

theorem Tidy.step (h : t.Tidy) {op : Op Name T} {ret : Ret T} (hstep : t.step tc op = some (t', ret)) :
    t'.Tidy := by
  cases op with
  | append value =>
    obtain ⟨⟨t₁, offset⟩, happend, heq⟩ := Option.map_eq_some_iff.mp hstep
    cases heq
    exact h.append happend
  | compact =>
    obtain ⟨t₁, hcompact, heq⟩ := Option.map_eq_some_iff.mp hstep
    cases heq
    exact h.compact hcompact
  | register name =>
    rw [Topic.step] at hstep
    cases hconsumer : t.consumer name with
    | none =>
      rw [hconsumer] at hstep
      cases hstep
      exact h
    | some t₁ =>
      rw [hconsumer] at hstep
      cases hstep
      exact h.register hconsumer
  | next name =>
    rw [Topic.step] at hstep
    split_ifs at hstep with hopen
    · obtain ⟨⟨t₁, r⟩, hnext, heq⟩ := Option.map_eq_some_iff.mp hstep
      cases heq
      exact h.next hnext
    · cases hstep
      exact h
  | commit name =>
    rw [Topic.step] at hstep
    split_ifs at hstep with hopen
    · obtain ⟨t₁, hcommit, heq⟩ := Option.map_eq_some_iff.mp hstep
      cases heq
      obtain ⟨current, hcur⟩ := Option.isSome_iff_exists.mp hopen
      exact h.commit hcur hcommit
    · cases hstep
      exact h
  | reset name =>
    rw [Topic.step] at hstep
    split_ifs at hstep with hopen
    · obtain ⟨t₁, hreset, heq⟩ := Option.map_eq_some_iff.mp hstep
      cases heq
      obtain ⟨current, hcur⟩ := Option.isSome_iff_exists.mp hopen
      exact h.reset hcur hreset
    · cases hstep
      exact h
  | drop name =>
    rw [Topic.step] at hstep
    split_ifs at hstep with hopen
    · obtain ⟨t₁, hdrop, heq⟩ := Option.map_eq_some_iff.mp hstep
      cases heq
      obtain ⟨current, hcur⟩ := Option.isSome_iff_exists.mp hopen
      exact h.dropReader hcur hdrop
    · cases hstep
      exact h
  | delete name =>
    rw [Topic.step] at hstep
    split_ifs at hstep with hopen
    · cases hstep
      exact h.delete name
    · cases hstep
      exact h
  | reopen =>
    rw [Topic.step] at hstep
    split_ifs at hstep with hempty
    · obtain ⟨t₁, hreopen, heq⟩ := Option.map_eq_some_iff.mp hstep
      cases heq
      exact h.reopen hempty hreopen
    · cases hstep
      exact h

theorem Tidy.run (h : t.Tidy) {ops : List (Op Name T)} {rets : List (Ret T)}
    (hrun : t.run tc ops = some (t', rets)) : t'.Tidy := by
  induction ops generalizing t rets with
  | nil =>
    cases hrun
    exact h
  | cons op ops ih =>
    obtain ⟨⟨t₁, ret⟩, hstep, hrun⟩ := Option.bind_eq_some_iff.mp hrun
    obtain ⟨⟨t₂, rets₂⟩, hrest, heq⟩ := Option.bind_eq_some_iff.mp hrun
    cases heq
    exact ih (h.step hstep) hrest

/-- What users may rely on in the segments and statistics of a topic. -/
structure Accounted (t : Topic Name) : Prop where
  nonempty : t.segments ≠ []
  contiguous : ∀ i a b, t.segments[i]? = some a → t.segments[i+1]? = some b →
    a.endOffset = b.baseOffset ∧ a.baseOffset < b.baseOffset ∧ 0 < a.recordCount
  ends : ∀ s ∈ t.segments, s.baseOffset ≤ s.endOffset
  tail : ∀ s, t.segments.getLast? = some s → s.endOffset = t.stats.nextOffset
  earliest : ∀ s, t.segments.head? = some s → t.stats.earliestOffset = s.baseOffset
  records : t.stats.records = t.stats.nextOffset-t.stats.earliestOffset
  ordered : t.stats.earliestOffset ≤ t.stats.nextOffset
  retained : t.stats.retainedBytes = (t.segments.map Segment.byteLen).sum
  files : ∀ s ∈ t.segments, ∃ file, t.dir.lookup s.baseOffset = some file ∧ file.length = s.byteLen
  committed : ∀ name c, t.consumers.lookup name = some c → t.stats.earliestOffset ≤ c.committed

theorem cover_contiguous {b e : Nat} {segs : List Segment} (h : Cover b segs e) {i : Nat}
    {x y : Segment} (hx : segs[i]? = some x) (hy : segs[i+1]? = some y) :
    x.endOffset = y.baseOffset ∧ x.baseOffset < y.baseOffset ∧ 0 < x.recordCount := by
  induction segs generalizing b i with
  | nil => cases hx
  | cons s rest ih =>
    obtain ⟨hb, -, hlt, hrest⟩ := h
    rw [List.getElem?_cons_succ] at hy
    cases i with
    | zero =>
      cases hx
      cases rest with
      | nil => cases hy
      | cons s' rest =>
        cases hy
        have hbase : y.baseOffset = x.endOffset := hrest.head_eq
        have hpos := hlt (by simp)
        rw [Segment.recordCount]
        omega
    | succ i => exact ih hrest hx hy

theorem Tidy.accounted (h : t.Tidy) : t.Accounted := by
  obtain ⟨-, first, ha, ht⟩ := h
  have hcover := ha.cover
  refine ⟨ha.nonempty, fun i a b hi hi' => cover_contiguous hcover hi hi',
    fun s hs => (hcover.mem_bounds s hs).2.1, ?_, ?_, ?_, ?_, ha.retained, ?_, ?_⟩
  · intro s hs
    obtain ⟨init, hinit⟩ := List.getLast?_eq_some_iff.mp hs
    rw [hinit] at hcover
    exact hcover.last_end
  · intro s hs
    obtain ⟨rest, hrest⟩ := List.head?_eq_some_iff.mp hs
    rw [hrest] at hcover
    rw [ha.earliest]
    exact hcover.head_eq.symm
  · rw [ha.records, ha.earliest]
  · rw [ha.earliest]
    exact ha.first_le
  · intro s hs
    exact Option.map_eq_some_iff.mp (ha.sized s (List.mem_append_left _ hs))
  · intro name c hc
    rw [ha.earliest]
    exact (ht.bounds name c hc).1

/-- In every state of every run, with records of any size. -/
theorem run_accounted {maxSegmentBytes : Nat} {t₀ : Topic Name}
    (hcreate : Topic.create maxSegmentBytes = some t₀) {ops : List (Op Name T)} {rets : List (Ret T)}
    (hrun : t₀.run tc ops = some (t, rets)) : t.Accounted :=
  ((tidy_create hcreate).run hrun).accounted

/-- A run with rotations, a compaction behind the committed offset, and a reopen. -/
theorem run_accounted_compacted :
    ∃ t₀ t : Topic Unit, ∃ rets, Topic.create 8 = some t₀ ∧
      t₀.run byteCodec [.append 7, .register (), .append 9, .next (), .commit (), .append 5, .compact,
        .drop (), .reopen] = some (t, rets) ∧ t.stats.earliestOffset = 2 ∧ t.Accounted := by
  have hrun : ((Topic.create 8 : Option (Topic Unit)).bind fun t₀ => t₀.run byteCodec [.append 7,
      .register (), .append 9, .next (), .commit (), .append 5, .compact, .drop (), .reopen]).map
        (·.1.stats.earliestOffset) = some 2 := by decide +kernel
  obtain ⟨⟨t, rets⟩, hrun, hearliest⟩ := Option.map_eq_some_iff.mp hrun
  obtain ⟨t₀, hcreate, hrun⟩ := Option.bind_eq_some_iff.mp hrun
  exact ⟨t₀, t, rets, hcreate, hrun, hearliest, run_accounted hcreate hrun⟩

end Topic

end ZenDB
