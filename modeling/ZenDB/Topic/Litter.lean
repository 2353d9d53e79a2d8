import ZenDB.Topic.Reopen

namespace ZenDB

/-! Segment files that hold more than their records. A write that fails leaves bytes behind the last
record, and of the segments in front of an origin nothing is known but that they are segments. -/

variable {T : Type} {tc : Codec T}

/-- The records of a segment in a log that begins at `origin`. -/
def Segment.records (log : List T) (origin : Nat) (s : Segment) : List T :=
  window log (s.baseOffset-origin) (s.endOffset-origin)

/-- What may stand behind the records of a file. -/
def Leftover (faults : Prop) (rest : Bytes) : Prop := rest = [] ∨ faults ∧ Torn rest

theorem leftover_nil {faults : Prop} : Leftover faults [] := Or.inl rfl

theorem Leftover.torn {faults : Prop} {rest : Bytes} (h : Leftover faults rest) : Torn rest := by
  rcases h with rfl | ⟨-, h⟩
  · exact torn_nil
  · exact h

/-- The file holds the records of the segment and behind them what a failed write left. -/
def Filled (tc : Codec T) (faults : Prop) (log : List T) (origin : Nat)
    (dir : AList (fun _ : Nat => Bytes)) (s : Segment) : Prop :=
  ∃ rest, Leftover faults rest ∧
    dir.lookup s.baseOffset = some (segmentFile tc (s.records log origin) ++ rest)

/-- The file of a segment is filled, unless the segment lies in front of the origin. -/
structure Shelved (tc : Codec T) (faults : Prop) (log : List T) (origin : Nat)
    (dir : AList (fun _ : Nat => Bytes)) (s : Segment) : Prop where
  base_le : s.baseOffset ≤ s.endOffset
  end_le : s.endOffset ≤ origin+log.length
  apart : origin ≤ s.baseOffset ∨ s.endOffset ≤ origin
  magic : ∃ file, dir.lookup s.baseOffset = some file ∧ readU32Le file 0 = some topicMagic
  filled : origin ≤ s.baseOffset → Filled tc faults log origin dir s

/-- The segments and files of a topic whose records from `origin` on are `log`. With `faults`, writes
may have failed: a file that belongs to no segment is one whose creation failed. -/
structure Topic.Stocked {Name : Type} (tc : Codec T) (faults : Prop) (t : Topic Name)
    (log : List T) (origin : Nat) : Prop where
  fits : ∀ v ∈ log, (tc.enc v).length < 2^32
  nextOffset : t.stats.nextOffset = origin+log.length
  nonempty : t.segments ≠ []
  cover : Cover t.stats.earliestOffset t.segments (origin+log.length)
  shelved : ∀ s ∈ t.segments ++ t.held, Shelved tc faults log origin t.dir s
  active : ∀ a, t.segments.getLast? = some a →
    origin ≤ a.baseOffset ∧ a.byteLen = (segmentFile tc (a.records log origin)).length
  distinct : ((t.segments ++ t.held).map Segment.baseOffset).Nodup
  stray : ∀ b file, t.dir.lookup b = some file →
    b ∈ (t.segments ++ t.held).map Segment.baseOffset ∨ faults ∧ file.length < segmentHeaderSize
  live : ∀ s ∈ t.segments, s.deleteOnDrop = false
  held : ∀ s ∈ t.held, s.deleteOnDrop = true ∧ s.baseOffset < s.endOffset ∧
    s.endOffset ≤ t.stats.earliestOffset

section Shelved

variable {faults : Prop} {log : List T} {origin : Nat} {dir dir' : AList (fun _ : Nat => Bytes)}
  {s : Segment}

theorem Shelved.lookup (h : Shelved tc faults log origin dir s)
    (hdir : dir'.lookup s.baseOffset = dir.lookup s.baseOffset) :
    Shelved tc faults log origin dir' s := by
  refine ⟨h.base_le, h.end_le, h.apart, hdir ▸ h.magic, fun horigin => ?_⟩
  obtain ⟨rest, hrest, hfile⟩ := h.filled horigin
  exact ⟨rest, hrest, hdir.trans hfile⟩

/-- A segment behind the origin. -/
theorem Filled.shelved (h : Filled tc faults log origin dir s) (horigin : origin ≤ s.baseOffset)
    (hbase : s.baseOffset ≤ s.endOffset) (hend : s.endOffset ≤ origin+log.length) :
    Shelved tc faults log origin dir s := by
  obtain ⟨rest, -, hfile⟩ := id h
  exact ⟨hbase, hend, Or.inl horigin, ⟨_, hfile, readMagic_segmentFile tc _ rest⟩, fun _ => h⟩

theorem Shelved.append (h : Shelved tc faults log origin dir s) (v : T) :
    Shelved tc faults (log ++ [v]) origin dir s := by
  have hend := h.end_le
  have hrecords : s.records (log ++ [v]) origin = s.records log origin :=
    window_append log [v] _ _ (by omega)
  refine ⟨h.base_le, ?_, h.apart, h.magic, ?_⟩
  · rw [List.length_append]
    omega
  · rw [Filled, hrecords]
    exact h.filled

end Shelved

namespace Topic

variable {Name : Type} {faults : Prop} {t : Topic Name} {log : List T} {origin : Nat}

namespace Stocked

theorem setReaders (h : t.Stocked tc faults log origin) (offsets : AList (fun _ : Name => Nat))
    (consumers : AList (fun _ : Name => ConsumerState))
    (readers : AList (fun _ : Name => Option SegmentCursor)) :
    {t with offsets := offsets, consumers := consumers, readers := readers}.Stocked tc faults log origin :=
  ⟨h.fits, h.nextOffset, h.nonempty, h.cover, h.shelved, h.active, h.distinct, h.stray, h.live,
    h.held⟩

theorem marked (h : t.Stocked tc faults log origin) : ∀ seg ∈ t.held, seg.deleteOnDrop = true :=
  fun seg hseg => (h.held seg hseg).1

theorem first_le (h : t.Stocked tc faults log origin) :
    t.stats.earliestOffset ≤ t.stats.nextOffset := by
  obtain ⟨a, rest, hsegs⟩ := List.exists_cons_of_ne_nil h.nonempty
  have hb := h.cover.mem_bounds a (by simp [hsegs])
  rw [h.nextOffset]
  omega

theorem base_inj (h : t.Stocked tc faults log origin) {x y : Segment} (hx : x ∈ t.segments ++ t.held)
    (hy : y ∈ t.segments ++ t.held) (hxy : x.baseOffset = y.baseOffset) : x = y :=
  List.inj_on_of_nodup_map h.distinct hx hy hxy

/-- Bases are distinct, so a cursor's segment is the one found under its base. -/
theorem find_base (h : t.Stocked tc faults log origin) {seg : Segment}
    (hseg : seg ∈ t.segments ++ t.held) :
    (t.segments ++ t.held).find? (·.baseOffset = seg.baseOffset) = some seg := by
  cases hfind : (t.segments ++ t.held).find? (·.baseOffset = seg.baseOffset) with
  | none =>
    have hno := List.find?_eq_none.mp hfind seg hseg
    simp at hno
  | some x =>
    have hx := List.find?_some hfind
    rw [h.base_inj (List.mem_of_find?_eq_some hfind) hseg (by simpa using hx)]

theorem head_base (h : t.Stocked tc faults log origin) :
    ∃ x, t.segments.head? = some x ∧ x.baseOffset = t.stats.earliestOffset := by
  obtain ⟨x, rest, hsegs⟩ := List.exists_cons_of_ne_nil h.nonempty
  have hcover := h.cover
  rw [hsegs] at hcover
  exact ⟨x, by rw [hsegs]; rfl, hcover.head_eq⟩

/-- The active segment with those in front of it. -/
theorem exists_active (h : t.Stocked tc faults log origin) :
    ∃ init a, t.segments = init ++ [a] ∧ t.segments.getLast? = some a ∧
      a.endOffset = origin+log.length := by
  obtain ⟨init, a, hsegs⟩ : ∃ init a, t.segments = init ++ [a] :=
    ⟨_, _, (List.dropLast_append_getLast h.nonempty).symm⟩
  have hcover := h.cover
  rw [hsegs] at hcover
  exact ⟨init, a, hsegs, by rw [hsegs, List.getLast?_concat], hcover.last_end⟩

theorem filled_active (h : t.Stocked tc faults log origin) {a : Segment}
    (ha : t.segments.getLast? = some a) : Filled tc faults log origin t.dir a :=
  (h.shelved a (List.mem_append_left _ (List.mem_of_getLast? ha))).filled (h.active a ha).1

theorem release (h : t.Stocked tc faults log origin) : t.release.Stocked tc faults log origin := by
  have hsub : (t.segments ++ t.release.held).Sublist (t.segments ++ t.held) :=
    List.Sublist.append (List.Sublist.refl _) List.filter_sublist
  refine ⟨h.fits, h.nextOffset, h.nonempty, h.cover, ?_, h.active, h.distinct.sublist (hsub.map _),
    ?_, h.live, fun x hx => h.held x (List.mem_of_mem_filter hx)⟩
  · intro x hx
    exact (h.shelved x (hsub.subset hx)).lookup (lookup_release_kept h.marked h.distinct hx)
  · intro b file hb
    obtain ⟨hbefore, hmem⟩ := lookup_of_release h.marked hb
    exact (h.stray b file hbefore).imp_left hmem

theorem getLast?_compacted {k : Nat} (hk : k < t.segments.length) (first' : Nat) :
    (t.compacted k first').segments.getLast? = t.segments.getLast? := by
  rw [compacted, removeSegments, List.getLast?_drop, if_neg (by simpa using hk)]

theorem compacted (h : t.Stocked tc faults log origin) {k first' : Nat}
    (hr : t.Removal t.stats.earliestOffset (origin+log.length) k first') :
    (t.compacted k first').Stocked tc faults log origin := by
  have hperm := t.bases_removeSegments k
  refine ⟨h.fits, h.nextOffset, ?_, hr.cover, ?_, ?_, hperm.nodup_iff.mpr h.distinct, ?_, ?_, ?_⟩
  · show t.segments.drop k ≠ []
    rw [← List.length_pos_iff, List.length_drop]
    exact Nat.sub_pos_of_lt hr.lt
  · intro x hx
    rcases mem_removeSegments hx with hx | ⟨y, hy, rfl⟩
    · exact h.shelved x hx
    · have hy := h.shelved y (List.mem_append_left _ (List.mem_of_mem_take hy))
      exact ⟨hy.base_le, hy.end_le, hy.apart, hy.magic, hy.filled⟩
  · intro a ha
    exact h.active a (getLast?_compacted hr.lt first' ▸ ha)
  · intro b file hb
    exact (h.stray b file hb).imp_left hperm.mem_iff.mpr
  · intro x hx
    exact h.live x (List.mem_of_mem_drop hx)
  · intro x hx
    rcases List.mem_append.mp hx with hx | hx
    · obtain ⟨hmarked, hpos, hend⟩ := h.held x hx
      exact ⟨hmarked, hpos, hend.trans hr.le⟩
    · obtain ⟨y, hy, rfl⟩ := List.mem_map.mp hx
      exact ⟨rfl, hr.below y hy⟩

/-- While the active segment holds a record, no segment begins at the tail. -/
theorem base_lt (h : t.Stocked tc faults log origin) {init : List Segment} {a : Segment}
    (hsegs : t.segments = init ++ [a]) (ha : a.baseOffset < a.endOffset) :
    ∀ x ∈ t.segments ++ t.held, x.baseOffset < t.stats.nextOffset := by
  have hcover := h.cover
  rw [hsegs] at hcover
  have hend := hcover.last_end
  rw [h.nextOffset]
  intro x hx
  rcases List.mem_append.mp hx with hx | hx
  · rw [hsegs] at hx
    rcases List.mem_append.mp hx with hx | hx
    · have hle := hcover.init_le x hx
      have hbase := (hcover.mem_bounds x (List.mem_append_left _ hx)).2.1
      omega
    · rw [List.mem_singleton.mp hx]
      omega
  · have hpos := (h.held x hx).2.1
    have hle := (h.shelved x (List.mem_append_right _ hx)).end_le
    omega

/-- Rotation leaves whatever the active file ended with in a sealed segment. -/
theorem rotated (h : t.Stocked tc faults log origin) {init : List Segment} {a : Segment}
    (hsegs : t.segments = init ++ [a]) (ha : a.baseOffset < a.endOffset) :
    t.rotated.Stocked tc faults log origin := by
  have hne : ∀ x ∈ t.segments ++ t.held, x.baseOffset ≠ t.stats.nextOffset :=
    fun x hx => (h.base_lt hsegs ha x hx).ne
  have hnext := h.nextOffset
  have hrecords : (Segment.fresh t.stats.nextOffset).records log origin = [] := window_self _ _
  have hbase : origin ≤ (Segment.fresh t.stats.nextOffset).baseOffset := by
    show origin ≤ t.stats.nextOffset
    omega
  refine ⟨h.fits, hnext, by simp [Topic.rotated], ?_, ?_, ?_, distinct_rotated h.distinct hne, ?_, ?_,
    h.held⟩
  · have hcover := h.cover
    show Cover t.stats.earliestOffset (t.segments ++ [Segment.fresh t.stats.nextOffset])
      (origin+log.length)
    rw [hsegs] at hcover ⊢
    exact hcover.snoc ha hnext hnext
  · intro x hx
    rcases mem_rotated hx with hx | rfl
    · exact (h.shelved x hx).lookup (AList.lookup_insert_ne (hne x hx))
    · refine Filled.shelved ⟨[], leftover_nil, ?_⟩ hbase (le_refl _) hnext.le
      rw [hrecords, List.append_nil]
      exact (AList.lookup_insert _).trans (by simp [segmentFile])
  · intro x hx
    have hlast : t.rotated.segments.getLast? = some (Segment.fresh t.stats.nextOffset) :=
      List.getLast?_concat
    rw [hlast, Option.some.injEq] at hx
    subst hx
    refine ⟨hbase, ?_⟩
    rw [hrecords]
    simp [Segment.fresh, segmentFile, segmentHeaderSize]
  · intro b file hb
    simp only [Topic.rotated, lookup_insert_ite] at hb
    split_ifs at hb with hbn
    · refine Or.inl ?_
      rw [hbn]
      exact List.mem_map_of_mem (a := Segment.fresh t.stats.nextOffset) (by simp [Topic.rotated])
    · refine (h.stray b file hb).imp_left fun hmem => ?_
      simp only [Topic.rotated, List.map_append, List.mem_append] at hmem ⊢
      tauto
  · intro x hx
    rcases List.mem_append.mp hx with hx | hx
    · exact h.live x hx
    · rw [List.mem_singleton.mp hx]
      rfl

/-- A record behind an active file that ends with its records. -/
theorem written (h : t.Stocked tc faults log origin) {init : List Segment} {a : Segment}
    (hsegs : t.segments = init ++ [a]) {v : T} (hv : (tc.enc v).length < 2^32) :
    (t.written init a (segmentFile tc (a.records log origin)) (frame tc v)).Stocked tc faults
      (log ++ [v]) origin := by
  have ha : a ∈ t.segments ++ t.held := by simp [hsegs]
  obtain ⟨hbase, hbytes⟩ := h.active a (by rw [hsegs, List.getLast?_concat])
  have hcover := h.cover
  rw [hsegs] at hcover
  have hend := hcover.last_end
  have hnext := h.nextOffset
  have hle := (h.shelved a ha).base_le
  have hrecords : Segment.records (log ++ [v]) origin
      {a with byteLen := a.byteLen+(frame tc v).length, endOffset := t.stats.nextOffset+1} =
        a.records log origin ++ [v] := by
    rw [Segment.records, Segment.records, hend, hnext, Nat.add_assoc, Nat.add_sub_cancel_left,
      Nat.add_sub_cancel_left]
    exact window_snoc log v _ (by dsimp only; omega)
  refine ⟨?_, ?_, by simp [Topic.written], ?_, ?_, ?_, bases_written hsegs ▸ h.distinct, ?_, ?_,
    h.held⟩
  · intro x hx
    rcases List.mem_append.mp hx with hx | hx
    · exact h.fits x hx
    · rw [List.mem_singleton.mp hx]
      exact hv
  · show t.stats.nextOffset+1 = _
    rw [hnext, List.length_append, List.length_singleton, Nat.add_assoc]
  · rw [List.length_append, ← Nat.add_assoc]
    exact hcover.setLast rfl (by rw [hnext]; rfl) (by omega)
  · intro x hx
    rcases mem_written hsegs h.distinct hx with rfl | ⟨hmem, hne⟩
    · refine Filled.shelved ⟨[], leftover_nil, ?_⟩ hbase (by dsimp only; omega) ?_
      · rw [hrecords, List.append_nil, segmentFile_snoc]
        exact AList.lookup_insert _
      · dsimp only
        rw [List.length_append, List.length_singleton]
        omega
    · exact ((h.shelved x hmem).append v).lookup (AList.lookup_insert_ne hne)
  · intro x hx
    rw [show (t.written init a (segmentFile tc (a.records log origin)) (frame tc v)).segments.getLast?
      = some _ from List.getLast?_concat, Option.some.injEq] at hx
    subst hx
    refine ⟨hbase, ?_⟩
    rw [hrecords, segmentFile_snoc, List.length_append, hbytes]
  · intro b file hb
    rw [bases_written hsegs]
    simp only [Topic.written, lookup_insert_ite] at hb
    split_ifs at hb with hba
    · exact Or.inl (hba ▸ List.mem_map_of_mem ha)
    · exact h.stray b file hb
  · intro x hx
    rcases List.mem_append.mp hx with hx | hx
    · exact h.live x (by rw [hsegs]; simp [hx])
    · rw [List.mem_singleton.mp hx]
      exact h.live a (by rw [hsegs]; simp)

/-- A failed write behind an active file that ends with its records. -/
theorem littered (h : t.Stocked tc faults log origin) {a : Segment}
    (hlast : t.segments.getLast? = some a) {rest : Bytes} (hrest : Leftover faults rest) :
    Stocked tc faults
      {t with dir := t.dir.insert a.baseOffset (segmentFile tc (a.records log origin) ++ rest)}
      log origin := by
  have ha : a ∈ t.segments ++ t.held := List.mem_append_left _ (List.mem_of_getLast? hlast)
  refine ⟨h.fits, h.nextOffset, h.nonempty, h.cover, ?_, h.active, h.distinct, ?_, h.live, h.held⟩
  · intro x hx
    have hx' := h.shelved x hx
    by_cases hxa : x.baseOffset = a.baseOffset
    · rw [h.base_inj hx ha hxa] at hx' ⊢
      exact Filled.shelved ⟨rest, hrest, AList.lookup_insert _⟩ (h.active a hlast).1 hx'.base_le
        hx'.end_le
    · exact hx'.lookup (AList.lookup_insert_ne hxa)
  · intro b file hb
    rw [lookup_insert_ite] at hb
    split_ifs at hb with hba
    · rw [hba]
      exact Or.inl (List.mem_map_of_mem ha)
    · exact h.stray b file hb

/-- A segment file whose creation failed belongs to no segment. -/
theorem strayed (h : t.Stocked tc faults log origin) {b : Nat}
    (hb : ∀ x ∈ t.segments ++ t.held, x.baseOffset ≠ b) {bytes : Bytes}
    (hbytes : faults ∧ bytes.length < segmentHeaderSize) :
    {t with dir := t.dir.insert b bytes}.Stocked tc faults log origin := by
  refine ⟨h.fits, h.nextOffset, h.nonempty, h.cover, ?_, h.active, h.distinct, ?_, h.live, h.held⟩
  · intro x hx
    exact (h.shelved x hx).lookup (AList.lookup_insert_ne (hb x hx))
  · intro b' file hfile
    rw [lookup_insert_ite] at hfile
    split_ifs at hfile with hbb
    · rw [Option.some.injEq] at hfile
      exact Or.inr (hfile ▸ hbytes)
    · exact h.stray b' file hfile

end Stocked

/-- No segment file lacks its magic. -/
def Whole (t : Topic Name) : Prop :=
  ∀ b file, t.dir.lookup b = some file → segmentHeaderSize ≤ file.length

theorem Stocked.mem_of_whole (h : t.Stocked tc faults log origin) (hwhole : t.Whole) {b : Nat}
    {file : Bytes} (hb : t.dir.lookup b = some file) : ∃ x ∈ t.segments ++ t.held, x.baseOffset = b := by
  rcases h.stray b file hb with hmem | ⟨-, hshort⟩
  · exact List.mem_map.mp hmem
  · exact absurd (hwhole b file hb) (not_le.mpr hshort)

variable [DecidableEq Name] {t' : Topic Name} {recs : List T} {base : Nat}
  {dir : AList (fun _ : Nat => Bytes)} {offsets : AList (fun _ : Name => Nat)}

/-- The topic that `open` finds, when the files in front of the active one are filled or lie in front
of the origin. -/
theorem Opened.stocked (h : Opened tc dir offsets base recs t')
    (hfits : ∀ v ∈ log, (tc.enc v).length < 2^32) (hbase : origin ≤ base)
    (hle : base ≤ origin+log.length) (hrecs : log.drop (base-origin) = recs)
    (hmagic : ∀ b file, dir.lookup b = some file → readU32Le file 0 = some topicMagic)
    (hknown : ∀ x ∈ t'.segments, x.baseOffset < base → x.endOffset ≤ origin ∨
      origin ≤ x.baseOffset ∧ Filled tc faults log origin dir x) :
    t'.Stocked tc faults log origin := by
  obtain ⟨init, hsegs⟩ := List.getLast?_eq_some_iff.mp h.active
  have hlen : base+recs.length = origin+log.length := by
    rw [← hrecs, List.length_drop]
    omega
  have hrecords : Segment.records log origin
      ⟨base, base+recs.length, (segmentFile tc recs).length, false⟩ = recs := by
    rw [Segment.records, hlen, Nat.add_sub_cancel_left, window, hrecs, List.take_of_length_le]
    rw [← hrecs, List.length_drop]
  have hcover := h.cover
  rw [hlen] at hcover
  refine ⟨hfits, h.nextOffset.trans hlen, by simp [hsegs], hcover, ?_, ?_, ?_, ?_, h.live,
    by simp [h.held]⟩
  · intro x hx
    rw [h.held, List.append_nil] at hx
    obtain ⟨hlo, hmid, hhi⟩ := hcover.mem_bounds x hx
    have hkey : x.baseOffset ∈ dir.keys.insertionSort (· ≤ ·) := h.bases ▸ List.mem_map_of_mem hx
    rw [List.mem_insertionSort, ← AList.mem_keys, ← AList.lookup_isSome] at hkey
    obtain ⟨file, hfile⟩ := Option.isSome_iff_exists.mp hkey
    have hsplit := hx
    rw [hsegs] at hsplit
    rcases List.mem_append.mp hsplit with hinit | hlast
    · have hlt : x.baseOffset < base := by
        have hsorted := hcover.pairwise_base
        rw [hsegs, List.map_append, List.pairwise_append] at hsorted
        exact hsorted.2.2 _ (List.mem_map_of_mem hinit) _ (by simp)
      have hother := (h.files x.baseOffset).trans (if_neg hlt.ne)
      rcases hknown x hx hlt with hfront | ⟨horigin, rest, hrest, hfilled⟩
      · refine ⟨hmid, hhi, Or.inr hfront, ⟨file, hother.trans hfile, hmagic _ _ hfile⟩, ?_⟩
        intro horigin
        have hpos := (hcover.exists_next hx (List.mem_of_getLast? h.active) hlt).1
        omega
      · exact Filled.shelved ⟨rest, hrest, hother.trans hfilled⟩ horigin hmid hhi
    · rw [List.mem_singleton] at hlast
      subst hlast
      refine Filled.shelved ⟨[], leftover_nil, ?_⟩ hbase hmid hhi
      rw [hrecords, List.append_nil]
      exact (h.files base).trans (if_pos rfl)
  · intro a ha
    rw [h.active, Option.some.injEq] at ha
    subst ha
    exact ⟨hbase, congrArg (fun recs => (segmentFile tc recs).length) hrecords.symm⟩
  · rw [h.held, List.append_nil]
    exact hcover.pairwise_base.imp ne_of_lt
  · intro b file hb
    refine Or.inl ?_
    rw [h.held, List.append_nil]
    rw [h.files] at hb
    split_ifs at hb with hbb
    · rw [hbb, hsegs]
      simp
    · rw [h.bases, List.mem_insertionSort, ← AList.mem_keys, ← AList.lookup_isSome, hb]
      rfl

/-- `open` over the files of a stocked topic, the active one cut to the records `recs` and a torn tail.
Files of removed segments are among the oldest segments then, and in front of the new origin. -/
theorem Stocked.openDir (h : t.Stocked tc faults log origin) (hwhole : t.Whole) {a : Segment}
    (ha : t.segments.getLast? = some a) (max : Nat) (offsets : AList (fun _ : Name => Nat))
    (hothers : ∀ b, b ≠ a.baseOffset → dir.lookup b = t.dir.lookup b) {tail : Bytes}
    (hfile : dir.lookup a.baseOffset = some (segmentFile tc recs ++ tail)) (htail : Torn tail)
    {log' : List T} {origin' : Nat} (hfits : ∀ v ∈ log', (tc.enc v).length < 2^32)
    (hbase : origin' ≤ a.baseOffset) (hle : a.baseOffset ≤ origin'+log'.length)
    (hrecs : log'.drop (a.baseOffset-origin') = recs)
    (hheld : ∀ y ∈ t.held, y.endOffset ≤ origin' ∧ ∃ z ∈ t.segments, z.baseOffset = origin')
    (hsegs : ∀ y ∈ t.segments, y.baseOffset < a.baseOffset → y.endOffset ≤ origin' ∨
      origin' ≤ y.baseOffset ∧ Filled tc faults log' origin' t.dir y) :
    ∃ t', Topic.openDir max dir offsets = some t' ∧
      Opened tc dir offsets a.baseOffset recs t' ∧ t'.Stocked tc faults log' origin' ∧
      t'.stats.earliestOffset ≤ t.stats.earliestOffset := by
  have hamem : a ∈ t.segments := List.mem_of_getLast? ha
  -- the segments of the topic are among those that `open` finds, and all others are older
  have hkey : ∀ b, (dir.lookup b).isSome ↔ ∃ x ∈ t.segments ++ t.held, x.baseOffset = b := by
    intro b
    by_cases hb : b = a.baseOffset
    · rw [hb, hfile]
      exact iff_of_true rfl ⟨a, List.mem_append_left _ hamem, rfl⟩
    · rw [hothers b hb]
      constructor
      · intro hsome
        obtain ⟨file, hsome⟩ := Option.isSome_iff_exists.mp hsome
        exact h.mem_of_whole hwhole hsome
      · rintro ⟨x, hx, rfl⟩
        obtain ⟨file, hx, -⟩ := (h.shelved x hx).magic
        rw [hx]
        rfl
  have hmagic : ∀ b file, dir.lookup b = some file → readU32Le file 0 = some topicMagic := by
    intro b file hb
    by_cases hba : b = a.baseOffset
    · rw [hba, hfile, Option.some.injEq] at hb
      rw [← hb]
      exact readMagic_segmentFile tc recs tail
    · rw [hothers b hba] at hb
      obtain ⟨x, hx, rfl⟩ := h.mem_of_whole hwhole hb
      obtain ⟨file', hfile', hmagic⟩ := (h.shelved x hx).magic
      rwa [Option.some.inj (hb.symm.trans hfile')]
  have hlast : (dir.keys.insertionSort (· ≤ ·)).getLast? = some a.baseOffset := by
    refine getLast?_sorted_keys hfile fun b hb => ?_
    obtain ⟨x, hx, rfl⟩ := (hkey b).mp hb
    have hfirst := (h.cover.mem_bounds a hamem).1
    rcases List.mem_append.mp hx with hx | hx
    · obtain ⟨init, hinit⟩ := List.getLast?_eq_some_iff.mp ha
      have hcover := h.cover
      have hmid := (hcover.mem_bounds x hx).2.1
      rw [hinit] at hx hcover
      rcases List.mem_append.mp hx with hx | hx
      · exact hmid.trans (hcover.init_le x hx)
      · rw [List.mem_singleton.mp hx]
    · obtain ⟨-, hpos, hend⟩ := h.held x hx
      omega
  obtain ⟨t', hrun, ht'⟩ := openDir_litter max offsets hlast hfile htail
    (fun v hv => hfits v (List.mem_of_mem_drop (hrecs ▸ hv))) hmagic
  have hmem : ∀ b, (∃ z ∈ t'.segments, z.baseOffset = b) ↔
      ∃ x ∈ t.segments ++ t.held, x.baseOffset = b := by
    intro b
    rw [← hkey, AList.lookup_isSome, AList.mem_keys, ← List.mem_insertionSort (· ≤ ·), ← ht'.bases,
      List.mem_map]
  have hold : ∀ y ∈ t.segments, ∃ z ∈ t'.segments, z.baseOffset = y.baseOffset :=
    fun y hy => (hmem _).mpr ⟨y, List.mem_append_left _ hy, rfl⟩
  refine ⟨t', hrun, ht', ht'.stocked hfits hbase hle hrecs hmagic ?_, ?_⟩
  · intro x hx hlt
    obtain ⟨y, hy, hyx⟩ := (hmem _).mp ⟨x, hx, rfl⟩
    rcases List.mem_append.mp hy with hy | hy
    · obtain ⟨hpos, next, hnext, hnextb⟩ := h.cover.exists_next hy hamem (hyx ▸ hlt)
      obtain ⟨z, hz, hzb⟩ := hold next hnext
      have hle := ht'.cover.end_le_of_base_lt hx hz (by omega)
      rcases hsegs y hy (hyx ▸ hlt) with hfront | ⟨horigin, rest, hrest, hfilled⟩
      · exact Or.inl (by omega)
      · have hend : x.endOffset = y.endOffset := by
          obtain ⟨last, hlastmem, hlastb⟩ := hold a hamem
          obtain ⟨hxpos, w, hw, hwx⟩ := ht'.cover.exists_next hx hlastmem (by omega)
          obtain ⟨v, hv, hvw⟩ := (hmem _).mp ⟨w, hw, rfl⟩
          rcases List.mem_append.mp hv with hv | hv
          · have hge := h.cover.end_le_of_base_lt hy hv (by omega)
            omega
          · have hvpos := (h.held v hv).2.1
            have hvend := (hheld v hv).1
            omega
        refine Or.inr ⟨hyx ▸ horigin, rest, hrest, ?_⟩
        rw [hothers _ (by omega), Segment.records, ← hyx, hend]
        exact hfilled
    · obtain ⟨hend, z, hz, hzb⟩ := hheld y hy
      obtain ⟨w, hw, hwz⟩ := hold z hz
      have hpos := (h.held y hy).2.1
      have hle := ht'.cover.end_le_of_base_lt hx hw (by omega)
      exact Or.inl (by omega)
  · obtain ⟨first, rest, hfirst⟩ := List.exists_cons_of_ne_nil h.nonempty
    have hcover := h.cover
    rw [hfirst] at hcover
    obtain ⟨z, hz, hzb⟩ := hold first (by simp [hfirst])
    rw [← hcover.head_eq, ← hzb]
    exact (ht'.cover.mem_bounds z hz).1

/-- `open` cuts the rest behind the records, and finds the segments that the writer had. -/
theorem Stocked.reopen (h : t.Stocked tc faults log origin) (hheld : t.held = [])
    (hwhole : t.Whole) :
    ∃ t' base recs, t.reopen = some t' ∧ Opened tc t.dir t.offsets base recs t' ∧
      t'.Stocked tc faults log origin ∧ t'.stats.earliestOffset ≤ t.stats.earliestOffset := by
  obtain ⟨init, a, -, ha, hend⟩ := h.exists_active
  obtain ⟨rest, hrest, hfile⟩ := h.filled_active ha
  have hbase := (h.active a ha).1
  have hle := (h.shelved a (List.mem_append_left _ (List.mem_of_getLast? ha))).base_le
  have hrecs : log.drop (a.baseOffset-origin) = a.records log origin := by
    rw [Segment.records, window, hend, Nat.add_sub_cancel_left, List.take_of_length_le]
    rw [List.length_drop]
  obtain ⟨t', hopened⟩ := h.openDir hwhole ha t.maxSegmentBytes t.offsets
    (fun _ _ => rfl) hfile hrest.torn h.fits hbase (by omega) hrecs (by simp [hheld]) (by
      intro y hy _
      have hsh := h.shelved y (List.mem_append_left _ hy)
      rcases hsh.apart with horigin | hfront
      · exact Or.inr ⟨horigin, hsh.filled horigin⟩
      · exact Or.inl hfront)
  exact ⟨t', _, _, hopened⟩

end Topic

end ZenDB
