import ZenDB.Topic.Writer

namespace ZenDB

namespace Topic

variable {Name T : Type} [DecidableEq Name] {tc : Codec T} {t t' : Topic Name}
  {dir : AList (fun _ : Nat => Bytes)} {base : Nat} {recs : List T}

/-- The file names in order, when it is known which files there are. -/
theorem sorted_keys {γ : Type} {dir : AList (fun _ : Nat => γ)} {bases : List Nat}
    (hbases : bases.Pairwise (· < ·)) (hkeys : ∀ b, (dir.lookup b).isSome ↔ b ∈ bases) :
    dir.keys.insertionSort (· ≤ ·) = bases := by
  have hperm : dir.keys.Perm bases := by
    rw [List.perm_ext_iff_of_nodup dir.keys_nodup (hbases.imp ne_of_lt)]
    intro b
    rw [← AList.mem_keys, ← AList.lookup_isSome]
    exact hkeys b
  exact ((List.perm_insertionSort _ _).trans hperm).eq_of_pairwise
    (fun a b _ _ hab hba => le_antisymm hab hba) (List.pairwise_insertionSort _ _)
    (hbases.imp le_of_lt)

theorem getLast?_sorted_keys {file : Bytes} (hfile : dir.lookup base = some file)
    (hlast : ∀ b, (dir.lookup b).isSome → b ≤ base) :
    (dir.keys.insertionSort (· ≤ ·)).getLast? = some base := by
  have hmem : base ∈ dir.keys.insertionSort (· ≤ ·) := by
    rw [List.mem_insertionSort, ← AList.mem_keys, ← AList.lookup_isSome, hfile]
    rfl
  obtain ⟨init, last, hsplit⟩ : ∃ init last, dir.keys.insertionSort (· ≤ ·) = init ++ [last] :=
    ⟨_, _, (List.dropLast_append_getLast (List.ne_nil_of_mem hmem)).symm⟩
  have hle : last ≤ base := by
    refine hlast last ?_
    have hin : last ∈ dir.keys.insertionSort (· ≤ ·) := by simp [hsplit]
    rwa [List.mem_insertionSort, ← AList.mem_keys, ← AList.lookup_isSome] at hin
  have hge : base ≤ last := by
    have hsorted := List.pairwise_insertionSort (· ≤ ·) dir.keys
    rw [hsplit, List.pairwise_append] at hsorted
    rw [hsplit] at hmem
    rcases List.mem_append.mp hmem with hin | hin
    · exact hsorted.2.2 base hin last (by simp)
    · exact (List.mem_singleton.mp hin).le
  rw [hsplit, List.getLast?_concat, le_antisymm hle hge]

theorem lookup_readers_empty (h : t.readers.entries = []) (name : Name) :
    t.readers.lookup name = none := by
  rw [AList.lookup, h]
  rfl

/-- With all handles dropped no removed segment is left. -/
theorem held_eq_nil (hkept : ∀ seg ∈ t.held, t.shared seg.baseOffset = true)
    (hempty : t.readers.entries = []) : t.held = [] := by
  rw [List.eq_nil_iff_forall_not_mem]
  intro x hx
  obtain ⟨n, cursor, hcur, -⟩ := (shared_iff t _).mp (hkept x hx)
  rw [lookup_readers_empty hempty] at hcur
  cases hcur

/-- The segments of `open` tile the offsets, and each has the length of its file. -/
theorem openSegments_spec {dir : AList (fun _ : Nat => Bytes)} {stop len : Nat} {bases : List Nat}
    {segs : List Segment} (h : openSegments dir stop len bases = some segs)
    (hsorted : bases.Pairwise (· < ·))
    (hlast : ∀ base, bases.getLast? = some base →
      base ≤ stop ∧ (dir.lookup base).map List.length = some len) :
    segs.map Segment.baseOffset = bases ∧
      (∀ base, bases.head? = some base → Cover base segs stop) ∧
      ∀ s ∈ segs, (dir.lookup s.baseOffset).map List.length = some s.byteLen := by
  induction bases generalizing segs with
  | nil =>
    cases h
    exact ⟨rfl, (fun base hbase => by cases hbase), by simp⟩
  | cons base rest ih =>
    obtain ⟨hhead, hsorted⟩ := List.pairwise_cons.mp hsorted
    cases rest with
    | nil =>
      cases h
      obtain ⟨hle, hlen⟩ := hlast base rfl
      refine ⟨rfl, ?_, ?_⟩
      · intro b hb
        cases hb
        exact ⟨rfl, hle, fun hne => absurd rfl hne, rfl⟩
      · intro s hs
        rw [List.mem_singleton.mp hs]
        exact hlen
    | cons following rest =>
      rw [openSegments] at h
      obtain ⟨file, hfile, h⟩ := Option.bind_eq_some_iff.mp h
      obtain ⟨magic, -, h⟩ := Option.bind_eq_some_iff.mp h
      by_cases hm : magic = topicMagic
      swap
      · simp [hm] at h
      simp only [hm, ne_eq, not_true_eq_false, if_false] at h
      obtain ⟨segments, hsegments, h⟩ := Option.bind_eq_some_iff.mp h
      cases h
      have hlt := hhead following (by simp)
      obtain ⟨hbases, hcover, hsized⟩ := ih hsegments hsorted fun b hb => hlast b (by simpa using hb)
      refine ⟨by rw [List.map_cons, hbases], ?_, ?_⟩
      · intro b hb
        cases hb
        exact ⟨rfl, hlt.le, fun _ => hlt, hcover following rfl⟩
      · intro s hs
        rcases List.mem_cons.mp hs with rfl | hs
        · show (dir.lookup base).map List.length = some file.length
          rw [hfile]
          rfl
        · exact hsized s hs

/-- `open` takes every file that begins with the magic for a segment. -/
theorem openSegments_some (stop len : Nat) {bases : List Nat}
    (h : ∀ b ∈ bases, ∃ file, dir.lookup b = some file ∧ readU32Le file 0 = some topicMagic) :
    ∃ segs, openSegments dir stop len bases = some segs ∧
      (∀ s ∈ segs, s.deleteOnDrop = false) ∧
      ∀ b, bases.getLast? = some b → segs.getLast? = some ⟨b, stop, len, false⟩ := by
  induction bases with
  | nil => exact ⟨[], rfl, by simp, fun b hb => by cases hb⟩
  | cons b rest ih =>
    cases rest with
    | nil =>
      refine ⟨[⟨b, stop, len, false⟩], rfl, by simp, ?_⟩
      intro b' hb'
      cases hb'
      rfl
    | cons following rest =>
      obtain ⟨segs, hsegs, hlive, hlast⟩ := ih fun x hx => h x (List.mem_cons_of_mem _ hx)
      obtain ⟨file, hfile, hmagic⟩ := h b (by simp)
      refine ⟨⟨b, following, file.length, false⟩ :: segs, ?_, ?_, ?_⟩
      · simp [openSegments, hfile, hmagic, hsegs]
      · intro s hs
        rcases List.mem_cons.mp hs with rfl | hs
        · rfl
        · exact hlive s hs
      · intro b' hb'
        have hb' : (following :: rest).getLast? = some b' := by simpa using hb'
        rw [List.getLast?_cons, hlast b' hb']
        rfl

/-- What `open` returns once the segments are known. -/
theorem openDir_eq {dir dir' : AList (fun _ : Nat => Bytes)} {bases : List Nat} {base stop len : Nat}
    {file : Bytes} {segments : List Segment} {x a : Segment}
    (hkeys : dir.keys.insertionSort (· ≤ ·) = bases) (hbase : bases.getLast? = some base)
    (hfile : dir.lookup base = some file) (hscan : scanActiveSegment file base = some (stop, len))
    (hdir : (if len < file.length then dir.insert base (setLen file len) else dir) = dir')
    (hopen : openSegments dir' stop len bases = some segments) (hhead : segments.head? = some x)
    (hlast : segments.getLast? = some a) (max : Nat) (offsets : AList (fun _ : Name => Nat)) :
    Topic.openDir max dir offsets =
      some ⟨max, dir', offsets, segments, [],
        insertAll ∅ (offsets.entries.map fun e => ⟨e.1, ⟨e.2, e.2, false⟩⟩), ∅,
        ⟨x.baseOffset, a.endOffset, a.endOffset-x.baseOffset, (segments.map Segment.byteLen).sum⟩⟩ := by
  simp only [Topic.openDir, hkeys, hbase, hfile, hscan, Option.bind_eq_bind, Option.bind_some, hdir,
    hopen, hhead, hlast]
  rfl

/-- The topic that `open` finds when the file of the active segment `base` holds the records `recs`
and a torn tail. -/
structure Opened (tc : Codec T) (dir : AList (fun _ : Nat => Bytes))
    (offsets : AList (fun _ : Name => Nat)) (base : Nat) (recs : List T) (t' : Topic Name) : Prop where
  files : ∀ b, t'.dir.lookup b = if b = base then some (segmentFile tc recs) else dir.lookup b
  bases : t'.segments.map Segment.baseOffset = dir.keys.insertionSort (· ≤ ·)
  nextOffset : t'.stats.nextOffset = base+recs.length
  cover : Cover t'.stats.earliestOffset t'.segments (base+recs.length)
  live : ∀ s ∈ t'.segments, s.deleteOnDrop = false
  active : t'.segments.getLast? =
    some ⟨base, base+recs.length, (segmentFile tc recs).length, false⟩
  held : t'.held = []
  persisted : t'.offsets = offsets
  consumers : t'.consumers = insertAll ∅ (offsets.entries.map fun e => ⟨e.1, ⟨e.2, e.2, false⟩⟩)
  readers : t'.readers = ∅

theorem Opened.lookup_consumers {offsets : AList (fun _ : Name => Nat)}
    (h : Opened tc dir offsets base recs t') (name : Name) :
    t'.consumers.lookup name = (offsets.lookup name).map fun n => ConsumerState.mk n n false := by
  rw [h.consumers]
  exact lookup_insertAll_map offsets (fun n => ConsumerState.mk n n false) name

theorem openDir_litter (max : Nat) (offsets : AList (fun _ : Name => Nat)) {tail : Bytes}
    (hlast : (dir.keys.insertionSort (· ≤ ·)).getLast? = some base)
    (hfile : dir.lookup base = some (segmentFile tc recs ++ tail)) (htail : Torn tail)
    (hfits : ∀ v ∈ recs, (tc.enc v).length < 2^32)
    (hmagic : ∀ b file, dir.lookup b = some file → readU32Le file 0 = some topicMagic) :
    ∃ t', openDir max dir offsets = some t' ∧ Opened tc dir offsets base recs t' := by
  have hscan := scanActiveSegment_segmentFile tc recs hfits htail base
  have hcut : ∀ b, (if (segmentFile tc recs).length < (segmentFile tc recs ++ tail).length then
      dir.insert base (setLen (segmentFile tc recs ++ tail) (segmentFile tc recs).length)
      else dir).lookup b = if b = base then some (segmentFile tc recs) else dir.lookup b := by
    intro b
    split_ifs with hlen hb hb
    · rw [hb, AList.lookup_insert, setLen, List.take_left, Nat.sub_eq_zero_of_le hlen.le,
        List.replicate_zero, List.append_nil]
    · rw [AList.lookup_insert_ne hb]
    · rw [List.length_append] at hlen
      have hnil : tail = [] := List.eq_nil_of_length_eq_zero (by omega)
      rw [hb, hfile, hnil, List.append_nil]
    · rfl
  generalize hdir : (if (segmentFile tc recs).length < (segmentFile tc recs ++ tail).length then
    dir.insert base (setLen (segmentFile tc recs ++ tail) (segmentFile tc recs).length)
    else dir) = dir' at hcut
  have hkeys : ∀ b ∈ dir.keys.insertionSort (· ≤ ·), ∃ file, dir'.lookup b = some file ∧
      readU32Le file 0 = some topicMagic := by
    intro b hb
    rw [hcut]
    split_ifs with hbase
    · exact ⟨_, rfl, by simpa using readMagic_segmentFile tc recs []⟩
    · rw [List.mem_insertionSort, ← AList.mem_keys, ← AList.lookup_isSome] at hb
      obtain ⟨file, hb⟩ := Option.isSome_iff_exists.mp hb
      exact ⟨file, hb, hmagic b file hb⟩
  obtain ⟨segs, hopen, hlive, hactive⟩ := openSegments_some (base+recs.length)
    (segmentFile tc recs).length hkeys
  have hsorted : (dir.keys.insertionSort (· ≤ ·)).Pairwise (· < ·) := by
    have hle := List.pairwise_insertionSort (· ≤ ·) dir.keys
    have hnodup : (dir.keys.insertionSort (· ≤ ·)).Nodup :=
      (List.perm_insertionSort _ _).nodup_iff.mpr dir.keys_nodup
    exact (hle.and hnodup).imp fun hab => lt_of_le_of_ne hab.1 hab.2
  obtain ⟨hbases, hcover, -⟩ := openSegments_spec hopen hsorted (by
    intro b hb
    rw [hlast, Option.some.injEq] at hb
    subst hb
    rw [hcut, if_pos rfl]
    exact ⟨Nat.le_add_right _ _, rfl⟩)
  have hactive := hactive base hlast
  obtain ⟨first, hhead⟩ : ∃ first, segs.head? = some first := by
    cases segs with
    | nil => cases hactive
    | cons x rest => exact ⟨x, rfl⟩
  refine ⟨_, openDir_eq rfl hlast hfile hscan hdir hopen hhead hactive max offsets, hcut, hbases, rfl,
    ?_, hlive, hactive, rfl, rfl, rfl, rfl⟩
  refine hcover first.baseOffset ?_
  rw [← hbases, List.head?_map, hhead]
  rfl

end Topic

end ZenDB
