import Mathlib.Data.List.TakeWhile
import ZenDB.Topic.Invariant

namespace ZenDB

namespace Topic

variable {Name T : Type} {tc : Codec T} {t : Topic Name} {first : Nat}

/-- The segments `compact` removes all end at or below the minimum. -/
theorem removable_spec (t : Topic Name) (through : Nat) (hne : t.segments ≠ []) :
    t.removable through < t.segments.length ∧
      ∀ s ∈ t.segments.take (t.removable through), s.endOffset ≤ through := by
  have hwhile : ((t.segments.take (t.segments.length-1)).takeWhile
      fun s => s.endOffset ≤ through) <+: t.segments.take (t.segments.length-1) :=
    List.takeWhile_prefix _
  have hpos : 0 < t.segments.length := List.length_pos_iff.mpr hne
  have hlen : t.removable through ≤ t.segments.length-1 := by
    have hle := hwhile.length_le
    rw [List.length_take] at hle
    unfold removable
    omega
  refine ⟨by omega, ?_⟩
  intro x hx
  have htake := List.prefix_iff_eq_take.mp (hwhile.trans (List.take_prefix _ _))
  rw [removable, ← htake] at hx
  have hx := List.mem_takeWhile_imp hx
  simpa using hx

theorem bases_removeSegments (t : Topic Name) (k : Nat) :
    (((t.removeSegments k).segments ++ (t.removeSegments k).held).map Segment.baseOffset).Perm
      ((t.segments ++ t.held).map Segment.baseOffset) := by
  have hmark : ((t.segments.take k).map Segment.markDeleted).map Segment.baseOffset =
      (t.segments.take k).map Segment.baseOffset := by
    rw [List.map_map]
    rfl
  have hp : (((t.removeSegments k).segments ++ (t.removeSegments k).held).map
      Segment.baseOffset).Perm
      (((t.segments.take k ++ t.segments.drop k) ++ t.held).map Segment.baseOffset) := by
    simp only [Topic.removeSegments, List.map_append, hmark]
    rw [← List.append_assoc, List.append_assoc ((t.segments.take k).map _)]
    exact List.perm_append_comm
  rwa [List.take_append_drop] at hp

/-- A segment is there before the removal too, perhaps without its mark. -/
theorem mem_removeSegments {k : Nat} {x : Segment}
    (hx : x ∈ (t.removeSegments k).segments ++ (t.removeSegments k).held) :
    x ∈ t.segments ++ t.held ∨ ∃ y ∈ t.segments.take k, x = y.markDeleted := by
  rcases List.mem_append.mp hx with hx | hx
  · exact Or.inl (List.mem_append_left _ (List.mem_of_mem_drop hx))
  rcases List.mem_append.mp hx with hx | hx
  · exact Or.inl (List.mem_append_right _ hx)
  · obtain ⟨y, hy, rfl⟩ := List.mem_map.mp hx
    exact Or.inr ⟨y, hy, rfl⟩

/-- The first `k` segments may be removed: they end where the others begin, at `first'`, and no
consumer that has committed `first` has committed less than that. -/
structure Removal (t : Topic Name) (first stop k first' : Nat) : Prop where
  lt : k < t.segments.length
  cover : Cover first' (t.segments.drop k) stop
  le : first ≤ first'
  records : ((t.segments.take k).map Segment.recordCount).sum = first'-first
  below : ∀ s ∈ t.segments.take k, s.baseOffset < s.endOffset ∧ s.endOffset ≤ first'
  spares : ∀ e ∈ t.consumers.entries, first ≤ e.2.committed → first' ≤ e.2.committed

/-- The topic without its first `k` segments, which are held. -/
def compacted (t : Topic Name) (k first' : Nat) : Topic Name :=
  { t with stats := { t.stats with
      earliestOffset := first'
      records := t.stats.records-((t.segments.take k).map Segment.recordCount).sum
      retainedBytes := t.stats.retainedBytes-((t.segments.take k).map Segment.byteLen).sum }
    }.removeSegments k

/-- `compact` removes nothing, or what all consumers have committed. -/
theorem compact_cases {stop : Nat} (hne : t.segments ≠ []) (hcover : Cover first t.segments stop) :
    t.compact = some t ∨
      ∃ k first', t.Removal first stop k first' ∧ t.compact = some (t.compacted k first').release := by
  unfold compact
  cases hmin : t.minCommitted with
  | none => exact Or.inl rfl
  | some through =>
    dsimp only
    by_cases hzero : t.removable through = 0
    · exact Or.inl (if_pos hzero)
    obtain ⟨hlt, hend⟩ := t.removable_spec through hne
    obtain ⟨first', hdrop, hle, hsum, hbelow, hfrom⟩ := hcover.drop _ hlt
    obtain ⟨-, hcommitted⟩ := List.min?_eq_some_iff.mp hmin
    refine Or.inr ⟨_, first', ⟨hlt, hdrop, hle, hsum, hbelow, ?_⟩, ?_⟩
    · intro e he hfirst
      rcases hfrom with rfl | ⟨x, hx, rfl⟩
      · exact hfirst
      · exact (hend x hx).trans (hcommitted _ (List.mem_map_of_mem he))
    · obtain ⟨a, rest, hsegs⟩ :
          ∃ a rest, t.segments.drop (t.removable through) = a :: rest := by
        refine List.exists_cons_of_ne_nil ?_
        rw [← List.length_pos_iff, List.length_drop]
        exact Nat.sub_pos_of_lt hlt
      have hbase : a.baseOffset = first' := by
        rw [hsegs] at hdrop
        exact hdrop.head_eq
      rw [if_neg hzero, hsegs]
      simp only [List.head?_cons, Option.bind_eq_bind, Option.bind_some, hbase]
      rfl

/-- The topic with a new active segment. -/
def rotated (t : Topic Name) : Topic Name :=
  { t with
    dir := t.dir.insert t.stats.nextOffset (leBytes 4 topicMagic)
    segments := t.segments ++ [.fresh t.stats.nextOffset]
    stats := {t.stats with retainedBytes := t.stats.retainedBytes+segmentHeaderSize} }

theorem rotateSegment_eq (hnew : t.dir.lookup t.stats.nextOffset = none) :
    t.rotateSegment = t.rotated.compact := by
  rw [rotateSegment, createSegment, hnew]
  rfl

theorem distinct_rotated (hdistinct : ((t.segments ++ t.held).map Segment.baseOffset).Nodup)
    (hne : ∀ x ∈ t.segments ++ t.held, x.baseOffset ≠ t.stats.nextOffset) :
    ((t.rotated.segments ++ t.rotated.held).map Segment.baseOffset).Nodup := by
  have hperm : ((t.segments ++ [Segment.fresh t.stats.nextOffset] ++ t.held).map
      Segment.baseOffset).Perm
      (t.stats.nextOffset :: (t.segments ++ t.held).map Segment.baseOffset) := by
    rw [List.append_assoc, List.map_append, List.map_append, List.map_append]
    exact List.perm_middle
  refine hperm.nodup_iff.mpr (List.nodup_cons.mpr ⟨?_, hdistinct⟩)
  intro hmem
  obtain ⟨x, hx, hxb⟩ := List.mem_map.mp hmem
  exact hne x hx hxb

theorem listed_rotated
    (hlisted : ∀ b, (t.dir.lookup b).isSome → b ∈ (t.segments ++ t.held).map Segment.baseOffset) :
    ∀ b, (t.rotated.dir.lookup b).isSome →
      b ∈ (t.rotated.segments ++ t.rotated.held).map Segment.baseOffset := by
  intro b hb
  simp only [rotated, lookup_insert_ite] at hb
  split_ifs at hb with hbl
  · rw [hbl]
    exact List.mem_map_of_mem (a := Segment.fresh t.stats.nextOffset) (by simp [rotated])
  · have hmem := hlisted b hb
    simp only [rotated, List.map_append, List.mem_append] at hmem ⊢
    rcases hmem with hmem | hmem
    · exact Or.inl (Or.inl hmem)
    · exact Or.inr hmem

theorem mem_rotated {x : Segment} (hx : x ∈ t.rotated.segments ++ t.rotated.held) :
    x ∈ t.segments ++ t.held ∨ x = .fresh t.stats.nextOffset := by
  simp only [rotated, List.mem_append, List.mem_singleton] at hx ⊢
  tauto

/-- The topic after `write_all` on its active segment `a`. -/
def written (t : Topic Name) (init : List Segment) (a : Segment) (file bytes : Bytes) : Topic Name :=
  { t with
    dir := t.dir.insert a.baseOffset (file ++ bytes)
    segments := init ++
      [{a with byteLen := a.byteLen+bytes.length, endOffset := t.stats.nextOffset+1}]
    stats := { t.stats with
      nextOffset := t.stats.nextOffset+1
      records := t.stats.records+1
      retainedBytes := t.stats.retainedBytes+bytes.length } }

theorem writeRecord_eq {init : List Segment} {a : Segment} {file : Bytes}
    (hsegs : t.segments = init ++ [a]) (hfile : t.dir.lookup a.baseOffset = some file) (v : T) :
    t.writeRecord tc v = some (t.written init a file (frame tc v), t.stats.nextOffset) := by
  simp only [Topic.writeRecord, hsegs, List.getLast?_concat, List.dropLast_concat, hfile,
    Option.bind_eq_bind, Option.bind_some, written, length_frame]
  rfl

section Written

variable {init : List Segment} {a : Segment} {file bytes : Bytes}

theorem bases_written (hsegs : t.segments = init ++ [a]) :
    ((t.written init a file bytes).segments ++ (t.written init a file bytes).held).map
      Segment.baseOffset = (t.segments ++ t.held).map Segment.baseOffset := by
  rw [hsegs]
  simp [written]

theorem listed_written (hsegs : t.segments = init ++ [a])
    (hlisted : ∀ b, (t.dir.lookup b).isSome → b ∈ (t.segments ++ t.held).map Segment.baseOffset) :
    ∀ b, ((t.written init a file bytes).dir.lookup b).isSome →
      b ∈ ((t.written init a file bytes).segments ++ (t.written init a file bytes).held).map
        Segment.baseOffset := by
  intro b hb
  rw [bases_written hsegs]
  simp only [written, lookup_insert_ite] at hb
  split_ifs at hb with hba
  · rw [hba]
    exact List.mem_map_of_mem (by simp [hsegs])
  · exact hlisted b hb

/-- Every segment but the active one has another base, so its file is not the one written to. -/
theorem mem_written (hsegs : t.segments = init ++ [a])
    (hdistinct : ((t.segments ++ t.held).map Segment.baseOffset).Nodup) {x : Segment}
    (hx : x ∈ (t.written init a file bytes).segments ++ (t.written init a file bytes).held) :
    x = {a with byteLen := a.byteLen+bytes.length, endOffset := t.stats.nextOffset+1} ∨
      x ∈ t.segments ++ t.held ∧ x.baseOffset ≠ a.baseOffset := by
  have hnodup : (init.map Segment.baseOffset ++ a.baseOffset ::
      t.held.map Segment.baseOffset).Nodup := by
    simpa [hsegs] using hdistinct
  rw [List.nodup_middle, List.nodup_cons, ← List.map_append] at hnodup
  have hother : ∀ y ∈ init ++ t.held, y.baseOffset ≠ a.baseOffset :=
    fun y hy heq => hnodup.1 (heq ▸ List.mem_map_of_mem hy)
  simp only [written, List.mem_append, List.mem_singleton] at hx
  rcases hx with (hx | hx) | hx
  · exact Or.inr ⟨by simp [hsegs, hx], hother x (List.mem_append_left _ hx)⟩
  · exact Or.inl hx
  · exact Or.inr ⟨by simp [hx], hother x (List.mem_append_right _ hx)⟩

end Written

end Topic

end ZenDB
