import ZenDB.Topic.Handles

namespace ZenDB

/-- The offset a consumer reads next: that of its handle, or the committed one. -/
def ConsumerSpec.offset (c : ConsumerSpec) : Nat := c.reader.getD c.committed

def ConsumerSpec.state (c : ConsumerSpec) : ConsumerState := ⟨c.committed, c.offset, c.reader.isSome⟩

namespace Topic

variable {Name T : Type} [DecidableEq Name]

/-- The model represents the specification: its files hold the log from `origin` on, and no consumer
stands in front of that or of what is retained. -/
structure Refines (tc : Codec T) (t : Topic Name) (s : TopicSpec Name T) (origin : Nat) : Prop where
  ready : t.Ready tc False (s.log.drop origin) origin
  origin_le : origin ≤ s.log.length
  consumers : ∀ name, t.consumers.lookup name = (s.consumers.lookup name).map ConsumerSpec.state
  offsets : ∀ name, t.offsets.lookup name = (s.consumers.lookup name).map ConsumerSpec.committed
  bounds : ∀ name c, s.consumers.lookup name = some c → t.stats.earliestOffset ≤ c.committed ∧
    origin ≤ c.committed ∧ c.committed ≤ c.offset ∧ c.offset ≤ s.log.length

variable {tc : Codec T} {t t' : Topic Name} {s : TopicSpec Name T} {origin : Nat} {name : Name}

theorem Refines.nextOffset (h : t.Refines tc s origin) : t.stats.nextOffset = s.log.length := by
  rw [h.ready.stocked.nextOffset, List.length_drop, Nat.add_sub_cancel' h.origin_le]

/-- One consumer changes. -/
theorem Refines.update (h : t.Refines tc s origin)
    (hready : t'.Ready tc False (s.log.drop origin) origin)
    (hfirst : t'.stats.earliestOffset = t.stats.earliestOffset) (c : ConsumerSpec)
    (hoff : ∀ n, t'.offsets.lookup n = if n = name then some c.committed else t.offsets.lookup n)
    (hcons : ∀ n, t'.consumers.lookup n = if n = name then some c.state else t.consumers.lookup n)
    (hb : t.stats.earliestOffset ≤ c.committed ∧ origin ≤ c.committed ∧ c.committed ≤ c.offset ∧
      c.offset ≤ s.log.length) :
    t'.Refines tc (s.setReader name c.committed c.reader) origin := by
  have hlook : ∀ n, (s.setReader name c.committed c.reader).consumers.lookup n =
      if n = name then some c else s.consumers.lookup n := fun n => lookup_insert_ite _ _ _ _
  refine ⟨hready, h.origin_le, ?_, ?_, ?_⟩
  · intro n
    rw [hlook, hcons]
    split_ifs with hn
    · rfl
    · exact h.consumers n
  · intro n
    rw [hlook, hoff]
    split_ifs with hn
    · rfl
    · exact h.offsets n
  · intro n d hd
    rw [hlook] at hd
    rw [hfirst]
    split_ifs at hd with hn
    · rw [← Option.some.inj hd]
      exact hb
    · exact h.bounds n d hd

/-- Writing and compaction change nothing that a consumer sees, but for the record at the tail. -/
theorem Refines.spared (h : t.Refines tc s origin) (hspares : t.Spares t') {added : List T}
    (hready : t'.Ready tc False (s.log.drop origin ++ added) origin) :
    t'.Refines tc {s with log := s.log ++ added} origin := by
  have hlog : (s.log ++ added).drop origin = s.log.drop origin ++ added :=
    List.drop_append_of_le_length h.origin_le
  refine ⟨hlog ▸ hready, ?_, ?_, ?_, ?_⟩
  · rw [List.length_append]
    exact h.origin_le.trans (Nat.le_add_right _ _)
  · intro name
    rw [hspares.consumers]
    exact h.consumers name
  · intro name
    rw [hspares.offsets]
    exact h.offsets name
  · intro name c hc
    obtain ⟨hfirst, horigin, hle, hend⟩ := h.bounds name c hc
    have hstate := h.consumers name
    rw [hc] at hstate
    refine ⟨hspares.earliest name _ hstate hfirst, horigin, hle, ?_⟩
    rw [List.length_append]
    exact hend.trans (Nat.le_add_right _ _)

theorem Refines.compact (h : t.Refines tc s origin) :
    ∃ t', t.compact = some t' ∧ t'.Refines tc s origin := by
  obtain ⟨t', hrun, hready, hspares, -⟩ := h.ready.compact
  rw [← List.append_nil (s.log.drop origin)] at hready
  refine ⟨t', hrun, ?_⟩
  have h' := h.spared hspares hready
  rwa [List.append_nil] at h'

theorem Refines.append (h : t.Refines tc s origin) (v : T) (hv : (tc.enc v).length < 2^32) :
    ∃ t', t.append tc v = some (t', s.log.length) ∧
      t'.Refines tc {s with log := s.log ++ [v]} origin := by
  obtain ⟨t', hrun, hready, hspares⟩ := h.ready.append_unhindered id hv
  rw [← h.ready.stocked.nextOffset, h.nextOffset] at hrun
  exact ⟨t', hrun, h.spared hspares hready⟩

/-- The state behind an open handle. -/
theorem Refines.reader (h : t.Refines tc s origin) {current : Option SegmentCursor}
    (hr : t.readers.lookup name = some current) :
    ∃ committed offset, s.consumers.lookup name = some ⟨committed, some offset⟩ ∧
      t.consumers.lookup name = some ⟨committed, offset, true⟩ ∧
      t.offsets.lookup name = some committed ∧ t.stats.earliestOffset ≤ committed ∧
      origin ≤ committed ∧ committed ≤ offset ∧ offset ≤ s.log.length := by
  obtain ⟨c, hc, hactive⟩ := h.ready.reader hr
  have hcons := h.consumers name
  have hoff := h.offsets name
  rw [hc] at hcons
  cases hs : s.consumers.lookup name with
  | none => simp [hs] at hcons
  | some d =>
    obtain ⟨committed, reader⟩ := d
    rw [hs, Option.map_some, Option.some.injEq] at hcons
    subst hcons
    cases reader with
    | none => cases hactive
    | some offset =>
      rw [hs] at hoff
      exact ⟨committed, offset, rfl, hc, hoff, h.bounds name _ hs⟩

theorem Refines.withReader_none (h : t.Refines tc s origin) (hr : t.readers.lookup name = none)
    (f : Nat → Nat → TopicSpec Name T × Ret T) : s.withReader name f = (s, .refused) := by
  have hactive := h.ready.active name
  rw [hr, h.consumers] at hactive
  unfold TopicSpec.withReader
  cases hs : s.consumers.lookup name with
  | none => rfl
  | some c =>
    obtain ⟨committed, reader⟩ := c
    cases reader with
    | none => rfl
    | some offset => simp [hs, ConsumerSpec.state] at hactive

/-- A second handle is refused; otherwise the new handle stands at the committed offset, or at the
tail for a new name. -/
theorem Refines.register (h : t.Refines tc s origin) (name : Name) :
    ∃ t', t.step tc (.register name) = some (t', (s.step (.register name)).2) ∧
      t'.Refines tc (s.step (.register name)).1 origin := by
  have hcons := h.consumers name
  have hready : ∀ t', t.consumer name = some t' →
      t'.Ready tc False (s.log.drop origin) origin := fun _ hrun => h.ready.register hrun
  cases hc : s.consumers.lookup name with
  | none =>
    rw [hc] at hcons
    have hle := h.ready.stocked.first_le
    rw [h.nextOffset] at hle
    simp only [Topic.step, consumer, hcons, Option.map_none, TopicSpec.step, hc, h.nextOffset]
      at hready ⊢
    refine ⟨_, rfl, h.update (hready _ rfl) rfl ⟨s.log.length, some s.log.length⟩
      (lookup_insert_ite _ _ · _) (lookup_insert_ite _ _ · _) ⟨hle, h.origin_le, le_refl _, le_refl _⟩⟩
  | some c =>
    obtain ⟨committed, reader⟩ := c
    rw [hc] at hcons
    cases reader with
    | some offset =>
      simp only [Topic.step, consumer, hcons, Option.map_some, TopicSpec.step, hc,
        ConsumerSpec.state, Option.isSome_some, if_true]
      exact ⟨t, rfl, h⟩
    | none =>
      have hoff := h.offsets name
      have hb := h.bounds name _ hc
      rw [hc] at hoff
      simp only [Topic.step, consumer, hcons, Option.map_some, TopicSpec.step, hc,
        ConsumerSpec.state, Option.isSome_none, Bool.false_eq_true, if_false] at hready ⊢
      exact ⟨_, rfl, h.update (hready _ rfl) rfl ⟨committed, some committed⟩ (lookup_same _ hoff)
        (lookup_insert_ite _ _ · _) hb⟩

/-- A call on a name without an open handle changes nothing in the model or the specification. -/
theorem Refines.refused (h : t.Refines tc s origin) (hr : ¬ (t.readers.lookup name).isSome)
    (f : Nat → Nat → TopicSpec Name T × Ret T) :
    ∃ t', some (t, Ret.refused) = some (t', (s.withReader name f).2) ∧
      t'.Refines tc (s.withReader name f).1 origin := by
  have hnone : t.readers.lookup name = none := by simpa using hr
  rw [h.withReader_none hnone f]
  exact ⟨t, rfl, h⟩

theorem Refines.commit (h : t.Refines tc s origin) (name : Name) :
    ∃ t', t.step tc (.commit name) = some (t', (s.step (.commit name)).2) ∧
      t'.Refines tc (s.step (.commit name)).1 origin := by
  rw [Topic.step, TopicSpec.step]
  split_ifs with hr
  · obtain ⟨current, hcur⟩ := Option.isSome_iff_exists.mp hr
    obtain ⟨committed, offset, hspec, hcons, hoff, h1, h2, h3, h4⟩ := h.reader hcur
    have hready := fun u (hrun : t.commit name = some u) => h.ready.commit hcur hrun
    simp only [TopicSpec.withReader, hspec, Topic.commit, hcons, Option.bind_eq_bind,
      Option.bind_some] at hready ⊢
    exact ⟨_, rfl, h.update (hready _ rfl) rfl ⟨offset, some offset⟩ (lookup_insert_ite _ _ · _)
      (lookup_insert_ite _ _ · _) ⟨h1.trans h3, h2.trans h3, le_refl _, h4⟩⟩
  · exact h.refused hr _

theorem Refines.reset (h : t.Refines tc s origin) (name : Name) :
    ∃ t', t.step tc (.reset name) = some (t', (s.step (.reset name)).2) ∧
      t'.Refines tc (s.step (.reset name)).1 origin := by
  rw [Topic.step, TopicSpec.step]
  split_ifs with hr
  · obtain ⟨current, hcur⟩ := Option.isSome_iff_exists.mp hr
    obtain ⟨committed, offset, hspec, hcons, hoff, h1, h2, h3, h4⟩ := h.reader hcur
    have hready := fun u (hrun : t.reset name = some u) => h.ready.reset hcur hrun
    simp only [TopicSpec.withReader, hspec, Topic.reset, hcons, Option.bind_eq_bind,
      Option.bind_some] at hready ⊢
    exact ⟨_, rfl, h.update (hready _ rfl) rfl ⟨committed, some committed⟩ (lookup_same _ hoff)
      (lookup_insert_ite _ _ · _) ⟨h1, h2, le_refl _, h3.trans h4⟩⟩
  · exact h.refused hr _

/-- A handle moves to an offset from the committed one up to the tail. -/
theorem Refines.seek (h : t.Refines tc s origin) {committed reader : Nat}
    (hspec : s.consumers.lookup name = some ⟨committed, some reader⟩) {offset : Nat}
    (hle : committed ≤ offset) (htail : offset ≤ s.log.length) :
    ∃ t', t.seek name offset = some t' ∧ t'.Refines tc (s.seek name offset) origin := by
  have hr : (t.readers.lookup name).isSome := by
    rw [h.ready.active, h.consumers, hspec]
    rfl
  obtain ⟨current, hcur⟩ := Option.isSome_iff_exists.mp hr
  obtain ⟨committed', reader', hspec', hcons, hoff, h1, h2, -, -⟩ := h.reader hcur
  rw [hspec] at hspec'
  cases hspec'
  have hready := fun u (hrun : t.seek name offset = some u) => h.ready.seek hcur offset hrun
  simp only [TopicSpec.seek, TopicSpec.withReader, hspec, Topic.seek, hcons, Option.bind_eq_bind,
    Option.bind_some] at hready ⊢
  exact ⟨_, rfl, h.update (hready _ rfl) rfl ⟨committed, some offset⟩ (lookup_same _ hoff)
    (lookup_insert_ite _ _ · _) ⟨h1, h2, hle, htail⟩⟩

/-- The record of an insert and the move of the recovery handle behind it. -/
theorem Refines.append_seek (h : t.Refines tc s origin) (v : T) (hv : (tc.enc v).length < 2^32)
    {committed reader : Nat} (hspec : s.consumers.lookup name = some ⟨committed, some reader⟩) :
    ∃ t₁ t₂ offset, t.append tc v = some (t₁, offset) ∧ t₁.seek name (offset+1) = some t₂ ∧
      t₂.Refines tc ((s.step (.append v)).1.seek name (s.log.length+1)) origin := by
  obtain ⟨t₁, happend, h₁⟩ := h.append v hv
  obtain ⟨-, -, hle, hend⟩ := h.bounds name _ hspec
  have hbehind : committed ≤ s.log.length+1 := (hle.trans hend).trans (Nat.le_succ _)
  obtain ⟨t₂, hseek, h₂⟩ := h₁.seek hspec hbehind (by simp)
  exact ⟨t₁, t₂, s.log.length, happend, hseek, h₂⟩

theorem Refines.dropReader (h : t.Refines tc s origin) (name : Name) :
    ∃ t', t.step tc (.drop name) = some (t', (s.step (.drop name)).2) ∧
      t'.Refines tc (s.step (.drop name)).1 origin := by
  rw [Topic.step, TopicSpec.step]
  split_ifs with hr
  · obtain ⟨current, hcur⟩ := Option.isSome_iff_exists.mp hr
    obtain ⟨committed, offset, hspec, hcons, hoff, h1, h2, h3, h4⟩ := h.reader hcur
    have hready := fun u (hrun : t.dropReader name = some u) => h.ready.dropReader hcur hrun
    simp only [TopicSpec.withReader, hspec, Topic.dropReader, hcons, Option.bind_eq_bind,
      Option.bind_some] at hready ⊢
    exact ⟨_, rfl, h.update (hready _ rfl) rfl ⟨committed, none⟩ (lookup_same _ hoff)
      (lookup_insert_ite _ _ · _) ⟨h1, h2, le_refl _, h3.trans h4⟩⟩
  · exact h.refused hr _

theorem Refines.delete (h : t.Refines tc s origin) (name : Name) :
    ∃ t', t.step tc (.delete name) = some (t', (s.step (.delete name)).2) ∧
      t'.Refines tc (s.step (.delete name)).1 origin := by
  rw [Topic.step, TopicSpec.step]
  split_ifs with hr
  · obtain ⟨current, hcur⟩ := Option.isSome_iff_exists.mp hr
    obtain ⟨committed, offset, hspec, -⟩ := h.reader hcur
    simp only [TopicSpec.withReader, hspec]
    refine ⟨_, rfl, h.ready.delete name, h.origin_le, ?_, ?_, ?_⟩
    · intro n
      rw [show (t.delete name).consumers = t.consumers.erase name from rfl, lookup_erase_ite,
        lookup_erase_ite]
      split_ifs with hn
      · rfl
      · exact h.consumers n
    · intro n
      rw [show (t.delete name).offsets = t.offsets.erase name from rfl, lookup_erase_ite,
        lookup_erase_ite]
      split_ifs with hn
      · rfl
      · exact h.offsets n
    · intro n d hd
      rw [lookup_erase_ite] at hd
      split_ifs at hd with hn
      exact h.bounds n d hd
  · exact h.refused hr _

/-- `next` delivers the record at the handle's offset, or nothing at the tail. -/
theorem Refines.next (h : t.Refines tc s origin) (name : Name) :
    ∃ t', t.step tc (.next name) = some (t', (s.step (.next name)).2) ∧
      t'.Refines tc (s.step (.next name)).1 origin := by
  rw [Topic.step, TopicSpec.step]
  split_ifs with hr
  · obtain ⟨current, hcur⟩ := Option.isSome_iff_exists.mp hr
    obtain ⟨committed, offset, hspec, hcons, hoff, h1, h2, h3, h4⟩ := h.reader hcur
    rcases h.ready.next hcur hcons with ⟨hnot, -⟩ | ⟨-, t', r, hrun, hadv⟩
    · exact absurd (Or.inl (h1.trans h3)) hnot
    have hanswer := hadv.answer (h2.trans h3)
    have hlook : (s.log.drop origin)[offset-origin]? = s.log[offset]? := by
      rw [List.getElem?_drop, Nat.add_sub_cancel' (h2.trans h3)]
    have hready := hadv.ready
    have hafter := hadv.consumers
    rw [answerAt, hlook] at hanswer
    simp only [TopicSpec.withReader, hspec, hrun, Option.map_some]
    have hold : ∀ n, t'.offsets.lookup n = if n = name then some committed else t.offsets.lookup n := by
      intro n
      rw [hadv.offsets]
      exact lookup_same _ hoff n
    cases hv : s.log[offset]? with
    | some v =>
      rw [hv] at hanswer
      subst hanswer
      have hlt := (List.getElem?_eq_some_iff.mp hv).1
      exact ⟨t', rfl, h.update hready hadv.earliest ⟨committed, some (offset+1)⟩ hold hafter
        ⟨h1, h2, h3.trans (Nat.le_succ _), hlt⟩⟩
    | none =>
      rw [hv] at hanswer
      subst hanswer
      have h' := h.update hready hadv.earliest ⟨committed, some offset⟩ hold hafter ⟨h1, h2, h3, h4⟩
      refine ⟨t', rfl, h'.ready, h.origin_le, ?_, ?_, ?_⟩
      · intro n
        rw [hafter, ← h.consumers]
        exact (lookup_same _ hcons n).symm
      · intro n
        rw [hadv.offsets]
        exact h.offsets n
      · intro n c hc
        rw [hadv.earliest]
        exact h.bounds n c hc
  · exact h.refused hr _

/-- With all handles dropped, `open` restores the log and every consumer at its committed offset. -/
theorem Refines.reopen (h : t.Refines tc s origin) :
    ∃ t', t.step tc .reopen = some (t', (s.step .reopen).2) ∧
      t'.Refines tc (s.step .reopen).1 origin := by
  have hopen : ∀ name, (t.readers.lookup name).isSome =
      ((s.consumers.lookup name).bind ConsumerSpec.reader).isSome := by
    intro name
    rw [h.ready.active, h.consumers]
    cases s.consumers.lookup name <;> rfl
  have hclosed : t.readers.entries = [] ↔ (s.consumers.entries.all fun e => e.2.reader.isNone) := by
    rw [List.all_eq_true]
    constructor
    · intro hempty e he
      have hopen := hopen e.1
      rw [lookup_readers_empty hempty, AList.mem_lookup_iff.mpr he] at hopen
      simpa using hopen.symm
    · intro hall
      by_contra hne
      obtain ⟨e, he⟩ := List.exists_mem_of_ne_nil _ hne
      have hopen := hopen e.1
      rw [AList.mem_lookup_iff.mpr he] at hopen
      cases hc : s.consumers.lookup e.1 with
      | none => simp [hc] at hopen
      | some c =>
        have hnone := hall ⟨e.1, c⟩ (AList.mem_lookup_iff.mp hc)
        rw [hc, Option.bind_some, Option.isNone_iff_eq_none.mp hnone] at hopen
        cases hopen
  by_cases hempty : t.readers.entries = []
  · have hall := hclosed.mp hempty
    obtain ⟨t', base, recs, hrun, hopened, hready, hfirst⟩ :=
      h.ready.reopen hempty (h.ready.stocked.whole id)
    rw [Topic.step, if_pos hempty, hrun, TopicSpec.step, if_pos hall]
    refine ⟨t', rfl, hready, h.origin_le, ?_, fun name => hopened.persisted ▸ h.offsets name, ?_⟩
    · intro name
      rw [hopened.lookup_consumers, h.offsets]
      cases hc : s.consumers.lookup name with
      | none => rfl
      | some c =>
        have hnone : c.reader = none := Option.isNone_iff_eq_none.mp
          (List.all_eq_true.mp hall ⟨name, c⟩ (AList.mem_lookup_iff.mp hc))
        simp [ConsumerSpec.state, ConsumerSpec.offset, hnone]
    · intro name c hc
      obtain ⟨hle, hrest⟩ := h.bounds name c hc
      exact ⟨hfirst.trans hle, hrest⟩
  · rw [Topic.step, if_neg hempty, TopicSpec.step, if_neg (fun hall => hempty (hclosed.mpr hall))]
    exact ⟨t, rfl, h⟩

end Topic

end ZenDB
