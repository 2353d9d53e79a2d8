import ZenDB.Topic.Handles

namespace ZenDB

namespace Topic

variable {Name T : Type} [DecidableEq Name] {tc : Codec T} {faults : Prop} {t : Topic Name}
  {log : List T} {name : Name}

/-- `next` returns, and a record it yields is the one that was appended at the offset and whose file
is still there. -/
def SafeNext (tc : Codec T) (t : Topic Name) (name : Name) (log : List T) (offset : Nat) : Prop :=
  ∃ t' r, t.next tc name = some (t', r) ∧ ∀ v, r = .item v → log[offset]? = some v ∧
    ∃ s ∈ t.segments ++ t.held, s.baseOffset ≤ offset ∧ offset < s.endOffset

theorem Ready.safeNext_iff (h : t.Ready tc faults log 0) {current : Option SegmentCursor}
    {c : ConsumerState} (hr : t.readers.lookup name = some current)
    (hc : t.consumers.lookup name = some c) :
    t.SafeNext tc name log c.volatile ↔ t.Served name c.volatile := by
  rcases h.next hr hc with ⟨hnot, hnone⟩ | ⟨hserved, t', r, hrun, hadv⟩
  · refine ⟨?_, fun hserved => absurd hserved hnot⟩
    rintro ⟨t', r, hrun, -⟩
    rw [hnone] at hrun
    cases hrun
  · refine ⟨fun _ => hserved, fun _ => ⟨t', r, hrun, ?_⟩⟩
    intro v hv
    have hlog : log[c.volatile]? = some v := by
      have hitem := (hadv.answer (Nat.zero_le _)).symm.trans hv
      rw [answerAt, Nat.sub_zero] at hitem
      cases hlook : log[c.volatile]? with
      | none =>
        rw [hlook] at hitem
        cases hitem
      | some w =>
        rw [hlook] at hitem
        cases hitem
        rfl
    refine ⟨hlog, ?_⟩
    rcases hserved with hfirst | ⟨cursor, hcur, s, hs, hbase, hlt⟩
    · have hlen : c.volatile < 0+log.length := by
        rw [Nat.zero_add]
        exact (List.getElem?_eq_some_iff.mp hlog).1
      obtain ⟨s, hs, -, hbounds⟩ := h.stocked.cover.find hfirst hlen
      exact ⟨s, List.mem_append_left _ hs, hbounds⟩
    · obtain ⟨-, s', hs', hbase', hlo, -⟩ := h.aimed name cursor c hcur hc
      have hsame : s' = s := h.stocked.base_inj hs' hs (hbase'.trans hbase.symm)
      subst hsame
      exact ⟨s', hs, hlo, hlt⟩

/-- After any calls, `seek` to any offset among them, `position` finds a segment or the tail exactly
from the earliest offset on, and `next` is safe exactly for a consumer that stands there or whose
cursor still shares a segment with a record for it. -/
theorem seek_safe_iff {maxSegmentBytes : Nat} {t₀ : Topic Name}
    (hcreate : Topic.create maxSegmentBytes = some t₀) {cs : List (Call Name T)}
    (hfit : ∀ c ∈ cs, c.Fits tc) (hrun : t₀.calls tc cs = some t) :
    (∀ offset, (t.position offset).isSome ↔ t.stats.earliestOffset ≤ offset) ∧
      ∀ name current c, t.readers.lookup name = some current → t.consumers.lookup name = some c →
        (t.SafeNext tc name (cs.flatMap Call.appended) c.volatile ↔ t.Served name c.volatile) := by
  have hready : t.Ready tc False (cs.flatMap Call.appended) 0 :=
    (ready_create hcreate).calls id hfit hrun
  exact ⟨hready.stocked.position_isSome, fun name current c hr hc => hready.safeNext_iff hr hc⟩

/-- The first segment has been removed, and the consumer seeks to the record of the second. -/
theorem seek_safe_retained :
    ∃ t₀ t : Topic Unit, Topic.create 8 = some t₀ ∧
      t₀.calls byteCodec [.step (.register ()), .step (.append 7), .step (.append 9),
        .step (.next ()), .step (.commit ()), .step .compact, .seek () 1] = some t ∧
      (t.position 1).isSome ∧ t.SafeNext byteCodec () [7, 9] 1 := by
  have hrun : ((Topic.create 8 : Option (Topic Unit)).bind fun t₀ => t₀.calls byteCodec
      [.step (.register ()), .step (.append 7), .step (.append 9), .step (.next ()),
        .step (.commit ()), .step .compact, .seek () 1]).map
        (fun t => (t.stats.earliestOffset, t.readers.lookup (), t.consumers.lookup ())) =
      some (1, some none, some ⟨1, 1, true⟩) := by decide +kernel
  obtain ⟨t, hrun, hstate⟩ := Option.map_eq_some_iff.mp hrun
  obtain ⟨t₀, hcreate, hrun⟩ := Option.bind_eq_some_iff.mp hrun
  obtain ⟨hfirst, hstate⟩ := Prod.mk.inj hstate
  obtain ⟨hr, hc⟩ := Prod.mk.inj hstate
  obtain ⟨hposition, hnext⟩ := seek_safe_iff hcreate (by simp [Call.Fits, Op.Fits, byteCodec]) hrun
  exact ⟨t₀, t, hcreate, hrun, (hposition 1).mpr hfirst.le,
    (hnext () none _ hr hc).mpr (Or.inl hfirst.le)⟩

/-- The consumer has committed the first of two segments, which `compact` then removed, and seeks back
to offset 0: `position` finds no segment, and `next` panics. -/
theorem seek_below_earliest_panics :
    ((Topic.create 8 : Option (Topic Unit)).bind fun t₀ => t₀.calls byteCodec
      [.step (.register ()), .step (.append 7), .step (.append 9), .step (.next ()),
        .step (.commit ()), .step .compact, .seek () 0]).map
      (fun t => (t.stats.earliestOffset, t.stats.nextOffset, (t.position 0).isSome,
        (t.next byteCodec ()).isSome)) = some (1, 2, false, false) := by
  decide +kernel

end Topic

end ZenDB
