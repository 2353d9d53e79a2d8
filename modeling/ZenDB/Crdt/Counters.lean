import Mathlib.Algebra.BigOperators.Ring.Finset
import ZenDB.Crdt.Applied
import ZenDB.Lib.Sums

namespace ZenDB.Crdt.Counter

/-! What a merge of counters keeps of the events that both sides have applied. Events are their
identifiers, and `delta` says what each of them adds. -/

open SortedMap Finset

variable {P : Type} [LinearOrder P]

/-- The totals that a counter has of a peer. -/
def share (c : Counter P) (peer : P) : Nat × Nat := (get c.entries peer).getD (0, 0)

/-- A replica applies events one after another; `none` when a total overflows. -/
def addAll (delta : EventId P → Int) : Counter P → List (EventId P) → Option (Counter P)
  | c, [] => some c
  | c, e :: events =>
    match c.apply (.add (delta e)) e.peerId with
    | (c', .ok _) => addAll delta c' events
    | (_, .error _) => none

/-- A new counter after each of the events once, in some order and without overflow. -/
def Built (delta : EventId P → Int) (events : Finset (EventId P)) (c : Counter P) : Prop :=
  ∃ order : List (EventId P), order.Nodup ∧ order.toFinset = events ∧ addAll delta ⟨[]⟩ order = some c

/-- What the increments among the events of a peer come to. -/
def increments (delta : EventId P → Int) (events : Finset (EventId P)) (peer : P) : Nat :=
  ∑ e ∈ events with e.peerId = peer, (delta e).toNat

/-- Of the increments of one peer that only one side has seen, the merge keeps the larger part. -/
def lost (delta : EventId P → Int) (ours theirs : Finset (EventId P)) : Nat :=
  ∑ peer ∈ (ours ∪ theirs).image EventId.peerId,
    min (increments delta (ours \ theirs) peer) (increments delta (theirs \ ours) peer)

section Share

theorem share_apply {c c' : Counter P} {delta : Int} {peer : P} {changed : Bool}
    (h : c.apply (.add delta) peer = (c', .ok changed)) (p : P) :
    c'.share p = if p = peer then ((c.share p).1+delta.toNat, (c.share p).2+(-delta).toNat)
      else c.share p := by
  rw [apply] at h
  by_cases hzero : delta = 0
  · rw [if_pos hzero] at h
    cases h
    simp [hzero]
  have hentry : (if 0 < delta then ((c.share peer).1+delta.natAbs, (c.share peer).2)
      else ((c.share peer).1, (c.share peer).2+delta.natAbs)) =
      ((c.share peer).1+delta.toNat, (c.share peer).2+(-delta).toNat) := by
    split_ifs with hpos
    · exact Prod.ext (by dsimp only; omega) (by dsimp only; omega)
    · exact Prod.ext (by dsimp only; omega) (by dsimp only; omega)
  rw [if_neg hzero, addAt, ← share, hentry] at h
  dsimp only at h
  split_ifs at h with hrange
  · cases h
    by_cases hp : p = peer
    · subst hp
      simp [share, get_insert]
    · simp [share, get_insert, hp]
  · cases h

theorem increments_insert (delta : EventId P → Int) {events : Finset (EventId P)} {e : EventId P}
    (he : e ∉ events) (peer : P) :
    increments delta (insert e events) peer =
      (if peer = e.peerId then (delta e).toNat else 0) + increments delta events peer := by
  rw [increments, increments, filter_insert]
  by_cases hpeer : e.peerId = peer
  · rw [if_pos hpeer, if_pos hpeer.symm, sum_insert (by simp [he])]
  · rw [if_neg hpeer, if_neg (Ne.symm hpeer), Nat.zero_add]

/-- The totals of every peer after a run. -/
theorem share_addAll {delta : EventId P → Int} {order : List (EventId P)} (hnodup : order.Nodup)
    {c c' : Counter P} (h : addAll delta c order = some c') (peer : P) :
    c'.share peer = ((c.share peer).1+increments delta order.toFinset peer,
      (c.share peer).2+increments (-delta) order.toFinset peer) := by
  induction order generalizing c with
  | nil =>
    cases h
    simp [increments]
  | cons e order ih =>
    obtain ⟨hnot, hnodup⟩ := List.nodup_cons.mp hnodup
    rw [addAll] at h
    split at h
    · next c₁ changed happly =>
      have hmem : e ∉ order.toFinset := by simpa using hnot
      rw [ih hnodup h, share_apply happly peer, List.toFinset_cons, increments_insert _ hmem,
        increments_insert _ hmem]
      by_cases hpeer : peer = e.peerId
      · simp only [if_pos hpeer, Pi.neg_apply, Nat.add_assoc]
      · simp only [if_neg hpeer, Nat.zero_add]
    · cases h

theorem wf_addAll {delta : EventId P → Int} {order : List (EventId P)} {c c' : Counter P}
    (hc : c.WF) (h : addAll delta c order = some c') : c'.WF := by
  induction order generalizing c with
  | nil =>
    cases h
    exact hc
  | cons e order ih =>
    rw [addAll] at h
    split at h
    · next c₁ changed happly =>
      have hwf := wf_apply hc (.add (delta e)) e.peerId
      rw [happly] at hwf
      exact ih hwf h
    · cases h

theorem Built.wf {delta : EventId P → Int} {events : Finset (EventId P)} {c : Counter P}
    (h : Built delta events c) : c.WF := by
  obtain ⟨order, -, -, hrun⟩ := h
  have hempty : WF (⟨[]⟩ : Counter P) := ⟨List.Pairwise.nil, fun _ _ _ => trivial⟩
  exact wf_addAll hempty hrun

theorem Built.share_eq {delta : EventId P → Int} {events : Finset (EventId P)} {c : Counter P}
    (h : Built delta events c) (peer : P) :
    c.share peer = (increments delta events peer, increments (-delta) events peer) := by
  obtain ⟨order, hnodup, hevents, hrun⟩ := h
  rw [share_addAll hnodup hrun, hevents]
  simp [share]

/-- A merge takes the larger of each total. -/
theorem share_merge (c : Counter P) {remote : Counter P} (hremote : remote.WF) (peer : P) :
    (c.merge remote).1.share peer = (max (c.share peer).1 (remote.share peer).1,
      max (c.share peer).2 (remote.share peer).2) := by
  show (get (mergeTotal mergePair c.entries remote.entries).1 peer).getD (0, 0) = _
  rw [(mergeTotal_spec mergePair hremote.1 c.entries).1, share, share]
  cases get c.entries peer <;> cases get remote.entries peer <;> simp [joinEntry, mergePair]

/-- The value is the sum of the shares, over any peers that the others add nothing to. -/
theorem value_eq_sum {c : Counter P} (hc : c.WF) {peers : Finset P}
    (hpeers : ∀ peer ∉ peers, c.share peer = (0, 0)) :
    c.value = ∑ peer ∈ peers, (((c.share peer).1 : Int)-(c.share peer).2) := by
  have hkeys : ∀ e ∈ c.entries, e.1 ∉ peers → (e.2.1 : Int)-e.2.2 = 0 := by
    intro e he hnot
    have hshare := hpeers e.1 hnot
    rw [share, get_of_mem hc.1 he, Option.getD_some] at hshare
    simp [hshare]
  rw [value, sum_entries (fun v : Nat × Nat => (v.1 : Int)-v.2) hc.1 hkeys]
  refine sum_congr rfl fun peer _ => ?_
  rw [share]
  cases get c.entries peer <;> simp

end Share

section Union

variable {delta : EventId P → Int} {ours theirs : Finset (EventId P)} {c remote : Counter P}

theorem increments_union (delta : EventId P → Int) (ours theirs : Finset (EventId P)) (peer : P) :
    increments delta (ours ∪ theirs) peer =
      max (increments delta ours peer) (increments delta theirs peer) +
        min (increments delta (ours \ theirs) peer) (increments delta (theirs \ ours) peer) := by
  have h := sum_union_eq_max_add_min (fun e : EventId P => (delta e).toNat)
    (ours.filter (·.peerId = peer)) (theirs.filter (·.peerId = peer))
  have hsdiff : ∀ s t : Finset (EventId P), s.filter (·.peerId = peer) \ t.filter (·.peerId = peer) =
      (s \ t).filter (·.peerId = peer) := by
    intro s t
    ext e
    simp only [mem_sdiff, mem_filter]
    tauto
  rw [← filter_union, hsdiff, hsdiff] at h
  exact h

theorem increments_of_not_mem {events : Finset (EventId P)} {peer : P}
    (h : peer ∉ events.image EventId.peerId) : increments delta events peer = 0 := by
  refine sum_eq_zero fun e he => ?_
  obtain ⟨hmem, hpeer⟩ := mem_filter.mp he
  exact absurd (mem_image.mpr ⟨e, hmem, hpeer⟩) h

/-- The deltas of a set of events, peer by peer. -/
theorem sum_delta (delta : EventId P → Int) (events : Finset (EventId P)) :
    ∑ e ∈ events, delta e = ∑ peer ∈ events.image EventId.peerId,
      ((increments delta events peer : Int)-increments (-delta) events peer) := by
  rw [← sum_fiberwise_of_maps_to fun e he => mem_image_of_mem EventId.peerId he]
  refine sum_congr rfl fun peer _ => ?_
  rw [increments, increments, Nat.cast_sum, Nat.cast_sum, ← sum_sub_distrib]
  refine sum_congr rfl fun e _ => ?_
  rw [Pi.neg_apply]
  omega

theorem value_merge (hours : Built delta ours c) (htheirs : Built delta theirs remote) :
    (c.merge remote).1.value = ∑ peer ∈ (ours ∪ theirs).image EventId.peerId,
      (((max (increments delta ours peer) (increments delta theirs peer) : Nat) : Int)-
        (max (increments (-delta) ours peer) (increments (-delta) theirs peer) : Nat)) := by
  have hwf : (c.merge remote).1.WF := (laws (ε := Empty)).wf c remote hours.wf htheirs.wf
  have hshare : ∀ peer, (c.merge remote).1.share peer =
      (max (increments delta ours peer) (increments delta theirs peer),
        max (increments (-delta) ours peer) (increments (-delta) theirs peer)) := by
    intro peer
    rw [share_merge c htheirs.wf, hours.share_eq, htheirs.share_eq]
  rw [value_eq_sum hwf]
  · exact sum_congr rfl fun peer _ => by rw [hshare]
  · intro peer hpeer
    rw [image_union, mem_union, not_or] at hpeer
    rw [hshare]
    simp [increments_of_not_mem hpeer.1, increments_of_not_mem hpeer.2]

/-- The account of a merge: what it loses of the increments and of the decrements. -/
theorem value_merge_add_lost (hours : Built delta ours c) (htheirs : Built delta theirs remote) :
    (c.merge remote).1.value+lost delta ours theirs =
      ∑ e ∈ ours ∪ theirs, delta e+lost (-delta) ours theirs := by
  rw [value_merge hours htheirs, sum_delta, lost, lost, Nat.cast_sum, Nat.cast_sum,
    ← sum_add_distrib, ← sum_add_distrib]
  refine sum_congr rfl fun peer _ => ?_
  rw [increments_union, increments_union]
  omega

/-- Nothing is lost where each peer has events that are new to one side only. -/
theorem lost_eq_zero (delta : EventId P → Int) (h : ∀ e ∈ ours \ theirs, ∀ e' ∈ theirs \ ours,
    e.peerId ≠ e'.peerId) : lost delta ours theirs = 0 := by
  refine sum_eq_zero fun peer _ => ?_
  by_cases hpeer : peer ∈ (ours \ theirs).image EventId.peerId
  · obtain ⟨e, he, rfl⟩ := mem_image.mp hpeer
    have hnot : e.peerId ∉ (theirs \ ours).image EventId.peerId := by
      intro hmem
      obtain ⟨e', he', heq⟩ := mem_image.mp hmem
      exact h e he e' he' heq.symm
    rw [increments_of_not_mem hnot, Nat.min_zero]
  · rw [increments_of_not_mem hpeer, Nat.zero_min]

/-- Replicas that see the events of each peer in order merge without loss. -/
theorem merge_value_of_disjoint_peers (hours : Built delta ours c)
    (htheirs : Built delta theirs remote)
    (h : ∀ e ∈ ours \ theirs, ∀ e' ∈ theirs \ ours, e.peerId ≠ e'.peerId) :
    (c.merge remote).1.value = ∑ e ∈ ours ∪ theirs, delta e := by
  have haccount := value_merge_add_lost hours htheirs
  rw [lost_eq_zero delta h, lost_eq_zero (-delta) h] at haccount
  omega

end Union

theorem merge_value_of_disjoint_peers_pair :
    (merge (⟨[(0, 1, 0)]⟩ : Counter Nat) ⟨[(1, 1, 0)]⟩).1.value =
      ∑ _e ∈ ({⟨0, 1⟩} ∪ {⟨1, 1⟩} : Finset (EventId Nat)), (1 : Int) :=
  merge_value_of_disjoint_peers ⟨[⟨0, 1⟩], by decide, by decide, rfl⟩
    ⟨[⟨1, 1⟩], by decide, by decide, rfl⟩ (by decide)

/-- A merge has the sum of all deltas exactly when it loses as much of the increments as of the
decrements. -/
theorem merge_value_union {delta : EventId P → Int} {ours theirs : Finset (EventId P)}
    {c remote : Counter P} (hours : Built delta ours c) (htheirs : Built delta theirs remote) :
    (c.merge remote).1.value = ∑ e ∈ ours ∪ theirs, delta e ↔
      lost delta ours theirs = lost (-delta) ours theirs := by
  have haccount := value_merge_add_lost hours htheirs
  omega

theorem merge_value_union_two_peers :
    (merge (⟨[(0, 2, 0), (1, 0, 3)]⟩ : Counter Nat) ⟨[(0, 4, 0)]⟩).1.value =
      ∑ e ∈ ({⟨0, 1⟩, ⟨1, 1⟩} ∪ {⟨0, 1⟩, ⟨0, 2⟩} : Finset (EventId Nat)),
        (fun e : EventId Nat => if e.peerId = 0 then (2 : Int) else -3) e :=
  (merge_value_union ⟨[⟨1, 1⟩, ⟨0, 1⟩], by decide, by decide, by decide +kernel⟩
    ⟨[⟨0, 2⟩, ⟨0, 1⟩], by decide, by decide, by decide +kernel⟩).mpr (by decide +kernel)

/-- Two events of one peer, each seen by one side: one of them is lost. -/
theorem merge_loses_increment :
    Built (fun _ => 1) {⟨0, 1⟩} (⟨[(0, 1, 0)]⟩ : Counter Nat) ∧
    Built (fun _ => 1) {⟨0, 2⟩} (⟨[(0, 1, 0)]⟩ : Counter Nat) ∧
    (merge (⟨[(0, 1, 0)]⟩ : Counter Nat) ⟨[(0, 1, 0)]⟩).1.value = 1 ∧
    ∑ _e ∈ ({⟨0, 1⟩} ∪ {⟨0, 2⟩} : Finset (EventId Nat)), (1 : Int) = 2 :=
  ⟨⟨[⟨0, 1⟩], by decide, by decide, by decide +kernel⟩,
    ⟨[⟨0, 2⟩], by decide, by decide, by decide +kernel⟩, by decide +kernel, by decide +kernel⟩

end ZenDB.Crdt.Counter
