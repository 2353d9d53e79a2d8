import ZenDB.Devices.Model
import ZenDB.Lib.FiniteMap

namespace ZenDB

/-- A device and its disk. `recorded` are the events of the local peer in table topics, `pending`
the stamps of inserts under way, and `unsaved` those minted since the last checkpoint. -/
structure DeviceSystem (P : Type) where
  peer : P
  disk : AList (fun _ : P => PeerState)
  recorded : List (EventStamp P)
  devices : Option (Devices P)
  pending : List (EventStamp P)
  unsaved : List (EventStamp P)

/-- An insert is a mint and then, when the table applies the event, a record, which the receipt
listener observes; `hear` is an event of another peer. -/
inductive DeviceAction (P : Type) where
  | mint (wall : Option Nat)
  | record (stamp : EventStamp P) (wall : Option Nat)
  | hear (stamp : EventStamp P) (wall : Option Nat)
  | checkpoint
  | crash
  | reopen (wall : Option Nat)

namespace DeviceSystem

variable {P : Type} [LinearOrder P]

def create (peer : P) (wall : Nat) : DeviceSystem P :=
  let (devices, stamp) := Devices.create peer wall
  ⟨peer, ∅, [stamp], some devices, [], [stamp]⟩

def step (s : DeviceSystem P) : DeviceAction P → DeviceSystem P
  | .mint wall =>
    match s.devices.bind (·.mint wall) with
    | some (d, stamp) =>
      {s with devices := some d, pending := stamp :: s.pending, unsaved := stamp :: s.unsaved}
    | none => s
  | .record stamp wall =>
    match s.devices with
    | some d =>
      if stamp ∈ s.pending then
        {s with
          recorded := stamp :: s.recorded
          pending := s.pending.erase stamp
          devices := some (d.observe stamp wall).1}
      else s
    | none => s
  | .hear stamp wall =>
    match s.devices with
    | some d =>
      if stamp.id.peerId = s.peer then s else {s with devices := some (d.observe stamp wall).1}
    | none => s
  | .checkpoint =>
    match s.devices with
    | some d =>
      let (d, disk) := d.checkpoint s.disk
      {s with devices := some d, disk := disk, unsaved := []}
    | none => s
  | .crash => {s with devices := none, pending := [], unsaved := []}
  | .reopen wall =>
    match s.devices with
    | some _ => s
    | none => {s with devices := Devices.openFrom s.peer s.disk wall}

def run (s : DeviceSystem P) : List (DeviceAction P) → DeviceSystem P
  | [] => s
  | a :: as => (s.step a).run as

/-- No event recorded since the last checkpoint is lost from the clock by a crash. -/
def Saved (s : DeviceSystem P) : DeviceAction P → Prop
  | .crash => ∀ stamp ∈ s.unsaved, stamp ∉ s.recorded
  | _ => True

def RunSaved (s : DeviceSystem P) : List (DeviceAction P) → Prop
  | [] => True
  | a :: as => s.Saved a ∧ (s.step a).RunSaved as

end DeviceSystem

/-- The clock is past the stamp. -/
def EventClock.Past {P : Type} (c : EventClock) (stamp : EventStamp P) : Prop :=
  stamp.id.sequence < c.nextSequence ∧ stamp.time ≤ c.lastTime

/-- The clock moves forward. -/
def EventClock.Le (c c' : EventClock) : Prop :=
  c.nextSequence ≤ c'.nextSequence ∧ c.lastTime ≤ c'.lastTime

theorem EventClock.Past.mono {P : Type} {c c' : EventClock} {stamp : EventStamp P} (h : c.Past stamp)
    (hle : c.Le c') : c'.Past stamp :=
  ⟨h.1.trans_le hle.1, h.2.trans hle.2⟩

theorem EventClock.lt_advance {c : EventClock} {wall : Nat} {time : EventTime}
    (h : c.advance wall = some time) : c.lastTime < time := by
  unfold EventClock.advance at h
  split_ifs at h with hwall hfull
  · rw [← Option.some.inj h, EventTime.lt_def]
    exact Or.inl hwall
  · rw [← Option.some.inj h, EventTime.lt_def]
    exact Or.inr ⟨rfl, Nat.lt_succ_self _⟩

theorem EventClock.le_hear (c : EventClock) (time : EventTime) (wall : Nat) :
    c.lastTime ≤ c.hear time wall := by
  rw [EventTime.le_def]
  unfold EventClock.hear
  by_cases hp : c.lastTime.physicalMs < max (max wall c.lastTime.physicalMs) time.physicalMs
  · exact Or.inl hp
  · have heq : max (max wall c.lastTime.physicalMs) time.physicalMs = c.lastTime.physicalMs := by
      omega
    refine Or.inr ⟨heq.symm, ?_⟩
    simp only [heq, gt_iff_lt, lt_irrefl, false_and, if_false, true_and, if_true]
    split_ifs with htime
    · exact le_max_left _ _
    · exact le_refl _

namespace Devices

variable {P : Type} [LinearOrder P] {d d' : Devices P} {stamp : EventStamp P}

omit [LinearOrder P] in
theorem mintCache_run {d : Devices P} {clock : EventClock} (hc : d.localState.clock = some clock)
    (wall : Option Nat) :
    (mintCache wall).run d = if clock.nextSequence = u64Max then (.error .clockExhausted, d) else
      match wall.bind clock.advance with
      | none => (.error .clockExhausted, d)
      | some time => (.ok ⟨⟨d.localPeerId, clock.nextSequence⟩, time⟩,
        {d with
          localState := {d.localState with clock := some ⟨clock.nextSequence+1, time⟩}
          localDirty := true}) := by
  obtain ⟨peer, ⟨receipts, _⟩, dirty, others, dirtyOthers⟩ := d
  subst hc
  change (ite (clock.nextSequence = u64Max) (throw .clockExhausted) _ :
    ExceptT ClockError (StateM (Devices P)) (EventStamp P)).run _ = _
  split_ifs
  · rfl
  · cases wall with
    | none => rfl
    | some wall =>
      rw [Option.bind_some]
      dsimp only
      cases clock.advance wall with
      | none => rfl
      | some time => rfl

omit [LinearOrder P] in
theorem mint_clock {wall : Option Nat} (h : d.mint wall = some (d', stamp)) :
    ∃ c, d.localState.clock = some c := by
  obtain ⟨peer, ⟨receipts, _ | c⟩, dirty, others, dirtyOthers⟩ := d
  · cases h
  · exact ⟨c, rfl⟩

omit [LinearOrder P] in
theorem mint_spec {wall : Option Nat} (h : d.mint wall = some (d', stamp)) :
    ∃ c, d.localState.clock = some c ∧ stamp.id = ⟨d.localPeerId, c.nextSequence⟩ ∧
      c.lastTime < stamp.time ∧ d'.localState.clock = some ⟨c.nextSequence+1, stamp.time⟩ ∧
      d'.localPeerId = d.localPeerId ∧ d'.localDirty = true ∧ d'.dirtyOthers = d.dirtyOthers := by
  obtain ⟨c, hc⟩ := mint_clock h
  rw [mint, mintCache_run hc] at h
  split_ifs at h with hfull
  cases htime : wall.bind c.advance with
  | none =>
    rw [htime] at h
    cases h
  | some time =>
    rw [htime] at h
    obtain ⟨rfl, rfl⟩ := Prod.mk.inj (Option.some.inj h)
    obtain ⟨w, -, hadvance⟩ := Option.bind_eq_some_iff.mp htime
    exact ⟨c, hc, rfl, EventClock.lt_advance hadvance, rfl, rfl, rfl, rfl⟩

/-- What a call that is not a checkpoint may do to the local state. -/
structure Advances (d d' : Devices P) : Prop where
  peer : d'.localPeerId = d.localPeerId
  clock : ∀ c, d.localState.clock = some c → ∃ c', d'.localState.clock = some c' ∧ c.Le c'
  dirty : d'.localDirty = false → d.localDirty = false ∧ d'.localState = d.localState

omit [LinearOrder P] in
theorem advances_refl (d : Devices P) : d.Advances d :=
  ⟨rfl, fun c hc => ⟨c, hc, le_refl _, le_refl _⟩, fun h => ⟨h, rfl⟩⟩

theorem advanceClock_advances (d : Devices P) (stamp : EventStamp P) (wall : Nat)
    {c : EventClock} (hc : d.localState.clock = some c) :
    (d.advanceClock stamp wall).localPeerId = d.localPeerId ∧
      (d.advanceClock stamp wall).localDirty = true ∧
      (d.advanceClock stamp wall).dirtyOthers = d.dirtyOthers ∧
      ∃ c', (d.advanceClock stamp wall).localState.clock = some c' ∧ c.Le c' := by
  simp only [advanceClock, hc]
  refine ⟨trivial, trivial, trivial, _, rfl, ?_, c.le_hear _ _⟩
  dsimp only
  split_ifs
  · exact le_max_left _ _
  · exact le_refl _

/-- Observing moves the clock forward, and marks another peer at most. -/
theorem observe_advances (d : Devices P) (stamp : EventStamp P) (wall : Option Nat)
    (hclock : d.localState.clock.isSome) :
    d.Advances (d.observe stamp wall).1 ∧
      ((d.observe stamp wall).1.dirtyOthers = d.dirtyOthers ∨
        stamp.id.peerId ≠ d.localPeerId ∧
          (d.observe stamp wall).1.dirtyOthers = stamp.id.peerId :: d.dirtyOthers) := by
  obtain ⟨c, hc⟩ := Option.isSome_iff_exists.mp hclock
  unfold observe
  cases wall with
  | none => exact ⟨d.advances_refl, Or.inl rfl⟩
  | some wall =>
    dsimp only
    split_ifs with hlocal hfull
    · exact ⟨d.advances_refl, Or.inl rfl⟩
    · split
      · exact ⟨d.advances_refl, Or.inl rfl⟩
      · rename_i w outcome _
        obtain ⟨hpeer, hdirty, hothers, c', hc', hle⟩ := advanceClock_advances
          {d with localState := {d.localState with receipts := w}} stamp wall hc
        refine ⟨⟨hpeer, ?_, ?_⟩, Or.inl hothers⟩
        · intro c₁ hc₁
          rw [hc, Option.some.injEq] at hc₁
          exact hc₁ ▸ ⟨c', hc', hle⟩
        · intro hclean
          rw [hdirty] at hclean
          cases hclean
    · split
      · exact ⟨⟨rfl, fun c hc => ⟨c, hc, le_refl _, le_refl _⟩, fun h => ⟨h, rfl⟩⟩, Or.inl rfl⟩
      · rename_i w outcome _
        obtain ⟨hpeer, hdirty, hothers, c', hc', hle⟩ := advanceClock_advances
          {d with others := (d.others.insert stamp.id.peerId
            {d.known stamp.id.peerId with receipts := w})} stamp wall hc
        refine ⟨⟨hpeer, ?_, ?_⟩, Or.inr ⟨hlocal, congrArg _ hothers⟩⟩
        · intro c₁ hc₁
          rw [hc, Option.some.injEq] at hc₁
          exact hc₁ ▸ ⟨c', hc', hle⟩
        · intro hclean
          change (Devices.localDirty _) = false at hclean
          rw [hdirty] at hclean
          cases hclean

/-- A checkpoint leaves the local state on disk. -/
theorem lookup_checkpoint (d : Devices P) (disk : AList (fun _ : P => PeerState))
    (hclean : d.localDirty = false → disk.lookup d.localPeerId = some d.localState)
    (hothers : d.localPeerId ∉ d.dirtyOthers) :
    (d.checkpoint disk).2.lookup d.localPeerId = some d.localState := by
  rw [Devices.checkpoint]
  dsimp only
  rw [lookup_foldl_of_forall]
  · split_ifs with hdirty
    · exact AList.lookup_insert _
    · exact hclean (by simpa using hdirty)
  · intro disk peer hpeer
    have hne : d.localPeerId ≠ peer := fun heq => hothers (heq ▸ hpeer)
    split
    · exact AList.lookup_insert_ne hne
    · rfl

end Devices

namespace DeviceSystem

variable {P : Type} [LinearOrder P] {s : DeviceSystem P}

/-- An open device between two calls: its clock is past every stamp in use, and the checkpoint is
past those that are not new. -/
structure Open (s : DeviceSystem P) (d : Devices P) : Prop where
  peer : d.localPeerId = s.peer
  apart : s.peer ∉ d.dirtyOthers
  clock : ∃ c, d.localState.clock = some c ∧ ∀ stamp ∈ s.recorded ++ s.pending, c.Past stamp
  clean : d.localDirty = false → s.disk.lookup s.peer = some d.localState

structure Valid (s : DeviceSystem P) : Prop where
  own : ∀ stamp ∈ s.recorded ++ s.pending, stamp.id.peerId = s.peer
  distinct : ((s.recorded ++ s.pending).map (·.id.sequence)).Nodup
  saved : ∀ stamp ∈ s.recorded ++ s.pending, stamp ∉ s.unsaved →
    ∃ state c, s.disk.lookup s.peer = some state ∧ state.clock = some c ∧ c.Past stamp
  opened : ∀ d, s.devices = some d → s.Open d
  closed : s.devices = none → s.pending = [] ∧ s.unsaved = []

theorem create_valid (peer : P) (wall : Nat) : (create peer wall).Valid := by
  refine ⟨?_, by simp [create, Devices.create], ?_, ?_, ?_⟩
  · intro stamp hstamp
    obtain rfl : stamp = ⟨⟨peer, 1⟩, ⟨wall, 0⟩⟩ := by
      simpa [create, Devices.create] using hstamp
    rfl
  · intro stamp hstamp hnew
    exact absurd (by simpa [create, Devices.create] using hstamp) hnew
  · intro d hd
    obtain rfl := Option.some.inj hd
    refine ⟨rfl, by simp, ⟨⟨2, ⟨wall, 0⟩⟩, rfl, ?_⟩, ?_⟩
    · intro stamp hstamp
      obtain rfl : stamp = ⟨⟨peer, 1⟩, ⟨wall, 0⟩⟩ := by
        simpa [create, Devices.create] using hstamp
      exact ⟨Nat.lt_succ_self 1, le_refl _⟩
    · intro hclean
      cases hclean
  · intro hnone
    cases hnone

/-- Moving a stamp from `pending` to `recorded` keeps what holds of all of them. -/
theorem record_perm {stamp : EventStamp P} (h : stamp ∈ s.pending) :
    (stamp :: s.recorded ++ s.pending.erase stamp).Perm (s.recorded ++ s.pending) := by
  rw [List.cons_append]
  exact (List.perm_middle.symm).trans ((List.perm_cons_erase h).symm.append_left _)

theorem Open.observe {d : Devices P} (h : s.Open d) (stamp : EventStamp P) (wall : Option Nat) :
    s.Open (d.observe stamp wall).1 := by
  obtain ⟨c, hc, hpast⟩ := h.clock
  obtain ⟨hadv, hothers⟩ := d.observe_advances stamp wall (by rw [hc]; rfl)
  refine ⟨hadv.peer.trans h.peer, ?_, ?_, ?_⟩
  · rcases hothers with heq | ⟨hne, heq⟩
    · rw [heq]
      exact h.apart
    · rw [heq, List.mem_cons, not_or]
      exact ⟨fun hsame => hne (hsame.symm.trans h.peer.symm), h.apart⟩
  · obtain ⟨c', hc', hle⟩ := hadv.clock c hc
    exact ⟨c', hc', fun x hx => (hpast x hx).mono hle⟩
  · intro hclean
    obtain ⟨hd, hstate⟩ := hadv.dirty hclean
    rw [hstate]
    exact h.clean hd

theorem Valid.mint (h : s.Valid) {d d' : Devices P} {stamp : EventStamp P} {wall : Option Nat}
    (hd : s.devices = some d) (hmint : d.mint wall = some (d', stamp)) :
    ({s with
      devices := some d'
      pending := stamp :: s.pending
      unsaved := stamp :: s.unsaved} : DeviceSystem P).Valid := by
  have ho := h.opened d hd
  obtain ⟨c, hc, hpast⟩ := ho.clock
  obtain ⟨c₁, hc₁, hid, htime, hclock, hpeer, hdirty, hothers⟩ := Devices.mint_spec hmint
  obtain rfl : c = c₁ := by
    rw [hc] at hc₁
    exact Option.some.inj hc₁
  have hperm : (s.recorded ++ stamp :: s.pending).Perm (stamp :: (s.recorded ++ s.pending)) :=
    List.perm_middle
  refine ⟨?_, ?_, ?_, ?_, ?_⟩
  · intro x hx
    rcases List.mem_cons.mp (hperm.mem_iff.mp hx) with rfl | hx
    · rw [hid]
      exact ho.peer
    · exact h.own x hx
  · refine ((hperm.map _).nodup_iff).mpr ?_
    rw [List.map_cons, List.nodup_cons]
    refine ⟨?_, h.distinct⟩
    intro hmem
    obtain ⟨x, hx, hseq⟩ := List.mem_map.mp hmem
    have hlt := (hpast x hx).1
    rw [hseq, hid] at hlt
    exact lt_irrefl _ hlt
  · intro x hx hnew
    obtain ⟨hne, hold⟩ := List.ne_and_not_mem_of_not_mem_cons hnew
    rcases List.mem_cons.mp (hperm.mem_iff.mp hx) with heq | hx
    · exact absurd heq hne
    · exact h.saved x hx hold
  · intro d₁ hd₁
    obtain rfl := Option.some.inj hd₁
    refine ⟨hpeer.trans ho.peer, by rw [hothers]; exact ho.apart, ⟨_, hclock, ?_⟩, ?_⟩
    · intro x hx
      rcases List.mem_cons.mp (hperm.mem_iff.mp hx) with rfl | hx
      · refine ⟨?_, le_refl _⟩
        rw [hid]
        exact Nat.lt_succ_self _
      · exact (hpast x hx).mono ⟨Nat.le_succ _, htime.le⟩
    · intro hclean
      rw [hdirty] at hclean
      cases hclean
  · intro hnone
    cases hnone

theorem Valid.record (h : s.Valid) {d : Devices P} {stamp : EventStamp P} (hd : s.devices = some d)
    (hmem : stamp ∈ s.pending) (wall : Option Nat) :
    ({s with
      recorded := stamp :: s.recorded
      pending := s.pending.erase stamp
      devices := some (d.observe stamp wall).1} : DeviceSystem P).Valid := by
  have hperm := record_perm hmem
  have ho := (h.opened d hd).observe stamp wall
  refine ⟨?_, ((hperm.map _).nodup_iff).mpr h.distinct, ?_, ?_, ?_⟩
  · exact fun x hx => h.own x (hperm.mem_iff.mp hx)
  · exact fun x hx hnew => h.saved x (hperm.mem_iff.mp hx) hnew
  · intro d₁ hd₁
    obtain rfl := Option.some.inj hd₁
    obtain ⟨c, hc, hpast⟩ := ho.clock
    exact ⟨ho.peer, ho.apart, ⟨c, hc, fun x hx => hpast x (hperm.mem_iff.mp hx)⟩, ho.clean⟩
  · intro hnone
    cases hnone

theorem Valid.checkpoint (h : s.Valid) {d : Devices P} (hd : s.devices = some d) :
    ({s with
      devices := some (d.checkpoint s.disk).1
      disk := (d.checkpoint s.disk).2
      unsaved := []} : DeviceSystem P).Valid := by
  have ho := h.opened d hd
  have hdisk : (d.checkpoint s.disk).2.lookup s.peer = some d.localState := by
    have hlook := d.lookup_checkpoint s.disk (by rw [ho.peer]; exact ho.clean)
      (by rw [ho.peer]; exact ho.apart)
    rwa [ho.peer] at hlook
  obtain ⟨c, hc, hpast⟩ := ho.clock
  refine ⟨h.own, h.distinct, ?_, ?_, ?_⟩
  · exact fun x hx _ => ⟨d.localState, c, hdisk, hc, hpast x hx⟩
  · intro d₁ hd₁
    obtain rfl := Option.some.inj hd₁
    exact ⟨ho.peer, by simp [Devices.checkpoint], ⟨c, hc, hpast⟩, fun _ => hdisk⟩
  · intro hnone
    cases hnone

/-- A crash keeps the records; by the condition the checkpoint is past all of them. -/
theorem Valid.crash (h : s.Valid) (hsaved : s.Saved .crash) :
    ({s with devices := none, pending := [], unsaved := []} : DeviceSystem P).Valid := by
  refine ⟨?_, ?_, ?_, ?_, fun _ => ⟨rfl, rfl⟩⟩
  · intro x hx
    exact h.own x (List.mem_append_left _ (by simpa using hx))
  · rw [List.append_nil]
    refine h.distinct.sublist ?_
    rw [List.map_append]
    exact List.sublist_append_left _ _
  · intro x hx _
    have hrec : x ∈ s.recorded := by simpa using hx
    exact h.saved x (List.mem_append_left _ hrec) fun hnew => hsaved x hnew hrec
  · intro d hd
    cases hd

theorem Valid.reopen (h : s.Valid) (hnone : s.devices = none) (wall : Option Nat) :
    ({s with devices := Devices.openFrom s.peer s.disk wall} : DeviceSystem P).Valid := by
  obtain ⟨hpending, hunsaved⟩ := h.closed hnone
  refine ⟨h.own, h.distinct, h.saved, ?_, fun _ => ⟨hpending, hunsaved⟩⟩
  intro d hd
  have hsaved : ∀ x ∈ s.recorded ++ s.pending, ∃ state c, s.disk.lookup s.peer = some state ∧
      state.clock = some c ∧ c.Past x := fun x hx => h.saved x hx (by simp [hunsaved])
  change Devices.openFrom s.peer s.disk wall = some d at hd
  unfold Devices.openFrom at hd
  cases hlook : s.disk.lookup s.peer with
  | some state =>
    simp only [hlook] at hd
    split_ifs at hd with hclock
    obtain rfl := Option.some.inj hd
    obtain ⟨c, hc⟩ : ∃ c, state.clock = some c := by
      cases hc : state.clock with
      | none => simp [hc] at hclock
      | some c => exact ⟨c, rfl⟩
    refine ⟨rfl, by simp, ⟨c, hc, ?_⟩, fun _ => hlook⟩
    intro x hx
    obtain ⟨state', c', hlook', hc', hpast⟩ := hsaved x hx
    rw [hlook, Option.some.injEq] at hlook'
    rw [← hlook', hc, Option.some.injEq] at hc'
    exact hc' ▸ hpast
  | none =>
    simp only [hlook, Option.bind_eq_bind] at hd
    obtain ⟨w, -, hd⟩ := Option.bind_eq_some_iff.mp hd
    obtain rfl := Option.some.inj hd
    refine ⟨rfl, by simp, ⟨_, rfl, ?_⟩, fun hclean => by cases hclean⟩
    intro x hx
    obtain ⟨state, c, hlook', -⟩ := hsaved x hx
    rw [hlook] at hlook'
    cases hlook'

theorem Valid.step (h : s.Valid) (a : DeviceAction P) (hsaved : s.Saved a) : (s.step a).Valid := by
  cases a with
  | mint wall =>
    rw [DeviceSystem.step]
    cases hd : s.devices with
    | none => exact h
    | some d =>
      rw [Option.bind_some]
      cases hmint : d.mint wall with
      | none => exact h
      | some r => exact h.mint hd hmint
  | record stamp wall =>
    rw [DeviceSystem.step]
    cases hd : s.devices with
    | none => exact h
    | some d =>
      dsimp only
      split_ifs with hmem
      · exact h.record hd hmem wall
      · exact h
  | hear stamp wall =>
    rw [DeviceSystem.step]
    cases hd : s.devices with
    | none => exact h
    | some d =>
      dsimp only
      split_ifs with hpeer
      · exact h
      · refine ⟨h.own, h.distinct, h.saved, ?_, fun hnone => by cases hnone⟩
        intro d₁ hd₁
        obtain rfl := Option.some.inj hd₁
        obtain ⟨h1, h2, h3, h4⟩ := (h.opened d hd).observe stamp wall
        exact ⟨h1, h2, h3, h4⟩
  | checkpoint =>
    rw [DeviceSystem.step]
    cases hd : s.devices with
    | none => exact h
    | some d => exact h.checkpoint hd
  | crash => exact h.crash hsaved
  | reopen wall =>
    rw [DeviceSystem.step]
    cases hd : s.devices with
    | none => exact h.reopen hd wall
    | some d => exact h

theorem Valid.run (h : s.Valid) (as : List (DeviceAction P)) (hsaved : s.RunSaved as) :
    (s.run as).Valid := by
  induction as generalizing s with
  | nil => exact h
  | cons a as ih => exact ih (h.step a hsaved.1) hsaved.2

/-- A device whose crashes lose no recorded event from its clock never reuses an identity, and
every stamp it mints is above all recorded ones. -/
theorem identity_unique (peer : P) (wall : Nat) (as : List (DeviceAction P))
    (hsaved : (create peer wall).RunSaved as) :
    let s := (create peer wall).run as
    (s.recorded.map EventStamp.id).Nodup ∧
      ∀ d wall d' stamp, s.devices = some d → d.mint wall = some (d', stamp) →
        ∀ x ∈ s.recorded, x < stamp := by
  intro s
  have h := (create_valid peer wall).run as hsaved
  constructor
  · have hseq : ((s.recorded.map EventStamp.id).map EventId.sequence).Nodup := by
      rw [List.map_map]
      refine h.distinct.sublist ?_
      rw [List.map_append]
      exact List.sublist_append_left _ _
    exact hseq.of_map _
  · intro d wall d' stamp hd hmint x hx
    obtain ⟨c, hc, hpast⟩ := (h.opened d hd).clock
    obtain ⟨c₁, hc₁, -, htime, -⟩ := Devices.mint_spec hmint
    obtain rfl : c = c₁ := by
      rw [hc] at hc₁
      exact Option.some.inj hc₁
    exact EventStamp.lt_of_time_lt ((hpast x (List.mem_append_left _ hx)).2.trans_lt htime)

theorem identity_unique_checkpointed :
    let s := (create 7 100).run [.mint (some 3), .record ⟨⟨7, 2⟩, ⟨100, 1⟩⟩ (some 3), .checkpoint,
      .crash, .reopen (some 1), .mint (some 2), .record ⟨⟨7, 3⟩, ⟨100, 2⟩⟩ none]
    s.recorded.map EventStamp.id = [⟨7, 3⟩, ⟨7, 2⟩, ⟨7, 1⟩] ∧ (s.recorded.map EventStamp.id).Nodup :=
  ⟨rfl, (identity_unique 7 100 [.mint (some 3), .record ⟨⟨7, 2⟩, ⟨100, 1⟩⟩ (some 3), .checkpoint,
    .crash, .reopen (some 1), .mint (some 2), .record ⟨⟨7, 3⟩, ⟨100, 2⟩⟩ none]
    (by refine ⟨trivial, trivial, trivial, ?_, trivial, trivial, trivial, trivial⟩
        intro stamp hstamp
        cases hstamp)).1⟩

/-- An event recorded behind the last checkpoint and a crash: the next event has the same identity,
and its stamp is below that of the first. -/
theorem identity_reused_after_crash :
    let s := (create 7 100).run [.checkpoint, .mint (some 200),
      .record ⟨⟨7, 2⟩, ⟨200, 0⟩⟩ (some 200), .crash, .reopen (some 150), .mint (some 150),
      .record ⟨⟨7, 2⟩, ⟨150, 0⟩⟩ (some 150)]
    s.recorded = [⟨⟨7, 2⟩, ⟨150, 0⟩⟩, ⟨⟨7, 2⟩, ⟨200, 0⟩⟩, ⟨⟨7, 1⟩, ⟨100, 0⟩⟩] ∧
      ¬ (s.recorded.map EventStamp.id).Nodup := by
  exact ⟨rfl, by decide⟩

end DeviceSystem

end ZenDB
