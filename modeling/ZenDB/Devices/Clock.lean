import ZenDB.Devices.Identity

namespace ZenDB

/-! The hybrid clock over all sequences of `mint` and `observe` calls. -/

inductive ClockCall (P : Type) where
  | mint (wall : Option Nat)
  | observe (stamp : EventStamp P) (wall : Option Nat)

/-- What a call returns; a successful observation is named by its stamp. -/
inductive ClockReturn (P : Type) where
  | minted (stamp : EventStamp P)
  | observed (stamp : EventStamp P)
  | failed

namespace Devices

variable {P : Type} [LinearOrder P]

def clockStep (d : Devices P) : ClockCall P → Devices P × ClockReturn P
  | .mint wall =>
    match (mintCache wall).run d with
    | (.ok stamp, d') => (d', .minted stamp)
    | (.error _, d') => (d', .failed)
  | .observe stamp wall =>
    match d.observe stamp wall with
    | (d', some _) => (d', .observed stamp)
    | (d', none) => (d', .failed)

/-- A sequence of calls: the state after it and what the calls returned, in their order. -/
def clockRun (d : Devices P) : List (ClockCall P) → Devices P × List (ClockReturn P)
  | [] => (d, [])
  | call :: calls =>
    let r := d.clockStep call
    let rest := r.1.clockRun calls
    (rest.1, r.2 :: rest.2)

section Mint

omit [LinearOrder P]

/-- The cache changes only when a stamp is returned. -/
theorem mintCache_cases (d : Devices P) (wall : Option Nat) :
    (∃ d' stamp, d.mint wall = some (d', stamp) ∧ (mintCache wall).run d = (.ok stamp, d')) ∨
      (mintCache wall).run d = (.error .clockExhausted, d) := by
  cases hc : d.localState.clock with
  | none =>
    right
    obtain ⟨peer, ⟨receipts, _⟩, dirty, others, dirtyOthers⟩ := d
    subst hc
    rfl
  | some clock =>
    rw [mintCache_run hc]
    by_cases hfull : clock.nextSequence = u64Max
    · exact Or.inr (if_pos hfull)
    · rw [if_neg hfull]
      cases htime : wall.bind clock.advance with
      | none => exact Or.inr rfl
      | some time =>
        refine Or.inl ⟨_, _, ?_, rfl⟩
        rw [mint, mintCache_run hc, if_neg hfull, htime]

end Mint

end Devices

theorem EventClock.heard_le_hear (c : EventClock) (time : EventTime) (wall : Nat) :
    time ≤ c.hear time wall := by
  rw [EventTime.le_def]
  unfold EventClock.hear
  by_cases hp : time.physicalMs < max (max wall c.lastTime.physicalMs) time.physicalMs
  · exact Or.inl hp
  · have heq : max (max wall c.lastTime.physicalMs) time.physicalMs = time.physicalMs := by omega
    refine Or.inr ⟨heq.symm, ?_⟩
    simp only [heq, gt_iff_lt, lt_irrefl, and_false, if_false, and_true]
    split_ifs with hsame
    · exact le_max_right _ _
    · exact le_refl _

namespace Devices

variable {P : Type} [LinearOrder P] {d : Devices P}

/-- A clock that has heard of a stamp is past it. -/
theorem advanceClock_past (stamp : EventStamp P) (wall : Nat) {c : EventClock}
    (hc : d.localState.clock = some c) :
    ∃ c', (d.advanceClock stamp wall).localState.clock = some c' ∧ stamp.time ≤ c'.lastTime ∧
      (stamp.id.peerId = d.localPeerId → stamp.id.sequence < c'.nextSequence) := by
  simp only [advanceClock, hc]
  refine ⟨_, rfl, c.heard_le_hear _ _, ?_⟩
  intro hlocal
  dsimp only
  rw [if_pos hlocal]
  omega

theorem observe_past {stamp : EventStamp P} {wall : Option Nat} {outcome : ObserveOutcome}
    (hok : (d.observe stamp wall).2 = some outcome) {c : EventClock}
    (hc : d.localState.clock = some c) :
    ∃ c', (d.observe stamp wall).1.localState.clock = some c' ∧ stamp.time ≤ c'.lastTime ∧
      (stamp.id.peerId = d.localPeerId → stamp.id.sequence < c'.nextSequence) := by
  unfold observe at hok ⊢
  cases wall with
  | none => cases hok
  | some wall =>
    dsimp only at hok ⊢
    split_ifs at hok ⊢ with hlocal hfull
    · rcases hwindow : d.localState.receipts.observe stamp.id.sequence with ⟨w, _ | outcome⟩
      · rw [hwindow] at hok
        cases hok
      · exact advanceClock_past stamp wall hc
    · rcases hwindow : (d.known stamp.id.peerId).receipts.observe stamp.id.sequence with ⟨w, _ | outcome⟩
      · rw [hwindow] at hok
        cases hok
      · exact advanceClock_past stamp wall hc

end Devices

namespace ClockReturn

variable {P : Type} [LinearOrder P]

/-- `later` was returned after `earlier`: a minted stamp is above the stamps minted before it, later
than the observed ones, and its sequence number is above those of the local peer. -/
def Precedes (peer : P) : ClockReturn P → ClockReturn P → Prop
  | .minted earlier, .minted later =>
    earlier < later ∧ earlier.id.sequence < later.id.sequence
  | .observed earlier, .minted later =>
    earlier.time < later.time ∧
      (earlier.id.peerId = peer → earlier.id.sequence < later.id.sequence)
  | _, _ => True

/-- The clock is past what was returned. -/
def Behind (d : Devices P) (r : ClockReturn P) : Prop :=
  ∀ c, d.localState.clock = some c →
    match r with
    | .minted stamp => c.Past stamp
    | .observed stamp => stamp.time ≤ c.lastTime ∧
      (stamp.id.peerId = d.localPeerId → stamp.id.sequence < c.nextSequence)
    | .failed => True

omit [LinearOrder P] in
theorem Behind.mono {d d' : Devices P} {r : ClockReturn P} (h : r.Behind d) (hd : d.Advances d')
    (hclock : d.localState.clock.isSome) : r.Behind d' := by
  obtain ⟨c, hc⟩ := Option.isSome_iff_exists.mp hclock
  intro c₁ hc₁
  obtain ⟨c', hc', hle⟩ := hd.clock c hc
  obtain rfl : c' = c₁ := Option.some.inj (hc'.symm.trans hc₁)
  have hpast := h c hc
  cases r with
  | minted stamp => exact EventClock.Past.mono hpast hle
  | observed stamp =>
    refine ⟨hpast.1.trans hle.2, fun hlocal => ?_⟩
    exact (hpast.2 (hlocal.trans hd.peer)).trans_le hle.1
  | failed => exact trivial

/-- What a mint returns is above everything that the clock is past. -/
theorem Behind.precedes_minted {d d' : Devices P} {r : ClockReturn P}
    (h : r.Behind d) {wall : Option Nat} {stamp : EventStamp P}
    (hmint : d.mint wall = some (d', stamp)) : r.Precedes d.localPeerId (.minted stamp) := by
  obtain ⟨c, hc, hid, htime, -⟩ := Devices.mint_spec hmint
  have hsequence : stamp.id.sequence = c.nextSequence := by rw [hid]
  have hpast := h c hc
  cases r with
  | minted earlier =>
    exact ⟨EventStamp.lt_of_time_lt (hpast.2.trans_lt htime), hsequence ▸ hpast.1⟩
  | observed earlier =>
    exact ⟨hpast.1.trans_lt htime, fun hlocal => hsequence ▸ hpast.2 hlocal⟩
  | failed => exact trivial

end ClockReturn

namespace Devices

variable {P : Type} [LinearOrder P] {d : Devices P}

/-- What one call does: the clock moves forward, past what the call returns, and a minted stamp is
above all that the clock was past. -/
theorem clockStep_spec (hclock : d.localState.clock.isSome) (call : ClockCall P) :
    d.Advances (d.clockStep call).1 ∧ (d.clockStep call).2.Behind (d.clockStep call).1 ∧
      ∀ r : ClockReturn P, r.Behind d → r.Precedes d.localPeerId (d.clockStep call).2 := by
  obtain ⟨c, hc⟩ := Option.isSome_iff_exists.mp hclock
  have hfailed : ∀ r : ClockReturn P, r.Precedes d.localPeerId .failed := by
    intro r
    cases r <;> exact trivial
  cases call with
  | mint wall =>
    rw [clockStep]
    rcases mintCache_cases d wall with ⟨d', stamp, hmint, hrun⟩ | hrun
    · rw [hrun]
      refine ⟨?_, ?_, fun r hr => hr.precedes_minted hmint⟩
      · obtain ⟨c₁, hc₁, -, htime, hc', hpeer, hdirty, -⟩ := mint_spec hmint
        refine ⟨hpeer, ?_, ?_⟩
        · intro c₂ hc₂
          obtain rfl : c₁ = c₂ := Option.some.inj (hc₁.symm.trans hc₂)
          exact ⟨_, hc', Nat.le_succ _, htime.le⟩
        · intro hclean
          rw [hdirty] at hclean
          cases hclean
      · obtain ⟨c₁, hc₁, hid, htime, hc', -⟩ := mint_spec hmint
        intro c₂ hc₂
        obtain rfl := Option.some.inj (hc'.symm.trans hc₂)
        refine ⟨?_, le_refl _⟩
        rw [hid]
        exact Nat.lt_succ_self _
    · rw [hrun]
      exact ⟨d.advances_refl, fun _ _ => trivial, fun r _ => hfailed r⟩
  | observe stamp wall =>
    have hadvances := (d.observe_advances stamp wall hclock).1
    rw [clockStep]
    rcases hobserve : d.observe stamp wall with ⟨d', _ | outcome⟩
    · rw [hobserve] at hadvances
      exact ⟨hadvances, fun _ _ => trivial, fun r _ => hfailed r⟩
    · rw [hobserve] at hadvances
      refine ⟨hadvances, ?_, ?_⟩
      · obtain ⟨c', hc', htime, hsequence⟩ := observe_past (by rw [hobserve]) hc
        rw [hobserve] at hc'
        intro c₁ hc₁
        obtain rfl : c' = c₁ := Option.some.inj (hc'.symm.trans hc₁)
        exact ⟨htime, fun hlocal => hsequence (hlocal.trans hadvances.peer)⟩
      · intro r _
        cases r <;> exact trivial

omit [LinearOrder P] in
theorem Advances.isSome {d' : Devices P} (h : d.Advances d') (hclock : d.localState.clock.isSome) :
    d'.localState.clock.isSome := by
  obtain ⟨c, hc⟩ := Option.isSome_iff_exists.mp hclock
  obtain ⟨c', hc', -⟩ := h.clock c hc
  rw [hc']
  rfl

/-- Everything that is returned from now on is above what the clock is past. -/
theorem clockRun_precedes (calls : List (ClockCall P)) (hclock : d.localState.clock.isSome)
    {r : ClockReturn P} (hr : r.Behind d) :
    ∀ r' ∈ (d.clockRun calls).2, r.Precedes d.localPeerId r' := by
  induction calls generalizing d with
  | nil => exact fun r' h => by cases h
  | cons call calls ih =>
    obtain ⟨hadvances, -, hprecedes⟩ := clockStep_spec hclock call
    intro r' hr'
    rcases List.mem_cons.mp hr' with rfl | hr'
    · exact hprecedes r hr
    · have hrest := ih (hadvances.isSome hclock) (hr.mono hadvances hclock) r' hr'
      rwa [hadvances.peer] at hrest

theorem clockRun_pairwise (calls : List (ClockCall P)) (hclock : d.localState.clock.isSome) :
    (d.clockRun calls).2.Pairwise (ClockReturn.Precedes d.localPeerId) := by
  induction calls generalizing d with
  | nil => exact List.Pairwise.nil
  | cons call calls ih =>
    obtain ⟨hadvances, hbehind, -⟩ := clockStep_spec hclock call
    have hclock' := hadvances.isSome hclock
    refine List.pairwise_cons.mpr ⟨?_, ?_⟩
    · have hrest := clockRun_precedes calls hclock' hbehind
      rwa [hadvances.peer] at hrest
    · have hrest := ih hclock'
      rwa [hadvances.peer] at hrest

/-- Over any calls of `mint` and `observe`, with any stamps and any readings of the wall clock, what
is minted is above everything returned before it, and a mint that fails changes nothing. -/
theorem hybrid_clock_monotone (d : Devices P) (hclock : d.localState.clock.isSome)
    (calls : List (ClockCall P)) :
    (d.clockRun calls).2.Pairwise (ClockReturn.Precedes d.localPeerId) ∧
      ∀ wall e d', (mintCache wall).run (d.clockRun calls).1 = (.error e, d') →
        d'.localState.clock = (d.clockRun calls).1.localState.clock := by
  refine ⟨clockRun_pairwise calls hclock, ?_⟩
  intro wall e d' hrun
  rcases mintCache_cases (d.clockRun calls).1 wall with ⟨d₁, stamp, -, hok⟩ | herror
  · rw [hok] at hrun
    cases hrun
  · rw [herror] at hrun
    cases hrun
    rfl

/-- A wall clock that goes back and a stamp from the future, of the local peer. -/
def unsteadyCalls : List (ClockCall Nat) :=
  [.mint (some 100), .observe ⟨⟨1, 9⟩, ⟨500, 3⟩⟩ (some 90), .mint (some 80)]

theorem hybrid_clock_monotone_unsteady :
    ∃ s t : EventStamp Nat,
      ((create 1 50).1.clockRun unsteadyCalls).2 = [.minted s, .observed ⟨⟨1, 9⟩, ⟨500, 3⟩⟩, .minted t] ∧
      s < t ∧ 9 < t.id.sequence := by
  have h := (hybrid_clock_monotone (create 1 50).1 rfl unsteadyCalls).1
  refine ⟨⟨⟨1, 2⟩, ⟨100, 0⟩⟩, ⟨⟨1, 10⟩, ⟨500, 4⟩⟩, rfl, ?_⟩
  obtain ⟨hfirst, hrest⟩ := List.pairwise_cons.mp h
  have hminted := hfirst _ (List.mem_cons_of_mem _ List.mem_cons_self)
  have hobserved := (List.pairwise_cons.mp hrest).1 _ List.mem_cons_self
  exact ⟨hminted.1, hobserved.2 rfl⟩

end Devices

end ZenDB
