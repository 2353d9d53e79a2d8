import Mathlib.Data.Prod.Lex
import Mathlib.Order.Lattice

namespace ZenDB

/-- `P` is the type of peer identifiers. -/
structure EventId (P : Type) where
  peerId : P
  sequence : Nat
  deriving DecidableEq, Repr

structure EventTime where
  physicalMs : Nat
  logical : Nat
  deriving DecidableEq, Repr

structure EventStamp (P : Type) where
  id : EventId P
  time : EventTime
  deriving DecidableEq, Repr

instance : LinearOrder EventTime :=
  LinearOrder.lift' (fun t => toLex (t.physicalMs, t.logical)) (by
    rintro ⟨a, b⟩ ⟨c, d⟩ h
    simpa using h)

theorem EventTime.lt_def (a b : EventTime) :
    a < b ↔ a.physicalMs < b.physicalMs ∨ a.physicalMs = b.physicalMs ∧ a.logical < b.logical :=
  Prod.Lex.toLex_lt_toLex

theorem EventTime.le_def (a b : EventTime) :
    a ≤ b ↔ a.physicalMs < b.physicalMs ∨ a.physicalMs = b.physicalMs ∧ a.logical ≤ b.logical :=
  Prod.Lex.toLex_le_toLex

namespace EventStamp

variable {P : Type}

/-- Time first and identity second: `(physical_ms, logical, peer_id, sequence)`. -/
def sortKey (s : EventStamp P) : EventTime ×ₗ P ×ₗ Nat := toLex (s.time, toLex (s.id.peerId, s.id.sequence))

theorem sortKey_injective : Function.Injective (sortKey (P := P)) := by
  rintro ⟨⟨p, n⟩, t⟩ ⟨⟨p', n'⟩, t'⟩ h
  obtain ⟨ht, hp, hn⟩ : t = t' ∧ p = p' ∧ n = n' := by simpa [sortKey] using h
  rw [ht, hp, hn]

instance [LinearOrder P] : LinearOrder (EventStamp P) := LinearOrder.lift' sortKey sortKey_injective

/-- The default stamp has the default peer, and sequence and time zero. -/
instance [Inhabited P] : Inhabited (EventStamp P) := ⟨⟨⟨default, 0⟩, ⟨0, 0⟩⟩⟩

theorem lt_of_time_lt [LinearOrder P] {a b : EventStamp P} (h : a.time < b.time) : a < b :=
  Prod.Lex.toLex_lt_toLex.mpr (Or.inl h)

end EventStamp

end ZenDB
