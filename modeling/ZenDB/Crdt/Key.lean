import Mathlib.Data.Prod.Lex
import Mathlib.Data.Sum.Order
import Mathlib.Order.BooleanAlgebra.Basic
import Mathlib.Data.String.Basic
import ZenDB.Lib.Bytes

namespace ZenDB

/-- A peer identifier is a multihash: the code of a hash function and a digest. The development is
over any ordered type of peers; this is the one of the source. -/
structure PeerId where
  code : Nat
  digest : Bytes
  deriving DecidableEq

namespace PeerId

/-- Multihashes go by their code, then by the size of the digest, then by the digest. -/
def sortKey (p : PeerId) : Nat ×ₗ Nat ×ₗ Bytes := toLex (p.code, toLex (p.digest.length, p.digest))

theorem sortKey_injective : Function.Injective sortKey := by
  rintro ⟨code, digest⟩ ⟨code', digest'⟩ h
  obtain ⟨hcode, -, hdigest⟩ :
      code = code' ∧ digest.length = digest'.length ∧ digest = digest' := by simpa [sortKey] using h
  rw [hcode, hdigest]

instance linearOrder : LinearOrder PeerId := LinearOrder.lift' sortKey sortKey_injective

/-- The sentinel: an identity multihash of 32 zero bytes. -/
instance inhabited : Inhabited PeerId := ⟨⟨0, List.replicate 32 0⟩⟩

end PeerId

/-- `P` is the type of peer identifiers. -/
inductive PrimaryKey (P : Type) where
  | peerId (p : P)
  | bool (b : Bool)
  | int (i : Int)
  | string (s : String)
  | timestamp (ms : Nat)
  | blob (b : Bytes)
  deriving DecidableEq

namespace PrimaryKey

variable {P : Type}

/-- The derived order: first by variant, then by content. -/
def sortKey : PrimaryKey P → P ⊕ₗ Bool ⊕ₗ Int ⊕ₗ String ⊕ₗ Nat ⊕ₗ Bytes
  | .peerId p => toLex (.inl p)
  | .bool b => toLex (.inr (toLex (.inl b)))
  | .int i => toLex (.inr (toLex (.inr (toLex (.inl i)))))
  | .string s => toLex (.inr (toLex (.inr (toLex (.inr (toLex (.inl s)))))))
  | .timestamp ms => toLex (.inr (toLex (.inr (toLex (.inr (toLex (.inr (toLex (.inl ms)))))))))
  | .blob b => toLex (.inr (toLex (.inr (toLex (.inr (toLex (.inr (toLex (.inr b)))))))))

theorem sortKey_injective : Function.Injective (sortKey (P := P)) := by
  intro a b h
  cases a <;> cases b <;> simp [sortKey] at h <;> simp [h]

instance [LinearOrder P] : LinearOrder (PrimaryKey P) := LinearOrder.lift' sortKey sortKey_injective

/-- The fixed-width two's complement encoding of an `i64`. -/
def encodeI64 (i : Int) : Bytes := leBytes 8 (i % 2^64).toNat

def encodeVec (b : Bytes) : Bytes := leBytes 8 b.length ++ b

/-- The variant index and the content: integers little-endian, strings behind their length. -/
def encode (peerBytes : P → Bytes) : PrimaryKey P → Bytes
  | .peerId p => leBytes 4 0 ++ encodeVec (peerBytes p)
  | .bool b => leBytes 4 1 ++ [if b then 1 else 0]
  | .int i => leBytes 4 2 ++ encodeI64 i
  | .string s => leBytes 4 3 ++ encodeVec s.toUTF8.toList
  | .timestamp ms => leBytes 4 4 ++ leBytes 8 ms
  | .blob b => leBytes 4 5 ++ encodeVec b

end PrimaryKey

end ZenDB
