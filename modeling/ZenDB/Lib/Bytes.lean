import Mathlib.Data.List.Basic
import Mathlib.Data.List.Lex
import Mathlib.Tactic.Ring

namespace ZenDB

abbrev Bytes := List UInt8

instance byteLinearOrder : LinearOrder UInt8 where
  le_refl := UInt8.le_refl
  le_trans _ _ _ := UInt8.le_trans
  le_antisymm _ _ := UInt8.le_antisymm
  le_total := UInt8.le_total
  lt_iff_le_not_ge a b := by
    rw [UInt8.not_le, UInt8.lt_iff_toNat_lt, UInt8.le_iff_toNat_le]
    omega
  toDecidableLE := inferInstance

/-- Little-endian encoding of `n` in `w` bytes; higher digits are cut off, as `as u32` does. -/
def leBytes : Nat → Nat → Bytes
  | 0, _ => []
  | w+1, n => UInt8.ofNat n :: leBytes w (n/256)

def leNat : Bytes → Nat
  | [] => 0
  | b::bs => b.toNat+256*leNat bs

@[simp] theorem length_leBytes (w n : Nat) : (leBytes w n).length = w := by
  induction w generalizing n with
  | zero => rfl
  | succ w ih => simp [leBytes, ih]

theorem leNat_leBytes (w n : Nat) : leNat (leBytes w n) = n % 256^w := by
  induction w generalizing n with
  | zero => simp [leBytes, leNat, Nat.mod_one]
  | succ w ih =>
    have hd : (UInt8.ofNat n).toNat = n % 256 := by simp
    rw [leBytes, leNat, ih, hd, Nat.pow_succ, Nat.mul_comm (256^w), Nat.mod_mul]

theorem leNat_lt (bs : Bytes) : leNat bs < 256^bs.length := by
  induction bs with
  | nil => simp [leNat]
  | cons b bs ih =>
    have hb := b.toNat_lt
    rw [leNat, List.length_cons, Nat.pow_succ]
    omega

theorem leNat_leBytes_of_lt (w n : Nat) (h : n < 256^w) : leNat (leBytes w n) = n := by
  rw [leNat_leBytes, Nat.mod_eq_of_lt h]

theorem leBytes_leNat (bs : Bytes) : leBytes bs.length (leNat bs) = bs := by
  induction bs with
  | nil => rfl
  | cons b bs ih =>
    have hb := b.toNat_lt
    have hfirst : UInt8.ofNat (b.toNat+256*leNat bs) = b := by
      rw [UInt8.ofNat_add, UInt8.ofNat_toNat, UInt8.ofNat_mul, show UInt8.ofNat 256 = 0 from rfl]
      simp
    rw [leNat, List.length_cons, leBytes, hfirst, show (b.toNat+256*leNat bs)/256 = leNat bs by omega, ih]

/-- `&b[off..off+n]`; `none` is the out-of-bounds panic. -/
def slice? (b : Bytes) (off n : Nat) : Option Bytes :=
  if off+n ≤ b.length then some ((b.drop off).take n) else none

/-- `b[off..off+xs.len()].copy_from_slice(xs)`; `none` is the out-of-bounds panic. -/
def splice? (b : Bytes) (off : Nat) (xs : Bytes) : Option Bytes :=
  if off+xs.length ≤ b.length then some (b.take off ++ xs ++ b.drop (off+xs.length)) else none

/-- `b.copy_within(src..src+n, dst)`. -/
def copyWithin? (b : Bytes) (src n dst : Nat) : Option Bytes := do
  let xs ← slice? b src n
  splice? b dst xs

/-- `File::set_len`: truncate, or extend with zero bytes. -/
def setLen (b : Bytes) (n : Nat) : Bytes := b.take n ++ List.replicate (n-b.length) 0

/-- `read_u32_le`: `None` when four bytes are not available at `pos`. -/
def readU32Le (b : Bytes) (pos : Nat) : Option Nat := (slice? b pos 4).map leNat

/-- A value encoding and its decoder; decoding an encoding gives the value back. -/
structure Codec (α : Type) where
  enc : α → Bytes
  dec : Bytes → Option α
  dec_enc : ∀ a, dec (enc a) = some a

theorem slice?_append (p xs q : Bytes) (off n : Nat) (ho : off = p.length) (hn : n = xs.length) :
    slice? (p ++ xs ++ q) off n = some xs := by
  subst ho hn
  have h : p.length+xs.length ≤ (p ++ xs ++ q).length := by simp
  rw [slice?, if_pos h, List.append_assoc, List.drop_left, List.take_left]

theorem splice?_append (p old q xs : Bytes) (off : Nat) (ho : off = p.length)
    (hl : old.length = xs.length) : splice? (p ++ old ++ q) off xs = some (p ++ xs ++ q) := by
  subst ho
  have h : p.length+xs.length ≤ (p ++ old ++ q).length := by simp [hl]
  have hd : (p ++ old ++ q).drop (p.length+xs.length) = q := by
    rw [← hl, ← List.length_append, List.drop_left]
  have ht : (p ++ old ++ q).take p.length = p := by rw [List.append_assoc, List.take_left]
  rw [splice?, if_pos h, hd, ht]

/-- Overwriting the front of what follows a prefix. -/
theorem splice?_prefix (p q xs : Bytes) (off : Nat) (ho : off = p.length)
    (hl : xs.length ≤ q.length) :
    splice? (p ++ q) off xs = some (p ++ xs ++ q.drop xs.length) := by
  have hq : q = q.take xs.length ++ q.drop xs.length := (List.take_append_drop _ _).symm
  have hlen : (q.take xs.length).length = xs.length := by simp [hl]
  have h := splice?_append p (q.take xs.length) (q.drop xs.length) xs off ho hlen
  rwa [List.append_assoc, ← hq] at h

/-- One write of a sequence of writes that moves forward through `q`. -/
theorem splice?_next (p q xs : Bytes) (off : Nat) (ho : off = p.length)
    (hl : xs.length ≤ q.length) :
    ∃ q', splice? (p ++ q) off xs = some (p ++ xs ++ q') ∧ q.length = xs.length+q'.length := by
  refine ⟨q.drop xs.length, splice?_prefix p q xs off ho hl, ?_⟩
  rw [List.length_drop]
  omega

theorem slice?_of_le (p q : Bytes) (off n : Nat) (h : off+n ≤ p.length) :
    slice? (p ++ q) off n = slice? p off n := by
  have hl : off+n ≤ (p ++ q).length := by rw [List.length_append]; omega
  rw [slice?, slice?, if_pos h, if_pos hl, List.drop_append_of_le_length (by omega),
    List.take_append_of_le_length (by rw [List.length_drop]; omega)]

theorem readU32Le_append (p q : Bytes) (n pos : Nat) (hp : pos = p.length) (hn : n < 2^32) :
    readU32Le (p ++ leBytes 4 n ++ q) pos = some n := by
  rw [readU32Le, slice?_append p (leBytes 4 n) q pos 4 hp (by simp)]
  simp [leNat_leBytes_of_lt 4 n hn]

theorem length_setLen (b : Bytes) (n : Nat) : (setLen b n).length = n := by
  simp only [setLen, List.length_append, List.length_take, List.length_replicate]
  omega

theorem setLen_prefix (p q : Bytes) (n : Nat) (h : p.length ≤ n) :
    ∃ r, setLen (p ++ q) n = p ++ r := by
  refine ⟨q.take (n-p.length) ++ List.replicate (n-(p ++ q).length) 0, ?_⟩
  rw [setLen, List.take_append, List.take_of_length_le h, List.append_assoc]

/-- A one-byte encoding. A decoder does not look at the bytes behind the value. -/
def byteCodec : Codec UInt8 where
  enc b := [b]
  dec bytes := bytes.head?
  dec_enc _ := rfl

/-- The encoding of a byte vector: eight bytes of length, then the bytes. -/
def byteVecCodec : Codec {b : Bytes // b.length < 2^64} where
  enc b := leBytes 8 b.1.length ++ b.1
  dec bytes := do
    let header ← slice? bytes 0 8
    let body ← slice? bytes 8 (leNat header)
    if h : body.length < 2^64 then some ⟨body, h⟩ else none
  dec_enc b := by
    have hhead := slice?_append [] (leBytes 8 b.1.length) b.1 0 8 rfl (by simp)
    have hlen : leNat (leBytes 8 b.1.length) = b.1.length :=
      leNat_leBytes_of_lt _ _ (lt_of_lt_of_le b.2 (by decide))
    have hbody := slice?_append (leBytes 8 b.1.length) b.1 [] 8 b.1.length (by simp) rfl
    rw [List.nil_append] at hhead
    rw [List.append_nil] at hbody
    simp only [hhead, hlen, hbody, Option.bind_eq_bind, Option.bind_some, dif_pos b.2]

end ZenDB
