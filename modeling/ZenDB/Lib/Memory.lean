import ZenDB.Lib.Bytes

namespace ZenDB

/-! Byte memory as a function of the address, with reads and writes of intervals. -/

namespace Memory

abbrev Mem := Nat → UInt8

def read (m : Mem) (off n : Nat) : Bytes := (List.range n).map fun i => m (off+i)

def write (m : Mem) (off : Nat) (bs : Bytes) : Mem := fun i =>
  if off ≤ i ∧ i < off+bs.length then bs.getD (i-off) 0 else m i

/-- The memory has the bytes `bs` at `off`. -/
def Holds (m : Mem) (off : Nat) (bs : Bytes) : Prop := read m off bs.length = bs

variable {m m' : Mem} {off off' n : Nat} {bs bs' : Bytes}

@[simp] theorem length_read (m : Mem) (off n : Nat) : (read m off n).length = n := by
  simp [read]

theorem getElem_read {i : Nat} (h : i < (read m off n).length) : (read m off n)[i] = m (off+i) := by
  simp [read]

theorem read_congr (h : ∀ i, off ≤ i → i < off+n → m' i = m i) : read m' off n = read m off n := by
  refine List.map_congr_left ?_
  intro i hi
  exact h (off+i) (by omega) (by rw [List.mem_range] at hi; omega)

theorem write_of_disjoint {i : Nat} (h : i < off ∨ off+bs.length ≤ i) : write m off bs i = m i := by
  rw [write, if_neg (by omega)]

theorem write_inside {i : Nat} (h : i < bs.length) : write m off bs (off+i) = bs[i] := by
  rw [write, if_pos (by omega), Nat.add_sub_cancel_left]
  simp [h]

theorem read_write_of_disjoint (h : off+n ≤ off' ∨ off'+bs.length ≤ off) :
    read (write m off' bs) off n = read m off n :=
  read_congr fun _ _ _ => write_of_disjoint (by omega)

theorem read_write_self (m : Mem) (off : Nat) (bs : Bytes) :
    read (write m off bs) off bs.length = bs := by
  refine List.ext_getElem (length_read _ _ _) ?_
  intro i _ hi
  rw [getElem_read, write_inside hi]

theorem holds_write (m : Mem) (off : Nat) (bs : Bytes) : Holds (write m off bs) off bs :=
  read_write_self m off bs

theorem read_add (m : Mem) (off a b : Nat) :
    read m off (a+b) = read m off a ++ read m (off+a) b := by
  rw [read, List.range_add, List.map_append, List.map_map]
  refine congrArg (read m off a ++ ·) (List.map_congr_left ?_)
  intro i _
  rw [Function.comp_apply, Nat.add_assoc]

theorem Holds.congr (h : Holds m off bs) (hm : ∀ i, off ≤ i → i < off+bs.length → m' i = m i) :
    Holds m' off bs := by
  rw [Holds, read_congr hm]
  exact h

theorem holds_append : Holds m off (bs ++ bs') ↔ Holds m off bs ∧ Holds m (off+bs.length) bs' := by
  rw [Holds, List.length_append, read_add]
  constructor
  · intro h
    exact List.append_inj h (length_read _ _ _)
  · intro h
    rw [h.1, h.2]

/-- An interval inside one that is held. -/
theorem Holds.slice (h : Holds m off (bs ++ bs')) : Holds m (off+bs.length) bs' :=
  (holds_append.mp h).2

/-- Memory that was moved. -/
theorem Holds.moved (h : Holds m off bs)
    (hm : ∀ i, i < bs.length → m' (off'+i) = m (off+i)) : Holds m' off' bs := by
  rw [Holds] at h ⊢
  rw [← h]
  refine List.ext_getElem (by simp) ?_
  intro i _ hi
  rw [getElem_read, getElem_read, hm i (by simpa using hi)]

theorem Holds.leNat {w v : Nat} (h : Holds m off (leBytes w v)) (hv : v < 256^w) :
    leNat (read m off w) = v := by
  have hlen : (leBytes w v).length = w := length_leBytes w v
  rw [Holds, hlen] at h
  rw [h, leNat_leBytes_of_lt w v hv]

-- unfolding a read of several bytes makes terms that no unification should look into
attribute [irreducible] read

end Memory

end ZenDB
