import Mathlib.Algebra.Order.BigOperators.Group.List
import Mathlib.Data.List.Perm.Basic
import ZenDB.Lib.Completes
import ZenDB.Lib.Memory

namespace ZenDB

/-! Slotted pages: behind a header of `H` bytes an array of two-byte offsets grows up, and the
entries they point to grow down from the end of the page at `N`. The header has the number of
entries at 2 and the start of the lowest entry at 4. -/

namespace Slotted

open Memory

variable (H N : Nat)

/-- `&buf[off..off+n]` of a page. -/
def read? (pg : Mem) (off n : Nat) : Option Bytes := if off+n ≤ N then some (read pg off n) else none

/-- `buf[off..off+bs.len()].copy_from_slice(bs)` of a page. -/
def write? (pg : Mem) (off : Nat) (bs : Bytes) : Option Mem :=
  if off+bs.length ≤ N then some (write pg off bs) else none

def count (pg : Mem) : Nat := leNat (read pg 2 2)

def dataOff (pg : Mem) : Nat := leNat (read pg 4 4)

def setCount (pg : Mem) (n : Nat) : Mem := write pg 2 (leBytes 2 n)

def setDataOff (pg : Mem) (n : Nat) : Mem := write pg 4 (leBytes 4 n)

def slot? (pg : Mem) (i : Nat) : Option Nat := (read? N pg (H+2*i) 2).map leNat

def setSlot? (pg : Mem) (i v : Nat) : Option Mem := write? N pg (H+2*i) (leBytes 2 v)

/-- `for j in (pos..count).rev()`: every slot from `pos` on moves up by one. -/
def shiftRight (pos : Nat) : Nat → Mem → Option Mem
  | 0, pg => some pg
  | j+1, pg =>
    if pos ≤ j then do
      let v ← slot? H N pg j
      let pg ← setSlot? H N pg (j+1) v
      shiftRight pos j pg
    else some pg

/-- `for j in j..j+n`: these slots move down by one. -/
def shiftLeft : Nat → Nat → Mem → Option Mem
  | 0, _, pg => some pg
  | n+1, j, pg => do
    let v ← slot? H N pg j
    let pg ← setSlot? H N pg (j-1) v
    shiftLeft n (j+1) pg

/-- `for j in j..j+n`: the slots of entries that lie at `eo` or below move up by `len`. -/
def relocate (eo len : Nat) : Nat → Nat → Mem → Option Mem
  | 0, _, pg => some pg
  | n+1, j, pg => do
    let e ← slot? H N pg j
    let pg ← setSlot? H N pg j (if e ≤ eo then e+len else e)
    relocate eo len n (j+1) pg

/-- An entry at `nd` gets the slot `pos` of a page of `count` entries. -/
def linkSlot (pg : Mem) (pos count nd : Nat) : Option Mem := do
  let pg ← setSlot? H N pg pos nd
  return setDataOff (setCount pg (count+1)) nd

/-- The entry at slot `pos` is removed, and what lies below it moves up over it. -/
def removeSlot (pg : Mem) (pos count dataOff eo len : Nat) : Option Mem := do
  let pg ← shiftLeft H N (count-(pos+1)) (pos+1) pg
  if dataOff ≤ eo then
    let moved ← read? N pg dataOff (eo-dataOff)
    let pg ← write? N pg (dataOff+len) moved
    let pg ← relocate H N eo len (count-1) 0 pg
    return setDataOff (setCount pg (count-1)) (dataOff+len)
  else none

/-- An entry goes to the end of a page. -/
def appendEntry (pg : Mem) (entry : Bytes) : Option Mem :=
  if entry.length ≤ dataOff pg then do
    let nd := dataOff pg-entry.length
    let pg' ← write? N pg nd entry
    linkSlot H N pg' (count pg) (count pg) nd
  else none

def slotAt (pg : Mem) (i : Nat) : Nat := leNat (read pg (H+2*i) 2)

/-- The entries, with their offsets and in the order of the slots, fill the page from `dataOff` on,
and the slots end below. -/
structure Tiled (pg : Mem) (placed : List (Nat × Bytes)) : Prop where
  counted : count pg = placed.length
  slots : ∀ i p, placed[i]? = some p → slotAt H pg i = p.1
  holds : ∀ p ∈ placed, Holds pg p.1 p.2
  apart : placed.Pairwise fun a b => a.1+a.2.length ≤ b.1 ∨ b.1+b.2.length ≤ a.1
  inside : ∀ p ∈ placed, dataOff pg ≤ p.1 ∧ p.1+p.2.length ≤ N
  total : dataOff pg+(placed.map fun p => p.2.length).sum = N
  room : H+2*placed.length ≤ dataOff pg

/-- A page with the entries `es`. -/
def Layout (pg : Mem) (es : List Bytes) : Prop :=
  ∃ placed, Tiled H N pg placed ∧ placed.map Prod.snd = es

section Headers

variable {pg pg' : Mem} {off n v : Nat} {bs : Bytes}

theorem leNat_read_lt (pg : Mem) (off n : Nat) : leNat (read pg off n) < 256^n := by
  have h := leNat_lt (read pg off n)
  rwa [length_read] at h

theorem leNat_read_write (pg : Mem) (off w v : Nat) (h : v < 256^w) :
    leNat (read (write pg off (leBytes w v)) off w) = v :=
  (holds_write pg off (leBytes w v)).leNat h

theorem count_setCount (h : n < 65536) : count (setCount pg n) = n := leNat_read_write pg 2 2 n h

theorem dataOff_setDataOff (h : n < 65536) : dataOff (setDataOff pg n) = n :=
  leNat_read_write pg 4 4 n (by omega)

@[simp] theorem count_setDataOff : count (setDataOff pg n) = count pg := by
  rw [count, setDataOff, read_write_of_disjoint (by simp)]
  rfl

theorem setCount_of_disjoint {i : Nat} (h : i < 2 ∨ 4 ≤ i) : setCount pg n i = pg i :=
  write_of_disjoint (by simpa using h)

theorem setDataOff_of_disjoint {i : Nat} (h : i < 4 ∨ 8 ≤ i) : setDataOff pg n i = pg i :=
  write_of_disjoint (by simpa using h)

theorem count_congr (h : ∀ i, 2 ≤ i → i < 4 → pg' i = pg i) : count pg' = count pg :=
  congrArg leNat (read_congr h)

theorem dataOff_congr (h : ∀ i, 4 ≤ i → i < 8 → pg' i = pg i) : dataOff pg' = dataOff pg :=
  congrArg leNat (read_congr h)

variable {H N}

theorem slotAt_congr {i : Nat} (h : ∀ j, H+2*i ≤ j → j < H+2*i+2 → pg' j = pg j) :
    slotAt H pg' i = slotAt H pg i :=
  congrArg leNat (read_congr h)

theorem slot?_eq {i : Nat} (h : H+2*i+2 ≤ N) : slot? H N pg i = some (slotAt H pg i) := by
  rw [slot?, read?, if_pos h]
  rfl

variable (H N) in
/-- Writing a slot changes this slot only. -/
theorem setSlot?_eq (pg : Mem) (i : Nat) (h : H+2*i+2 ≤ N) (hv : v < 65536) :
    ∃ pg', setSlot? H N pg i v = some pg' ∧ slotAt H pg' i = v ∧
      ∀ j, j < H+2*i ∨ H+2*i+2 ≤ j → pg' j = pg j := by
  refine ⟨write pg (H+2*i) (leBytes 2 v), if_pos (by simpa using h), ?_, ?_⟩
  · exact leNat_read_write pg _ 2 v hv
  · intro j hj
    exact write_of_disjoint (by simpa using hj)

theorem slotAt_lt (H : Nat) (pg : Mem) (i : Nat) : slotAt H pg i < 65536 := leNat_read_lt pg _ 2

end Headers

section Loops

variable {H N}

theorem shiftRight_eq (pos : Nat) (pg : Mem) (j : Nat) (h : H+2*(j+1) ≤ N) :
    ∃ pg', shiftRight H N pos j pg = some pg' ∧
      (∀ i, pos < i → i ≤ j → slotAt H pg' i = slotAt H pg (i-1)) ∧
      ∀ k, k < H+2*(pos+1) ∨ H+2*(j+1) ≤ k → pg' k = pg k := by
  induction j generalizing pg with
  | zero => exact ⟨pg, rfl, fun i hi hle => by omega, fun _ _ => rfl⟩
  | succ j ih =>
    rw [shiftRight]
    by_cases hpos : pos ≤ j
    · obtain ⟨pg₁, hset, hslot, hframe⟩ :=
        setSlot?_eq H N pg (j+1) (by omega) (slotAt_lt H pg j)
      obtain ⟨pg', hrest, hslots, hrestframe⟩ := ih pg₁ (by omega)
      refine ⟨pg', ?_, ?_, ?_⟩
      · rw [if_pos hpos, slot?_eq (by omega)]
        simp only [Option.bind_eq_bind, Option.bind_some, hset]
        exact hrest
      · intro i hi hle
        by_cases hlast : i = j+1
        · subst hlast
          have hsame : slotAt H pg' (j+1) = slotAt H pg₁ (j+1) :=
            slotAt_congr fun k hk _ => hrestframe k (by omega)
          rw [hsame, hslot]
          rfl
        · have hsame : slotAt H pg₁ (i-1) = slotAt H pg (i-1) :=
            slotAt_congr fun k _ hk => hframe k (by omega)
          rw [hslots i hi (by omega), hsame]
      · intro k hk
        rw [hrestframe k (by omega), hframe k (by omega)]
    · rw [if_neg hpos]
      exact ⟨pg, rfl, fun i hi hle => by omega, fun _ _ => rfl⟩

theorem shiftLeft_eq (pg : Mem) (n j : Nat) (hj : 0 < j) (h : H+2*(j+n) ≤ N) :
    ∃ pg', shiftLeft H N n j pg = some pg' ∧
      (∀ i, j ≤ i+1 → i+1 < j+n → slotAt H pg' i = slotAt H pg (i+1)) ∧
      ∀ k, k < H+2*(j-1) ∨ H+2*(j-1+n) ≤ k → pg' k = pg k := by
  induction n generalizing pg j with
  | zero => exact ⟨pg, rfl, fun i hi hlt => by omega, fun _ _ => rfl⟩
  | succ n ih =>
    obtain ⟨pg₁, hset, hslot, hframe⟩ :=
      setSlot?_eq H N pg (j-1) (by omega) (slotAt_lt H pg j)
    obtain ⟨pg', hrest, hslots, hrestframe⟩ := ih pg₁ (j+1) (by omega) (by omega)
    refine ⟨pg', ?_, ?_, ?_⟩
    · rw [shiftLeft, slot?_eq (by omega)]
      simp only [Option.bind_eq_bind, Option.bind_some, hset]
      exact hrest
    · intro i hi hlt
      by_cases hfirst : i+1 = j
      · have hij : i = j-1 := by omega
        have hsame : slotAt H pg' i = slotAt H pg₁ i :=
          slotAt_congr fun k _ hk => hrestframe k (by omega)
        rw [hsame, hij, hslot, ← hij, hfirst]
      · have hsame : slotAt H pg₁ (i+1) = slotAt H pg (i+1) :=
          slotAt_congr fun k hk _ => hframe k (by omega)
        rw [hslots i (by omega) (by omega), hsame]
    · intro k hk
      rw [hrestframe k (by omega), hframe k (by omega)]

theorem relocate_eq (eo len : Nat) (pg : Mem) (n j : Nat) (h : H+2*(j+n) ≤ N)
    (hfit : ∀ i, j ≤ i → i < j+n → slotAt H pg i ≤ eo → slotAt H pg i+len < 65536) :
    ∃ pg', relocate H N eo len n j pg = some pg' ∧
      (∀ i, j ≤ i → i < j+n → slotAt H pg' i =
        if slotAt H pg i ≤ eo then slotAt H pg i+len else slotAt H pg i) ∧
      ∀ k, k < H+2*j ∨ H+2*(j+n) ≤ k → pg' k = pg k := by
  induction n generalizing pg j with
  | zero => exact ⟨pg, rfl, fun i hi hlt => by omega, fun _ _ => rfl⟩
  | succ n ih =>
    have hval : (if slotAt H pg j ≤ eo then slotAt H pg j+len else slotAt H pg j) < 65536 := by
      split_ifs with hle
      · exact hfit j (by omega) (by omega) hle
      · exact slotAt_lt H pg j
    obtain ⟨pg₁, hset, hslot, hframe⟩ := setSlot?_eq H N pg j (by omega) hval
    have hkeep : ∀ i, j < i → slotAt H pg₁ i = slotAt H pg i := fun i hi =>
      slotAt_congr fun k hk _ => hframe k (by omega)
    obtain ⟨pg', hrest, hslots, hrestframe⟩ := ih pg₁ (j+1) (by omega) fun i hi hlt => by
      rw [hkeep i (by omega)]
      exact hfit i (by omega) (by omega)
    refine ⟨pg', ?_, ?_, ?_⟩
    · rw [relocate, slot?_eq (by omega)]
      simp only [Option.bind_eq_bind, Option.bind_some, hset]
      exact hrest
    · intro i hi hlt
      by_cases hfirst : i = j
      · have hsame : slotAt H pg' i = slotAt H pg₁ i :=
          slotAt_congr fun k _ hk => hrestframe k (by omega)
        rw [hsame, hfirst, hslot]
      · rw [hslots i (by omega) (by omega), hkeep i (by omega)]
    · intro k hk
      rw [hrestframe k (by omega), hframe k (by omega)]

end Loops

section Pages

variable {H N} {pg pg' : Mem} {placed : List (Nat × Bytes)}

theorem apart_symm {a b : Nat × Bytes} (h : a.1+a.2.length ≤ b.1 ∨ b.1+b.2.length ≤ a.1) :
    b.1+b.2.length ≤ a.1 ∨ a.1+a.2.length ≤ b.1 := h.symm

/-- Only the two header fields, the slots in use and the data belong to the layout. -/
theorem Tiled.congr (h : Tiled H N pg placed)
    (hpg : ∀ k, (2 ≤ k ∧ k < 8) ∨ (H ≤ k ∧ k < N) → pg' k = pg k) (hH : 8 ≤ H) (hN : H ≤ N) :
    Tiled H N pg' placed := by
  have htotal := h.total
  have hroom := h.room
  have hcount : count pg' = count pg := count_congr fun k hk hlt => hpg k (by omega)
  have hdata : dataOff pg' = dataOff pg := dataOff_congr fun k hk hlt => hpg k (by omega)
  refine ⟨hcount.trans h.counted, ?_, ?_, h.apart, ?_, ?_, ?_⟩
  · intro i p hp
    have hi := (List.getElem?_eq_some_iff.mp hp).1
    rw [← h.slots i p hp]
    exact slotAt_congr fun k hk hlt => hpg k (by omega)
  · intro p hp
    have hin := h.inside p hp
    exact (h.holds p hp).congr fun k hk hlt => hpg k (by omega)
  · rw [hdata]
    exact h.inside
  · rw [hdata]
    exact h.total
  · rw [hdata]
    exact h.room

theorem tiled_nil (hcount : count pg = 0) (hdata : dataOff pg = N) (hN : H ≤ N) : Tiled H N pg [] := by
  refine ⟨hcount, ?_, ?_, .nil, ?_, ?_, ?_⟩
  · intro i p hp
    cases hp
  · intro p hp
    cases hp
  · intro p hp
    cases hp
  · rw [hdata]
    rfl
  · rw [hdata]
    exact hN

/-- Giving an entry at `nd` its slot changes the two header fields and the slot. -/
theorem linkSlot_eq (pg : Mem) (pos count nd : Nat) (hpos : H+2*pos+2 ≤ N) (hH : 8 ≤ H)
    (hcount : count+1 < 65536) (hnd : nd < 65536) :
    ∃ pg', linkSlot H N pg pos count nd = some pg' ∧ slotAt H pg' pos = nd ∧
      Slotted.count pg' = count+1 ∧ dataOff pg' = nd ∧
      ∀ k, k < 2 ∨ (8 ≤ k ∧ k < H+2*pos) ∨ H+2*pos+2 ≤ k → pg' k = pg k := by
  obtain ⟨pg₁, hset, hslot, hframe⟩ := setSlot?_eq H N pg pos hpos hnd
  refine ⟨setDataOff (setCount pg₁ (count+1)) nd, ?_, ?_, ?_, ?_, ?_⟩
  · rw [linkSlot, hset]
    rfl
  · rw [← hslot]
    refine slotAt_congr fun k hk _ => ?_
    rw [setDataOff_of_disjoint (by omega), setCount_of_disjoint (by omega)]
  · rw [count_setDataOff, count_setCount hcount]
  · exact dataOff_setDataOff hnd
  · intro k hk
    rw [setDataOff_of_disjoint (by omega), setCount_of_disjoint (by omega), hframe k (by omega)]

/-- An entry is inserted: the slots behind it move up, it is written below the others, and it gets
its slot. -/
theorem Tiled.insert (h : Tiled H N pg placed) (hH : 8 ≤ H) (hN : N < 65536) {pos : Nat}
    (hpos : pos ≤ placed.length) {bs : Bytes} (hfit : H+2*(placed.length+1)+bs.length ≤ dataOff pg) :
    ∃ pg₁ pg₂, shiftRight H N pos placed.length pg = some pg₁ ∧
      linkSlot H N (write pg₁ (dataOff pg-bs.length) bs) pos placed.length (dataOff pg-bs.length) =
        some pg₂ ∧
      Tiled H N pg₂ (placed.insertIdx pos (dataOff pg-bs.length, bs)) ∧
      (∀ k, 8 ≤ k → k < H → pg₁ k = pg k) ∧
      ∀ k, k < 2 ∨ (8 ≤ k ∧ k < H) → pg₂ k = pg k := by
  have htotal := h.total
  have hperm := List.perm_insertIdx (dataOff pg-bs.length, bs) placed hpos
  generalize hnd : dataOff pg-bs.length = nd at hperm ⊢
  obtain ⟨pg₁, hshift, hslots, hframe₁⟩ := shiftRight_eq (H := H) (N := N) pos pg placed.length
    (by omega)
  obtain ⟨pg₂, hlink, hslot, hcount, hdata, hframe₂⟩ := linkSlot_eq (H := H) (N := N)
    (write pg₁ nd bs) pos placed.length nd (by omega) hH (by omega) (by omega)
  -- a byte that is neither header, nor slot, nor in the new entry
  have hkeep : ∀ k, H+2*(placed.length+1) ≤ k → (k < nd ∨ nd+bs.length ≤ k) → pg₂ k = pg k := by
    intro k hk hout
    rw [hframe₂ k (by omega), write_of_disjoint hout, hframe₁ k (by omega)]
  refine ⟨pg₁, pg₂, hshift, hlink, ⟨?_, ?_, ?_, ?_, ?_, ?_, ?_⟩, ?_, ?_⟩
  · rw [hcount, List.length_insertIdx_of_le_length hpos]
  · intro i p hp
    rw [List.getElem?_insertIdx] at hp
    split_ifs at hp with hlt heq hle
    · -- a slot in front of the new one stays
      have hsame : slotAt H pg₂ i = slotAt H pg i := slotAt_congr fun k hk hklt => by
        rw [hframe₂ k (by omega), write_of_disjoint (by omega), hframe₁ k (by omega)]
      rw [hsame, h.slots i p hp]
    · cases hp
      rw [heq, hslot]
    · -- a slot behind it has moved up
      have hi := (List.getElem?_eq_some_iff.mp hp).1
      have hsame : slotAt H pg₂ i = slotAt H pg₁ i := slotAt_congr fun k hk hklt => by
        rw [hframe₂ k (by omega), write_of_disjoint (by omega)]
      rw [hsame, hslots i (by omega) (by omega), h.slots (i-1) p hp]
  · intro p hp
    rcases List.mem_cons.mp (hperm.mem_iff.mp hp) with rfl | hp
    · refine (holds_write pg₁ nd bs).congr fun k hk hlt => hframe₂ k ?_
      omega
    · have hin := h.inside p hp
      exact (h.holds p hp).congr fun k hk hlt => hkeep k (by omega) (by omega)
  · refine (hperm.pairwise_iff fun hab => apart_symm hab).mpr (List.pairwise_cons.mpr ⟨?_, h.apart⟩)
    intro p hp
    have hin := h.inside p hp
    dsimp only
    omega
  · intro p hp
    rw [hdata]
    rcases List.mem_cons.mp (hperm.mem_iff.mp hp) with rfl | hp
    · dsimp only
      omega
    · have hin := h.inside p hp
      omega
  · rw [hdata, (hperm.map fun p : Nat × Bytes => p.2.length).sum_eq, List.map_cons, List.sum_cons]
    dsimp only
    omega
  · rw [hdata, List.length_insertIdx_of_le_length hpos]
    omega
  · intro k hk hlt
    exact hframe₁ k (by omega)
  · intro k hk
    rw [hframe₂ k (by omega), write_of_disjoint (by omega), hframe₁ k (by omega)]

/-- The entry of a slot is removed: the slots behind it move down, and the entries below it move up
over it. -/
theorem Tiled.remove (h : Tiled H N pg placed) (hH : 8 ≤ H) (hN : N < 65536) {pos eo : Nat}
    {bs : Bytes} (hentry : placed[pos]? = some (eo, bs)) (hbs : 0 < bs.length) :
    ∃ pg', removeSlot H N pg pos placed.length (dataOff pg) eo bs.length = some pg' ∧
      Tiled H N pg' ((placed.eraseIdx pos).map fun p => (if p.1 ≤ eo then p.1+bs.length else p.1, p.2)) ∧
      dataOff pg' = dataOff pg+bs.length ∧
      ∀ k, k < 2 ∨ (8 ≤ k ∧ k < H) → pg' k = pg k := by
  have hpos := (List.getElem?_eq_some_iff.mp hentry).1
  have hmem := List.mem_of_getElem? hentry
  obtain ⟨hlow, hhigh⟩ := h.inside _ hmem
  dsimp only at hlow hhigh
  have htotal := h.total
  have hroom := h.room
  have hperm : placed.Perm ((eo, bs) :: placed.eraseIdx pos) := by
    have hget : placed[pos] = (eo, bs) := (List.getElem?_eq_some_iff.mp hentry).2
    rw [← hget]
    exact (List.getElem_cons_eraseIdx_perm hpos).symm
  have hlen : (placed.eraseIdx pos).length+1 = placed.length := hperm.length_eq.symm
  have hsum : dataOff pg+(bs.length+((placed.eraseIdx pos).map fun p => p.2.length).sum) = N := by
    have hmap := (hperm.map fun p : Nat × Bytes => p.2.length).sum_eq
    rw [List.map_cons, List.sum_cons] at hmap
    rw [← hmap]
    exact htotal
  -- the entries that stay lie below the removed one or behind it
  have hothers : ∀ p ∈ placed.eraseIdx pos, p.1+p.2.length ≤ eo ∨ eo+bs.length ≤ p.1 := by
    intro p hp
    have hapart := (hperm.pairwise_iff fun hab => apart_symm hab).mp h.apart
    exact ((List.pairwise_cons.mp hapart).1 p hp).symm
  have hin : ∀ p ∈ placed.eraseIdx pos, dataOff pg ≤ p.1 ∧ p.1+p.2.length ≤ N := fun p hp =>
    h.inside p (List.mem_of_mem_eraseIdx hp)
  obtain ⟨pg₁, hleft, hslots, hframe₁⟩ := shiftLeft_eq (H := H) (N := N) pg
    (placed.length-(pos+1)) (pos+1) (by omega) (by omega)
  -- the slots of the entries that stay
  have hslot₁ : ∀ i p, (placed.eraseIdx pos)[i]? = some p → slotAt H pg₁ i = p.1 := by
    intro i p hp
    rw [List.getElem?_eraseIdx] at hp
    split_ifs at hp with hlt
    · rw [← h.slots i p hp]
      exact slotAt_congr fun k _ hk => hframe₁ k (by omega)
    · have hi := (List.getElem?_eq_some_iff.mp hp).1
      rw [hslots i (by omega) (by omega), h.slots (i+1) p hp]
  generalize hmoved : read pg₁ (dataOff pg) (eo-dataOff pg) = moved
  have hmovedlen : moved.length = eo-dataOff pg := by rw [← hmoved, length_read]
  generalize hpg₂ : write pg₁ (dataOff pg+bs.length) moved = pg₂
  have hslot₂ : ∀ i p, (placed.eraseIdx pos)[i]? = some p → slotAt H pg₂ i = p.1 := by
    intro i p hp
    have hi := (List.getElem?_eq_some_iff.mp hp).1
    rw [← hslot₁ i p hp, ← hpg₂]
    exact slotAt_congr fun k _ hk => write_of_disjoint (by omega)
  obtain ⟨pg₃, hreloc, hslots₃, hframe₃⟩ := relocate_eq (H := H) (N := N) eo bs.length pg₂
    (placed.length-1) 0 (by omega) (by
      intro i _ hi hle
      have hget := List.getElem?_eq_getElem (l := placed.eraseIdx pos) (i := i) (by omega)
      have hp := hin _ (List.mem_of_getElem? hget)
      rw [hslot₂ i _ hget] at hle ⊢
      omega)
  generalize hpg' : setDataOff (setCount pg₃ (placed.length-1)) (dataOff pg+bs.length) = pg'
  have hdata : dataOff pg' = dataOff pg+bs.length := by
    rw [← hpg']
    exact dataOff_setDataOff (by omega)
  -- bytes of the data region
  have hkeep : ∀ k, H+2*placed.length ≤ k → pg' k = pg₂ k := by
    intro k hk
    rw [← hpg', setDataOff_of_disjoint (by omega), setCount_of_disjoint (by omega),
      hframe₃ k (by omega)]
  have hbehind : ∀ k, eo+bs.length ≤ k → pg' k = pg k := by
    intro k hk
    rw [hkeep k (by omega), ← hpg₂, write_of_disjoint (by omega), hframe₁ k (by omega)]
  have hbelow : ∀ k, dataOff pg ≤ k → k < eo → pg' (k+bs.length) = pg k := by
    intro k hk hlt
    have hidx : k+bs.length = dataOff pg+bs.length+(k-dataOff pg) := by omega
    rw [hkeep _ (by omega), ← hpg₂, hidx, write_inside (by omega)]
    simp only [← hmoved]
    rw [getElem_read, Nat.add_sub_cancel' hk, hframe₁ k (by omega)]
  refine ⟨pg', ?_, ⟨?_, ?_, ?_, ?_, ?_, ?_, ?_⟩, hdata, ?_⟩
  · have hread : read? N pg₁ (dataOff pg) (eo-dataOff pg) = some moved := by
      rw [read?, if_pos (by omega), hmoved]
    have hwrite : write? N pg₁ (dataOff pg+bs.length) moved = some pg₂ := by
      rw [write?, if_pos (by omega), hpg₂]
    simp only [removeSlot, hleft, Option.bind_eq_bind, Option.bind_some, if_pos hlow, hread, hwrite,
      hreloc, hpg']
    rfl
  · rw [← hpg', count_setDataOff, count_setCount (by omega), List.length_map]
    omega
  · intro i p hp
    rw [List.getElem?_map, Option.map_eq_some_iff] at hp
    obtain ⟨q, hq, rfl⟩ := hp
    have hi := (List.getElem?_eq_some_iff.mp hq).1
    have hsame : slotAt H pg' i = slotAt H pg₃ i := by
      rw [← hpg']
      refine slotAt_congr fun k hk _ => ?_
      rw [setDataOff_of_disjoint (by omega), setCount_of_disjoint (by omega)]
    rw [hsame, hslots₃ i (by omega) (by omega), hslot₂ i q hq]
  · intro p hp
    obtain ⟨q, hq, rfl⟩ := List.mem_map.mp hp
    have hq' := hin q hq
    have hheld := h.holds q (List.mem_of_mem_eraseIdx hq)
    rcases hothers q hq with hlt | hge
    · dsimp only
      rw [if_pos (by omega)]
      refine hheld.moved fun i hi => ?_
      rw [Nat.add_right_comm]
      exact hbelow (q.1+i) (by omega) (by omega)
    · dsimp only
      rw [if_neg (by omega)]
      exact hheld.congr fun k hk _ => hbehind k (by omega)
  · rw [List.pairwise_map]
    refine (h.apart.sublist (List.eraseIdx_sublist _ _)).imp_of_mem ?_
    intro a b ha hb hab
    have hoa := hothers a ha
    have hob := hothers b hb
    dsimp only
    split_ifs <;> omega
  · intro p hp
    obtain ⟨q, hq, rfl⟩ := List.mem_map.mp hp
    have hq' := hin q hq
    have hoq := hothers q hq
    rw [hdata]
    dsimp only
    split_ifs <;> omega
  · rw [hdata, List.map_map]
    simp only [Function.comp_def]
    omega
  · rw [hdata, List.length_map]
    omega
  · intro k hk
    rw [← hpg', setDataOff_of_disjoint (by omega), setCount_of_disjoint (by omega),
      hframe₃ k (by omega), ← hpg₂, write_of_disjoint (by omega), hframe₁ k (by omega)]

end Pages

section Layouts

variable {H N} {pg pg' : Mem} {es : List Bytes}

theorem Layout.counted (h : Layout H N pg es) : count pg = es.length := by
  obtain ⟨placed, h, rfl⟩ := h
  rw [h.counted, List.length_map]

theorem Layout.dataOff_add (h : Layout H N pg es) : dataOff pg+(es.map List.length).sum = N := by
  obtain ⟨placed, h, rfl⟩ := h
  rw [List.map_map]
  exact h.total

theorem Layout.room (h : Layout H N pg es) : H+2*es.length ≤ dataOff pg := by
  obtain ⟨placed, h, rfl⟩ := h
  rw [List.length_map]
  exact h.room

/-- Every slot leads to its entry. -/
theorem Layout.get (h : Layout H N pg es) {i : Nat} {bs : Bytes} (hi : es[i]? = some bs) :
    ∃ off, slot? H N pg i = some off ∧ Holds pg off bs ∧ dataOff pg ≤ off ∧ off+bs.length ≤ N := by
  obtain ⟨placed, h, rfl⟩ := h
  rw [List.getElem?_map, Option.map_eq_some_iff] at hi
  obtain ⟨p, hp, rfl⟩ := hi
  have hlt := (List.getElem?_eq_some_iff.mp hp).1
  have hmem := List.mem_of_getElem? hp
  have hroom := h.room
  have htotal := h.total
  refine ⟨p.1, ?_, h.holds p hmem, h.inside p hmem⟩
  rw [slot?_eq (by omega), h.slots i p hp]

theorem Layout.congr (h : Layout H N pg es)
    (hpg : ∀ k, (2 ≤ k ∧ k < 8) ∨ (H ≤ k ∧ k < N) → pg' k = pg k) (hH : 8 ≤ H) (hN : H ≤ N) :
    Layout H N pg' es := by
  obtain ⟨placed, h, rfl⟩ := h
  exact ⟨placed, h.congr hpg hH hN, rfl⟩

theorem layout_nil (hcount : count pg = 0) (hdata : dataOff pg = N) (hN : H ≤ N) : Layout H N pg [] :=
  ⟨[], tiled_nil hcount hdata hN, rfl⟩

/-- A page whose two header fields were reset has no entries. -/
theorem layout_reset (pg : Mem) (hN : H ≤ N) (hlt : N < 65536) :
    Layout H N (setDataOff (setCount pg 0) N) [] := by
  have hcount : count (setDataOff (setCount pg 0) N) = 0 := by
    rw [count_setDataOff, count_setCount (by omega)]
  exact layout_nil hcount (dataOff_setDataOff hlt) hN

theorem Layout.insert (bs : Bytes) (pos : Nat) (h : Layout H N pg es) (hH : 8 ≤ H) (hN : N < 65536)
    (hpos : pos ≤ es.length) (hfit : H+2*(es.length+1)+bs.length ≤ dataOff pg) :
    ∃ pg₁ pg₂, shiftRight H N pos es.length pg = some pg₁ ∧
      linkSlot H N (write pg₁ (dataOff pg-bs.length) bs) pos es.length (dataOff pg-bs.length) =
        some pg₂ ∧
      Layout H N pg₂ (es.insertIdx pos bs) ∧ (∀ k, 8 ≤ k → k < H → pg₁ k = pg k) ∧
      ∀ k, k < 2 ∨ (8 ≤ k ∧ k < H) → pg₂ k = pg k := by
  obtain ⟨placed, h, rfl⟩ := h
  rw [List.length_map] at hpos hfit ⊢
  obtain ⟨pg₁, pg₂, hshift, hlink, htiled, hframe₁, hframe₂⟩ := h.insert hH hN hpos hfit
  refine ⟨pg₁, pg₂, hshift, hlink, ⟨_, htiled, ?_⟩, hframe₁, hframe₂⟩
  rw [List.map_insertIdx]

theorem Layout.remove (h : Layout H N pg es) (hH : 8 ≤ H) (hN : N < 65536) {pos eo : Nat} {bs : Bytes}
    (hentry : es[pos]? = some bs) (hslot : slot? H N pg pos = some eo) (hbs : 0 < bs.length) :
    ∃ pg', removeSlot H N pg pos es.length (dataOff pg) eo bs.length = some pg' ∧
      Layout H N pg' (es.eraseIdx pos) ∧ ∀ k, k < 2 ∨ (8 ≤ k ∧ k < H) → pg' k = pg k := by
  obtain ⟨off, hoff, -, -, -⟩ := h.get hentry
  rw [hslot] at hoff
  cases hoff
  obtain ⟨placed, h, rfl⟩ := h
  rw [List.getElem?_map, Option.map_eq_some_iff] at hentry
  obtain ⟨p, hp, rfl⟩ := hentry
  have hlt := (List.getElem?_eq_some_iff.mp hp).1
  have hroom := h.room
  have htotal := h.total
  rw [slot?_eq (by omega), h.slots pos p hp] at hslot
  cases hslot
  obtain ⟨pg', hremove, htiled, -, hframe⟩ := h.remove hH hN hp hbs
  rw [List.length_map]
  refine ⟨pg', hremove, ⟨_, htiled, ?_⟩, hframe⟩
  rw [List.map_map, List.eraseIdx_map]
  rfl

/-- A part of an entry is overwritten in place. -/
theorem Layout.overwrite (h : Layout H N pg es) (hH : 8 ≤ H) {i off : Nat} {pre old new post : Bytes}
    (hi : es[i]? = some (pre ++ old ++ post)) (hslot : slot? H N pg i = some off)
    (hlen : new.length = old.length) :
    Layout H N (write pg (off+pre.length) new) (es.set i (pre ++ new ++ post)) := by
  obtain ⟨placed, h, rfl⟩ := h
  rw [List.getElem?_map, Option.map_eq_some_iff] at hi
  obtain ⟨p, hp, hbytes⟩ := hi
  have hlt := (List.getElem?_eq_some_iff.mp hp).1
  have hmem := List.mem_of_getElem? hp
  have hroom := h.room
  have htotal := h.total
  have hin := h.inside p hmem
  rw [slot?_eq (by omega), h.slots i p hp] at hslot
  cases hslot
  have hplen : p.2.length = pre.length+new.length+post.length := by
    rw [hbytes, List.length_append, List.length_append, hlen]
  have hperm : placed.Perm (p :: placed.eraseIdx i) := by
    have hget : placed[i] = p := (List.getElem?_eq_some_iff.mp hp).2
    rw [← hget]
    exact (List.getElem_cons_eraseIdx_perm hlt).symm
  have hperm' := List.set_perm_cons_eraseIdx hlt (p.1, pre ++ new ++ post)
  have hapart := (hperm.pairwise_iff fun hab => apart_symm hab).mp h.apart
  obtain ⟨hothers, hrest⟩ := List.pairwise_cons.mp hapart
  have hkeep : ∀ k, k < p.1+pre.length ∨ p.1+pre.length+new.length ≤ k →
      write pg (p.1+pre.length) new k = pg k := fun k hk => write_of_disjoint hk
  have hdata : dataOff (write pg (p.1+pre.length) new) = dataOff pg :=
    dataOff_congr fun k _ hk => hkeep k (by omega)
  have hnew : (pre ++ new ++ post).length = p.2.length := by
    rw [hplen, List.length_append, List.length_append]
  refine ⟨placed.set i (p.1, pre ++ new ++ post), ⟨?_, ?_, ?_, ?_, ?_, ?_, ?_⟩, List.map_set⟩
  · rw [List.length_set, ← h.counted]
    exact count_congr fun k _ hk => hkeep k (by omega)
  · intro j q hq
    have hsame : slotAt H (write pg (p.1+pre.length) new) j = slotAt H pg j :=
      slotAt_congr fun k _ hk => hkeep k (by
        have hj := (List.getElem?_eq_some_iff.mp hq).1
        rw [List.length_set] at hj
        omega)
    rw [hsame]
    rw [List.getElem?_set] at hq
    split_ifs at hq with hij
    · cases hq
      rw [← hij, h.slots i p hp]
    · exact h.slots j q hq
  · intro q hq
    rcases List.mem_cons.mp (hperm'.mem_iff.mp hq) with rfl | hq
    · have hold := h.holds p hmem
      rw [hbytes, holds_append, holds_append, List.length_append] at hold
      rw [holds_append, holds_append, List.length_append]
      refine ⟨⟨hold.1.1.congr fun k _ hk => hkeep k (by omega), holds_write _ _ _⟩, ?_⟩
      rw [hlen]
      exact hold.2.congr fun k hk _ => hkeep k (by omega)
    · have hq' := hothers q hq
      exact (h.holds q (List.mem_of_mem_eraseIdx hq)).congr fun k hk hklt => hkeep k (by omega)
  · refine (hperm'.pairwise_iff fun hab => apart_symm hab).mpr (List.pairwise_cons.mpr ⟨?_, hrest⟩)
    intro q hq
    have hq' := hothers q hq
    dsimp only
    omega
  · intro q hq
    rw [hdata]
    rcases List.mem_cons.mp (hperm'.mem_iff.mp hq) with rfl | hq
    · dsimp only
      omega
    · exact h.inside q (List.mem_of_mem_eraseIdx hq)
  · have hsum := (hperm.map fun p : Nat × Bytes => p.2.length).sum_eq
    have hsum' := (hperm'.map fun p : Nat × Bytes => p.2.length).sum_eq
    rw [List.map_cons, List.sum_cons] at hsum hsum'
    rw [hdata, hsum']
    dsimp only
    omega
  · rw [hdata, List.length_set]
    exact h.room

end Layouts

section Packing

variable {H N} {pg pg' pg'' : Mem} {es es' : List Bytes}

/-- The bytes of entries with their slots. -/
def entryBytes (es : List Bytes) : Nat := (es.map fun e => e.length+2).sum

@[simp] theorem entryBytes_nil : entryBytes [] = 0 := rfl

@[simp] theorem entryBytes_cons (e : Bytes) (es : List Bytes) :
    entryBytes (e :: es) = e.length+2+entryBytes es := rfl

@[simp] theorem entryBytes_append (es es' : List Bytes) :
    entryBytes (es ++ es') = entryBytes es+entryBytes es' := by
  simp [entryBytes]

theorem entryBytes_eq (es : List Bytes) : entryBytes es = (es.map List.length).sum+2*es.length := by
  induction es with
  | nil => rfl
  | cons e es ih =>
    rw [entryBytes_cons, ih, List.map_cons, List.sum_cons, List.length_cons]
    omega

theorem Layout.dataOff_entryBytes (h : Layout H N pg es) :
    dataOff pg+entryBytes es = N+2*es.length := by
  have htotal := h.dataOff_add
  have hbytes := entryBytes_eq es
  omega

theorem Layout.fits (h : Layout H N pg es) : H+entryBytes es ≤ N := by
  have hbytes := h.dataOff_entryBytes
  have hroom := h.room
  omega

/-- A page with room for more entries. -/
def Fits (H N : Nat) (pg : Mem) (es : List Bytes) : Prop :=
  ∃ base, Layout H N pg base ∧ H+entryBytes base+entryBytes es ≤ N

/-- Entries were put behind those of a page. The count says so also of a page that is too full. -/
structure Packs (H N : Nat) (pg pg' : Mem) (es : List Bytes) : Prop where
  count : count pg' = count pg+es.length
  layout : ∀ base, Layout H N pg base → H+entryBytes base+entryBytes es ≤ N →
    Layout H N pg' (base ++ es) ∧ ∀ k, k < 2 ∨ (8 ≤ k ∧ k < H) → pg' k = pg k

theorem Fits.mono (h : Fits H N pg es) (hle : entryBytes es' ≤ entryBytes es) : Fits H N pg es' := by
  obtain ⟨base, hlayout, hfit⟩ := h
  exact ⟨base, hlayout, by omega⟩

theorem Fits.left (h : Fits H N pg (es ++ es')) : Fits H N pg es :=
  h.mono (by rw [entryBytes_append]; omega)

theorem Packs.refl (pg : Mem) : Packs H N pg pg [] := by
  refine ⟨rfl, ?_⟩
  intro base hlayout _
  rw [List.append_nil]
  exact ⟨hlayout, fun _ _ => rfl⟩

theorem Packs.fits (h : Packs H N pg pg' es) (hfits : Fits H N pg (es ++ es')) : Fits H N pg' es' := by
  obtain ⟨base, hlayout, hfit⟩ := hfits
  rw [entryBytes_append] at hfit
  refine ⟨base ++ es, (h.layout base hlayout (by omega)).1, ?_⟩
  rw [entryBytes_append]
  omega

theorem Packs.trans (h : Packs H N pg pg' es) (h' : Packs H N pg' pg'' es') :
    Packs H N pg pg'' (es ++ es') := by
  refine ⟨?_, ?_⟩
  · rw [h'.count, h.count, List.length_append, Nat.add_assoc]
  · intro base hlayout hfit
    rw [entryBytes_append] at hfit
    obtain ⟨hlayout', hframe⟩ := h.layout base hlayout (by omega)
    obtain ⟨hlayout'', hframe'⟩ := h'.layout _ hlayout' (by rw [entryBytes_append]; omega)
    rw [List.append_assoc] at hlayout''
    exact ⟨hlayout'', fun k hk => (hframe' k hk).trans (hframe k hk)⟩

theorem shiftRight_self (n : Nat) (pg : Mem) : shiftRight H N n n pg = some pg := by
  cases n with
  | zero => rfl
  | succ n => rw [shiftRight, if_neg (by omega)]

/-- An entry that fits gets the slot behind the others. -/
theorem linkSlot_append (entry : Bytes) (h : Layout H N pg es) (hH : 8 ≤ H) (hN : N < 65536)
    (hfit : H+entryBytes es+(entry.length+2) ≤ N) :
    ∃ pg', linkSlot H N (write pg (dataOff pg-entry.length) entry) (count pg) (count pg)
        (dataOff pg-entry.length) = some pg' ∧
      Layout H N pg' (es ++ [entry]) ∧ ∀ k, k < 2 ∨ (8 ≤ k ∧ k < H) → pg' k = pg k := by
  have hbytes := h.dataOff_entryBytes
  obtain ⟨pg₁, pg₂, hshift, hlink, hlayout, -, hframe⟩ := h.insert entry es.length hH hN le_rfl (by omega)
  rw [shiftRight_self] at hshift
  cases hshift
  rw [← h.counted] at hlink
  rw [List.insertIdx_length_self] at hlayout
  exact ⟨pg₂, hlink, hlayout, hframe⟩

theorem insertIdx_eq_take_append {α : Type} (l : List α) (n : Nat) (a : α) (h : n ≤ l.length) :
    l.insertIdx n a = l.take n ++ a :: l.drop n := by
  induction l generalizing n with
  | nil =>
    obtain rfl : n = 0 := Nat.le_zero.mp h
    rfl
  | cons b l ih =>
    cases n with
    | zero => rfl
    | succ n => simpa using ih n (Nat.le_of_succ_le_succ h)

/-- The count goes up with every slot that is given. -/
theorem count_linkSlot {pos n nd : Nat} (hN : N < 65536) (hpos : n ≤ pos)
    (h : linkSlot H N pg pos n nd = some pg') : count pg' = n+1 := by
  rw [linkSlot] at h
  obtain ⟨pg₁, hset, hdone⟩ := Option.bind_eq_some_iff.mp h
  have hin : H+2*pos+(leBytes 2 nd).length ≤ N := by
    rw [setSlot?, write?] at hset
    split_ifs at hset with hin
    exact hin
  cases hdone
  rw [count_setDataOff, count_setCount (by rw [length_leBytes] at hin; omega)]

theorem appendEntry_completes (hH : 8 ≤ H) (hN : N < 65536) (pg : Mem) (entry : Bytes) :
    Completes (Fits H N pg [entry]) (appendEntry H N pg entry) fun pg' => Packs H N pg pg' [entry] := by
  have happend : ∀ base, Layout H N pg base → H+entryBytes base+entryBytes [entry] ≤ N →
      ∃ pg', appendEntry H N pg entry = some pg' ∧ Layout H N pg' (base ++ [entry]) ∧
        ∀ k, k < 2 ∨ (8 ≤ k ∧ k < H) → pg' k = pg k := by
    intro base hlayout hfit
    rw [entryBytes_cons, entryBytes_nil] at hfit
    have hbytes := hlayout.dataOff_entryBytes
    have htotal := hlayout.dataOff_add
    obtain ⟨pg', hlink, hdone⟩ := linkSlot_append entry hlayout hH hN (by omega)
    refine ⟨pg', ?_, hdone⟩
    have hwrite : write? N pg (dataOff pg-entry.length) entry =
        some (write pg (dataOff pg-entry.length) entry) := if_pos (by omega)
    rw [appendEntry, if_pos (by omega)]
    simp only [hwrite, Option.bind_eq_bind, Option.bind_some]
    exact hlink
  refine ⟨?_, ?_⟩
  · intro pg' hpg'
    refine ⟨?_, ?_⟩
    · rw [appendEntry] at hpg'
      split_ifs at hpg' with hle
      obtain ⟨pg₁, -, hlink⟩ := Option.bind_eq_some_iff.mp hpg'
      exact count_linkSlot hN le_rfl hlink
    · intro base hlayout hfit
      obtain ⟨pg'', hpg'', hdone⟩ := happend base hlayout hfit
      rw [hpg'] at hpg''
      cases hpg''
      exact hdone
  · intro hnone hfits
    obtain ⟨base, hlayout, hfit⟩ := hfits
    obtain ⟨pg', hpg', -⟩ := happend base hlayout hfit
    rw [hnone] at hpg'
    cases hpg'

end Packing

end Slotted

end ZenDB
