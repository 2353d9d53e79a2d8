import ZenDB.BPlusTree.Writes

namespace ZenDB

open Memory Slotted

/-! Pages as lists of entries. -/

/-- An entry of a leaf; its length field says how many bytes follow the key. -/
structure LeafCell where
  key : Bytes
  rawVl : Nat
  payload : Bytes
  keyShort : key.length < 65536
  rawVlLt : rawVl < 2^32
  agrees : payload.length = payloadLen rawVl

namespace LeafCell

def enc (c : LeafCell) : Bytes := leafEntry c.key c.rawVl c.payload

/-- The bytes of the entry with its slot. -/
def size (c : LeafCell) : Nat := leafEntryBytes c.key.length c.payload.length

theorem length_enc (c : LeafCell) : c.enc.length = 6+c.key.length+c.payload.length := by
  simp [enc, leafEntry]
  omega

theorem size_eq (c : LeafCell) : c.size = c.enc.length+2 := by
  rw [size, leafEntryBytes, length_enc]

end LeafCell

/-- The bytes of the entries of a leaf. -/
def leafBytes (cells : List LeafCell) : Nat := (cells.map LeafCell.size).sum

@[simp] theorem leafBytes_nil : leafBytes [] = 0 := rfl

@[simp] theorem leafBytes_cons (c : LeafCell) (cells : List LeafCell) :
    leafBytes (c :: cells) = c.size+leafBytes cells := rfl

@[simp] theorem leafBytes_append (cells cells' : List LeafCell) :
    leafBytes (cells ++ cells') = leafBytes cells+leafBytes cells' := by
  simp [leafBytes]

theorem entryBytes_cells (cells : List LeafCell) : entryBytes (cells.map LeafCell.enc) = leafBytes cells := by
  induction cells with
  | nil => rfl
  | cons c cells ih => rw [List.map_cons, entryBytes_cons, leafBytes_cons, ih, c.size_eq]

/-- `e.1` is a separator and `e.2` the page behind it. -/
def sepEnc (e : Bytes × Nat) : Bytes := internalEntry e.1 e.2

def sepSize (e : Bytes × Nat) : Nat := 10+e.1.length+2

theorem length_sepEnc (e : Bytes × Nat) : (sepEnc e).length = 10+e.1.length := by
  simp [sepEnc, internalEntry]
  omega

theorem sepSize_eq (e : Bytes × Nat) : sepSize e = (sepEnc e).length+2 := by
  rw [sepSize, length_sepEnc]

def sepBytes (seps : List (Bytes × Nat)) : Nat := (seps.map sepSize).sum

@[simp] theorem sepBytes_nil : sepBytes [] = 0 := rfl

@[simp] theorem sepBytes_cons (e : Bytes × Nat) (seps : List (Bytes × Nat)) :
    sepBytes (e :: seps) = sepSize e+sepBytes seps := rfl

@[simp] theorem sepBytes_append (seps seps' : List (Bytes × Nat)) :
    sepBytes (seps ++ seps') = sepBytes seps+sepBytes seps' := by
  simp [sepBytes]

theorem entryBytes_seps (seps : List (Bytes × Nat)) : entryBytes (seps.map sepEnc) = sepBytes seps := by
  induction seps with
  | nil => rfl
  | cons e seps ih => rw [List.map_cons, entryBytes_cons, sepBytes_cons, ih, sepSize_eq]

structure LeafPage (pg : Page) (cells : List LeafCell) : Prop where
  kind : pg 0 = 1
  layout : Layout 24 4096 pg (cells.map LeafCell.enc)

structure InternalPage (pg : Page) (leftmost : Nat) (seps : List (Bytes × Nat)) : Prop where
  kind : pg 0 = 2
  first : leftmostChild pg = leftmost
  bound : ∀ e ∈ seps, e.2 < 2^64
  layout : Layout 16 4096 pg (seps.map sepEnc)

/-- The entry lies at `off` of a page. -/
structure EntryAt (pg : Page) (off : Nat) (bs : Bytes) : Prop where
  holds : Holds pg off bs
  inside : off+bs.length ≤ 4096

/-- An internal page as it is read through its slots, wherever its entries lie. -/
structure Separators (pg : Page) (leftmost : Nat) (seps : List (Bytes × Nat)) : Prop where
  kind : pg 0 = 2
  first : leftmostChild pg = leftmost
  bound : ∀ e ∈ seps, e.2 < 2^64
  counted : count pg = seps.length
  get : ∀ i e, seps[i]? = some e → ∃ off, slot? 16 4096 pg i = some off ∧ EntryAt pg off (sepEnc e)

section Reads

variable {pg : Page} {off : Nat} {bs bs' : Bytes}

theorem EntryAt.left (h : EntryAt pg off (bs ++ bs')) : EntryAt pg off bs := by
  have hlen := h.inside
  rw [List.length_append] at hlen
  exact ⟨(holds_append.mp h.holds).1, by omega⟩

theorem EntryAt.right (h : EntryAt pg off (bs ++ bs')) : EntryAt pg (off+bs.length) bs' := by
  have hlen := h.inside
  rw [List.length_append] at hlen
  exact ⟨h.holds.slice, by omega⟩

theorem EntryAt.read (h : EntryAt pg off bs) : read? 4096 pg off bs.length = some bs := by
  rw [read?, if_pos h.inside]
  exact congrArg some h.holds

theorem EntryAt.leNat {w v : Nat} (h : EntryAt pg off (leBytes w v)) (hv : v < 256^w) :
    (read? 4096 pg off w).map leNat = some v := by
  have hin := h.inside
  rw [length_leBytes] at hin
  rw [read?, if_pos hin]
  exact congrArg some (h.holds.leNat hv)

variable {c : LeafCell}

theorem EntryAt.leafParts (h : EntryAt pg off c.enc) :
    u16? pg off = some c.key.length ∧ u32? pg (off+2) = some c.rawVl ∧
      read? 4096 pg (off+6) c.key.length = some c.key ∧
      read? 4096 pg (off+6+c.key.length) c.payload.length = some c.payload := by
  rw [LeafCell.enc, leafEntry] at h
  have hkl := h.left.left.left
  have hvl := h.left.left.right
  have hkey := h.left.right
  have hpayload := h.right
  simp only [List.length_append, length_leBytes] at hvl hkey hpayload
  rw [← Nat.add_assoc] at hpayload
  exact ⟨hkl.leNat c.keyShort, hvl.leNat c.rawVlLt, hkey.read, hpayload.read⟩

theorem EntryAt.leafBytes (h : EntryAt pg off c.enc) :
    read? 4096 pg off (6+c.key.length+payloadLen c.rawVl) = some c.enc := by
  have hread := h.read
  rwa [c.length_enc, c.agrees] at hread

theorem EntryAt.scratchLeafSize (h : EntryAt pg off c.enc) : scratchLeafSize pg off = some c.size := by
  obtain ⟨hkl, hvl, -, -⟩ := h.leafParts
  rw [ZenDB.scratchLeafSize, hkl, hvl, LeafCell.size, leafEntryBytes, c.agrees]
  rfl

theorem EntryAt.splitKey_leaf (h : EntryAt pg off c.enc) (key : Bytes) :
    splitKey 6 pg key (some off) = some c.key := by
  obtain ⟨hkl, -, hkey, -⟩ := h.leafParts
  rw [splitKey, hkl]
  exact hkey

/-- The page number in the payload of an entry with an extent. -/
theorem EntryAt.start (h : EntryAt pg off c.enc) (hovfl : isOvfl c.rawVl = true) :
    u64? pg (off+6+c.key.length) = some (ZenDB.leNat c.payload) := by
  obtain ⟨-, -, -, hpayload⟩ := h.leafParts
  have hlen : c.payload.length = 8 := by rw [c.agrees, payloadLen, if_pos hovfl]
  rw [hlen] at hpayload
  rw [u64?, hpayload]
  rfl

variable {e : Bytes × Nat}

theorem EntryAt.sepShort (h : EntryAt pg off (sepEnc e)) : e.1.length < 65536 := by
  have hin := h.inside
  rw [length_sepEnc] at hin
  omega

theorem EntryAt.sepKey (h : EntryAt pg off (sepEnc e)) :
    u16? pg off = some e.1.length ∧ read? 4096 pg (off+10) e.1.length = some e.1 := by
  have hshort := h.sepShort
  rw [sepEnc, internalEntry] at h
  have hkey := h.right
  simp only [List.length_append, length_leBytes] at hkey
  exact ⟨h.left.left.leNat hshort, hkey.read⟩

theorem EntryAt.sepChild (h : EntryAt pg off (sepEnc e)) (hchild : e.2 < 2^64) :
    u64? pg (off+2) = some e.2 := by
  rw [sepEnc, internalEntry] at h
  have hbytes := h.left.right
  rw [length_leBytes] at hbytes
  exact hbytes.leNat hchild

theorem EntryAt.scratchInternalSize (h : EntryAt pg off (sepEnc e)) :
    scratchInternalSize pg off = some (sepSize e) := by
  obtain ⟨hkl, hkey⟩ := h.sepKey
  rw [ZenDB.scratchInternalSize, hkl]
  simp only [Option.bind_eq_bind, Option.bind_some, hkey]
  rfl

theorem EntryAt.splitKey_sep (h : EntryAt pg off (sepEnc e)) (key : Bytes) :
    splitKey 10 pg key (some off) = some e.1 := by
  obtain ⟨hkl, hkey⟩ := h.sepKey
  rw [splitKey, hkl]
  exact hkey

theorem EntryAt.sepBytesAt (h : EntryAt pg off (sepEnc e)) :
    read? 4096 pg off (10+e.1.length) = some (sepEnc e) := by
  have hread := h.read
  rwa [length_sepEnc] at hread

end Reads

section Leaves

variable {pg pg' : Page} {cells : List LeafCell}

/-- The slot of an entry leads to it. -/
theorem LeafPage.get (h : LeafPage pg cells) {i : Nat} {c : LeafCell} (hi : cells[i]? = some c) :
    ∃ off, slot? 24 4096 pg i = some off ∧ EntryAt pg off c.enc := by
  obtain ⟨off, hslot, hholds, -, hin⟩ := h.layout.get
    (show (cells.map LeafCell.enc)[i]? = some c.enc by simp [hi])
  exact ⟨off, hslot, hholds, hin⟩

theorem LeafPage.counted (h : LeafPage pg cells) : count pg = cells.length := by
  rw [h.layout.counted, List.length_map]

theorem LeafPage.keyAt (h : LeafPage pg cells) {i : Nat} {c : LeafCell} (hi : cells[i]? = some c) :
    leafKeyAt pg i = some c.key := by
  obtain ⟨off, hslot, hentry⟩ := h.get hi
  obtain ⟨hkl, -, hkey, -⟩ := hentry.leafParts
  rw [leafKeyAt, hslot]
  simp only [Option.bind_eq_bind, Option.bind_some, hkl]
  exact hkey

theorem LeafPage.fits (h : LeafPage pg cells) : leafBytes cells ≤ 4072 := by
  have hfits := h.layout.fits
  rw [entryBytes_cells] at hfits
  omega

/-- The links to other leaves do not belong to the entries. -/
theorem LeafPage.congr (h : LeafPage pg cells) (hpg : ∀ k, k < 8 ∨ 24 ≤ k → pg' k = pg k) :
    LeafPage pg' cells :=
  ⟨(hpg 0 (by omega)).trans h.kind,
    h.layout.congr (fun k hk => hpg k (by omega)) (by omega) (by omega)⟩

/-- A value is overwritten by one of its length. -/
theorem LeafPage.setPayload {i eo : Nat} {c new : LeafCell} (h : LeafPage pg cells)
    (hc : cells[i]? = some c) (hslot : slot? 24 4096 pg i = some eo) (hkey : new.key = c.key)
    (hraw : new.rawVl = c.rawVl) :
    LeafPage (write pg (eo+6+c.key.length) new.payload) (cells.set i new) := by
  have hlen : new.payload.length = c.payload.length := by rw [new.agrees, c.agrees, hraw]
  have hfront : (leBytes 2 c.key.length ++ leBytes 4 c.rawVl ++ c.key).length = 6+c.key.length := by
    simp
    omega
  have hi : (cells.map LeafCell.enc)[i]? =
      some (leBytes 2 c.key.length ++ leBytes 4 c.rawVl ++ c.key ++ c.payload ++ []) := by
    rw [List.append_nil]
    simp [hc, LeafCell.enc, leafEntry]
  obtain ⟨off, hslot', -, hlow, -⟩ := h.layout.get hi
  rw [hslot] at hslot'
  cases hslot'
  have hroom := h.layout.room
  refine ⟨?_, ?_⟩
  · rw [write_of_disjoint (by omega)]
    exact h.kind
  · have hlayout := h.layout.overwrite (by omega) hi hslot hlen
    rw [hfront, ← hkey, ← hraw, List.append_nil, ← add_assoc] at hlayout
    rw [← hkey, List.map_set]
    exact hlayout

theorem LeafPage.setNextLeaf (h : LeafPage pg cells) (p : Nat) : LeafPage (setNextLeaf pg p) cells :=
  h.congr fun k hk => write_of_disjoint (by rw [length_leBytes]; omega)

theorem LeafPage.setPrevLeaf (h : LeafPage pg cells) (p : Nat) : LeafPage (setPrevLeaf pg p) cells :=
  h.congr fun k hk => write_of_disjoint (by rw [length_leBytes]; omega)

theorem leafPage_reset (h : pg 0 = 1) : LeafPage (resetSlots pg) [] := by
  refine ⟨?_, layout_reset pg (by omega) (by omega)⟩
  rw [resetSlots, setDataOff_of_disjoint (by omega), setCount_of_disjoint (by omega), h]

/-- The header that `init_leaf` writes. -/
theorem leafPage_init (pg : Page) (flags : UInt8) :
    LeafPage (write pg 0 ([1, flags] ++ leBytes 2 0 ++ leBytes 4 4096 ++ leBytes 8 0 ++ leBytes 8 0)) [] ∧
      nextLeaf (write pg 0 ([1, flags] ++ leBytes 2 0 ++ leBytes 4 4096 ++ leBytes 8 0 ++ leBytes 8 0)) = 0 ∧
      prevLeaf (write pg 0 ([1, flags] ++ leBytes 2 0 ++ leBytes 4 4096 ++ leBytes 8 0 ++ leBytes 8 0)) = 0 := by
  have hholds := holds_write pg 0
    ([1, flags] ++ leBytes 2 0 ++ leBytes 4 4096 ++ leBytes 8 0 ++ leBytes 8 0)
  have hkind : write pg 0 ([1, flags] ++ leBytes 2 0 ++ leBytes 4 4096 ++ leBytes 8 0 ++ leBytes 8 0) 0 =
      1 := by
    rw [write, if_pos (by simp)]
    rfl
  generalize write pg 0 ([1, flags] ++ leBytes 2 0 ++ leBytes 4 4096 ++ leBytes 8 0 ++ leBytes 8 0) = new
    at hholds hkind ⊢
  simp only [holds_append, List.length_append, length_leBytes, List.length_cons, List.length_nil] at hholds
  obtain ⟨⟨⟨⟨-, hcount⟩, hdata⟩, hnext⟩, hprev⟩ := hholds
  exact ⟨⟨hkind, layout_nil (hcount.leNat (by omega)) (hdata.leNat (by omega)) (by omega)⟩,
    hnext.leNat (by omega), hprev.leNat (by omega)⟩

end Leaves

section Links

variable {pg pg' : Page} {p : Nat}

theorem nextLeaf_congr (h : ∀ k, 8 ≤ k → k < 16 → pg' k = pg k) : nextLeaf pg' = nextLeaf pg :=
  congrArg leNat (read_congr h)

theorem prevLeaf_congr (h : ∀ k, 16 ≤ k → k < 24 → pg' k = pg k) : prevLeaf pg' = prevLeaf pg :=
  congrArg leNat (read_congr h)

end Links

section Internals

variable {pg pg' : Page} {leftmost : Nat} {seps : List (Bytes × Nat)}

theorem InternalPage.counted (h : InternalPage pg leftmost seps) : count pg = seps.length := by
  rw [h.layout.counted, List.length_map]

theorem InternalPage.separators (h : InternalPage pg leftmost seps) : Separators pg leftmost seps := by
  refine ⟨h.kind, h.first, h.bound, h.counted, ?_⟩
  intro i e hi
  obtain ⟨off, hslot, hholds, -, hin⟩ := h.layout.get
    (show (seps.map sepEnc)[i]? = some (sepEnc e) by simp [hi])
  exact ⟨off, hslot, hholds, hin⟩

theorem Separators.parts (h : Separators pg leftmost seps) {i : Nat} {e : Bytes × Nat}
    (hi : seps[i]? = some e) : internalKeyAt pg i = some e.1 ∧ internalChildAt pg i = some e.2 := by
  obtain ⟨off, hslot, hentry⟩ := h.get i e hi
  obtain ⟨hkl, hkey⟩ := hentry.sepKey
  have hchild := hentry.sepChild (h.bound e (List.mem_of_getElem? hi))
  rw [internalKeyAt, internalChildAt, hslot]
  simp only [Option.bind_eq_bind, Option.bind_some, hkl]
  exact ⟨hkey, hchild⟩

theorem InternalPage.fits (h : InternalPage pg leftmost seps) : sepBytes seps ≤ 4080 := by
  have hfits := h.layout.fits
  rw [entryBytes_seps] at hfits
  omega

theorem leftmostChild_setLeftmostChild {p : Nat} (h : p < 2^64) :
    leftmostChild (setLeftmostChild pg p) = p :=
  leNat_read_write pg 8 8 p h

theorem Separators.reset (h : Separators pg leftmost seps) :
    InternalPage (resetSlots pg) leftmost [] := by
  have hkeep : ∀ k, k < 2 ∨ 8 ≤ k → resetSlots pg k = pg k := fun k hk => by
    rw [resetSlots, setDataOff_of_disjoint (by omega), setCount_of_disjoint (by omega)]
  refine ⟨(hkeep 0 (by omega)).trans h.kind, ?_, fun e he => absurd he List.not_mem_nil,
    layout_reset pg (by omega) (by omega)⟩
  rw [← h.first]
  exact congrArg leNat (read_congr fun k hk _ => hkeep k (by omega))

/-- The header that `init_internal` writes, with a leftmost child. -/
theorem internalPage_init (pg : Page) {p : Nat} (hp : p < 2^64) :
    InternalPage (setLeftmostChild
      (write pg 0 ([2, 0] ++ leBytes 2 0 ++ leBytes 4 4096 ++ leBytes 8 0)) p) p [] := by
  have hholds := holds_write pg 0 ([2, 0] ++ leBytes 2 0 ++ leBytes 4 4096 ++ leBytes 8 0)
  have hkind : write pg 0 ([2, 0] ++ leBytes 2 0 ++ leBytes 4 4096 ++ leBytes 8 0) 0 = 2 := by
    rw [write, if_pos (by simp)]
    rfl
  generalize write pg 0 ([2, 0] ++ leBytes 2 0 ++ leBytes 4 4096 ++ leBytes 8 0) = new at hholds hkind ⊢
  simp only [holds_append, List.length_append, length_leBytes, List.length_cons, List.length_nil] at hholds
  obtain ⟨⟨⟨-, hcount⟩, hdata⟩, -⟩ := hholds
  have hkeep : ∀ k, k < 8 ∨ 16 ≤ k → setLeftmostChild new p k = new k := fun k hk =>
    write_of_disjoint (by rw [length_leBytes]; omega)
  have hlayout : Layout 16 4096 new [] :=
    layout_nil (hcount.leNat (by omega)) (hdata.leNat (by omega)) (by omega)
  exact ⟨(hkeep 0 (by omega)).trans hkind, leftmostChild_setLeftmostChild hp,
    fun e he => absurd he List.not_mem_nil,
    hlayout.congr (fun k hk => hkeep k (by omega)) (by omega) (by omega)⟩

end Internals

/-! The binary searches of the code on the list of keys of a page. -/

/-- The place of a new entry in a leaf that is split. -/
def insertionPoint (keys : List Bytes) (key : Bytes) : Nat :=
  (partitionLoop (fun m => keys[m]?.map fun k => decide (k < key)) keys.length 0 keys.length).getD 0

/-- The number of separators that a descent passes. -/
def routeIndex (seps : List Bytes) (key : Bytes) : Nat :=
  (partitionLoop (fun m => seps[m]?.map fun s => decide (s ≤ key)) seps.length 0 seps.length).getD 0

def findSlot (keys : List Bytes) (key : Bytes) : Except Nat Nat :=
  (findLoop (fun m => keys[m]?.map fun k => cmp k key) keys.length 0 keys.length).getD (.error 0)

theorem cmp_of_lt {a b : Bytes} (h : a < b) : cmp a b = .lt := by
  rw [cmp, cmpUsing, if_pos h]

theorem cmp_of_gt {a b : Bytes} (h : b < a) : cmp a b = .gt := by
  rw [cmp, cmpUsing, if_neg (lt_asymm h), if_pos h]

theorem cmp_refl (a : Bytes) : cmp a a = .eq := by
  rw [cmp, cmpUsing, if_neg (lt_irrefl a), if_neg (lt_irrefl a)]

section Searches

variable {pg : Page} {cells : List LeafCell} {leftmost : Nat} {seps : List (Bytes × Nat)}

theorem isSome_getElem?_map {α β : Type} {l : List α} (f : α → β) {i : Nat} (h : i < l.length) :
    (l[i]?.map f).isSome = true := by
  rw [List.getElem?_eq_getElem h]
  rfl

theorem insertionPoint_le (keys : List Bytes) (key : Bytes) : insertionPoint keys key ≤ keys.length := by
  obtain ⟨k, hk, -, hle⟩ := partitionLoop_some (fun m => keys[m]?.map fun k => decide (k < key))
    keys.length 0 keys.length (fun i _ hi => isSome_getElem?_map _ hi) (Nat.zero_le _)
  rw [insertionPoint, hk]
  exact hle

theorem routeIndex_le (keys : List Bytes) (key : Bytes) : routeIndex keys key ≤ keys.length := by
  obtain ⟨k, hk, -, hle⟩ := partitionLoop_some (fun m => keys[m]?.map fun s => decide (s ≤ key))
    keys.length 0 keys.length (fun i _ hi => isSome_getElem?_map _ hi) (Nat.zero_le _)
  rw [routeIndex, hk]
  exact hle

theorem LeafPage.probe (h : LeafPage pg cells) (i : Nat) (hi : i < count pg) :
    leafKeyAt pg i = (cells.map LeafCell.key)[i]? := by
  rw [h.counted] at hi
  rw [h.keyAt (List.getElem?_eq_getElem hi)]
  simp [hi]

theorem Separators.probe (h : Separators pg leftmost seps) (i : Nat) (hi : i < count pg) :
    internalKeyAt pg i = (seps.map Prod.fst)[i]? := by
  rw [h.counted] at hi
  rw [(h.parts (List.getElem?_eq_getElem hi)).1]
  simp [hi]

theorem LeafPage.insertionPoint (h : LeafPage pg cells) (key : Bytes) :
    partitionLoop (fun m => (leafKeyAt pg m).map fun k => decide (k < key)) (count pg) 0 (count pg) =
      some (insertionPoint (cells.map LeafCell.key) key) := by
  obtain ⟨k, hk, -, -⟩ := partitionLoop_some
    (fun m => (cells.map LeafCell.key)[m]?.map fun k => decide (k < key)) (count pg) 0 (count pg)
    (fun i _ hi => isSome_getElem?_map _ (by rwa [List.length_map, ← h.counted])) (Nat.zero_le _)
  have hloop := partitionLoop_congr (count pg) 0 (count pg) fun i _ hi =>
    congrArg (Option.map fun k => decide (k < key)) (h.probe i hi)
  rw [hloop, hk, ZenDB.insertionPoint, List.length_map, ← h.counted, hk]
  rfl

theorem Separators.separatorAfter (h : Separators pg leftmost seps) (key : Bytes) :
    separatorAfter pg key = some (routeIndex (seps.map Prod.fst) key) := by
  obtain ⟨k, hk, -, -⟩ := partitionLoop_some
    (fun m => (seps.map Prod.fst)[m]?.map fun s => decide (s ≤ key)) (count pg) 0 (count pg)
    (fun i _ hi => isSome_getElem?_map _ (by rwa [List.length_map, ← h.counted])) (Nat.zero_le _)
  have hloop := partitionLoop_congr (count pg) 0 (count pg) fun i _ hi =>
    congrArg (Option.map fun s => decide (s ≤ key)) (h.probe i hi)
  rw [ZenDB.separatorAfter, hloop, hk, routeIndex, List.length_map, ← h.counted, hk]
  rfl

theorem LeafPage.findSlot (h : LeafPage pg cells) (key : Bytes) :
    leafFindSlot pg key = some (findSlot (cells.map LeafCell.key) key) := by
  have hloop := findLoop_congr (count pg) 0 (count pg) fun i _ hi =>
    congrArg (Option.map fun k => cmp k key) (h.probe i hi)
  rw [leafFindSlot, hloop, ZenDB.findSlot, List.length_map, ← h.counted]
  rcases findLoop_some (fun m => (cells.map LeafCell.key)[m]?.map fun k => cmp k key)
    (count pg) 0 (count pg) (fun i _ hi => isSome_getElem?_map _ (by rwa [List.length_map, ← h.counted])) (Nat.zero_le _) with
    ⟨i, hi, -, -, -⟩ | ⟨i, hi, -, -⟩
  · rw [hi]
    rfl
  · rw [hi]
    rfl

end Searches

end ZenDB
