import ZenDB.BPlusTree.Placement

namespace ZenDB

open Memory Slotted

namespace BPlusTree

/-! Insertion into a leaf and removal from it. -/

section Leaf

variable {t t' : BPlusTree} {free : List Nat} {used : Set Nat} {page pos : Nat} {key value : Bytes}
  {cells : List LeafCell}

/-- The test for room in a leaf. -/
theorem leaf_full_iff (hleaf : LeafPage (t.mem page) cells) (key value : Bytes) :
    24+count (t.mem page)*2+(leafEntrySize key value+2) > dataOff (t.mem page) ↔
      4072 < leafBytes cells+leafEntryBytes key.length (payloadOf key value) := by
  have hbytes := hleaf.layout.dataOff_entryBytes
  rw [entryBytes_cells, List.length_map, ← hleaf.counted] at hbytes
  rw [leafEntrySize, leafEntryBytes]
  omega

/-- An entry that fits is placed at its slot. -/
theorem leafInsertNew_fits (h : Allocates t free used) (hp : page ∈ used)
    (hleaf : LeafPage (t.mem page) cells) (hkey : key.length < 65536) (hpos : pos ≤ cells.length)
    (hfit : leafBytes cells+leafEntryBytes key.length (payloadOf key value) ≤ 4072) :
    Completes (t.Room (extentPages value.length)) (t.leafInsertNew page key value pos) fun r =>
      r.2 = none ∧ ∃ start,
        Repacked t used page key value (cells.insertIdx pos (newCell key value start hkey)) start r.1 := by
  have hbytes := hleaf.layout.dataOff_entryBytes
  have htotal := hleaf.layout.dataOff_add
  rw [entryBytes_cells, List.length_map] at hbytes
  have hroom : 24+2*(cells.length+1)+leafEntrySize key value ≤ dataOff (t.mem page) := by
    rw [leafEntryBytes] at hfit
    rw [leafEntrySize]
    omega
  -- the page after the slots have moved, and the page in the end
  have hinsert : ∀ start, ∃ pg₁ pg₂, shiftRight 24 4096 pos cells.length (t.mem page) = some pg₁ ∧
      linkSlot 24 4096 (write pg₁ (dataOff (t.mem page)-leafEntrySize key value)
        (newCell key value start hkey).enc) pos cells.length
        (dataOff (t.mem page)-leafEntrySize key value) = some pg₂ ∧
      LeafPage pg₂ (cells.insertIdx pos (newCell key value start hkey)) ∧ SameLinks (t.mem page) pg₂ := by
    intro start
    obtain ⟨pg₁, pg₂, hshift, hlink, hlayout, -, hframe⟩ := hleaf.layout.insert
      (newCell key value start hkey).enc pos (by omega) (by omega) (by rwa [List.length_map])
      (by rw [List.length_map, length_newCell_enc]; exact hroom)
    rw [List.length_map] at hshift hlink
    rw [length_newCell_enc] at hlink
    refine ⟨pg₁, pg₂, hshift, hlink, ⟨(hframe 0 (by omega)).trans hleaf.kind, ?_⟩, hframe⟩
    rwa [List.map_insertIdx]
  obtain ⟨pg₁, -, hshift, -⟩ := hinsert 0
  have hnot := not_lt.mpr hfit
  rw [← leaf_full_iff hleaf] at hnot
  rw [leafInsertNew, pageBytes_eq (h.used_lt hp)]
  simp only [Option.bind_eq_bind, Option.bind_some]
  rw [if_neg hnot, hleaf.counted, modifyPage_eq (h.used_lt hp) hshift, Option.bind_some]
  refine Completes.bind ((writeLeafEntryRaw_completes (h.setPage hp pg₁) hp hkey).weaken
    fun hr => ⟨hr, by omega⟩) ?_
  intro t₁ h₁
  obtain ⟨start, hstored, hmem⟩ := h₁
  obtain ⟨free₁, halloc₁⟩ := hstored.allocates
  obtain ⟨pg₁', pg₂, hshift', hlink, hdone, hlinks⟩ := hinsert start
  rw [hshift] at hshift'
  cases hshift'
  rw [setPage_mem_self] at hmem
  rw [← hmem] at hlink
  rw [modifyPage_eq (halloc₁.used_lt (Or.inl hp)) hlink]
  refine .some ⟨rfl, start, ?_, ?_, ?_⟩
  · exact ((hstored.of_setPage rfl).setPage hp rfl pg₂).addBytes _
  · show LeafPage ((t₁.setPage page pg₂).mem page) _
    rw [setPage_mem_self]
    exact hdone
  · show SameLinks (t.mem page) ((t₁.setPage page pg₂).mem page)
    rw [setPage_mem_self]
    exact hlinks

/-- A leaf that is full is split. -/
theorem leafInsertNew_full (h : Allocates t free used) (hp : page ∈ used)
    (hleaf : LeafPage (t.mem page) cells)
    (hfull : 4072 < leafBytes cells+leafEntryBytes key.length (payloadOf key value)) :
    t.leafInsertNew page key value pos = t.leafSplit page key value := by
  rw [← leaf_full_iff hleaf] at hfull
  rw [leafInsertNew, pageBytes_eq (h.used_lt hp)]
  simp only [Option.bind_eq_bind, Option.bind_some]
  rw [if_pos hfull]

/-- The pages of the extent of an entry. -/
def extent (c : LeafCell) : List Nat :=
  if isOvfl c.rawVl then List.range' (leNat c.payload) (extentPages (realLen c.rawVl)) else []

theorem freeValue_eq {leaf : Page} {eo : Nat} {c : LeafCell} (h : Allocates t free used)
    (hentry : EntryAt leaf eo c.enc) (hin : ∀ p ∈ extent c, p ∈ used) :
    ∃ t', t.freeValue leaf eo = some t' ∧ Freed t used {p | p ∈ extent c} t' := by
  obtain ⟨hkl, hvl, -, -⟩ := hentry.leafParts
  rw [freeValue]
  simp only [hkl, hvl, Option.bind_eq_bind, Option.bind_some]
  rw [extent] at hin ⊢
  split_ifs at hin ⊢ with hovfl
  · have hset : {p | p ∈ List.range' (leNat c.payload) (extentPages (realLen c.rawVl))} =
        {p | leNat c.payload ≤ p ∧ p < leNat c.payload+extentPages (realLen c.rawVl)} := by
      ext p
      simp only [Set.mem_ofPred_eq, List.mem_range'_1]
    rw [hentry.start hovfl, hset]
    exact h.freeExtent fun p h₁ h₂ => hin p (List.mem_range'_1.mpr ⟨h₁, h₂⟩)
  · refine ⟨t, rfl, ⟨free, ?_⟩, fun _ _ => rfl, rfl, rfl, rfl⟩
    simpa using h

/-- The entry of a slot is removed from its leaf. -/
theorem leafRemoveEntry_eq {c : LeafCell} (h : Allocates t free used) (hp : page ∈ used)
    (hleaf : LeafPage (t.mem page) cells) (hc : cells[pos]? = some c) :
    ∃ pg, t.leafRemoveEntry page pos (count (t.mem page)) (dataOff (t.mem page)) =
        some ((t.subLeafEntryBytes c.size).setPage page pg) ∧
      LeafPage pg (cells.eraseIdx pos) ∧ SameLinks (t.mem page) pg := by
  obtain ⟨eo, hslot, hentry⟩ := hleaf.get hc
  obtain ⟨hkl, hvl, -, -⟩ := hentry.leafParts
  have hlen : c.enc.length = 6+c.key.length+payloadLen c.rawVl := by rw [c.length_enc, c.agrees]
  obtain ⟨pg, hremove, hlayout, hframe⟩ := hleaf.layout.remove (by omega) (by omega)
    (show (cells.map LeafCell.enc)[pos]? = some c.enc by simp [hc]) hslot (by omega)
  rw [List.length_map, hlen, ← hleaf.counted] at hremove
  refine ⟨pg, ?_, ⟨(hframe 0 (by omega)).trans hleaf.kind, ?_⟩, hframe⟩
  · have hsize : leafEntryBytes c.key.length (payloadLen c.rawVl) = c.size := by
      rw [LeafCell.size, c.agrees]
    rw [leafRemoveEntry, pageBytes_eq (h.used_lt hp)]
    simp only [Option.bind_eq_bind, Option.bind_some, hslot, hkl, hvl, hsize]
    exact modifyPage_eq (t := t.subLeafEntryBytes c.size) (h.used_lt hp) hremove
  · rwa [← List.eraseIdx_map]

end Leaf

/-- The slots as a list: the new element at its place, or instead of the old one. -/
def putAt {α : Type} (l : List α) (a : α) : Except Nat Nat → List α
  | .error pos => l.insertIdx pos a
  | .ok i => l.set i a

/-- The elements that a put leaves alone. -/
def untouched {α : Type} (l : List α) : Except Nat Nat → List α
  | .error _ => l
  | .ok i => l.eraseIdx i

/-- The entries fill the leaf from the data offset on, above the slots, and their keys ascend. -/
structure LeafWellFormed (t : BPlusTree) (page : Nat) (cells : List LeafCell) : Prop where
  page : LeafPage (t.mem page) cells
  ascending : cells.Pairwise fun c c' => c.key < c'.key

/-- The keys and values of a leaf. -/
def leafEntries (t : BPlusTree) (page : Nat) : Option (List (Bytes × Bytes)) := do
  let leaf ← t.pageBytes page
  (List.range (count leaf)).mapM fun i => do
    let key ← leafKeyAt leaf i
    let value ← t.valueBytesAt page i
    return (key, value)

/-- The leaf and the extents of its entries are different pages in use. -/
structure LeafOwned (used : Set Nat) (page : Nat) (cells : List LeafCell) : Prop where
  nodup : (page :: cells.flatMap extent).Nodup
  mem : ∀ p ∈ page :: cells.flatMap extent, p ∈ used

section Search

variable {cells front back : List LeafCell} {c : LeafCell} {key : Bytes}

/-- What the probes of a search see before and behind a place. -/
theorem probe_append (hfront : ∀ c ∈ front, c.key < key) {i : Nat} (hi : i < front.length) :
    (((front ++ back).map LeafCell.key)[i]?.map fun k => cmp k key) = some .lt := by
  rw [List.getElem?_map, List.getElem?_append_left hi, List.getElem?_eq_getElem hi]
  exact congrArg some (cmp_of_lt (hfront _ (List.getElem_mem hi)))

theorem probe_append_right (hback : ∀ c ∈ back, key < c.key) {i : Nat} (hi : front.length ≤ i)
    (hlt : i < (front ++ back).length) :
    (((front ++ back).map LeafCell.key)[i]?.map fun k => cmp k key) = some .gt := by
  rw [List.length_append] at hlt
  rw [List.getElem?_map, List.getElem?_append_right hi, List.getElem?_eq_getElem (by omega)]
  exact congrArg some (cmp_of_gt (hback _ (List.getElem_mem _)))

theorem findSlot_absent (hfront : ∀ c ∈ front, c.key < key) (hback : ∀ c ∈ back, key < c.key) :
    findSlot ((front ++ back).map LeafCell.key) key = .error front.length := by
  have hprobe : ∀ i, 0 ≤ i → i < ((front ++ back).map LeafCell.key).length →
      (((front ++ back).map LeafCell.key)[i]?.map fun k => cmp k key) =
        some (if i < front.length then .lt else .gt) := by
    intro i _ hi
    rw [List.length_map] at hi
    by_cases hlt : i < front.length
    · rw [if_pos hlt]
      exact probe_append hfront hlt
    · rw [if_neg hlt]
      exact probe_append_right hback (not_lt.mp hlt) hi
  rw [findSlot, findLoop_absent _ 0 _ hprobe (Nat.zero_le _) (by simp) (by omega)]
  rfl

theorem findSlot_present (hfront : ∀ c' ∈ front, c'.key < c.key) (hback : ∀ c' ∈ back, c.key < c'.key) :
    findSlot ((front ++ c :: back).map LeafCell.key) c.key = .ok front.length := by
  have hprobe : ∀ i, 0 ≤ i → i < ((front ++ c :: back).map LeafCell.key).length →
      (((front ++ c :: back).map LeafCell.key)[i]?.map fun k => cmp k c.key) =
        some (if i < front.length then .lt else if i = front.length then .eq else .gt) := by
    intro i _ hi
    rw [List.length_map] at hi
    rcases lt_trichotomy i front.length with hlt | heq | hgt
    · rw [if_pos hlt]
      exact probe_append hfront hlt
    · rw [if_neg heq.not_lt, if_pos heq, heq, List.getElem?_map, List.getElem?_append_right le_rfl,
        Nat.sub_self]
      exact congrArg some (cmp_refl c.key)
    · rw [if_neg hgt.not_gt, if_neg hgt.ne']
      rw [List.append_cons] at hi ⊢
      exact probe_append_right hback (by simp; omega) hi
  rw [findSlot, findLoop_present _ 0 _ hprobe (Nat.zero_le _) (by simp) (by omega)]
  rfl

/-- A search in ascending keys finds the key or its place. -/
theorem findSlot_ascending (h : cells.Pairwise fun c c' => c.key < c'.key) (key : Bytes) :
    (∃ front c back, cells = front ++ c :: back ∧ c.key = key ∧
      findSlot (cells.map LeafCell.key) key = .ok front.length) ∨
    ∃ front back, cells = front ++ back ∧ (∀ c ∈ front, c.key < key) ∧ (∀ c ∈ back, key < c.key) ∧
      findSlot (cells.map LeafCell.key) key = .error front.length := by
  obtain ⟨front, back, rfl, hfront, hback⟩ := exists_partition
    (h.imp fun {c c'} hcc (hc : c'.key < key) => hcc.trans hc)
  cases back with
  | nil => exact Or.inr ⟨front, [], rfl, hfront, by simp, findSlot_absent hfront (by simp)⟩
  | cons c back =>
    have hrest := (List.pairwise_cons.mp (List.pairwise_append.mp h).2.1).1
    rcases (not_lt.mp (hback c List.mem_cons_self)).eq_or_lt with rfl | hlt
    · exact Or.inl ⟨front, c, back, rfl, rfl, findSlot_present hfront hrest⟩
    · have hgt : ∀ c' ∈ c :: back, key < c'.key :=
        List.forall_mem_cons.mpr ⟨hlt, fun c' hc' => hlt.trans (hrest c' hc')⟩
      exact Or.inr ⟨front, c :: back, rfl, hfront, hgt, findSlot_absent hfront hgt⟩

/-- A put at the slot that was found keeps the keys in order. -/
theorem ascending_putAt (h : cells.Pairwise fun c c' => c.key < c'.key) {new : LeafCell}
    (hnew : new.key = key) :
    (putAt cells new (findSlot (cells.map LeafCell.key) key)).Pairwise fun c c' => c.key < c'.key := by
  rcases findSlot_ascending h key with
    ⟨front, c, back, rfl, rfl, hslot⟩ | ⟨front, back, rfl, hfront, hback, hslot⟩
  · rw [hslot, putAt, List.set_append_right _ _ le_rfl, Nat.sub_self, List.set_cons_zero]
    obtain ⟨hf, hb, hfb⟩ := List.pairwise_append.mp h
    obtain ⟨hc, hb⟩ := List.pairwise_cons.mp hb
    rw [← hnew] at hc
    refine List.pairwise_append.mpr ⟨hf, List.pairwise_cons.mpr ⟨hc, hb⟩, ?_⟩
    intro c' hc'
    obtain ⟨hlt, hrest⟩ := List.forall_mem_cons.mp (hfb c' hc')
    exact List.forall_mem_cons.mpr ⟨hnew ▸ hlt, hrest⟩
  · rw [hslot, putAt, insertIdx_eq_take_append _ _ _ (by simp), List.take_left, List.drop_left]
    obtain ⟨hf, hb, hfb⟩ := List.pairwise_append.mp h
    rw [← hnew] at hfront hback
    refine List.pairwise_append.mpr ⟨hf, List.pairwise_cons.mpr ⟨hback, hb⟩, ?_⟩
    exact fun c hc => List.forall_mem_cons.mpr ⟨hfront c hc, hfb c hc⟩

end Search

section Decode

variable {t t' : BPlusTree} {page : Nat} {cells : List LeafCell} {c : LeafCell} {e : Bytes × Bytes}
  {entries : List (Bytes × Bytes)}

/-- The key and the value of an entry. -/
def cellEntry (t : BPlusTree) (c : LeafCell) : Option (Bytes × Bytes) :=
  (if isOvfl c.rawVl then t.readExtent (leNat c.payload) (realLen c.rawVl) else some c.payload).map (c.key, ·)

theorem valueBytesAt_eq (hleaf : LeafPage (t.mem page) cells) (hp : page < t.mapped) {i : Nat}
    (hc : cells[i]? = some c) : (t.valueBytesAt page i).map (c.key, ·) = t.cellEntry c := by
  obtain ⟨eo, hslot, hentry⟩ := hleaf.get hc
  obtain ⟨hkl, hvl, -, hpayload⟩ := hentry.leafParts
  rw [valueBytesAt, pageBytes_eq hp, cellEntry]
  simp only [Option.bind_eq_bind, Option.bind_some, hslot, hkl, hvl]
  split_ifs with hovfl
  · rw [hentry.start hovfl, Option.bind_some]
  · rw [c.agrees, payloadLen, if_neg hovfl] at hpayload
    rw [hpayload]

/-- The entries of a leaf are those of its cells. -/
theorem leafEntries_eq (hleaf : LeafPage (t.mem page) cells) (hp : page < t.mapped) :
    t.leafEntries page = cells.mapM t.cellEntry := by
  rw [leafEntries, pageBytes_eq hp]
  simp only [Option.bind_eq_bind, Option.bind_some, hleaf.counted]
  have hstep : ∀ s n, s+n = cells.length → ((List.range' s n).mapM fun i =>
      (leafKeyAt (t.mem page) i).bind fun key => (t.valueBytesAt page i).bind fun value =>
        some (key, value)) = (cells.drop s).mapM t.cellEntry := by
    intro s n hn
    induction n generalizing s with
    | zero =>
      rw [List.drop_eq_nil_of_le (by omega)]
      rfl
    | succ n ih =>
      have hs : s < cells.length := by omega
      have hc := List.getElem?_eq_getElem hs
      rw [List.range'_succ, List.mapM_cons, ih (s+1) (by omega), List.drop_eq_getElem_cons hs,
        List.mapM_cons, hleaf.keyAt hc, ← valueBytesAt_eq hleaf hp hc]
      cases t.valueBytesAt page s <;> rfl
  rw [List.range_eq_range']
  exact hstep 0 cells.length (Nat.zero_add _)

theorem leafEntries_iff (hleaf : LeafPage (t.mem page) cells) (hp : page < t.mapped) :
    t.leafEntries page = some entries ↔ List.Forall₂ (fun c e => t.cellEntry c = some e) cells entries := by
  rw [leafEntries_eq hleaf hp]
  exact ⟨forall₂_of_mapM, mapM_of_forall₂⟩

/-- An entry is read from its cell and its extent. -/
theorem cellEntry_congr (hmapped : t.mapped ≤ t'.mapped) (hmem : ∀ p ∈ extent c, t'.mem p = t.mem p)
    (h : t.cellEntry c = some e) : t'.cellEntry c = some e := by
  rw [cellEntry] at h ⊢
  split_ifs at h ⊢ with hovfl
  · obtain ⟨value, hread, rfl⟩ := Option.map_eq_some_iff.mp h
    refine Option.map_eq_some_iff.mpr ⟨value, readExtent_congr hmapped ?_ hread, rfl⟩
    intro p h₁ h₂
    refine hmem p ?_
    rw [extent, if_pos hovfl]
    exact List.mem_range'_1.mpr ⟨h₁, h₂⟩
  · exact h

theorem length_readExtent {start len : Nat} {value : Bytes} (h : t.readExtent start len = some value) :
    value.length = len := by
  rw [readExtent] at h
  split_ifs at h
  cases h
  simp

/-- An inline entry reads as its value. -/
theorem cellEntry_inline (t : BPlusTree) {key value : Bytes} (start : Nat) (hkey : key.length < 65536)
    (hext : ¬ needsExtent key value = true) :
    t.cellEntry (newCell key value start hkey) = some (key, value) ∧ value.length < 2^31 := by
  obtain ⟨hk, hraw, hpayload⟩ := newCell_inline start hkey hext
  have hshort : value.length < 2^31 := by
    rw [needsExtent, decide_eq_true_iff] at hext
    omega
  have hovfl : ¬ isOvfl value.length = true := by
    rw [isOvfl, decide_eq_true_iff]
    omega
  rw [cellEntry, hk, hraw, hpayload, if_neg hovfl]
  exact ⟨rfl, hshort⟩

/-- The entry of a stored value is read back unless its length does not fit beside the flag. -/
theorem Stored.cellEntry_iff {used touched : Set Nat} {key value : Bytes} {start bound : Nat} {hd : Head}
    (h : Stored t used touched key value start bound hd t') (hkey : key.length < 65536) :
    t'.cellEntry (newCell key value start hkey) = some (key, value) ↔ value.length < 2^31 := by
  by_cases hext : needsExtent key value = true
  · obtain ⟨hk, hraw, hpayload⟩ := newCell_extent start hkey hext
    obtain ⟨hlt, hread⟩ := h.held hext
    have hovfl : isOvfl (ovflLen value.length) = true := by
      rw [isOvfl, ovflLen, decide_eq_true_iff]
      omega
    rw [cellEntry, hk, hraw, hpayload, if_pos hovfl, leNat_leBytes_of_lt 8 start hlt,
      Option.map_eq_some_iff]
    have hreal : realLen (ovflLen value.length) = value.length%2^31 := by
      rw [realLen, ovflLen]
      omega
    rw [hreal]
    constructor
    · rintro ⟨value', hread', heq⟩
      obtain rfl : value' = value := (Prod.mk.inj heq).2
      have hlen := length_readExtent hread'
      omega
    · intro hshort
      rw [Nat.mod_eq_of_lt hshort]
      exact ⟨value, hread, rfl⟩
  · obtain ⟨hreads, hshort⟩ := cellEntry_inline t' start hkey hext
    exact iff_of_true hreads hshort

end Decode

section Put

variable {t t' : BPlusTree} {free : List Nat} {used : Set Nat} {page i pos : Nat}
  {cells : List LeafCell} {c : LeafCell} {key value : Bytes}

/-- Only a leaf whose entries fit is packed anew. -/
theorem leafSplit_none (hleaf : LeafPage (t.mem page) cells) (hp : page < t.mapped)
    (h : t.leafSplit page key value = some (t', none)) :
    leafBytes cells+leafEntryBytes key.length (payloadOf key value) ≤ 4072 := by
  have hip := insertionPoint_le (cells.map LeafCell.key) key
  rw [List.length_map] at hip
  obtain ⟨before, after, horder, hfront, hback⟩ := splitOrder_eq (fun i c => hleaf.get) hleaf.counted hip
  have hsizes : _ = some (splitSizes cells key value) :=
    splitSizes_eq (leafEntryBytes key.length (payloadOf key value))
      (fun _ _ hentry => hentry.scratchLeafSize) hfront hback
  rw [leafSplit, pageBytes_eq hp] at h
  simp only [Option.bind_eq_bind, Option.bind_some, hleaf.insertionPoint key, horder, hsizes,
    modifyPage_some hp] at h
  by_contra hover
  have hsum := splitSizes_sum cells key value
  rw [if_neg (by omega)] at h
  obtain ⟨mid, -, h⟩ := Option.bind_eq_some_iff.mp h
  obtain ⟨a, -, h⟩ := Option.bind_eq_some_iff.mp h
  obtain ⟨b, -, h⟩ := Option.bind_eq_some_iff.mp h
  obtain ⟨r, -, h⟩ := Option.bind_eq_some_iff.mp h
  cases h

/-- A put that needs no split: the leaf has the new entry, which reads as the value if its length fits
beside the flag, and the entries of `kept` read as before. -/
structure PutCell (t : BPlusTree) (page : Nat) (kept cells : List LeafCell) (new : LeafCell)
    (key value : Bytes) (t' : BPlusTree) : Prop where
  named : new.key = key
  leaf : LeafPage (t'.mem page) cells
  mapped : page < t'.mapped
  reads : t'.cellEntry new = some (key, value) ↔ value.length < 2^31
  keeps : ∀ c ∈ kept, ∀ e, t.cellEntry c = some e → t'.cellEntry c = some e

theorem leafInsertNew_put (h : Allocates t free used) (hp : page ∈ used)
    (hleaf : LeafPage (t.mem page) cells) (hpos : pos ≤ cells.length)
    (hextents : ∀ c ∈ cells, ∀ p ∈ extent c, p ∈ used ∧ p ≠ page)
    (hr : t.leafInsertNew page key value pos = some (t', none)) :
    ∃ new, PutCell t page cells (cells.insertIdx pos new) new key value t' := by
  have hfit : leafBytes cells+leafEntryBytes key.length (payloadOf key value) ≤ 4072 := by
    by_contra hfull
    rw [leafInsertNew_full h hp hleaf (not_le.mp hfull)] at hr
    exact hfull (leafSplit_none hleaf (h.used_lt hp) hr)
  have hkey : key.length < 65536 := by
    rw [leafEntryBytes] at hfit
    omega
  obtain ⟨-, start, hstored, hdone, -⟩ := (leafInsertNew_fits h hp hleaf hkey hpos hfit).post _ hr
  obtain ⟨free', halloc⟩ := hstored.allocates
  refine ⟨newCell key value start hkey, newCell_key .., hdone, halloc.used_lt (Or.inl hp),
    hstored.cellEntry_iff hkey, ?_⟩
  intro c hc e he
  refine cellEntry_congr hstored.mapped (fun p hp' => ?_) he
  obtain ⟨hin, hne⟩ := hextents c hc p hp'
  exact hstored.mem p hin hne

theorem perm_eraseIdx (hc : cells[i]? = some c) : cells.Perm (c :: cells.eraseIdx i) := by
  obtain ⟨hlt, rfl⟩ := List.getElem?_eq_some_iff.mp hc
  exact (List.getElem_cons_eraseIdx_perm hlt).symm

theorem LeafOwned.extents (h : LeafOwned used page cells) (hc : c ∈ cells) {p : Nat} (hp : p ∈ extent c) :
    p ∈ used ∧ p ≠ page := by
  have hin : p ∈ cells.flatMap extent := List.mem_flatMap.mpr ⟨c, hc, hp⟩
  refine ⟨h.mem p (List.mem_cons_of_mem _ hin), ?_⟩
  rintro rfl
  exact (List.nodup_cons.mp h.nodup).1 hin

/-- The extents of two entries have no page in common. -/
theorem LeafOwned.apart (h : LeafOwned used page cells) (hc : cells[i]? = some c) {c' : LeafCell}
    (hc' : c' ∈ cells.eraseIdx i) {p : Nat} (hp : p ∈ extent c') : p ∉ extent c := by
  have hnodup := ((perm_eraseIdx hc).flatMap_right extent).nodup_iff.mp (List.nodup_cons.mp h.nodup).2
  rw [List.flatMap_cons] at hnodup
  intro hbad
  exact (List.nodup_append.mp hnodup).2.2 p hbad p (List.mem_flatMap.mpr ⟨c', hc', hp⟩) rfl

theorem insertIdx_eraseIdx_self {α : Type} (l : List α) (a : α) (h : i < l.length) :
    (l.eraseIdx i).insertIdx i a = l.set i a := by
  induction l generalizing i with
  | nil => simp at h
  | cons b l ih =>
    cases i with
    | zero => rfl
    | succ i => simpa using ih (Nat.lt_of_succ_lt_succ h)

/-- What is left of a leaf and of its tree once the extent of an entry is free. -/
structure ValueFreed (t : BPlusTree) (used : Set Nat) (page i : Nat) (cells : List LeafCell) (c : LeafCell)
    (t₁ : BPlusTree) : Prop where
  allocates : ∃ free₁, Allocates t₁ free₁ (used \ {p | p ∈ extent c})
  owned : page ∈ used \ {p | p ∈ extent c}
  mem : t₁.mem page = t.mem page
  pages : t₁.metaPage.pages = t.metaPage.pages
  grants : t₁.grants = t.grants
  keeps : ∀ c' ∈ cells.eraseIdx i, ∀ e, t.cellEntry c' = some e → t₁.cellEntry c' = some e

theorem LeafOwned.freeValue (howned : LeafOwned used page cells) (h : Allocates t free used)
    (hc : cells[i]? = some c) {eo : Nat} (hentry : EntryAt (t.mem page) eo c.enc) :
    ∃ t₁, t.freeValue (t.mem page) eo = some t₁ ∧ ValueFreed t used page i cells c t₁ := by
  have hin := List.mem_of_getElem? hc
  obtain ⟨t₁, hfree, hfreed⟩ := freeValue_eq h hentry fun p hp' => (howned.extents hin hp').1
  have hpage : page ∉ extent c := fun hbad => (howned.extents hin hbad).2 rfl
  refine ⟨t₁, hfree, hfreed.allocates, ⟨howned.mem page List.mem_cons_self, hpage⟩, hfreed.mem page hpage,
    hfreed.pagesCounter, congrArg Head.grants hfreed.head, ?_⟩
  intro c' hc' e he
  exact cellEntry_congr hfreed.mapped.ge (fun p hp' => hfreed.mem p (howned.apart hc hc' hp')) he

/-- The value takes the place of one of the same length in the page. -/
def overwrites (c : LeafCell) (key value : Bytes) : Bool :=
  !isOvfl c.rawVl && !needsExtent key value && c.rawVl == value.length

/-- An entry whose value is not overwritten is removed before its key is put. -/
theorem leafInsertBytes_removes (h : Allocates t free used) (howned : LeafOwned used page cells)
    (hleaf : LeafPage (t.mem page) cells) (hc : cells[i]? = some c) (hslow : ¬ overwrites c key value) :
    ∃ t₂, t.leafInsertBytes page key value (.ok i) = t₂.leafInsertNew page key value i ∧
      (∃ free₂, Allocates t₂ free₂ (used \ {p | p ∈ extent c})) ∧ page ∈ used \ {p | p ∈ extent c} ∧
      LeafPage (t₂.mem page) (cells.eraseIdx i) ∧ t₂.metaPage.pages = t.metaPage.pages ∧
      t₂.grants = t.grants ∧
      ∀ c' ∈ cells.eraseIdx i, ∀ e, t.cellEntry c' = some e → t₂.cellEntry c' = some e := by
  have hp : page ∈ used := howned.mem page List.mem_cons_self
  obtain ⟨eo, hslot, hentry⟩ := hleaf.get hc
  obtain ⟨hkl, hvl, -, -⟩ := hentry.leafParts
  obtain ⟨t₁, hfree, hfreed⟩ := howned.freeValue h hc hentry
  obtain ⟨free₁, halloc₁⟩ := hfreed.allocates
  obtain ⟨pg, hremove, hpg, -⟩ := leafRemoveEntry_eq halloc₁ hfreed.owned (hfreed.mem ▸ hleaf) hc
  rw [hfreed.mem] at hremove
  refine ⟨(t₁.subLeafEntryBytes c.size).setPage page pg, ?_, ⟨free₁, ?_⟩, hfreed.owned, ?_, hfreed.pages,
    hfreed.grants, ?_⟩
  · rw [leafInsertBytes, pageBytes_eq (h.used_lt hp)]
    simp only [Option.bind_eq_bind, Option.bind_some, hslot, hkl, hvl, hfree]
    rw [overwrites] at hslow
    rw [if_neg hslow, hremove, Option.bind_some]
  · refine Allocates.setPage ?_ hfreed.owned pg
    exact halloc₁.frame rfl rfl rfl (halloc₁.mirrored.writeLeafEntryBytes _) rfl fun _ _ => rfl
  · rw [setPage_mem_self]
    exact hpg
  · intro c' hc' e he
    refine cellEntry_congr (t := t₁) le_rfl (fun p hp' => ?_) (hfreed.keeps c' hc' e he)
    have hne := (howned.extents (List.mem_of_mem_eraseIdx hc') hp').2
    rw [setPage_mem_of_ne hne]
    rfl

/-- The entry of a slot gives way to a new one. -/
theorem leafInsertBytes_ok (h : Allocates t free used) (howned : LeafOwned used page cells)
    (hleaf : LeafPage (t.mem page) cells) (hc : cells[i]? = some c) (hkey : c.key = key)
    (hr : t.leafInsertBytes page key value (.ok i) = some (t', none)) :
    ∃ new, PutCell t page (cells.eraseIdx i) (cells.set i new) new key value t' := by
  have hp : page ∈ used := howned.mem page List.mem_cons_self
  by_cases hfast : overwrites c key value
  · obtain ⟨eo, hslot, hentry⟩ := hleaf.get hc
    obtain ⟨hkl, hvl, -, -⟩ := hentry.leafParts
    obtain ⟨t₁, hfree, hfreed⟩ := howned.freeValue h hc hentry
    obtain ⟨free₁, halloc₁⟩ := hfreed.allocates
    rw [leafInsertBytes, pageBytes_eq (h.used_lt hp)] at hr
    simp only [Option.bind_eq_bind, Option.bind_some, hslot, hkl, hvl, hfree] at hr
    rw [overwrites] at hfast
    rw [if_pos hfast] at hr
    simp only [Bool.and_eq_true, Bool.not_eq_true', beq_iff_eq] at hfast
    obtain ⟨⟨hovfl, hext⟩, hraw⟩ := hfast
    have hshort : key.length < 65536 := hkey ▸ c.keyShort
    have hinline : ¬ needsExtent key value = true := by simp [hext]
    obtain ⟨hnewKey, hnewRaw, hnewPayload⟩ := newCell_inline 0 hshort hinline
    have hinside := hentry.inside
    rw [c.length_enc, c.agrees, payloadLen, if_neg (by simp [hovfl])] at hinside
    have hwrite : write? 4096 (t₁.mem page) (eo+6+c.key.length) value =
        some (write (t.mem page) (eo+6+c.key.length) value) := by
      rw [hfreed.mem, write?, if_pos (by omega)]
    have hmapped := halloc₁.used_lt hfreed.owned
    rw [modifyPage_eq hmapped hwrite, Option.bind_some] at hr
    cases hr
    obtain ⟨hreads, hlen⟩ := cellEntry_inline (t₁.setPage page
      (write (t.mem page) (eo+6+c.key.length) value)) 0 hshort hinline
    refine ⟨newCell key value 0 hshort, hnewKey, ?_, hmapped, iff_of_true hreads hlen, ?_⟩
    · have hpg := hleaf.setPayload hc hslot (hnewKey.trans hkey.symm) (hnewRaw.trans hraw.symm)
      rw [hnewPayload] at hpg
      rwa [setPage_mem_self]
    · intro c' hc' e he
      refine cellEntry_congr (t := t₁) le_rfl (fun p hp' => setPage_mem_of_ne ?_) (hfreed.keeps c' hc' e he)
      exact (howned.extents (List.mem_of_mem_eraseIdx hc') hp').2
  · obtain ⟨t₂, heq, ⟨free₂, halloc₂⟩, hp₂, hleaf₂, -, -, hkept₂⟩ :=
      leafInsertBytes_removes h howned hleaf hc hfast
    have hlt := (List.getElem?_eq_some_iff.mp hc).1
    rw [heq] at hr
    obtain ⟨new, hput⟩ := leafInsertNew_put halloc₂ hp₂ hleaf₂
      (by rw [List.length_eraseIdx_of_lt hlt]; omega)
      (fun c' hc' p hp' =>
        have hin := howned.extents (List.mem_of_mem_eraseIdx hc') hp'
        ⟨⟨hin.1, howned.apart hc hc' hp'⟩, hin.2⟩) hr
    rw [insertIdx_eraseIdx_self cells new hlt] at hput
    refine ⟨new, hput.named, hput.leaf, hput.mapped, hput.reads, ?_⟩
    exact fun c' hc' e he => hput.keeps c' hc' e (hkept₂ c' hc' e he)

/-- A put that needs no split, at the slot that the search has found. -/
theorem leafInsertBytes_put (h : Allocates t free used) (howned : LeafOwned used page cells)
    (hleaf : LeafWellFormed t page cells) {slot : Except Nat Nat}
    (hslot : findSlot (cells.map LeafCell.key) key = slot)
    (hr : t.leafInsertBytes page key value slot = some (t', none)) :
    ∃ new, PutCell t page (untouched cells slot) (putAt cells new slot) new key value t' := by
  rcases findSlot_ascending hleaf.ascending key with
    ⟨front, c, back, hcells, hkey, hfound⟩ | ⟨front, back, hcells, -, -, hfound⟩
  · rw [hfound] at hslot
    subst hslot
    exact leafInsertBytes_ok h howned hleaf.page (by simp [hcells]) hkey hr
  · rw [hfound] at hslot
    subst hslot
    exact leafInsertNew_put h (howned.mem page List.mem_cons_self) hleaf.page
      (show front.length ≤ cells.length by simp [hcells]) (fun c hc p hp => howned.extents hc hp) hr

end Put

section Entries

variable {α β : Type} {R : α → β → Prop} {l : List α} {m : List β} {a : α} {b : β}

theorem forall₂_insertIdx (hlen : l.length = m.length) {pos : Nat} (hpos : pos ≤ l.length) :
    List.Forall₂ R (l.insertIdx pos a) (m.insertIdx pos b) ↔ R a b ∧ List.Forall₂ R l m := by
  induction pos generalizing l m with
  | zero => exact List.forall₂_cons
  | succ pos ih =>
    cases l with
    | nil => simp at hpos
    | cons x l =>
      cases m with
      | nil => simp at hlen
      | cons y m =>
        rw [List.insertIdx_succ_cons, List.insertIdx_succ_cons, List.forall₂_cons, List.forall₂_cons,
          ih (by simpa using hlen) (by simpa using hpos)]
        exact and_left_comm

theorem forall₂_set (hlen : l.length = m.length) {i : Nat} (hi : i < l.length) :
    List.Forall₂ R (l.set i a) (m.set i b) ↔ R a b ∧ List.Forall₂ R (l.eraseIdx i) (m.eraseIdx i) := by
  have hpos : i ≤ (l.eraseIdx i).length := by
    rw [List.length_eraseIdx_of_lt hi]
    omega
  rw [← insertIdx_eraseIdx_self l a hi, ← insertIdx_eraseIdx_self m b (hlen ▸ hi)]
  refine forall₂_insertIdx ?_ hpos
  rw [List.length_eraseIdx_of_lt hi, List.length_eraseIdx_of_lt (hlen ▸ hi), hlen]

theorem forall₂_eraseIdx (h : List.Forall₂ R l m) (i : Nat) :
    List.Forall₂ R (l.eraseIdx i) (m.eraseIdx i) := by
  rw [List.eraseIdx_eq_take_drop_succ, List.eraseIdx_eq_take_drop_succ]
  exact List.rel_append (List.forall₂_take i h) (List.forall₂_drop (i+1) h)

theorem forall₂_imp_of_mem {S : α → β → Prop} (h : List.Forall₂ R l m)
    (himp : ∀ a ∈ l, ∀ b, R a b → S a b) : List.Forall₂ S l m := by
  induction h with
  | nil => exact .nil
  | cons hab _ ih =>
    obtain ⟨hhead, htail⟩ := List.forall_mem_cons.mp himp
    exact .cons (hhead _ hab) (ih htail)

end Entries

section Leaves

variable {t t' : BPlusTree} {free : List Nat} {used : Set Nat} {page : Nat} {cells : List LeafCell}
  {entries : List (Bytes × Bytes)} {key value : Bytes} {slot : Except Nat Nat}

/-- A put that needs no split leaves a leaf with the entry at its slot; the entry reads as the value if
and only if its length fits beside the flag. -/
theorem leafInsertBytes_entries (h : Allocates t free used) (howned : LeafOwned used page cells)
    (hleaf : LeafWellFormed t page cells) (hentries : t.leafEntries page = some entries)
    (hslot : leafFindSlot (t.mem page) key = some slot)
    (hr : t.leafInsertBytes page key value slot = some (t', none)) :
    ∃ new, new.key = key ∧ LeafWellFormed t' page (putAt cells new slot) ∧
      (t'.leafEntries page = some (putAt entries (key, value) slot) ↔ value.length < 2^31) := by
  rw [leafEntries_iff hleaf.page (h.used_lt (howned.mem page List.mem_cons_self))] at hentries
  have hfound := Option.some.inj ((hleaf.page.findSlot key).symm.trans hslot)
  obtain ⟨new, hput⟩ := leafInsertBytes_put h howned hleaf hfound hr
  have hascending := ascending_putAt hleaf.ascending hput.named
  rw [hfound] at hascending
  refine ⟨new, hput.named, ⟨hput.leaf, hascending⟩, ?_⟩
  rw [leafEntries_iff hput.leaf hput.mapped, ← hput.reads]
  have hlen := hentries.length_eq
  rcases findSlot_ascending hleaf.ascending key with
    ⟨front, c, back, hcells, -, hat⟩ | ⟨front, back, hcells, -, -, hat⟩
  · rw [hat] at hfound
    subst hfound
    have hrest := forall₂_imp_of_mem (forall₂_eraseIdx hentries front.length) hput.keeps
    rw [putAt, putAt, forall₂_set hlen (by simp [hcells])]
    exact and_iff_left hrest
  · rw [hat] at hfound
    subst hfound
    have hrest := forall₂_imp_of_mem hentries hput.keeps
    rw [putAt, putAt, forall₂_insertIdx hlen (by simp [hcells])]
    exact and_iff_left hrest

/-- Puts without a split and removals keep a leaf well formed and change the one entry; the value that
was put is read back if and only if its length fits beside the flag. -/
theorem leaf_updates_iff (t : BPlusTree) (free : List Nat) (used : Set Nat) (page : Nat)
    (cells : List LeafCell) (entries : List (Bytes × Bytes)) (h : Allocates t free used)
    (howned : LeafOwned used page cells) (hleaf : LeafWellFormed t page cells)
    (hentries : t.leafEntries page = some entries) :
    (∀ key value slot t', leafFindSlot (t.mem page) key = some slot →
      t.leafInsertBytes page key value slot = some (t', none) →
      ∃ new, new.key = key ∧ LeafWellFormed t' page (putAt cells new slot) ∧
        (t'.leafEntries page = some (putAt entries (key, value) slot) ↔ value.length < 2^31)) ∧
    ∀ i, i < cells.length → ∃ t',
      t.leafRemoveEntry page i (count (t.mem page)) (dataOff (t.mem page)) = some t' ∧
      LeafWellFormed t' page (cells.eraseIdx i) ∧ t'.leafEntries page = some (entries.eraseIdx i) := by
  refine ⟨fun key value slot t' hslot hr => leafInsertBytes_entries h howned hleaf hentries hslot hr, ?_⟩
  intro i hi
  have hp : page ∈ used := howned.mem page List.mem_cons_self
  obtain ⟨pg, hremove, hpg, -⟩ := leafRemoveEntry_eq h hp hleaf.page (List.getElem?_eq_getElem hi)
  rw [leafEntries_iff hleaf.page (h.used_lt hp)] at hentries
  generalize ht' : (t.subLeafEntryBytes cells[i].size).setPage page pg = t' at hremove
  have hleaf' : LeafPage (t'.mem page) (cells.eraseIdx i) := by
    rw [← ht', setPage_mem_self]
    exact hpg
  have hmapped : t'.mapped = t.mapped := by
    rw [← ht']
    rfl
  have hmem : ∀ p, p ≠ page → t'.mem p = t.mem p := by
    intro p hne
    rw [← ht', setPage_mem_of_ne hne]
    rfl
  refine ⟨t', hremove, ⟨hleaf', hleaf.ascending.sublist (List.eraseIdx_sublist _ _)⟩, ?_⟩
  rw [leafEntries_iff hleaf' (hmapped ▸ h.used_lt hp)]
  refine forall₂_imp_of_mem (forall₂_eraseIdx hentries i) ?_
  intro c hc e he
  exact cellEntry_congr hmapped.ge
    (fun p hp' => hmem p (howned.extents (List.mem_of_mem_eraseIdx hc) hp').2) he

/-- A leaf with two entries in the page itself. -/
theorem exists_twoEntries :
    ∃ (pg : Page) (cells : List LeafCell), cells.length = 2 ∧ leafBytes cells ≤ 40 ∧
      LeafOwned {1} 1 cells ∧ LeafWellFormed (onePage pg) 1 cells ∧
      (onePage pg).leafEntries 1 = some [([2], [20]), ([5], [50])] ∧
      leafFindSlot ((onePage pg).mem 1) [5] = some (.ok 1) ∧
      leafFindSlot ((onePage pg).mem 1) [] = some (.error 0) := by
  have hinline : ∀ k v : UInt8, ¬ needsExtent [k] [v] = true := fun _ _ => by simp [needsExtent]
  generalize hcells : [newCell [2] [20] 0 (by decide), newCell [5] [50] 0 (by decide)] = cells
  have hkeys : cells.map LeafCell.key = [[2], [5]] := by simp [← hcells]
  have hbytes : leafBytes cells = 20 := by
    rw [← hcells, leafBytes_cons, leafBytes_cons, newCell_size, newCell_size]
    decide
  have hextents : cells.flatMap extent = [] := by
    rw [← hcells]
    decide
  obtain ⟨pg, hpg, -, -⟩ := exists_leafPage cells (by omega)
  rw [← onePage_mem pg] at hpg
  have hslots := fun key => hpg.findSlot key
  rw [hkeys] at hslots
  refine ⟨pg, cells, by simp [← hcells], by omega, ⟨by simp [hextents], by simp [hextents]⟩, ⟨hpg, ?_⟩, ?_,
    hslots [5], hslots []⟩
  · have hsorted : (cells.map LeafCell.key).Pairwise (· < ·) := by
      rw [hkeys]
      decide
    exact List.pairwise_map.mp hsorted
  · rw [leafEntries_iff hpg (onePage_allocates.used_lt rfl), ← hcells]
    exact .cons (cellEntry_inline _ 0 _ (hinline 2 20)).1
      (.cons (cellEntry_inline _ 0 _ (hinline 5 50)).1 .nil)

/-- A value of 2^31 bytes is not what is read from its entry. -/
theorem leaf_put_oversized :
    ∃ (t : BPlusTree) (free : List Nat) (used : Set Nat) (page : Nat) (cells : List LeafCell)
      (entries : List (Bytes × Bytes)) (key value : Bytes) (slot : Except Nat Nat) (t' : BPlusTree),
      Allocates t free used ∧ LeafOwned used page cells ∧ LeafWellFormed t page cells ∧
      t.leafEntries page = some entries ∧ leafFindSlot (t.mem page) key = some slot ∧
      t.leafInsertBytes page key value slot = some (t', none) ∧
      t'.leafEntries page ≠ some (putAt entries (key, value) slot) := by
  obtain ⟨value, hvalue⟩ := exists_bytes (2^31)
  obtain ⟨pg, cells, -, hbytes, howned, hleaf, hentries, -, hslot⟩ := exists_twoEntries
  have hsize : leafEntryBytes ([] : Bytes).length (payloadOf [] value) = 16 := by
    rw [payloadOf, needsExtent, hvalue]
    rfl
  have hroom : (onePage pg).Room (extentPages value.length) := onePage_room (by rw [hvalue]; decide)
  obtain ⟨⟨t', split⟩, hr, hnone, -⟩ := (leafInsertNew_fits onePage_allocates rfl hleaf.page
    (show ([] : Bytes).length < 65536 by decide) (Nat.zero_le _) (by omega)).exists_of_room hroom
  obtain rfl : split = none := hnone
  obtain ⟨new, -, -, hiff⟩ := leafInsertBytes_entries onePage_allocates howned hleaf hentries hslot hr
  refine ⟨_, _, _, 1, cells, _, [], value, .error 0, t', onePage_allocates, howned, hleaf, hentries, hslot,
    hr, ?_⟩
  rw [ne_eq, hiff]
  omega

/-- A value of two pages takes the place of one byte, and an entry is removed. -/
theorem leaf_updates_iff_two :
    ∃ (pg : Page) (value : Bytes) (t₁ t₂ : BPlusTree), value.length = 5000 ∧
      (onePage pg).leafEntries 1 = some [([2], [20]), ([5], [50])] ∧
      (onePage pg).leafInsertBytes 1 [5] value (.ok 1) = some (t₁, none) ∧
      t₁.leafEntries 1 = some [([2], [20]), ([5], value)] ∧
      (onePage pg).leafRemoveEntry 1 0 (count pg) (dataOff pg) = some t₂ ∧
      t₂.leafEntries 1 = some [([5], [50])] := by
  obtain ⟨value, hvalue⟩ := exists_bytes 5000
  obtain ⟨pg, cells, hlen, hbytes, howned, hleaf, hentries, hslot, -⟩ := exists_twoEntries
  obtain ⟨hput, hremove⟩ := leaf_updates_iff (onePage pg) [] {1} 1 cells _ onePage_allocates howned hleaf
    hentries
  obtain ⟨t₁, hr⟩ : ∃ t₁, (onePage pg).leafInsertBytes 1 [5] value (.ok 1) = some (t₁, none) := by
    have hext : needsExtent [5] value = true := by
      rw [needsExtent, hvalue]
      rfl
    have hsize : leafEntryBytes ([5] : Bytes).length (payloadOf [5] value) = 17 := by
      rw [payloadOf, if_pos hext]
      rfl
    have hc := List.getElem?_eq_getElem (show 1 < cells.length by omega)
    have hrest := ((perm_eraseIdx hc).map LeafCell.size).sum_eq
    rw [List.map_cons, List.sum_cons, ← leafBytes, ← leafBytes] at hrest
    obtain ⟨t₂, heq, ⟨free₂, halloc₂⟩, hp₂, hleaf₂, hpages, hgrants, -⟩ := leafInsertBytes_removes
      onePage_allocates howned hleaf.page hc (show ¬ overwrites _ [5] value by simp [overwrites, hext])
    have hroom : (onePage pg).Room (extentPages value.length) := onePage_room (by rw [hvalue]; decide)
    have hfit : leafBytes (cells.eraseIdx 1)+
        leafEntryBytes ([5] : Bytes).length (payloadOf [5] value) ≤ 4072 := by
      omega
    obtain ⟨r, hr, hnone, -⟩ := (leafInsertNew_fits halloc₂ hp₂ hleaf₂ (by decide)
      (show 1 ≤ _ by rw [List.length_eraseIdx_of_lt] <;> omega) hfit).exists_of_room
      (hroom.mono (by rw [hpages]) hgrants)
    refine ⟨r.1, ?_⟩
    rw [heq, hr, ← hnone]
  obtain ⟨new, -, -, hiff⟩ := hput [5] value (.ok 1) t₁ hslot hr
  obtain ⟨t₂, hr₂, -, hentries₂⟩ := hremove 0 (by omega)
  rw [onePage_mem] at hr₂
  exact ⟨pg, value, t₁, t₂, hvalue, hentries, hr, hiff.mpr (by omega), hr₂, hentries₂⟩

end Leaves

end BPlusTree

end ZenDB
