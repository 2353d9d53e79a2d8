import ZenDB.BPlusTree.Alloc
import ZenDB.BPlusTree.Cells

namespace ZenDB

open Memory Slotted

/-! Entries that are appended to a page, from the old content of a split page or new. -/

section Order

variable {α : Type} {enc : α → Bytes} {H : Nat} {pg : Page} {items : List α}
  (hget : ∀ i c, items[i]? = some c → ∃ off, slot? H 4096 pg i = some off ∧ EntryAt pg off (enc c))

include hget

theorem slots_mapM (s n : Nat) (hn : s+n ≤ items.length) :
    ∃ offs, (List.range' s n).mapM (slot? H 4096 pg) = some offs ∧
      List.Forall₂ (fun eo c => EntryAt pg eo (enc c)) offs ((items.drop s).take n) := by
  induction n generalizing s with
  | zero => exact ⟨[], rfl, by simp⟩
  | succ n ih =>
    have hs : s < items.length := by omega
    obtain ⟨off, hslot, hentry⟩ := hget s items[s] (List.getElem?_eq_getElem hs)
    obtain ⟨offs, hoffs, hrest⟩ := ih (s+1) (by omega)
    refine ⟨off :: offs, ?_, ?_⟩
    · rw [List.range'_succ, List.mapM_cons, hslot, hoffs]
      rfl
    · rw [List.drop_eq_getElem_cons hs, List.take_succ_cons]
      exact .cons hentry hrest

/-- The order of a split is the list of entries with the new one at its place. -/
theorem splitOrder_eq (hcount : count pg = items.length) {ip : Nat} (hip : ip ≤ items.length) :
    ∃ before after, splitOrder H pg ip = some (before.map some ++ none :: after.map some) ∧
      List.Forall₂ (fun eo c => EntryAt pg eo (enc c)) before (items.take ip) ∧
      List.Forall₂ (fun eo c => EntryAt pg eo (enc c)) after (items.drop ip) := by
  obtain ⟨before, hbefore, hfront⟩ := slots_mapM hget 0 ip (by omega)
  obtain ⟨after, hafter, hback⟩ := slots_mapM hget ip (items.length-ip) (by omega)
  refine ⟨before, after, ?_, hfront, ?_⟩
  · rw [splitOrder, List.range_eq_range', hbefore, hcount, hafter]
    rfl
  · rwa [List.take_of_length_le (by rw [List.length_drop])] at hback

omit hget in
theorem splitSizes_eq {old : Nat → Option Nat} {size : α → Nat} {before after : List Nat}
    {front back : List α} (newSize : Nat)
    (hold : ∀ eo c, EntryAt pg eo (enc c) → old eo = some (size c))
    (hfront : List.Forall₂ (fun eo c => EntryAt pg eo (enc c)) before front)
    (hback : List.Forall₂ (fun eo c => EntryAt pg eo (enc c)) after back) :
    (before.map some ++ none :: after.map some).mapM (splitSize old newSize) =
      some (front.map size ++ newSize :: back.map size) := by
  have hside : ∀ {offs cs}, List.Forall₂ (fun eo c => EntryAt pg eo (enc c)) offs cs →
      List.Forall₂ (fun o n => splitSize old newSize o = some n) (offs.map some) (cs.map size) := by
    intro offs cs hcs
    induction hcs with
    | nil => exact .nil
    | cons hentry _ ih => exact .cons (hold _ _ hentry) ih
  exact mapM_of_forall₂ (List.rel_append (hside hfront) (.cons rfl (hside hback)))

end Order

section Midpoint

/-- The entry that takes the sum over a bound. -/
theorem exists_crossing (half : Nat) (hhalf : 0 < half) (sizes : List Nat) (h : half ≤ sizes.sum) :
    ∃ front x back, sizes = front ++ x :: back ∧ front.sum < half ∧ half ≤ front.sum+x := by
  induction sizes generalizing half with
  | nil =>
    rw [List.sum_nil] at h
    omega
  | cons x sizes ih =>
    by_cases hx : half ≤ x
    · exact ⟨[], x, sizes, rfl, hhalf, by simpa using hx⟩
    · rw [List.sum_cons] at h
      obtain ⟨front, y, back, hsizes, hlt, hle⟩ := ih (half-x) (by omega) (by omega)
      refine ⟨x :: front, y, back, by rw [hsizes, List.cons_append], ?_, ?_⟩
      · rw [List.sum_cons]
        omega
      · rw [List.sum_cons]
        omega

theorem midLoop_eq (half : Nat) (front : List Nat) (x : Nat) (back : List Nat) (used j : Nat)
    (hlt : used+front.sum < half) (hle : half ≤ used+front.sum+x) :
    midLoop half (front ++ x :: back) used j = j+front.length+1 := by
  induction front generalizing used j with
  | nil =>
    rw [List.sum_nil] at hle
    rw [List.nil_append, midLoop, if_pos (by omega)]
    rfl
  | cons y front ih =>
    rw [List.sum_cons] at hlt hle
    rw [List.cons_append, midLoop, if_neg (by omega), ih (used+y) (j+1) (by omega) (by omega),
      List.length_cons]
    omega

/-- The first part of a split ends with the entry that crosses the middle, unless it is the last. -/
theorem splitMid_eq {sizes front back : List Nat} {x : Nat} (hsizes : sizes = front ++ x :: back)
    (hlt : front.sum < sizes.sum/2) (hle : sizes.sum/2 ≤ front.sum+x) (hlen : 2 ≤ sizes.length) :
    splitMid sizes = some (if back = [] then front.length else front.length+1) := by
  have hmid : midLoop (sizes.sum/2) sizes 0 0 = front.length+1 := by
    have hloop := midLoop_eq (sizes.sum/2) front x back 0 0 (by omega) (by omega)
    rw [← hsizes] at hloop
    omega
  have hlength : sizes.length = front.length+1+back.length := by
    rw [hsizes, List.length_append, List.length_cons]
    omega
  rw [splitMid, if_neg (by omega), hmid]
  split_ifs with hback
  · rw [hback, List.length_nil] at hlength
    congr 1
    omega
  · have hpos := List.length_pos_iff.mpr hback
    congr 1
    omega

/-- An entry that crosses the byte midpoint and is not the last one leaves what is up to it small
enough for a page. -/
def SplitFits (capacity : Nat) (sizes : List Nat) : Prop :=
  sizes.sum ≤ capacity ∨ ∀ front x back, sizes = front ++ x :: back → back ≠ [] →
    front.sum < sizes.sum/2 → sizes.sum/2 ≤ front.sum+x → front.sum+x ≤ capacity

theorem crossing_unique {sizes front back front' back' : List Nat} {x x' half : Nat}
    (hsizes : sizes = front ++ x :: back) (hlt : front.sum < half) (hle : half ≤ front.sum+x)
    (hsizes' : sizes = front' ++ x' :: back') (hlt' : front'.sum < half) (hle' : half ≤ front'.sum+x') :
    front' = front ∧ x' = x ∧ back' = back := by
  have hloop := midLoop_eq half front x back 0 0 (by omega) (by omega)
  have hloop' := midLoop_eq half front' x' back' 0 0 (by omega) (by omega)
  rw [← hsizes] at hloop
  rw [← hsizes', hloop] at hloop'
  have heq := List.append_inj (hsizes'.symm.trans hsizes) (by omega)
  rw [List.cons.injEq] at heq
  exact heq

theorem splitFits_of_crossing {capacity : Nat} {sizes front back : List Nat} {x : Nat}
    (hsizes : sizes = front ++ x :: back) (hlt : front.sum < sizes.sum/2)
    (hle : sizes.sum/2 ≤ front.sum+x) (hfit : front.sum+x ≤ capacity) : SplitFits capacity sizes := by
  refine Or.inr ?_
  intro front' x' back' hsizes' _ hlt' hle'
  obtain ⟨rfl, rfl, -⟩ := crossing_unique hsizes hlt hle hsizes' hlt' hle'
  exact hfit

/-- Both parts of a split fit if and only if the entry in the middle does not spoil the first one. -/
theorem splitMid_spec (capacity : Nat) {sizes : List Nat} (hlen : 2 ≤ sizes.length)
    (hover : capacity < sizes.sum) (hsmall : ∀ x ∈ sizes, x ≤ capacity)
    (htotal : sizes.sum ≤ 2*capacity) :
    ∃ mid, splitMid sizes = some mid ∧ 0 < mid ∧ mid < sizes.length ∧
      (sizes.drop mid).sum ≤ capacity ∧ ((sizes.take mid).sum ≤ capacity ↔ SplitFits capacity sizes) := by
  obtain ⟨front, x, back, hsizes, hlt, hle⟩ := exists_crossing (sizes.sum/2) (by omega) sizes (by omega)
  have hlength : sizes.length = front.length+1+back.length := by
    rw [hsizes, List.length_append, List.length_cons]
    omega
  have hsum : sizes.sum = front.sum+(x+back.sum) := by rw [hsizes, List.sum_append, List.sum_cons]
  refine ⟨_, splitMid_eq hsizes hlt hle hlen, ?_⟩
  split_ifs with hback
  · -- the last entry crosses the middle and is alone
    rw [hback, List.length_nil] at hlength
    rw [hsizes, List.take_left', List.drop_left', ← hsizes, hback]
    refine ⟨by omega, by omega, ?_, ?_⟩
    · simpa using hsmall x (by simp [hsizes])
    · refine ⟨fun _ => Or.inr ?_, fun _ => by omega⟩
      intro front' x' back' hsizes' hback' hlt' hle'
      exact absurd ((crossing_unique hsizes hlt hle hsizes' hlt' hle').2.2.trans hback) hback'
    all_goals rfl
  · have hpos := List.length_pos_iff.mpr hback
    have htake : sizes.take (front.length+1) = front ++ [x] := by
      rw [hsizes, List.take_length_add_append]
      rfl
    have hdrop : sizes.drop (front.length+1) = back := by
      rw [hsizes, List.drop_length_add_append]
      rfl
    rw [htake, hdrop, List.sum_append, List.sum_singleton]
    refine ⟨by omega, by omega, by omega, ?_, ?_⟩
    · exact splitFits_of_crossing hsizes hlt hle
    · intro hfits
      rcases hfits with hfits | hfits
      · omega
      · exact hfits front x back hsizes hback hlt hle

end Midpoint

theorem ovflLen_lt (n : Nat) : ovflLen n < 2^32 := by
  rw [ovflLen]
  omega

theorem payloadLen_ovflLen (n start : Nat) : (leBytes 8 start).length = payloadLen (ovflLen n) := by
  rw [length_leBytes, payloadLen, if_pos]
  rw [isOvfl, ovflLen, decide_eq_true_iff]
  omega

theorem inline_lt {key value : Bytes} (h : ¬ needsExtent key value = true) : value.length < 2^32 := by
  rw [needsExtent, decide_eq_true_iff] at h
  omega

theorem payloadLen_inline {key value : Bytes} (h : ¬ needsExtent key value = true) :
    value.length = payloadLen value.length := by
  rw [payloadLen, if_neg]
  rw [needsExtent, decide_eq_true_iff] at h
  rw [isOvfl, decide_eq_true_iff]
  omega

/-- The cell that a put writes; `start` is the first page of the extent of a large value. -/
def newCell (key value : Bytes) (start : Nat) (h : key.length < 65536) : LeafCell :=
  if hext : needsExtent key value = true then
    ⟨key, ovflLen value.length, leBytes 8 start, h, ovflLen_lt _, payloadLen_ovflLen _ _⟩
  else ⟨key, value.length, value, h, inline_lt hext, payloadLen_inline hext⟩

section NewCell

variable {key value : Bytes} (start : Nat) (h : key.length < 65536)

theorem newCell_extent (hext : needsExtent key value = true) :
    (newCell key value start h).key = key ∧ (newCell key value start h).rawVl = ovflLen value.length ∧
      (newCell key value start h).payload = leBytes 8 start := by
  rw [newCell, dif_pos hext]
  exact ⟨rfl, rfl, rfl⟩

theorem newCell_inline (hext : ¬ needsExtent key value = true) :
    (newCell key value start h).key = key ∧ (newCell key value start h).rawVl = value.length ∧
      (newCell key value start h).payload = value := by
  rw [newCell, dif_neg hext]
  exact ⟨rfl, rfl, rfl⟩

@[simp] theorem newCell_key : (newCell key value start h).key = key := by
  by_cases hext : needsExtent key value = true
  · exact (newCell_extent start h hext).1
  · exact (newCell_inline start h hext).1

theorem length_newCell_payload :
    (newCell key value start h).payload.length = payloadOf key value := by
  rw [payloadOf]
  split_ifs with hext
  · rw [(newCell_extent start h hext).2.2, length_leBytes]
  · rw [(newCell_inline start h hext).2.2]

theorem newCell_size :
    (newCell key value start h).size = leafEntryBytes key.length (payloadOf key value) := by
  rw [LeafCell.size, newCell_key, length_newCell_payload]

theorem length_newCell_enc : (newCell key value start h).enc.length = leafEntrySize key value := by
  rw [LeafCell.length_enc, newCell_key, length_newCell_payload, leafEntrySize]

end NewCell

/-- The kind, the flags and the links of a leaf are the same. -/
def SameLinks (pg pg' : Page) : Prop := ∀ k, k < 2 ∨ (8 ≤ k ∧ k < 24) → pg' k = pg k

section LeafAppend

variable {pg pg' : Page} {base cells : List LeafCell} {c : LeafCell}

theorem LeafPage.packed (h : LeafPage pg base) (hpacks : Packs 24 4096 pg pg' (cells.map LeafCell.enc))
    (hfit : leafBytes base+leafBytes cells ≤ 4072) : LeafPage pg' (base ++ cells) ∧ SameLinks pg pg' := by
  obtain ⟨hlayout, hframe⟩ := hpacks.layout _ h.layout (by
    rw [entryBytes_cells, entryBytes_cells]
    omega)
  refine ⟨⟨(hframe 0 (by omega)).trans h.kind, ?_⟩, hframe⟩
  rwa [List.map_append]

theorem LeafPage.roomFor (h : LeafPage pg base) (hfit : leafBytes base+leafBytes cells ≤ 4072) :
    Fits 24 4096 pg (cells.map LeafCell.enc) :=
  ⟨_, h.layout, by rw [entryBytes_cells, entryBytes_cells]; omega⟩

theorem leafAppendFromScratchSlot_eq {scratch : Page} {eo : Nat} (h : EntryAt scratch eo c.enc)
    (pg : Page) : leafAppendFromScratchSlot pg scratch eo = appendEntry 24 4096 pg c.enc := by
  obtain ⟨hkl, hvl, -, -⟩ := h.leafParts
  rw [leafAppendFromScratchSlot, hkl]
  simp only [Option.bind_eq_bind, Option.bind_some, hvl, h.leafBytes]

end LeafAppend

section InternalAppend

variable {pg pg' : Page} {leftmost : Nat} {base seps : List (Bytes × Nat)}

theorem InternalPage.packed (h : InternalPage pg leftmost base)
    (hpacks : Packs 16 4096 pg pg' (seps.map sepEnc)) (hfit : sepBytes base+sepBytes seps ≤ 4080)
    (hbound : ∀ e ∈ seps, e.2 < 2^64) : InternalPage pg' leftmost (base ++ seps) := by
  obtain ⟨hlayout, hframe⟩ := hpacks.layout _ h.layout (by
    rw [entryBytes_seps, entryBytes_seps]
    omega)
  refine ⟨(hframe 0 (by omega)).trans h.kind, ?_, ?_, ?_⟩
  · rw [← h.first]
    exact congrArg leNat (read_congr fun k hk hlt => hframe k (by omega))
  · intro e he
    exact (List.mem_append.mp he).elim (h.bound e) (hbound e)
  · rwa [List.map_append]

theorem InternalPage.roomFor (h : InternalPage pg leftmost base)
    (hfit : sepBytes base+sepBytes seps ≤ 4080) : Fits 16 4096 pg (seps.map sepEnc) :=
  ⟨_, h.layout, by rw [entryBytes_seps, entryBytes_seps]; omega⟩

end InternalAppend

namespace BPlusTree

/-- The pages of the extent that a put writes. -/
def valueRun (key value : Bytes) (start : Nat) : Set Nat :=
  {p | needsExtent key value = true ∧ start ≤ p ∧ p < start+extentPages value.length}

/-- A value was stored: pages in use but `touched` ones are as before, the head is `hd` and the file
has at most `bound` pages. -/
structure Stored (t : BPlusTree) (used touched : Set Nat) (key value : Bytes) (start bound : Nat)
    (hd : Head) (t' : BPlusTree) : Prop where
  fresh : ∀ p ∈ valueRun key value start, p ∉ used
  allocates : ∃ free', Allocates t' free' (used ∪ valueRun key value start)
  mem : ∀ p ∈ used, p ∉ touched → t'.mem p = t.mem p
  mapped : t.mapped ≤ t'.mapped
  pages : t'.metaPage.pages ≤ bound
  held : needsExtent key value = true →
    start < 2^64 ∧ t'.readExtent start value.length = some value
  head : t'.head = hd

variable {t t' : BPlusTree} {free : List Nat} {used touched : Set Nat} {page nd start bound : Nat}
  {key value : Bytes} {hd : Head}

@[simp] theorem setPage_setPage (t : BPlusTree) (p : Nat) (pg pg' : Page) :
    (t.setPage p pg).setPage p pg' = t.setPage p pg' := by
  simp [setPage]

theorem setPage_self (t : BPlusTree) (p : Nat) : t.setPage p (t.mem p) = t := by
  simp [setPage]

theorem modifyPage_completes {room : Prop} {p : Nat} {f : Page → Option Page} {P : BPlusTree → Prop}
    (hp : p < t.mapped) (h : Completes room (f (t.mem p)) fun pg => P (t.setPage p pg)) :
    Completes room (t.modifyPage p f) P := by
  rw [modifyPage, pageBytes_eq hp]
  simp only [Option.bind_eq_bind, Option.bind_some]
  exact h.bind fun pg hpg => .some hpg

theorem write?_completes {room : Prop} {pg : Page} {off : Nat} {bs : Bytes} {P : Page → Prop}
    (h : P (write pg off bs)) (hroom : room → off+bs.length ≤ 4096) :
    Completes room (write? 4096 pg off bs) P := by
  rw [write?]
  split_ifs with hin
  · exact .some h
  · exact ⟨(fun _ hfalse => by cases hfalse), fun _ hr => hin (hroom hr)⟩

theorem writeLeafEntryRaw_completes (h : Allocates t free used) (hp : page ∈ used)
    (hkey : key.length < 65536) :
    Completes (t.Room (extentPages value.length) ∧ nd+leafEntrySize key value ≤ 4096)
      (t.writeLeafEntryRaw page nd key value) fun t' =>
        ∃ start, Stored t used {page} key value start (t.metaPage.pages+extentPages value.length)
            t.head t' ∧
          t'.mem page = write (t.mem page) nd (newCell key value start hkey).enc := by
  rw [writeLeafEntryRaw]
  split_ifs with hext
  · refine Completes.bind ((h.writeExtent value).weaken fun hr => hr.1.grows) ?_
    intro r hr
    obtain ⟨hrun, hread⟩ := hr
    obtain ⟨free', halloc⟩ := hrun.allocates
    have hset : valueRun key value r.1 = {p | r.1 ≤ p ∧ p < r.1+extentPages value.length} := by
      ext p
      simp [valueRun, hext]
    have hin : page ∈ used ∪ valueRun key value r.1 := Or.inl hp
    rw [← hset] at halloc
    have henc : leafEntry key (ovflLen value.length) (leBytes 8 r.1) =
        (newCell key value r.1 hkey).enc := by
      obtain ⟨h₁, h₂, h₃⟩ := newCell_extent r.1 hkey hext
      rw [LeafCell.enc, h₁, h₂, h₃]
    simp only [henc]
    refine modifyPage_completes (halloc.used_lt hin) (write?_completes ⟨r.1, ⟨?_, ?_, ?_, ?_, ?_, ?_, ?_⟩, ?_⟩ ?_)
    · intro p hin'
      exact hrun.fresh p hin'.2.1 hin'.2.2
    · exact ⟨free', halloc.setPage hin _⟩
    · intro p hp' hne
      rw [setPage_mem_of_ne hne, hrun.mem p hp']
    · exact hrun.mapped
    · exact hrun.pages
    · intro _
      refine ⟨?_, readExtent_congr ?_ ?_ hread⟩
      · have hbound := hrun.bound
        have hpages := halloc.pagesLe
        have hlt := halloc.mappedLt
        omega
      · exact le_rfl
      · intro p h₁ h₂
        have hne : p ≠ page := fun heq => hrun.fresh p h₁ h₂ (heq ▸ hp)
        exact setPage_mem_of_ne hne
    · exact hrun.head
    · rw [setPage_mem_self, hrun.mem page hp]
    · intro hroom
      rw [length_newCell_enc]
      exact hroom.2
  · have hset : valueRun key value 0 = ∅ :=
      Set.eq_empty_of_forall_notMem fun p hp => hext hp.1
    have henc : leafEntry key value.length value = (newCell key value 0 hkey).enc := by
      obtain ⟨h₁, h₂, h₃⟩ := newCell_inline 0 hkey hext
      rw [LeafCell.enc, h₁, h₂, h₃]
    simp only [henc]
    refine modifyPage_completes (h.used_lt hp) (write?_completes ⟨0, ⟨?_, ?_, ?_, ?_, ?_, ?_, ?_⟩, ?_⟩ ?_)
    · intro p hin
      exact absurd hin.1 hext
    · rw [hset, Set.union_empty]
      exact ⟨free, h.setPage hp _⟩
    · intro p _ hne
      exact setPage_mem_of_ne hne
    · exact le_rfl
    · exact Nat.le_add_right _ _
    · exact fun hext' => absurd hext' hext
    · rfl
    · rw [setPage_mem_self]
    · intro hroom
      rw [length_newCell_enc]
      exact hroom.2

/-- A page in use is changed after a value was stored. -/
theorem Stored.setPage (h : Stored t used touched key value start bound hd t')
    (hp : page ∈ used) (htouched : page ∈ touched) (pg : Page) :
    Stored t used touched key value start bound hd (t'.setPage page pg) := by
  obtain ⟨free', halloc⟩ := h.allocates
  refine ⟨h.fresh, ⟨free', halloc.setPage (Or.inl hp) pg⟩, ?_, h.mapped, h.pages, ?_, h.head⟩
  · intro p hp' hnot
    have hne : p ≠ page := fun heq => hnot (heq ▸ htouched)
    rw [setPage_mem_of_ne hne, h.mem p hp' hnot]
  · intro hext
    obtain ⟨hlt, hread⟩ := h.held hext
    refine ⟨hlt, readExtent_congr ?_ ?_ hread⟩
    · exact le_rfl
    · intro p h₁ h₂
      have hne : p ≠ page := fun heq => h.fresh p ⟨hext, h₁, h₂⟩ (heq ▸ hp)
      exact setPage_mem_of_ne hne

/-- A page that was changed before the value was stored. -/
theorem Stored.of_setPage {pg : Page}
    (h : Stored (t.setPage page pg) used touched key value start bound hd t') (hp : page ∈ touched) :
    Stored t used touched key value start bound hd t' := by
  refine ⟨h.fresh, h.allocates, ?_, h.mapped, h.pages, h.held, h.head⟩
  intro p hp' hnot
  have hne : p ≠ page := fun heq => hnot (heq ▸ hp)
  rw [h.mem p hp' hnot, setPage_mem_of_ne hne]

theorem Stored.touch {touched' : Set Nat}
    (h : Stored t used touched key value start bound hd t') (hsub : touched ⊆ touched') :
    Stored t used touched' key value start bound hd t' :=
  ⟨h.fresh, h.allocates, fun p hp hnot => h.mem p hp fun hin => hnot (hsub hin), h.mapped, h.pages,
    h.held, h.head⟩

theorem leafAppendInlineEntry_completes (h : Allocates t free used) (hp : page ∈ used)
    (hkey : key.length < 65536) :
    Completes (t.Room (extentPages value.length) ∧
        Fits 24 4096 (t.mem page) [(newCell key value 0 hkey).enc])
      (t.leafAppendInlineEntry page key value) fun t' =>
        ∃ start, Stored t used {page} key value start (t.metaPage.pages+extentPages value.length)
            t.head t' ∧
          Packs 24 4096 (t.mem page) (t'.mem page) [(newCell key value start hkey).enc] := by
  have hroom : Fits 24 4096 (t.mem page) [(newCell key value 0 hkey).enc] →
      leafEntrySize key value ≤ dataOff (t.mem page) ∧ dataOff (t.mem page) ≤ 4096 := by
    intro hfits
    obtain ⟨base, hlayout, hfit⟩ := hfits
    have hbytes := hlayout.dataOff_entryBytes
    have htotal := hlayout.dataOff_add
    rw [entryBytes_cons, length_newCell_enc] at hfit
    omega
  rw [leafAppendInlineEntry, pageBytes_eq (h.used_lt hp)]
  simp only [Option.bind_eq_bind, Option.bind_some]
  split_ifs with hsize
  · refine Completes.bind ((writeLeafEntryRaw_completes h hp hkey).weaken ?_) ?_
    · intro hr
      have := hroom hr.2
      exact ⟨hr.1, by omega⟩
    · intro t₁ h₁
      obtain ⟨start, hstored, hmem⟩ := h₁
      obtain ⟨free₁, halloc₁⟩ := hstored.allocates
      have hlink : ∀ base, Layout 24 4096 (t.mem page) base →
          24+entryBytes base+(leafEntrySize key value+2) ≤ 4096 →
          ∃ pg', linkSlot 24 4096 (t₁.mem page) (count (t.mem page)) (count (t.mem page))
              (dataOff (t.mem page)-leafEntrySize key value) = some pg' ∧
            Layout 24 4096 pg' (base ++ [(newCell key value start hkey).enc]) ∧
              SameLinks (t.mem page) pg' := by
        intro base hlayout hfit
        have hdone := linkSlot_append (newCell key value start hkey).enc hlayout (by omega) (by omega)
          (by rw [length_newCell_enc]; exact hfit)
        rwa [length_newCell_enc, ← hmem] at hdone
      refine modifyPage_completes (halloc₁.used_lt (Or.inl hp)) ⟨?_, ?_⟩
      · intro pg' hpg'
        refine ⟨start, hstored.setPage hp rfl pg', ?_, ?_⟩
        · rw [setPage_mem_self]
          exact count_linkSlot (by omega) le_rfl hpg'
        · intro base hlayout hfit
          rw [entryBytes_cons, length_newCell_enc] at hfit
          obtain ⟨pg'', hlinked, hdone⟩ := hlink base hlayout hfit
          rw [hpg'] at hlinked
          cases hlinked
          rw [setPage_mem_self]
          exact hdone
      · intro hnone hr
        obtain ⟨base, hlayout, hfit⟩ := hr.2
        rw [entryBytes_cons, length_newCell_enc] at hfit
        obtain ⟨pg', hlinked, -⟩ := hlink base hlayout hfit
        rw [hnone] at hlinked
        cases hlinked
  · exact ⟨(fun _ hfalse => by cases hfalse), fun _ hr => hsize (hroom hr.2).1⟩

/-- Entries of the old page at their offsets. -/
def OldCells (scratch : Page) (offs : List Nat) (cells : List LeafCell) : Prop :=
  List.Forall₂ (fun eo c => EntryAt scratch eo c.enc) offs cells

section Repack

variable {scratch : Page} {offs : List Nat} {cells : List LeafCell}

theorem leafRepack_append (o₁ o₂ : List (Option Nat)) (t : BPlusTree) :
    leafRepack scratch key value page (o₁ ++ o₂) t =
      leafRepack scratch key value page o₁ t >>= leafRepack scratch key value page o₂ := by
  induction o₁ generalizing t with
  | nil => rfl
  | cons o o₁ ih =>
    cases o with
    | none => simp only [List.cons_append, leafRepack, ih, bind_assoc]
    | some eo => simp only [List.cons_append, leafRepack, ih, bind_assoc]

theorem leafRepack_old (hcells : OldCells scratch offs cells) (hp : page < t.mapped) :
    Completes (Fits 24 4096 (t.mem page) (cells.map LeafCell.enc))
      (leafRepack scratch key value page (offs.map some) t) fun t' =>
        ∃ pg', t' = t.setPage page pg' ∧ Packs 24 4096 (t.mem page) pg' (cells.map LeafCell.enc) := by
  induction hcells generalizing t with
  | nil => exact .some ⟨t.mem page, (setPage_self t page).symm, .refl _⟩
  | @cons eo c offs cells hentry hrest ih =>
    simp only [List.map_cons, leafRepack]
    refine Completes.bind (P := fun t₁ => ∃ pg₁, t₁ = t.setPage page pg₁ ∧
      Packs 24 4096 (t.mem page) pg₁ [c.enc]) (modifyPage_completes hp ?_) ?_
    · rw [leafAppendFromScratchSlot_eq hentry]
      exact ((appendEntry_completes (by omega) (by omega) (t.mem page) c.enc).weaken fun hfits =>
        hfits.mono (by simp)).mono fun pg₁ h₁ => ⟨pg₁, rfl, h₁⟩
    · intro t₁ h₁
      obtain ⟨pg₁, rfl, hpacks⟩ := h₁
      refine ((ih (t := t.setPage page pg₁) hp).weaken fun hfits => ?_).mono fun t' ht' => ?_
      · rw [setPage_mem_self]
        exact hpacks.fits hfits
      · obtain ⟨pg', rfl, hpacks'⟩ := ht'
        rw [setPage_mem_self] at hpacks'
        exact ⟨pg', setPage_setPage t page pg₁ pg', hpacks.trans hpacks'⟩

/-- The new entry with old ones in front of it and behind it. -/
theorem leafRepack_new {before after : List Nat} {front back : List LeafCell}
    (hfront : OldCells scratch before front) (hback : OldCells scratch after back)
    (h : Allocates t free used) (hp : page ∈ used) (hkey : key.length < 65536) :
    Completes (t.Room (extentPages value.length) ∧
        Fits 24 4096 (t.mem page) ((front ++ newCell key value 0 hkey :: back).map LeafCell.enc))
      (leafRepack scratch key value page (before.map some ++ none :: after.map some) t) fun t' =>
        ∃ start, Stored t used {page} key value start (t.metaPage.pages+extentPages value.length)
            t.head t' ∧
          Packs 24 4096 (t.mem page) (t'.mem page)
            ((front ++ newCell key value start hkey :: back).map LeafCell.enc) := by
  simp only [List.map_append, List.map_cons]
  rw [leafRepack_append]
  refine Completes.bind ((leafRepack_old hfront (h.used_lt hp)).weaken fun hr => hr.2.left) ?_
  intro t₁ h₁
  obtain ⟨pg₁, rfl, hpacks₁⟩ := h₁
  rw [leafRepack]
  refine Completes.bind ((leafAppendInlineEntry_completes (h.setPage hp pg₁) hp hkey).weaken ?_) ?_
  · intro hr
    rw [setPage_mem_self]
    exact ⟨hr.1, (hpacks₁.fits hr.2).mono (by simp)⟩
  intro t₂ h₂
  obtain ⟨start, hstored, hpacks₂⟩ := h₂
  rw [setPage_mem_self] at hpacks₂
  obtain ⟨free₂, halloc₂⟩ := hstored.allocates
  refine ((leafRepack_old hback (halloc₂.used_lt (Or.inl hp))).weaken ?_).mono ?_
  · intro hr
    refine hpacks₂.fits ((hpacks₁.fits hr.2).mono ?_)
    simp [length_newCell_enc]
  · intro t' ht'
    obtain ⟨pg', rfl, hpacks₃⟩ := ht'
    refine ⟨start, (hstored.of_setPage rfl).setPage hp rfl pg', ?_⟩
    rw [setPage_mem_self]
    exact hpacks₁.trans (hpacks₂.trans hpacks₃)

end Repack

end BPlusTree

end ZenDB
