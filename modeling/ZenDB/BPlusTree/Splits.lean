import ZenDB.BPlusTree.Repack

namespace ZenDB

open Memory Slotted

namespace BPlusTree

/-! The split of a leaf and of an internal page. -/

section Halves

variable {t t' : BPlusTree} {free : List Nat} {used : Set Nat} {page right start : Nat}
  {key value : Bytes} {scratch : Page} {before after : List Nat} {front back : List LeafCell}

theorem take_middle {α : Type} (l : List α) (x : α) (r : List α) (n : Nat) :
    (l ++ x :: r).take n =
      if n ≤ l.length then l.take n else l ++ x :: r.take (n-l.length-1) := by
  split_ifs with h
  · rw [List.take_append_of_le_length h]
  · obtain ⟨k, rfl⟩ : ∃ k, n = l.length+(k+1) := ⟨n-l.length-1, by omega⟩
    rw [List.take_length_add_append, List.take_succ_cons]
    congr 3
    omega

theorem drop_middle {α : Type} (l : List α) (x : α) (r : List α) (n : Nat) :
    (l ++ x :: r).drop n =
      if n ≤ l.length then l.drop n ++ x :: r else r.drop (n-l.length-1) := by
  split_ifs with h
  · rw [List.drop_append_of_le_length h]
  · obtain ⟨k, rfl⟩ : ∃ k, n = l.length+(k+1) := ⟨n-l.length-1, by omega⟩
    rw [List.drop_length_add_append, List.drop_succ_cons]
    congr 1
    omega

/-- The two parts of an order are packed into two pages. -/
theorem leafRepackBoth_completes (hfront : OldCells scratch before front)
    (hback : OldCells scratch after back) (h : Allocates t free used) (hp : page ∈ used)
    (hr : right ∈ used) (hne : right ≠ page) (hkey : key.length < 65536) (mid : Nat) :
    Completes (t.Room (extentPages value.length) ∧
        Fits 24 4096 (t.mem page)
          (((front ++ newCell key value 0 hkey :: back).take mid).map LeafCell.enc) ∧
        Fits 24 4096 (t.mem right)
          (((front ++ newCell key value 0 hkey :: back).drop mid).map LeafCell.enc))
      (leafRepackBoth scratch key value page right (before.map some ++ none :: after.map some) mid t)
      fun t' => ∃ start, Stored t used {page, right} key value start
          (t.metaPage.pages+extentPages value.length) t.head t' ∧
        Packs 24 4096 (t.mem page) (t'.mem page)
          (((front ++ newCell key value start hkey :: back).take mid).map LeafCell.enc) ∧
        Packs 24 4096 (t.mem right) (t'.mem right)
          (((front ++ newCell key value start hkey :: back).drop mid).map LeafCell.enc) := by
  have hlen : before.length = front.length := List.Forall₂.length_eq hfront
  have hpage : page ∈ ({page, right} : Set Nat) := Set.mem_insert _ _
  have hright : right ∈ ({page, right} : Set Nat) := Set.mem_insert_of_mem _ rfl
  simp only [leafRepackBoth, take_middle, drop_middle, List.length_map, hlen]
  split_ifs with hmid
  · -- the new entry goes to the right page
    rw [← List.map_take, ← List.map_drop]
    refine Completes.bind ((leafRepack_old (List.forall₂_take mid hfront) (h.used_lt hp)).weaken
      fun hroom => hroom.2.1) ?_
    intro t₁ h₁
    obtain ⟨pg₁, rfl, hpacks₁⟩ := h₁
    have hkeep : (t.setPage page pg₁).mem right = t.mem right := setPage_mem_of_ne hne
    refine ((leafRepack_new (List.forall₂_drop mid hfront) hback (h.setPage hp pg₁) hr hkey).weaken
      ?_).mono ?_
    · intro hroom
      rw [hkeep]
      exact ⟨hroom.1, hroom.2.2⟩
    · intro t' ht'
      obtain ⟨start, hstored, hpacks⟩ := ht'
      rw [hkeep] at hpacks
      refine ⟨start, (hstored.touch ?_).of_setPage hpage, ?_, hpacks⟩
      · exact Set.singleton_subset_iff.mpr hright
      · rw [hstored.mem page hp hne.symm, setPage_mem_self]
        exact hpacks₁
  · -- the new entry stays in the old page
    rw [← List.map_take, ← List.map_drop]
    refine Completes.bind ((leafRepack_new hfront (List.forall₂_take (mid-front.length-1) hback) h hp
      hkey).weaken fun hroom => ⟨hroom.1, hroom.2.1⟩) ?_
    intro t₁ h₁
    obtain ⟨start, hstored, hpacks₁⟩ := h₁
    obtain ⟨free₁, halloc₁⟩ := hstored.allocates
    have hkeep : t₁.mem right = t.mem right := hstored.mem right hr hne
    refine ((leafRepack_old (List.forall₂_drop (mid-front.length-1) hback)
      (halloc₁.used_lt (Or.inl hr))).weaken ?_).mono ?_
    · intro hroom
      rw [hkeep]
      exact hroom.2.2
    · intro t' ht'
      obtain ⟨pg', rfl, hpacks⟩ := ht'
      rw [hkeep] at hpacks
      refine ⟨start, (hstored.touch ?_).setPage hr hright pg', ?_, ?_⟩
      · exact Set.singleton_subset_iff.mpr hpage
      · rw [setPage_mem_of_ne hne.symm]
        exact hpacks₁
      · rw [setPage_mem_self]
        exact hpacks

end Halves

section Leaf

variable {t t' : BPlusTree} {free : List Nat} {used touched : Set Nat} {page right start bound mid : Nat}
  {key value : Bytes} {hd : Head} {cells : List LeafCell}

/-- The entries of a leaf that is split, the new one at its place. -/
def splitCells (cells : List LeafCell) (new : LeafCell) : List LeafCell :=
  cells.take (insertionPoint (cells.map LeafCell.key) new.key) ++
    new :: cells.drop (insertionPoint (cells.map LeafCell.key) new.key)

/-- Their sizes, which do not depend on where the value is stored. -/
def splitSizes (cells : List LeafCell) (key value : Bytes) : List Nat :=
  (cells.take (insertionPoint (cells.map LeafCell.key) key)).map LeafCell.size ++
    leafEntryBytes key.length (payloadOf key value) ::
      (cells.drop (insertionPoint (cells.map LeafCell.key) key)).map LeafCell.size

theorem splitCells_sizes (cells : List LeafCell) (start : Nat) (hkey : key.length < 65536) :
    (splitCells cells (newCell key value start hkey)).map LeafCell.size = splitSizes cells key value := by
  simp [splitCells, splitSizes, newCell_size]

theorem splitCells_perm (cells : List LeafCell) (new : LeafCell) :
    (splitCells cells new).Perm (new :: cells) := by
  refine List.perm_middle.trans ?_
  rw [List.take_append_drop]

theorem splitSizes_sum (cells : List LeafCell) (key value : Bytes) :
    (splitSizes cells key value).sum = leafEntryBytes key.length (payloadOf key value)+leafBytes cells := by
  have hsum := leafBytes_append (cells.take (insertionPoint (cells.map LeafCell.key) key))
    (cells.drop (insertionPoint (cells.map LeafCell.key) key))
  rw [List.take_append_drop] at hsum
  rw [splitSizes, List.sum_append, List.sum_cons, hsum, leafBytes, leafBytes]
  omega

theorem leafBytes_take (cells : List LeafCell) (n : Nat) :
    leafBytes (cells.take n) = ((cells.map LeafCell.size).take n).sum := by
  rw [leafBytes, List.map_take]

theorem leafBytes_drop (cells : List LeafCell) (n : Nat) :
    leafBytes (cells.drop n) = ((cells.map LeafCell.size).drop n).sum := by
  rw [leafBytes, List.map_drop]

/-- The new leaf is counted, and it is the rightmost one if nothing is behind the old one. -/
def splitHead (hd : Head) (newBytes oldNext right : Nat) : Head :=
  {hd with
    leafPages := hd.leafPages+1
    leafEntryBytes := hd.leafEntryBytes+newBytes
    rightmostLeaf := if oldNext = 0 then right else hd.rightmostLeaf}

/-- The entries are in the old leaf. -/
structure Repacked (t : BPlusTree) (used : Set Nat) (page : Nat) (key value : Bytes)
    (order : List LeafCell) (start : Nat) (t' : BPlusTree) : Prop where
  stored : Stored t used {page} key value start (t.metaPage.pages+extentPages value.length)
    {t.head with
      leafEntryBytes := t.head.leafEntryBytes+leafEntryBytes key.length (payloadOf key value)} t'
  leaf : LeafPage (t'.mem page) order
  links : SameLinks (t.mem page) (t'.mem page)

/-- The entries are in the old leaf and in a new one behind it. -/
structure LeafSplit (t : BPlusTree) (used : Set Nat) (page : Nat) (key value : Bytes)
    (order : List LeafCell) (right mid start : Nat) (t' : BPlusTree) : Prop where
  fresh : right ∉ used
  stored : Stored t (insert right used) {page, right, nextLeaf (t.mem page)} key value start
    (t.metaPage.pages+1+extentPages value.length)
    (splitHead t.head (leafEntryBytes key.length (payloadOf key value)) (nextLeaf (t.mem page)) right) t'
  leftPage : ∃ pg, Packs 24 4096 (resetSlots (t.mem page)) pg ((order.take mid).map LeafCell.enc) ∧
    t'.mem page = setNextLeaf pg right
  rightPage : ∃ pg₀ pg, LeafPage pg₀ [] ∧ Packs 24 4096 pg₀ pg ((order.drop mid).map LeafCell.enc) ∧
    t'.mem right = setPrevLeaf (setNextLeaf pg (nextLeaf (t.mem page))) page
  behind : nextLeaf (t.mem page) ≠ 0 →
    t'.mem (nextLeaf (t.mem page)) = setPrevLeaf (t.mem (nextLeaf (t.mem page))) right

theorem Stored.addBytes (h : Stored t used touched key value start bound hd t') (n : Nat) :
    Stored t used touched key value start bound {hd with leafEntryBytes := hd.leafEntryBytes+n}
      (t'.addLeafEntryBytes n) := by
  obtain ⟨free', halloc⟩ := h.allocates
  refine ⟨h.fresh, ⟨free', ?_⟩, h.mem, h.mapped, h.pages, h.held, ?_⟩
  · exact halloc.frame rfl rfl rfl (halloc.mirrored.writeLeafEntryBytes _) rfl fun _ _ => rfl
  · rw [← h.head]
    simp only [BPlusTree.head, addLeafEntryBytes, writeLeafEntryBytes, halloc.mirrored.leafEntryBytes_eq]

theorem Stored.setRightmostLeaf (h : Stored t used touched key value start bound hd t') (p : Nat) :
    Stored t used touched key value start bound {hd with rightmostLeaf := p} (t'.setRightmostLeaf p) := by
  obtain ⟨free', halloc⟩ := h.allocates
  refine ⟨h.fresh, ⟨free', ?_⟩, h.mem, h.mapped, h.pages, h.held, ?_⟩
  · exact halloc.frame rfl rfl rfl (halloc.mirrored.setRightmostLeaf _) rfl fun _ _ => rfl
  · rw [← h.head]
    rfl

/-- The state before an allocation and changes of touched pages. -/
theorem Stored.rebase (t₀ : BPlusTree) (h : Stored t used touched key value start bound hd t')
    (hmem : ∀ p ∈ used, p ∉ touched → t.mem p = t₀.mem p) (hmapped : t₀.mapped ≤ t.mapped) :
    Stored t₀ used touched key value start bound hd t' :=
  ⟨h.fresh, h.allocates, fun p hp hnot => (h.mem p hp hnot).trans (hmem p hp hnot),
    hmapped.trans h.mapped, h.pages, h.held, h.head⟩

/-- The new leaf is linked behind the old one. -/
theorem Stored.linkRight {oldNext : Nat} (h : Stored t used touched key value start bound hd t')
    (hp : page ∈ used) (hr : right ∈ used) (hnext : oldNext ≠ 0 → oldNext ∈ used ∧ oldNext ≠ page ∧
      oldNext ≠ right) (hne : right ≠ page)
    (htouched : page ∈ touched ∧ right ∈ touched ∧ oldNext ∈ touched) :
    ∃ t'', t'.linkRight page right oldNext = some t'' ∧
      Stored t used touched key value start bound
        {hd with rightmostLeaf := if oldNext = 0 then right else hd.rightmostLeaf} t'' ∧
      t''.mem page = setNextLeaf (t'.mem page) right ∧
      t''.mem right = setPrevLeaf (setNextLeaf (t'.mem right) oldNext) page ∧
      (oldNext ≠ 0 → t''.mem oldNext = setPrevLeaf (t'.mem oldNext) right) := by
  obtain ⟨free', halloc⟩ := h.allocates
  obtain ⟨htp, htr, htn⟩ := htouched
  have h₁ := h.setPage hr htr (setPrevLeaf (setNextLeaf (t'.mem right) oldNext) page)
  have h₂ := h₁.setPage hp htp (setNextLeaf (t'.mem page) right)
  obtain ⟨free₁, halloc₁⟩ := h₁.allocates
  obtain ⟨free₂, halloc₂⟩ := h₂.allocates
  have hpmem : (t'.setPage right (setPrevLeaf (setNextLeaf (t'.mem right) oldNext) page)).mem page =
      t'.mem page := setPage_mem_of_ne hne.symm
  rw [BPlusTree.linkRight, modifyPage_some (halloc.used_lt (Or.inl hr))]
  simp only [Option.bind_eq_bind, Option.bind_some]
  rw [modifyPage_some (halloc₁.used_lt (Or.inl hp)), hpmem, Option.bind_some, linkBack]
  by_cases hzero : oldNext = 0
  · rw [if_neg (not_not.mpr hzero), if_pos hzero]
    refine ⟨_, rfl, h₂.setRightmostLeaf right, setPage_mem_self _ _ _, ?_, fun hn => absurd hzero hn⟩
    exact (setPage_mem_of_ne hne).trans (setPage_mem_self _ _ _)
  · obtain ⟨hnu, hnp, hnr⟩ := hnext hzero
    rw [if_pos hzero, if_neg hzero, modifyPage_some (halloc₂.used_lt (Or.inl hnu))]
    refine ⟨_, rfl, h₂.setPage hnu htn _, ?_, ?_, ?_⟩
    · rw [setPage_mem_of_ne hnp.symm, setPage_mem_self]
    · rw [setPage_mem_of_ne hnr.symm, setPage_mem_of_ne hne, setPage_mem_self]
    · intro _
      rw [setPage_mem_self, setPage_mem_of_ne hnp, setPage_mem_of_ne hnr]

theorem initLeaf_eq (h : page < t.mapped) (root : Bool) :
    ∃ pg, t.initLeaf page root = some (t.setPage page pg).incLeafPages ∧ LeafPage pg [] ∧
      nextLeaf pg = 0 ∧ prevLeaf pg = 0 := by
  obtain ⟨hleaf, hnext, hprev⟩ := leafPage_init (t.mem page) (if root then 1 else 0)
  refine ⟨_, ?_, hleaf, hnext, hprev⟩
  rw [initLeaf, modifyPage_some h]
  rfl

/-- What the counters are after a leaf was added. -/
theorem Allocates.incLeafPages (h : Allocates t free used) :
    Allocates t.incLeafPages free used ∧
      t.incLeafPages.head = {t.head with leafPages := t.head.leafPages+1} := by
  refine ⟨h.frame rfl rfl rfl (h.mirrored.writeLeafPages _) rfl fun _ _ => rfl, ?_⟩
  simp only [BPlusTree.head, BPlusTree.incLeafPages, writeLeafPages, h.mirrored.leafPages_eq]

theorem leafSplitAt_completes {scratch : Page} {before after : List Nat} {front back : List LeafCell}
    (hfront : OldCells scratch before front) (hback : OldCells scratch after back)
    (h : Allocates t free used) (hp : page ∈ used) (hkey : key.length < 65536)
    (hnext : nextLeaf scratch ≠ 0 → nextLeaf scratch ∈ used ∧ nextLeaf scratch ≠ page) :
    Completes (t.Room (1+extentPages value.length) ∧
        Fits 24 4096 (t.mem page)
          (((front ++ newCell key value 0 hkey :: back).take mid).map LeafCell.enc) ∧
        leafBytes ((front ++ newCell key value 0 hkey :: back).drop mid) ≤ 4072)
      (t.leafSplitAt scratch page key value (before.map some ++ none :: after.map some) mid) fun r =>
        r.2 ∉ used ∧ ∃ start,
          Stored t (insert r.2 used) {page, r.2, nextLeaf scratch} key value start
            (t.metaPage.pages+1+extentPages value.length)
            (splitHead t.head (leafEntryBytes key.length (payloadOf key value)) (nextLeaf scratch) r.2)
            r.1 ∧
          (∃ pg, Packs 24 4096 (t.mem page) pg
              (((front ++ newCell key value start hkey :: back).take mid).map LeafCell.enc) ∧
            r.1.mem page = setNextLeaf pg r.2) ∧
          (∃ pg₀ pg, LeafPage pg₀ [] ∧ Packs 24 4096 pg₀ pg
              (((front ++ newCell key value start hkey :: back).drop mid).map LeafCell.enc) ∧
            r.1.mem r.2 = setPrevLeaf (setNextLeaf pg (nextLeaf scratch)) page) ∧
          (nextLeaf scratch ≠ 0 →
            r.1.mem (nextLeaf scratch) = setPrevLeaf (t.mem (nextLeaf scratch)) r.2) := by
  rw [leafSplitAt]
  refine Completes.bind (h.allocPage.weaken fun hr => ?_) ?_
  · exact (hr.1.mono (m := 1) (by omega) rfl).grows
  intro r₁ h₁
  obtain ⟨right, t₁⟩ := r₁
  obtain ⟨hfresh, ⟨free₁, halloc₁⟩, hmem₁, hmapped₁, hpages₁, hhead₁⟩ := h₁
  dsimp only at hfresh halloc₁ hmem₁ hmapped₁ hpages₁ hhead₁ ⊢
  have hru : right ∈ insert right used := Set.mem_insert _ _
  have hpu : page ∈ insert right used := Set.mem_insert_of_mem _ hp
  have hne : right ≠ page := fun heq => hfresh (heq ▸ hp)
  obtain ⟨pg₀, hinit, hpg₀, -, -⟩ := initLeaf_eq (halloc₁.used_lt hru) false
  obtain ⟨halloc₂, hhead₂⟩ := (halloc₁.setPage hru pg₀).incLeafPages
  rw [hinit]
  simp only [Option.bind_eq_bind, Option.bind_some]
  -- the state in which the two pages are packed
  generalize ht₂ : (t₁.setPage right pg₀).incLeafPages = t₂ at halloc₂ hhead₂
  have hright₂ : t₂.mem right = pg₀ := by
    rw [← ht₂]
    exact setPage_mem_self _ _ _
  have hmem₂ : ∀ p, p ≠ right → t₂.mem p = t.mem p := by
    intro p hpr
    rw [← ht₂, ← hmem₁]
    exact setPage_mem_of_ne hpr
  have hpages₂ : t₂.metaPage.pages = t₁.metaPage.pages := by rw [← ht₂]; rfl
  have hmapped₂ : t₂.mapped = t₁.mapped := by rw [← ht₂]; rfl
  have hgrants₂ : t₂.grants = t.grants := by rw [← ht₂]; exact congrArg Head.grants hhead₁
  refine Completes.bind ((leafRepackBoth_completes hfront hback halloc₂ hpu hru hne hkey mid).weaken
    fun hr => ?_) ?_
  · obtain ⟨hroom, hfits, hdrop⟩ := hr
    rw [hmem₂ page hne.symm, hright₂]
    exact ⟨hroom.mono (by omega) hgrants₂, hfits, hpg₀.roomFor (by simpa using hdrop)⟩
  intro t₃ h₃
  obtain ⟨start, hstored, hleft, hright⟩ := h₃
  rw [hmem₂ page hne.symm] at hleft
  rw [hright₂] at hright
  -- back to the state before the allocation
  have hsub : ({page, right} : Set Nat) ⊆ {page, right, nextLeaf scratch} := by
    intro p hin
    rcases hin with rfl | rfl
    · exact Set.mem_insert _ _
    · exact Set.mem_insert_of_mem _ (Set.mem_insert _ _)
  have hbase : Stored t (insert right used) {page, right, nextLeaf scratch} key value start
      (t.metaPage.pages+1+extentPages value.length) {t.head with leafPages := t.head.leafPages+1} t₃ := by
    have hrebased := (hstored.touch hsub).rebase t (fun p _ hnot => hmem₂ p fun heq =>
      hnot (heq ▸ Set.mem_insert_of_mem _ (Set.mem_insert _ _))) (hmapped₁.trans hmapped₂.ge)
    refine ⟨hrebased.fresh, hrebased.allocates, hrebased.mem, hrebased.mapped,
      hrebased.pages.trans (by omega), hrebased.held, hrebased.head.trans ?_⟩
    rw [hhead₂]
    show {t₁.head with leafPages := t₁.head.leafPages+1} = _
    rw [hhead₁]
  have hnext' : nextLeaf scratch ≠ 0 → nextLeaf scratch ∈ insert right used ∧
      nextLeaf scratch ≠ page ∧ nextLeaf scratch ≠ right := by
    intro hnz
    obtain ⟨hnu, hnp⟩ := hnext hnz
    exact ⟨Set.mem_insert_of_mem _ hnu, hnp, fun heq => hfresh (heq ▸ hnu)⟩
  obtain ⟨t₄, hlink, hdone, hpage₄, hright₄, hbehind₄⟩ :=
    (hbase.addBytes (leafEntryBytes key.length (payloadOf key value))).linkRight hpu hru hnext' hne
      ⟨Set.mem_insert _ _, Set.mem_insert_of_mem _ (Set.mem_insert _ _),
        Set.mem_insert_of_mem _ (Set.mem_insert_of_mem _ rfl)⟩
  rw [hlink]
  refine .some ⟨hfresh, start, hdone, ⟨_, hleft, hpage₄⟩, ⟨pg₀, _, hpg₀, hright, hright₄⟩, ?_⟩
  intro hnz
  obtain ⟨hnu, hnp, hnr⟩ := hnext' hnz
  have hkeep : t₃.mem (nextLeaf scratch) = t.mem (nextLeaf scratch) := by
    rw [hstored.mem _ hnu (fun hin => ?_), hmem₂ _ hnr]
    rcases hin with heq | heq
    · exact hnp heq
    · exact hnr heq
  rw [hbehind₄ hnz]
  exact congrArg (setPrevLeaf · right) hkeep

theorem resetSlots_links (pg : Page) : SameLinks pg (resetSlots pg) := fun k hk => by
  rw [resetSlots, setDataOff_of_disjoint (by omega), setCount_of_disjoint (by omega)]

/-- The keys of a leaf that is split, the new one at its place. -/
def splitKeys (cells : List LeafCell) (key : Bytes) : List Bytes :=
  (cells.take (insertionPoint (cells.map LeafCell.key) key)).map LeafCell.key ++
    key :: (cells.drop (insertionPoint (cells.map LeafCell.key) key)).map LeafCell.key

theorem getElem?_splitKey {scratch : Page} {before after : List Nat} {front back : List LeafCell}
    (hfront : OldCells scratch before front) (hback : OldCells scratch after back) {i : Nat} {k : Bytes}
    (hk : (front.map LeafCell.key ++ key :: back.map LeafCell.key)[i]? = some k) :
    (before.map some ++ none :: after.map some)[i]? >>= splitKey 6 scratch key = some k := by
  have hside : ∀ {offs cs}, OldCells scratch offs cs →
      List.Forall₂ (fun o k => splitKey 6 scratch key o = some k) (offs.map some)
        (cs.map LeafCell.key) := by
    intro offs cs hcs
    induction hcs with
    | nil => exact .nil
    | cons hentry _ ih => exact .cons (hentry.splitKey_leaf key) ih
  have hall := List.rel_append (hside hfront) (.cons (show splitKey 6 scratch key none = some key from rfl)
    (hside hback))
  obtain ⟨hlt, rfl⟩ := List.getElem?_eq_some_iff.mp hk
  have hlen := List.Forall₂.length_eq hall
  rw [List.getElem?_eq_getElem (hlen ▸ hlt)]
  exact List.Forall₂.get hall (hlen ▸ hlt) hlt

/-- A split whose parts fit. -/
theorem splitSizes_spec (hleaf : leafBytes cells ≤ 4072)
    (halone : leafEntryBytes key.length (payloadOf key value) ≤ 4072)
    (hover : 4072 < (splitSizes cells key value).sum) :
    ∃ mid, splitMid (splitSizes cells key value) = some mid ∧ 0 < mid ∧
      mid < (splitSizes cells key value).length ∧ ((splitSizes cells key value).drop mid).sum ≤ 4072 ∧
      (((splitSizes cells key value).take mid).sum ≤ 4072 ↔
        SplitFits 4072 (splitSizes cells key value)) := by
  have hsum := splitSizes_sum cells key value
  refine splitMid_spec 4072 ?_ hover ?_ (by omega)
  · cases cells with
    | nil =>
      rw [leafBytes_nil] at hsum
      omega
    | cons c cells =>
      have hlen := (splitCells_perm (c :: cells) (newCell key value 0 (by
        rw [leafEntryBytes] at halone; omega))).length_eq
      rw [← List.length_map LeafCell.size, splitCells_sizes] at hlen
      rw [hlen, List.length_cons, List.length_cons]
      omega
  · intro x hx
    rw [← splitCells_sizes cells 0 (by rw [leafEntryBytes] at halone; omega)] at hx
    obtain ⟨c, hc, rfl⟩ := List.mem_map.mp hx
    rcases List.mem_cons.mp ((splitCells_perm cells _).mem_iff.mp hc) with rfl | hc
    · rw [newCell_size]
      exact halone
    · have hle : c.size ≤ leafBytes cells := List.le_sum_of_mem (List.mem_map_of_mem hc)
      omega

theorem leafSplit_completes (h : Allocates t free used) (hp : page ∈ used)
    (hleaf : LeafPage (t.mem page) cells) (hkey : key.length < 65536)
    (halone : leafEntryBytes key.length (payloadOf key value) ≤ 4072)
    (hnext : nextLeaf (t.mem page) ≠ 0 → nextLeaf (t.mem page) ∈ used ∧ nextLeaf (t.mem page) ≠ page) :
    Completes (t.Room (1+extentPages value.length) ∧ SplitFits 4072 (splitSizes cells key value))
      (t.leafSplit page key value) fun r => ∃ start,
        ((splitSizes cells key value).sum ≤ 4072 ∧ r.2 = none ∧
          Repacked t used page key value (splitCells cells (newCell key value start hkey)) start r.1) ∨
        (4072 < (splitSizes cells key value).sum ∧ ∃ right mid a b,
          splitMid (splitSizes cells key value) = some mid ∧
          (splitKeys cells key)[mid-1]? = some a ∧ (splitKeys cells key)[mid]? = some b ∧
          r.2 = some ⟨page, right, truncatedSeparator a b⟩ ∧
          LeafSplit t used page key value (splitCells cells (newCell key value start hkey)) right mid
            start r.1) := by
  have hip := insertionPoint_le (cells.map LeafCell.key) key
  rw [List.length_map] at hip
  obtain ⟨before, after, horder, hfront, hback⟩ := splitOrder_eq (fun i c => hleaf.get) hleaf.counted hip
  have hsizes : _ = some (splitSizes cells key value) :=
    splitSizes_eq (leafEntryBytes key.length (payloadOf key value))
      (fun _ _ hentry => hentry.scratchLeafSize) hfront hback
  have hreset := leafPage_reset hleaf.kind
  have halloc := h.setPage hp (resetSlots (t.mem page))
  have hcells : ∀ start, splitCells cells (newCell key value start hkey) =
      cells.take (insertionPoint (cells.map LeafCell.key) key) ++ newCell key value start hkey ::
        cells.drop (insertionPoint (cells.map LeafCell.key) key) := by
    intro start
    rw [splitCells, newCell_key]
  rw [leafSplit, pageBytes_eq (h.used_lt hp)]
  simp only [Option.bind_eq_bind, Option.bind_some, hleaf.insertionPoint key, horder, hsizes,
    modifyPage_some (h.used_lt hp)]
  by_cases hsum : (splitSizes cells key value).sum ≤ 4072
  · -- the entries fit into the page once it is packed anew
    rw [if_pos hsum]
    have hfits : ∀ start, leafBytes (splitCells cells (newCell key value start hkey)) ≤ 4072 := by
      intro start
      rw [leafBytes, splitCells_sizes]
      exact hsum
    refine Completes.bind ((leafRepack_new hfront hback halloc hp hkey).weaken fun hr => ⟨?_, ?_⟩) ?_
    · exact hr.1.mono (by rw [setPage_metaPage]; omega) rfl
    · rw [setPage_mem_self, ← hcells]
      exact hreset.roomFor (by simpa using hfits 0)
    · intro t₁ h₁
      obtain ⟨start, hstored, hpacks⟩ := h₁
      rw [setPage_mem_self, ← hcells] at hpacks
      obtain ⟨hdone, hlinks⟩ := hreset.packed hpacks (by simpa using hfits start)
      refine .some ⟨start, Or.inl ⟨hsum, rfl, (hstored.of_setPage rfl).addBytes _, hdone, ?_⟩⟩
      intro k hk
      exact (hlinks k hk).trans (resetSlots_links (t.mem page) k hk)
  · rw [if_neg hsum]
    obtain ⟨mid, hmid, hpos, hlt, hdrop, htake⟩ := splitSizes_spec hleaf.fits halone (not_le.mp hsum)
    have hlen : (splitKeys cells key).length = (splitSizes cells key value).length := by
      simp [splitKeys, splitSizes]
    have hleft := List.getElem?_eq_getElem (l := splitKeys cells key) (i := mid-1) (by omega)
    have hright := List.getElem?_eq_getElem (l := splitKeys cells key) (i := mid) (by omega)
    have hleftKey := getElem?_splitKey hfront hback hleft
    have hrightKey := getElem?_splitKey hfront hback hright
    simp only [Option.bind_eq_bind] at hleftKey hrightKey
    simp only [hmid, hleftKey, hrightKey, Option.bind_some]
    refine Completes.bind ((leafSplitAt_completes hfront hback halloc hp hkey hnext).weaken
      fun hr => ⟨hr.1, ?_, ?_⟩) ?_
    · rw [setPage_mem_self, ← hcells]
      refine hreset.roomFor ?_
      rw [leafBytes_nil, Nat.zero_add, leafBytes_take, splitCells_sizes]
      exact htake.mpr hr.2
    · rw [← hcells, leafBytes_drop, splitCells_sizes]
      exact hdrop
    · intro r hr
      obtain ⟨hfresh, start, hstored, hleftPage, hrightPage, hbehind⟩ := hr
      rw [← hcells, setPage_mem_self] at hleftPage
      rw [← hcells] at hrightPage
      refine .some ⟨start, Or.inr ⟨not_le.mp hsum, r.2, mid, _, _, rfl, hleft, hright, rfl, hfresh,
        hstored.of_setPage (Set.mem_insert _ _), hleftPage, hrightPage, ?_⟩⟩
      intro hnz
      rw [hbehind hnz, setPage_mem_of_ne (hnext hnz).2]

end Leaf

section Internal

variable {t t' : BPlusTree} {free : List Nat} {used : Set Nat} {page right child mid leftmost : Nat}
  {key : Bytes} {scratch pg pg' : Page} {base seps : List (Bytes × Nat)}

/-- An element of the order of an internal split and its entry. -/
def PicksSep (scratch : Page) (new : Bytes × Nat) : Option Nat → Bytes × Nat → Prop
  | none, e => e = new
  | some eo, e => EntryAt scratch eo (sepEnc e)

theorem internalRepack_completes {order : List (Option Nat)}
    (h : List.Forall₂ (PicksSep scratch (key, child)) order seps) (pg : Page) :
    Completes (Fits 16 4096 pg (seps.map sepEnc)) (internalRepack scratch key child order pg)
      fun pg' => Packs 16 4096 pg pg' (seps.map sepEnc) := by
  induction h generalizing pg with
  | nil => exact .some (.refl pg)
  | @cons o e order seps hpick hrest ih =>
    -- the next entry is appended in either case
    have hstep : internalRepack scratch key child (o :: order) pg =
        appendEntry 16 4096 pg (sepEnc e) >>= internalRepack scratch key child order := by
      cases o with
      | none =>
        rw [internalRepack, internalAppendEntry, show e = (key, child) from hpick]
        rfl
      | some eo =>
        have hentry : EntryAt scratch eo (sepEnc e) := hpick
        simp only [internalRepack, internalAppendFromScratchSlot, hentry.sepKey.1, hentry.sepBytesAt,
          Option.bind_eq_bind, Option.bind_some]
    rw [hstep, List.map_cons]
    refine Completes.bind ((appendEntry_completes (by omega) (by omega) pg (sepEnc e)).weaken
      fun hfits => hfits.mono (by simp)) ?_
    intro pg₁ hpacks
    exact ((ih pg₁).weaken fun hfits => hpacks.fits hfits).mono fun pg' hpacks' => hpacks.trans hpacks'

/-- The separators of an internal page that is split, the new one at its place. -/
def splitSeps (seps : List (Bytes × Nat)) (new : Bytes × Nat) : List (Bytes × Nat) :=
  seps.take (routeIndex (seps.map Prod.fst) new.1) ++ new :: seps.drop (routeIndex (seps.map Prod.fst) new.1)

theorem splitSeps_perm (seps : List (Bytes × Nat)) (new : Bytes × Nat) :
    (splitSeps seps new).Perm (new :: seps) := by
  refine List.perm_middle.trans ?_
  rw [List.take_append_drop]

theorem sepBytes_splitSeps (seps : List (Bytes × Nat)) (new : Bytes × Nat) :
    sepBytes (splitSeps seps new) = sepSize new+sepBytes seps :=
  ((splitSeps_perm seps new).map sepSize).sum_eq

/-- The separators are in the old page and in a new one; the one at `mid` is in neither, and its child
is the leftmost one of the new page. -/
structure InternalSplit (t : BPlusTree) (used : Set Nat) (page : Nat) (order : List (Bytes × Nat))
    (right mid : Nat) (t' : BPlusTree) : Prop where
  fresh : right ∉ used
  allocates : ∃ free', Allocates t' free' (insert right used)
  mem : ∀ p ∈ used, p ≠ page → t'.mem p = t.mem p
  mapped : t.mapped ≤ t'.mapped
  pages : t'.metaPage.pages ≤ t.metaPage.pages+1
  head : t'.head = t.head
  leftPage : Packs 16 4096 (resetSlots (t.mem page)) (t'.mem page) ((order.take mid).map sepEnc)
  rightPage : ∃ e pg₀, order[mid]? = some e ∧ InternalPage pg₀ e.2 [] ∧
    Packs 16 4096 pg₀ (t'.mem right) ((order.drop (mid+1)).map sepEnc)

theorem internalSplitAt_completes {order : List (Option Nat)} {first : Nat}
    (hpick : List.Forall₂ (PicksSep scratch (key, child)) order seps) (h : Allocates t free used)
    (hp : page ∈ used) (hbound : first < 2^64) :
    Completes (t.Room 1 ∧ Fits 16 4096 (t.mem page) ((seps.take mid).map sepEnc) ∧
        sepBytes (seps.drop (mid+1)) ≤ 4080)
      (t.internalSplitAt scratch page key child order mid first) fun r =>
        r.2 ∉ used ∧ (∃ free', Allocates r.1 free' (insert r.2 used)) ∧
        (∀ p ∈ used, p ≠ page → r.1.mem p = t.mem p) ∧ t.mapped ≤ r.1.mapped ∧
        r.1.metaPage.pages ≤ t.metaPage.pages+1 ∧ r.1.head = t.head ∧
        Packs 16 4096 (t.mem page) (r.1.mem page) ((seps.take mid).map sepEnc) ∧
        ∃ pg₀, InternalPage pg₀ first [] ∧
          Packs 16 4096 pg₀ (r.1.mem r.2) ((seps.drop (mid+1)).map sepEnc) := by
  rw [internalSplitAt]
  refine Completes.bind (h.allocPage.weaken fun hr => hr.1.grows) ?_
  intro r₁ h₁
  obtain ⟨right, t₁⟩ := r₁
  obtain ⟨hfresh, ⟨free₁, halloc₁⟩, hmem₁, hmapped₁, hpages₁, hhead₁⟩ := h₁
  dsimp only at hfresh halloc₁ hmem₁ hmapped₁ hpages₁ hhead₁ ⊢
  have hru : right ∈ insert right used := Set.mem_insert _ _
  have hpu : page ∈ insert right used := Set.mem_insert_of_mem _ hp
  have hne : right ≠ page := fun heq => hfresh (heq ▸ hp)
  have hinit := internalPage_init (t₁.mem right) hbound
  rw [initInternal, modifyPage_some (halloc₁.used_lt hru)]
  simp only [Option.bind_eq_bind, Option.bind_some]
  rw [modifyPage_some (t := t₁.setPage right _) (halloc₁.used_lt hru)]
  rw [setPage_mem_self, setPage_setPage, Option.bind_some]
  generalize setLeftmostChild _ first = pg₀ at hinit ⊢
  have halloc₂ := halloc₁.setPage hru pg₀
  have hpage₂ : (t₁.setPage right pg₀).mem page = t.mem page := by
    rw [setPage_mem_of_ne hne.symm, hmem₁]
  refine Completes.bind (P := fun t₃ => ∃ pg, t₃ = (t₁.setPage right pg₀).setPage page pg ∧
    Packs 16 4096 (t.mem page) pg ((seps.take mid).map sepEnc))
    (modifyPage_completes (halloc₂.used_lt hpu) ?_) ?_
  · rw [hpage₂]
    exact ((internalRepack_completes (List.forall₂_take mid hpick) (t.mem page)).weaken
      fun hr => hr.2.1).mono fun pg hpg => ⟨pg, rfl, hpg⟩
  intro t₃ h₃
  obtain ⟨pg, rfl, hleft⟩ := h₃
  have halloc₃ := halloc₂.setPage hpu pg
  refine Completes.bind (P := fun t₄ => ∃ pg', t₄ = ((t₁.setPage right pg₀).setPage page pg).setPage right pg' ∧
    Packs 16 4096 pg₀ pg' ((seps.drop (mid+1)).map sepEnc))
    (modifyPage_completes (halloc₃.used_lt hru) ?_) ?_
  · rw [setPage_mem_of_ne hne, setPage_mem_self]
    refine ((internalRepack_completes (List.forall₂_drop (mid+1) hpick) pg₀).weaken
      fun hr => hinit.roomFor ?_).mono fun pg' hpg' => ⟨pg', rfl, hpg'⟩
    simpa using hr.2.2
  intro t₄ h₄
  obtain ⟨pg', rfl, hright⟩ := h₄
  refine .some ⟨hfresh, ⟨free₁, halloc₃.setPage hru pg'⟩, ?_, hmapped₁, hpages₁, hhead₁, ?_, pg₀, hinit, ?_⟩
  · intro p hpu' hpp
    have hpr : p ≠ right := fun heq => hfresh (heq ▸ hpu')
    dsimp only
    rw [setPage_mem_of_ne hpr, setPage_mem_of_ne hpp, setPage_mem_of_ne hpr, hmem₁]
  · dsimp only
    rw [setPage_mem_of_ne hne.symm, setPage_mem_self]
    exact hleft
  · dsimp only
    rw [setPage_mem_self]
    exact hright

theorem splitSeps_bound (key : Bytes) (hpage : Separators pg leftmost seps) (hchild : child < 2^64) :
    ∀ e ∈ splitSeps seps (key, child), e.2 < 2^64 := by
  intro e he
  rcases List.mem_cons.mp ((splitSeps_perm _ _).mem_iff.mp he) with rfl | hin
  · exact hchild
  · exact hpage.bound e hin

/-- The order of an internal split, with the sizes, keys and children that are read through it. -/
theorem internalOrder_eq (key : Bytes) (hpage : Separators scratch leftmost seps) (hchild : child < 2^64) :
    ∃ ip order, separatorAfter scratch key = some ip ∧ splitOrder 16 scratch ip = some order ∧
      List.Forall₂ (PicksSep scratch (key, child)) order (splitSeps seps (key, child)) ∧
      order.mapM (splitSize (scratchInternalSize scratch) (10+key.length+2)) =
        some ((splitSeps seps (key, child)).map sepSize) ∧
      ∀ (i : Nat) e, (splitSeps seps (key, child))[i]? = some e → ∃ o, order[i]? = some o ∧
        splitKey 10 scratch key o = some e.1 ∧ splitChild scratch child o = some e.2 := by
  have hip := routeIndex_le (seps.map Prod.fst) key
  rw [List.length_map] at hip
  obtain ⟨before, after, horder, hfront, hback⟩ := splitOrder_eq hpage.get hpage.counted hip
  have hside : ∀ {offs es}, List.Forall₂ (fun eo e => EntryAt scratch eo (sepEnc e)) offs es →
      List.Forall₂ (PicksSep scratch (key, child)) (offs.map some) es := by
    intro offs es hes
    induction hes with
    | nil => exact .nil
    | cons hentry _ ih => exact .cons hentry ih
  have hpicks : List.Forall₂ (PicksSep scratch (key, child))
      (before.map some ++ none :: after.map some) (splitSeps seps (key, child)) :=
    List.rel_append (hside hfront) (.cons rfl (hside hback))
  refine ⟨_, _, hpage.separatorAfter key, horder, hpicks, ?_, ?_⟩
  · rw [splitSizes_eq _ (fun _ _ hentry => hentry.scratchInternalSize) hfront hback, splitSeps,
      List.map_append, List.map_cons]
    rfl
  · intro i e he
    have hbound := splitSeps_bound key hpage hchild e (List.mem_of_getElem? he)
    obtain ⟨hlt, rfl⟩ := List.getElem?_eq_some_iff.mp he
    have hlen := List.Forall₂.length_eq hpicks
    refine ⟨_, List.getElem?_eq_getElem (hlen ▸ hlt), ?_⟩
    have hpick := List.Forall₂.get hpicks (hlen ▸ hlt) hlt
    simp only [List.get_eq_getElem] at hpick
    generalize (before.map some ++ none :: after.map some)[i] = o at hpick ⊢
    cases o with
    | none =>
      rw [show (splitSeps seps (key, child))[i] = (key, child) from hpick]
      exact ⟨rfl, rfl⟩
    | some eo =>
      have hentry : EntryAt scratch eo (sepEnc (splitSeps seps (key, child))[i]) := hpick
      exact ⟨hentry.splitKey_sep key, hentry.sepChild hbound⟩

theorem splitSepSizes_spec (hpage : sepBytes seps ≤ 4080) (halone : sepSize (key, child) ≤ 4080)
    (hover : 4080 < sepBytes (splitSeps seps (key, child))) :
    ∃ mid, splitMid ((splitSeps seps (key, child)).map sepSize) = some mid ∧ 0 < mid ∧
      mid < (splitSeps seps (key, child)).length ∧
      sepBytes ((splitSeps seps (key, child)).drop (mid+1)) ≤ 4080 ∧
      (sepBytes ((splitSeps seps (key, child)).take mid) ≤ 4080 ↔
        SplitFits 4080 ((splitSeps seps (key, child)).map sepSize)) := by
  have hsum := sepBytes_splitSeps seps (key, child)
  obtain ⟨mid, hmid, hpos, hlt, hdrop, htake⟩ :
      ∃ mid, splitMid ((splitSeps seps (key, child)).map sepSize) = some mid ∧ _ := by
    refine splitMid_spec 4080 ?_ hover ?_ (by rw [← sepBytes]; omega)
    · rw [List.length_map, (splitSeps_perm _ _).length_eq]
      cases seps with
      | nil =>
        rw [sepBytes_nil] at hsum
        omega
      | cons e seps =>
        rw [List.length_cons, List.length_cons]
        omega
    · intro x hx
      obtain ⟨e, he, rfl⟩ := List.mem_map.mp hx
      rcases List.mem_cons.mp ((splitSeps_perm _ _).mem_iff.mp he) with rfl | he
      · exact halone
      · have hle : sepSize e ≤ sepBytes seps := List.le_sum_of_mem (List.mem_map_of_mem he)
        omega
  rw [List.length_map] at hlt
  rw [← List.map_take] at htake
  rw [← List.map_drop, List.drop_eq_getElem_cons hlt, List.map_cons, List.sum_cons, ← sepBytes] at hdrop
  exact ⟨mid, hmid, hpos, hlt, by omega, htake⟩

theorem splitMid_bounds {sizes : List Nat} {mid : Nat} (h : splitMid sizes = some mid) :
    0 < mid ∧ mid < sizes.length := by
  rw [splitMid] at h
  split_ifs at h with hlen
  obtain rfl := Option.some.inj h
  omega

theorem internalSplit_completes (h : Allocates t free used) (hp : page ∈ used)
    (hpage : Separators (t.mem page) leftmost seps) (hchild : child < 2^64) :
    Completes ((sepBytes seps ≤ 4080 ∧ sepSize (key, child) ≤ 4080) ∧ t.Room 1 ∧
        SplitFits 4080 ((splitSeps seps (key, child)).map sepSize))
      (t.internalSplit page key child) fun r =>
        (sepBytes (splitSeps seps (key, child)) ≤ 4080 ∧ r.2 = none ∧
          ∃ pg, r.1 = t.setPage page pg ∧ InternalPage pg leftmost (splitSeps seps (key, child))) ∨
        (4080 < sepBytes (splitSeps seps (key, child)) ∧ ∃ right mid a b,
          splitMid ((splitSeps seps (key, child)).map sepSize) = some mid ∧
          (splitSeps seps (key, child))[mid-1]? = some a ∧ (splitSeps seps (key, child))[mid]? = some b ∧
          r.2 = some ⟨page, right, truncatedSeparator a.1 b.1⟩ ∧
          InternalSplit t used page (splitSeps seps (key, child)) right mid r.1) := by
  obtain ⟨ip, order, hip, horder, hpicks, hsizes, hread⟩ := internalOrder_eq key hpage hchild
  have hreset := hpage.reset
  have halloc := h.setPage hp (resetSlots (t.mem page))
  have hbound := splitSeps_bound key hpage hchild
  rw [internalSplit, pageBytes_eq (h.used_lt hp)]
  simp only [Option.bind_eq_bind, Option.bind_some, hip, horder, hsizes, modifyPage_some (h.used_lt hp)]
  by_cases hsum : sepBytes (splitSeps seps (key, child)) ≤ 4080
  · rw [if_pos (show ((splitSeps seps (key, child)).map sepSize).sum ≤ 4096-16 from hsum)]
    refine Completes.bind (P := fun t₁ => ∃ pg, t₁ = t.setPage page pg ∧
      InternalPage pg leftmost (splitSeps seps (key, child)))
      (modifyPage_completes (halloc.used_lt hp) ?_) ?_
    · rw [setPage_mem_self]
      refine ((internalRepack_completes hpicks _).weaken fun _ => hreset.roomFor (by simpa using hsum)).mono ?_
      intro pg hpacks
      have hdone := hreset.packed hpacks (by simpa using hsum) hbound
      exact ⟨pg, setPage_setPage _ _ _ _, hdone⟩
    · intro t₁ h₁
      exact .some (Or.inl ⟨hsum, rfl, h₁⟩)
  · rw [if_neg (show ¬ ((splitSeps seps (key, child)).map sepSize).sum ≤ 4096-16 from hsum)]
    have hspec := fun hr : sepBytes seps ≤ 4080 ∧ sepSize (key, child) ≤ 4080 =>
      splitSepSizes_spec hr.1 hr.2 (not_le.mp hsum)
    cases hmid : splitMid ((splitSeps seps (key, child)).map sepSize) with
    | none =>
      refine ⟨(fun a ha => by cases ha), fun _ hr => ?_⟩
      obtain ⟨mid, hsome, -⟩ := hspec hr.1
      rw [hmid] at hsome
      cases hsome
    | some mid =>
      obtain ⟨hpos, hlt⟩ := splitMid_bounds hmid
      rw [List.length_map] at hlt
      have hleft := List.getElem?_eq_getElem (l := splitSeps seps (key, child)) (i := mid-1) (by omega)
      have hlift := List.getElem?_eq_getElem (l := splitSeps seps (key, child)) (i := mid) hlt
      obtain ⟨o₁, ho₁, hkey₁, -⟩ := hread _ _ hleft
      obtain ⟨o₂, ho₂, hkey₂, hchild₂⟩ := hread _ _ hlift
      simp only [ho₁, hkey₁, ho₂, hkey₂, hchild₂, Option.bind_some]
      refine Completes.bind ((internalSplitAt_completes hpicks halloc hp
        (hbound _ (List.getElem_mem hlt))).weaken fun hr => ?_) ?_
      · obtain ⟨mid', hmid', -, -, hdrop, htake⟩ := hspec hr.1
        rw [hmid] at hmid'
        cases hmid'
        refine ⟨hr.2.1, ?_, hdrop⟩
        rw [setPage_mem_self]
        refine hreset.roomFor ?_
        rw [sepBytes_nil, Nat.zero_add]
        exact htake.mpr hr.2.2
      · intro r hr
        obtain ⟨hfresh, hfree, hmem, hmapped, hpages, hhead, hleftPage, pg₀, hpg₀, hrightPage⟩ := hr
        rw [setPage_mem_self] at hleftPage
        refine .some (Or.inr ⟨not_le.mp hsum, r.2, mid, _, _, rfl, hleft, hlift, rfl, hfresh, hfree, ?_,
          hmapped, hpages, hhead, hleftPage, _, pg₀, hlift, hpg₀, hrightPage⟩)
        intro p hpu hpp
        rw [hmem p hpu hpp, setPage_mem_of_ne hpp]

end Internal

end BPlusTree

end ZenDB
