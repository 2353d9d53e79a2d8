import Mathlib.Data.Set.Insert
import ZenDB.BPlusTree.Freelist
import ZenDB.Lib.Completes

namespace ZenDB

open Memory Slotted

namespace BPlusTree

/-! What the allocation of pages and extents keeps. -/

/-- The two copies of the counters are the same. -/
def Mirrored (t : BPlusTree) : Prop :=
  t.stats = ⟨t.metaPage.entries, t.metaPage.pages, t.metaPage.freePages, t.metaPage.leafPages,
    t.metaPage.leafEntryBytes⟩

/-- Every page of the file but the first is either in use or once on the freelist. -/
structure Allocates (t : BPlusTree) (free : List Nat) (used : Set Nat) : Prop where
  chain : FreeChain t.mem t.metaPage.freeHead free
  nodup : free.Nodup
  freeRange : ∀ p ∈ free, 0 < p ∧ p < t.metaPage.pages ∧ p ∉ used
  usedRange : ∀ p ∈ used, 0 < p ∧ p < t.metaPage.pages
  covers : ∀ p, 0 < p → p < t.metaPage.pages → p ∈ free ∨ p ∈ used
  counted : t.metaPage.freePages = free.length
  pagesPos : 0 < t.metaPage.pages
  pagesLe : t.metaPage.pages ≤ t.mapped
  mappedLt : t.mapped < 2^51
  mirrored : t.Mirrored

/-- The mapping has `pages` pages, or the system lets it grow to them. -/
def Grows (t : BPlusTree) (pages : Nat) : Prop :=
  pages ≤ t.mapped ∨ max (t.mapped*2) pages < 2^51 ∧ t.grants (max (t.mapped*2) pages) = true

/-- The file can grow by `n` pages, in any number of steps. -/
def Room (t : BPlusTree) (n : Nat) : Prop :=
  t.metaPage.pages+n < 2^50 ∧ ∀ size < 2^51, t.grants size = true

/-- What the allocator does not touch. -/
structure Head where
  root : Nat
  entries : Nat
  rightmostLeaf : Nat
  leafPages : Nat
  leafEntryBytes : Nat
  config : Config
  grants : Nat → Bool

def head (t : BPlusTree) : Head :=
  ⟨t.metaPage.root, t.metaPage.entries, t.metaPage.rightmostLeaf, t.metaPage.leafPages,
    t.metaPage.leafEntryBytes, t.config, t.grants⟩

variable {t t' : BPlusTree} {free : List Nat} {used : Set Nat}

section Mirrored

variable (h : t.Mirrored) (n : Nat)

include h

theorem Mirrored.leafPages_eq : t.stats.leafPages = t.metaPage.leafPages := by rw [h]

theorem Mirrored.leafEntryBytes_eq : t.stats.leafEntryBytes = t.metaPage.leafEntryBytes := by rw [h]

theorem Mirrored.freePages_eq : t.stats.freePages = t.metaPage.freePages := by rw [h]

theorem Mirrored.setRightmostLeaf : (t.setRightmostLeaf n).Mirrored := h

theorem Mirrored.setPagesCounter : (t.setPagesCounter n).Mirrored := by
  rw [Mirrored, BPlusTree.setPagesCounter, h]

theorem Mirrored.writeLeafPages : (t.writeLeafPages n).Mirrored := by
  rw [Mirrored, BPlusTree.writeLeafPages, h]

theorem Mirrored.writeLeafEntryBytes : (t.writeLeafEntryBytes n).Mirrored := by
  rw [Mirrored, BPlusTree.writeLeafEntryBytes, h]

theorem Mirrored.of_freePages {head : Nat}
    (hmeta : t'.metaPage = {t.metaPage with freeHead := head, freePages := n})
    (hstats : t'.stats = {t.stats with freePages := n}) : t'.Mirrored := by
  rw [Mirrored, hstats, hmeta, show t.stats = _ from h]

end Mirrored

/-- The file grows or is large enough. -/
theorem ensureCapacity_completes {n : Nat} (h : t.mapped < 2^51) :
    Completes (t.Grows n) (t.ensureCapacity n) fun t' =>
      n ≤ t'.mapped ∧ t.mapped ≤ t'.mapped ∧ t'.mapped < 2^51 ∧ t' = {t with mapped := t'.mapped} := by
  rw [ensureCapacity]
  split_ifs with hle hlt
  · exact .some ⟨hle, le_rfl, h, rfl⟩
  · exact .some ⟨le_max_right _ _, by simp only; omega, hlt.1, rfl⟩
  · exact ⟨(fun _ hfalse => by cases hfalse), fun _ hgrows => hgrows.elim hle hlt⟩

theorem Room.mono {n m : Nat} (h : t.Room n) (hpages : t'.metaPage.pages+m ≤ t.metaPage.pages+n)
    (hgrants : t'.grants = t.grants) : t'.Room m :=
  ⟨hpages.trans_lt h.1, hgrants ▸ h.2⟩

theorem Room.grows {n : Nat} (h : t.Room n) : t.Grows (t.metaPage.pages+n) := by
  obtain ⟨hpages, hgrants⟩ := h
  by_cases hle : t.metaPage.pages+n ≤ t.mapped
  · exact Or.inl hle
  · have hsize : max (t.mapped*2) (t.metaPage.pages+n) < 2^51 := by omega
    exact Or.inr ⟨hsize, hgrants _ hsize⟩

theorem Allocates.freelist (h : Allocates t free used) : Freelist t free := by
  refine ⟨h.chain, h.nodup, ?_, ?_, h.pagesLe, h.mappedLt⟩
  · intro p hp
    obtain ⟨hpos, hlt, -⟩ := h.freeRange p hp
    exact ⟨hpos, hlt⟩
  · rw [h.mirrored.freePages_eq, h.counted]

/-- A page that was free or new. -/
structure Allocated (t : BPlusTree) (used : Set Nat) (p : Nat) (t' : BPlusTree) : Prop where
  fresh : p ∉ used
  allocates : ∃ free', Allocates t' free' (insert p used)
  mem : t'.mem = t.mem
  mapped : t.mapped ≤ t'.mapped
  pages : t'.metaPage.pages ≤ t.metaPage.pages+1
  head : t'.head = t.head

/-- Consecutive pages that were free or new. -/
structure AllocatedRun (t : BPlusTree) (used : Set Nat) (start n : Nat) (t' : BPlusTree) : Prop where
  fresh : ∀ p, start ≤ p → p < start+n → p ∉ used
  allocates : ∃ free', Allocates t' free' (used ∪ {p | start ≤ p ∧ p < start+n})
  mem : ∀ p ∈ used, t'.mem p = t.mem p
  mapped : t.mapped ≤ t'.mapped
  bound : start+n ≤ t'.metaPage.pages
  pages : t'.metaPage.pages ≤ t.metaPage.pages+n
  head : t'.head = t.head

/-- A run of the freelist comes into use. -/
theorem Allocates.takeRun {pre post : List Nat} {start n : Nat} (hn : 0 < n)
    (h : Allocates t (pre ++ descending n (start+n) ++ post) used) (htaken : RunTaken t pre n post t') :
    AllocatedRun t used start n t' := by
  have hrun : ∀ p, p ∈ descending n (start+n) ↔ start ≤ p ∧ p < start+n := by
    intro p
    rw [mem_descending (Nat.le_add_left n start), Nat.add_sub_cancel]
  have hinrun : ∀ p, start ≤ p → p < start+n → p ∈ pre ++ descending n (start+n) ++ post :=
    fun p h₁ h₂ => List.mem_append_left _ (List.mem_append_right _ ((hrun p).mpr ⟨h₁, h₂⟩))
  have hsplit : ∀ p, p ∈ pre ++ descending n (start+n) ++ post ↔ p ∈ pre ++ post ∨ start ≤ p ∧ p < start+n := by
    intro p
    rw [← hrun]
    simp only [List.mem_append]
    tauto
  have hdisj : ∀ p ∈ pre ++ post, p ∉ descending n (start+n) := by
    have hperm : (pre ++ descending n (start+n) ++ post).Perm (descending n (start+n) ++ (pre ++ post)) := by
      rw [← List.append_assoc]
      exact List.perm_append_comm.append_right post
    obtain ⟨-, -, hne⟩ := List.nodup_append.mp (hperm.nodup_iff.mp h.nodup)
    exact fun p hp hin => hne p hin p hp rfl
  obtain ⟨head, hmeta⟩ := htaken.metaPage
  have hpages : t'.metaPage.pages = t.metaPage.pages := by rw [hmeta]
  have hlist := htaken.freelist
  refine ⟨?_, ⟨pre ++ post, ?_⟩, ?_, htaken.mapped.ge, ?_, ?_, ?_⟩
  · intro p h₁ h₂
    exact (h.freeRange p (hinrun p h₁ h₂)).2.2
  · refine ⟨hlist.chain, hlist.nodup, ?_, ?_, ?_, ?_, ?_, hlist.pagesLe, hlist.mappedLt, ?_⟩
    · intro p hp
      obtain ⟨h₁, h₂⟩ := hlist.range p hp
      refine ⟨h₁, h₂, ?_⟩
      rintro (hin | hin)
      · exact (h.freeRange p ((hsplit p).mpr (Or.inl hp))).2.2 hin
      · exact hdisj p hp ((hrun p).mpr hin)
    · intro p hp
      rw [hpages]
      rcases hp with hp | hp
      · exact h.usedRange p hp
      · have hr := h.freeRange p (hinrun p hp.1 hp.2)
        exact ⟨hr.1, hr.2.1⟩
    · intro p h₁ h₂
      rcases h.covers p h₁ (h₂.trans_eq hpages) with hp | hp
      · exact ((hsplit p).mp hp).imp_right Or.inr
      · exact Or.inr (Or.inl hp)
    · have hcounted := hlist.counted
      rw [htaken.stats] at hcounted
      rw [hmeta]
      exact hcounted
    · rw [hpages]
      exact h.pagesPos
    · exact h.mirrored.of_freePages _ hmeta htaken.stats
  · intro p hp
    refine htaken.mem p fun hlast => ?_
    have hin := (hsplit p).mpr (Or.inl (List.mem_append_left _ (List.mem_of_getLast? hlast)))
    exact (h.freeRange p hin).2.2 hp
  · have hr := h.freeRange (start+n-1) (hinrun _ (by omega) (by omega))
    rw [hpages]
    omega
  · rw [hpages]
    exact Nat.le_add_right _ _
  · simp only [BPlusTree.head, hmeta, htaken.config, htaken.grants]

theorem union_single (used : Set Nat) (p : Nat) : used ∪ {q | p ≤ q ∧ q < p+1} = insert p used := by
  ext q
  simp only [Set.mem_union, Set.mem_ofPred_eq, Set.mem_insert_iff]
  constructor
  · rintro (hin | hin)
    · exact Or.inr hin
    · exact Or.inl (by omega)
  · rintro (rfl | hin)
    · exact Or.inr ⟨le_rfl, Nat.lt_succ_self _⟩
    · exact Or.inl hin

/-- The first page of the freelist is taken. -/
theorem Allocates.takeFirst {p : Nat} {rest : List Nat} (h : Allocates t (p :: rest) used) :
    t.metaPage.freeHead = p ∧ p ≠ 0 ∧ p < t.mapped ∧
      Allocated t used p ((t.setFreeHead (freeLink (t.mem p))).decFreePages) := by
  obtain ⟨hhead, hne, hchain⟩ := h.chain
  replace h : Allocates t ([] ++ descending 1 (p+1) ++ rest) used := h
  have hbehind : FreeChain (t.setFreeHead (freeLink (t.mem p))).mem
      (t.setFreeHead (freeLink (t.mem p))).metaPage.freeHead ([] ++ rest) := hchain
  have htaken := h.freelist.takeRun hbehind
    (fun _ _ => rfl) (fun _ _ _ => rfl) ⟨_, rfl⟩ rfl rfl rfl rfl
  have hrun := h.takeRun Nat.one_pos htaken
  obtain ⟨free', halloc⟩ := hrun.allocates
  rw [union_single] at halloc
  exact ⟨hhead, hne, (h.freelist.start_mem Nat.one_pos).2, hrun.fresh p le_rfl (Nat.lt_succ_self p),
    ⟨free', halloc⟩, rfl, hrun.mapped, hrun.pages, hrun.head⟩

/-- The pages counter moves up by `n` after the file has grown. -/
theorem Allocates.grow (h : Allocates t free used) (n : Nat) :
    Completes (t.Grows (t.metaPage.pages+n)) (t.ensureCapacity (t.metaPage.pages+n)) fun t₁ =>
      Allocates (t₁.setPagesCounter (t.metaPage.pages+n)) free
        (used ∪ {p | t.metaPage.pages ≤ p ∧ p < t.metaPage.pages+n}) ∧
      t₁.mem = t.mem ∧ t.mapped ≤ t₁.mapped ∧ (t₁.setPagesCounter (t.metaPage.pages+n)).head = t.head := by
  refine (ensureCapacity_completes h.mappedLt).mono ?_
  intro t₁ h₁
  obtain ⟨hcap, hmapped, hlt, heq⟩ := h₁
  have hmem : t₁.mem = t.mem := by rw [heq]
  have hmeta : t₁.metaPage = t.metaPage := by rw [heq]
  have hmirror : t₁.Mirrored := by
    rw [heq]
    exact h.mirrored
  have hpages := h.pagesPos
  refine ⟨⟨?_, h.nodup, ?_, ?_, ?_, ?_, ?_, hcap, hlt, hmirror.setPagesCounter _⟩, hmem, hmapped, ?_⟩
  · show FreeChain t₁.mem t₁.metaPage.freeHead free
    rw [hmem, hmeta]
    exact h.chain
  · intro p hp
    obtain ⟨h₁, h₂, h₃⟩ := h.freeRange p hp
    refine ⟨h₁, Nat.lt_add_right n h₂, ?_⟩
    rintro (hin | hin)
    · exact h₃ hin
    · exact absurd h₂ (not_lt.mpr hin.1)
  · intro p hp
    show 0 < p ∧ p < t.metaPage.pages+n
    rcases hp with hp | hp
    · have := h.usedRange p hp
      omega
    · have := hp.1
      have := hp.2
      omega
  · intro p h₁ h₂
    by_cases hold : p < t.metaPage.pages
    · exact (h.covers p h₁ hold).imp_right Or.inl
    · exact Or.inr (Or.inr ⟨not_lt.mp hold, h₂⟩)
  · show t₁.metaPage.freePages = free.length
    rw [hmeta, h.counted]
  · exact Nat.add_pos_left hpages n
  · rw [heq]
    exact rfl

theorem Allocates.allocPage (h : Allocates t free used) :
    Completes (t.Grows (t.metaPage.pages+1)) t.allocPage fun r => Allocated t used r.1 r.2 := by
  rw [BPlusTree.allocPage]
  cases free with
  | nil =>
    have hhead : t.metaPage.freeHead = 0 := h.chain
    rw [if_neg (not_not.mpr hhead)]
    refine Completes.bind (h.grow 1) ?_
    intro t₁ h₁
    obtain ⟨halloc, hmem, hmapped, hheadEq⟩ := h₁
    have hnew : t.metaPage.pages ∉ used := fun hin => absurd (h.usedRange _ hin).2 (lt_irrefl _)
    refine .some ⟨hnew, ⟨[], ?_⟩, hmem, hmapped, le_rfl, hheadEq⟩
    rwa [union_single] at halloc
  | cons p rest =>
    obtain ⟨hhead, hne, hlt, hdone⟩ := h.takeFirst
    rw [hhead, if_pos hne, pageBytes_eq hlt]
    exact .some hdone

theorem Allocates.allocExtentFromFreelist (h : Allocates t free used) (n : Nat) :
    t.allocExtentFromFreelist n = some none ∨
      ∃ start t', t.allocExtentFromFreelist n = some (some (start, t')) ∧
        AllocatedRun t used start n t' := by
  rcases Nat.eq_zero_or_pos n with rfl | hn
  · exact Or.inl rfl
  · rcases h.freelist.allocExtentFromFreelist hn with ⟨hnone, -⟩ | ⟨pre, start, post, t', hfirst, hsome, htaken⟩
    · exact Or.inl hnone
    · rw [hfirst.split] at h
      exact Or.inr ⟨start, t', hsome, h.takeRun hn htaken⟩

theorem Allocates.allocExtent (h : Allocates t free used) (n : Nat) :
    Completes (t.Grows (t.metaPage.pages+n)) (t.allocExtent n) fun r => AllocatedRun t used r.1 n r.2 := by
  rw [BPlusTree.allocExtent]
  rcases h.allocExtentFromFreelist n with hnone | ⟨start, t', hsome, hrun⟩
  · rw [hnone]
    simp only [Option.bind_eq_bind, Option.bind_some]
    refine Completes.bind (h.grow n) ?_
    intro t₁ h₁
    obtain ⟨halloc, hmem, hmapped, hheadEq⟩ := h₁
    refine .some ⟨?_, ⟨free, halloc⟩, ?_, hmapped, le_rfl, le_rfl, hheadEq⟩
    · intro p hp _ hin
      exact absurd (h.usedRange p hin).2 (not_lt.mpr hp)
    · intro p _
      exact congrFun hmem p
  · rw [hsome]
    exact .some hrun

/-- A change of pages in use, and of what the allocator does not read. -/
theorem Allocates.frame (h : Allocates t free used) (hhead : t'.metaPage.freeHead = t.metaPage.freeHead)
    (hpages : t'.metaPage.pages = t.metaPage.pages) (hfree : t'.metaPage.freePages = t.metaPage.freePages)
    (hmirror : t'.Mirrored) (hmapped : t'.mapped = t.mapped) (hmem : ∀ p ∉ used, t'.mem p = t.mem p) :
    Allocates t' free used := by
  refine ⟨?_, h.nodup, ?_, ?_, ?_, ?_, ?_, ?_, ?_, hmirror⟩
  · rw [hhead]
    exact h.chain.congr fun p hp => hmem p (h.freeRange p hp).2.2
  · rw [hpages]
    exact h.freeRange
  · rw [hpages]
    exact h.usedRange
  · rw [hpages]
    exact h.covers
  · rw [hfree]
    exact h.counted
  · rw [hpages]
    exact h.pagesPos
  · rw [hpages, hmapped]
    exact h.pagesLe
  · rw [hmapped]
    exact h.mappedLt

theorem Allocates.setPage (h : Allocates t free used) {p : Nat} (hp : p ∈ used) (pg : Page) :
    Allocates (t.setPage p pg) free used := by
  refine h.frame rfl rfl rfl h.mirrored rfl ?_
  intro q hq
  have hne : q ≠ p := fun heq => hq (heq ▸ hp)
  exact setPage_mem_of_ne hne

theorem Allocates.used_lt (h : Allocates t free used) {p : Nat} (hp : p ∈ used) : p < t.mapped :=
  (h.usedRange p hp).2.trans_le h.pagesLe

/-- A value that was written to a run is read back. -/
theorem readExtent_storeExtent {start : Nat} {value : Bytes}
    (h : start+extentPages value.length ≤ t.mapped) :
    (t.storeExtent start value).readExtent start value.length = some value := by
  have hpages : value.length ≤ extentPages value.length*4096 := by
    rw [extentPages]
    omega
  rw [readExtent, if_pos (by show start*4096+value.length ≤ t.mapped*4096; omega)]
  refine congrArg some (List.ext_getElem (by simp) ?_)
  intro j hj hlt
  simp only [List.getElem_map, List.getElem_range, storeExtent]
  have hquot : j/4096 < extentPages value.length := by
    rw [extentPages]
    omega
  rw [if_pos (by omega), Nat.add_sub_cancel_left]
  have hchunk : j%4096 < ((value.drop (j/4096*4096)).take 4096).length := by
    rw [List.length_take, List.length_drop]
    omega
  have hbyte : write (t.mem (start+j/4096)) 0 ((value.drop (j/4096*4096)).take 4096) (0+j%4096) = _ :=
    write_inside hchunk
  rw [Nat.zero_add] at hbyte
  rw [hbyte, List.getElem_take, List.getElem_drop]
  have hidx : j/4096*4096+j%4096 = j := by omega
  simp only [hidx]

/-- The pages of a run determine what is read from it. -/
theorem readExtent_congr {start len : Nat} (hmapped : t.mapped ≤ t'.mapped)
    (hmem : ∀ p, start ≤ p → p < start+extentPages len → t'.mem p = t.mem p) {value : Bytes}
    (h : t.readExtent start len = some value) : t'.readExtent start len = some value := by
  rw [readExtent] at h ⊢
  split_ifs at h with hin
  have hin' : start*4096+len ≤ t'.mapped*4096 := hin.trans (Nat.mul_le_mul_right _ hmapped)
  rw [if_pos hin', ← h]
  refine congrArg some (List.map_congr_left ?_)
  intro j hj
  rw [List.mem_range] at hj
  have hquot : j/4096 < extentPages len := by
    rw [extentPages]
    omega
  rw [hmem _ (by omega) (by omega)]

theorem Allocates.writeExtent (h : Allocates t free used) (value : Bytes) :
    Completes (t.Grows (t.metaPage.pages+extentPages value.length)) (t.writeExtent value) fun r =>
      AllocatedRun t used r.1 (extentPages value.length) r.2 ∧
      r.2.readExtent r.1 value.length = some value := by
  refine Completes.bind (h.allocExtent _) ?_
  intro r hrun
  obtain ⟨free', halloc⟩ := hrun.allocates
  have hbound := hrun.bound
  have hpages := halloc.pagesLe
  have hlen : value.length ≤ extentPages value.length*4096 := by
    rw [extentPages]
    omega
  show Completes _ (if r.1*4096+value.length ≤ r.2.mapped*4096 then
    some (r.1, r.2.storeExtent r.1 value) else none) _
  rw [if_pos (by omega)]
  refine .some ⟨⟨hrun.fresh, ⟨free', ?_⟩, ?_, hrun.mapped, hrun.bound, hrun.pages, ?_⟩,
    readExtent_storeExtent (by omega)⟩
  · refine halloc.frame rfl rfl rfl halloc.mirrored rfl ?_
    intro p hp
    have hout : ¬ (r.1 ≤ p ∧ p < r.1+extentPages value.length) := fun hin => hp (Or.inr hin)
    simp only [storeExtent, if_neg hout]
  · intro p hp
    have hout : ¬ (r.1 ≤ p ∧ p < r.1+extentPages value.length) := fun hin =>
      hrun.fresh p hin.1 hin.2 hp
    simp only [storeExtent, if_neg hout]
    exact hrun.mem p hp
  · exact hrun.head

/-- Pages that were in use are on the freelist. -/
structure Freed (t : BPlusTree) (used pages : Set Nat) (t' : BPlusTree) : Prop where
  allocates : ∃ free', Allocates t' free' (used \ pages)
  mem : ∀ p ∉ pages, t'.mem p = t.mem p
  mapped : t'.mapped = t.mapped
  pagesCounter : t'.metaPage.pages = t.metaPage.pages
  head : t'.head = t.head

theorem Allocates.freePage (h : Allocates t free used) {p : Nat} (hp : p ∈ used) :
    ∃ t', t.freePage p = some t' ∧ Freed t used {p} t' := by
  have hrange := h.usedRange p hp
  obtain ⟨t', hfree, hlist, hmem, hmapped, hconfig, hgrants, hmeta, hstats⟩ :=
    h.freelist.freePage hrange fun hin => (h.freeRange p hin).2.2 hp
  have hpages : t'.metaPage.pages = t.metaPage.pages := by rw [hmeta]
  refine ⟨t', hfree, ⟨p :: free, ?_⟩, hmem, hmapped, hpages, ?_⟩
  · refine ⟨hlist.chain, hlist.nodup, ?_, ?_, ?_, ?_, ?_, hlist.pagesLe, hlist.mappedLt, ?_⟩
    · intro q hq
      obtain ⟨h₁, h₂⟩ := hlist.range q hq
      refine ⟨h₁, h₂, fun hin => ?_⟩
      rcases List.mem_cons.mp hq with heq | hq
      · exact hin.2 heq
      · exact (h.freeRange q hq).2.2 hin.1
    · intro q hq
      rw [hpages]
      exact h.usedRange q hq.1
    · intro q h₁ h₂
      by_cases hqp : q = p
      · exact Or.inl (by simp [hqp])
      · exact (h.covers q h₁ (h₂.trans_eq hpages)).imp (List.mem_cons_of_mem _) fun hin => ⟨hin, hqp⟩
    · have hcounted := hlist.counted
      rw [hstats] at hcounted
      rw [hmeta]
      exact hcounted
    · rw [hpages]
      exact h.pagesPos
    · exact h.mirrored.of_freePages _ hmeta hstats
  · simp only [BPlusTree.head, hmeta, hconfig, hgrants]

theorem Freed.trans {t₁ t₂ t₃ : BPlusTree} {S S' : Set Nat} (h : Freed t₁ used S t₂)
    (h' : Freed t₂ (used \ S) S' t₃) : Freed t₁ used (S ∪ S') t₃ := by
  obtain ⟨free', halloc⟩ := h'.allocates
  refine ⟨⟨free', ?_⟩, ?_, h'.mapped.trans h.mapped, h'.pagesCounter.trans h.pagesCounter,
    h'.head.trans h.head⟩
  · rwa [Set.sdiff_sdiff] at halloc
  · intro p hp
    rw [h'.mem p fun hin => hp (Or.inr hin), h.mem p fun hin => hp (Or.inl hin)]

theorem Allocates.freePages (start n i : Nat) {t : BPlusTree} {free : List Nat} {used : Set Nat}
    (h : Allocates t free used) (hin : ∀ p, start+i ≤ p → p < start+i+n → p ∈ used) :
    ∃ t', t.freePages start n i = some t' ∧ Freed t used {p | start+i ≤ p ∧ p < start+i+n} t' := by
  induction n generalizing i t free used with
  | zero =>
    have hset : ({p | start+i ≤ p ∧ p < start+i+0} : Set Nat) = ∅ :=
      Set.eq_empty_of_forall_notMem fun p hp => absurd hp.2 (not_lt.mpr hp.1)
    refine ⟨t, rfl, ⟨free, ?_⟩, fun _ _ => rfl, rfl, rfl, rfl⟩
    rw [hset, Set.sdiff_empty]
    exact h
  | succ n ih =>
    obtain ⟨t₁, hfree, hfreed⟩ := h.freePage (hin (start+i) le_rfl (by omega))
    obtain ⟨free₁, halloc⟩ := hfreed.allocates
    obtain ⟨t', hrest, hdone⟩ := ih (i+1) halloc fun p h₁ h₂ =>
      ⟨hin p (by omega) (by omega), by simp only [Set.mem_singleton_iff]; omega⟩
    refine ⟨t', ?_, ?_⟩
    · rw [BPlusTree.freePages, hfree]
      exact hrest
    · have hset : ({p | start+i ≤ p ∧ p < start+i+(n+1)} : Set Nat) =
          {start+i} ∪ {p | start+(i+1) ≤ p ∧ p < start+(i+1)+n} := by
        ext p
        simp only [Set.mem_ofPred_eq, Set.mem_union, Set.mem_singleton_iff]
        omega
      rw [hset]
      exact hfreed.trans hdone

theorem Allocates.freeExtent (h : Allocates t free used) {start len : Nat}
    (hin : ∀ p, start ≤ p → p < start+extentPages len → p ∈ used) :
    ∃ t', t.freeExtent start len = some t' ∧
      Freed t used {p | start ≤ p ∧ p < start+extentPages len} t' :=
  h.freePages start (extentPages len) 0 hin

end BPlusTree

end ZenDB
