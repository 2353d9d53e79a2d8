import ZenDB.SkipList.Search

namespace ZenDB

namespace SkipList

open Linked

variable {K V : Type}

theorem drawLevel_pos (coins : Nat → Bool) : 0 < drawLevel coins := Nat.succ_pos _

theorem drawLevel_le (coins : Nat → Bool) : drawLevel coins ≤ maxLevel := by
  have hlen := (List.takeWhile_sublist (l := List.range (maxLevel - 1)) coins).length_le
  rw [List.length_range] at hlen
  exact Nat.succ_le_succ hlen

/-- A node was put into a slot that no live node has. -/
structure Placed (s s' : SkipList K V) (order : List Nat) (index : Nat) (node : Node K V) :
    Prop where
  slot : s'.arena[index]? = some node
  other : ∀ i, i ≠ index → s'.arena[i]? = s.arena[i]?
  fresh : index ∉ order
  slots : (index :: order ++ s'.free).Perm (List.range s'.arena.length)
  room : ∀ n, s'.config.capacity.bound = some n → s'.arena.length ≤ n
  heads : s'.heads = s.heads
  tail : s'.tail = s.tail
  height : s'.height = s.height
  config : s'.config = s.config
  stats : s'.stats = s.stats

section Effects

variable {s s' : SkipList K V} {order : List Nat} {index : Nat} {node : Node K V}

theorem Placed.linkAt (h : Placed s s' order index node) (level : Nat) {a : Option Nat}
    (ha : a ≠ some index) : s'.linkAt level a = s.linkAt level a := by
  cases a with
  | none => exact congrFun h.heads level
  | some i =>
    rw [SkipList.linkAt, SkipList.linkAt, h.other i fun heq => ha (congrArg some heq)]

theorem Placed.backAt (h : Placed s s' order index node) {a : Option Nat} (ha : a ≠ some index) :
    s'.backAt a = s.backAt a := by
  cases a with
  | none => exact h.tail
  | some i =>
    rw [SkipList.backAt, SkipList.backAt, h.other i fun heq => ha (congrArg some heq)]

theorem Placed.levelAt (h : Placed s s' order index node) {i : Nat} (hi : i ≠ index) :
    s'.levelAt i = s.levelAt i := by
  rw [SkipList.levelAt, SkipList.levelAt, h.other i hi]

theorem Placed.rowAt (h : Placed s s' order index node) {i : Nat} (hi : i ≠ index) :
    s'.rowAt i = s.rowAt i := by
  rw [SkipList.rowAt, SkipList.rowAt, h.other i hi]

/-- What `insert_new` does once it has a slot: at each level of the new node its link is taken
from its predecessor, which then links to it. -/
theorem insertNew_effect {key : K} {value : V} (update : Links) {coins : Nat → Bool}
    (halloc : s.alloc key value (drawLevel coins) = .ok (s', .ok index))
    (hindex : s'.InArena (some index)) (hupdate : ∀ level, s'.InArena (update level))
    (hne : update 0 ≠ some index) (hnext : s'.InArena (s'.linkAt 0 (update 0))) :
    ∃ s'', s.insertNew key value update coins = .ok (s'', .ok index) ∧
      s''.rowAt = s'.rowAt ∧ s''.levelAt = s'.levelAt ∧
      (∀ level, s''.linkAt level =
        if level < drawLevel coins then linkedIn (s'.linkAt level) (update level) index
        else s'.linkAt level) ∧
      s''.backAt = Function.update (Function.update s'.backAt (some index) (update 0))
        (s'.linkAt 0 (update 0)) (some index) ∧
      s''.height = max s'.height (drawLevel coins) ∧ s''.free = s'.free ∧
      s''.config = s'.config ∧ s''.stats = ⟨s'.stats.entries + 1⟩ ∧
      s''.arena.length = s'.arena.length := by
  have hindex₁ : InArena { s' with height := max s'.height (drawLevel coins) } (some index) :=
    hindex
  obtain ⟨s₂, hset, hsame, hlink, hback⟩ := setBack_spec hindex₁ (update 0)
  obtain ⟨s₃, hloop, hsame₃, hback₃, hlink₃⟩ := linkLevels_spec
    (inArena_of_length hsame.size hindex) (fun level => inArena_of_length hsame.size (hupdate level))
    (drawLevel coins)
  have hlink' : ∀ level, s₃.linkAt level =
      if level < drawLevel coins then linkedIn (s'.linkAt level) (update level) index
      else s'.linkAt level := by
    intro level
    rw [hlink₃, hlink]
    rfl
  have hsize₃ : s₃.arena.length = s'.arena.length := hsame₃.size.trans hsame.size
  have hnext₃ : s₃.linkAt 0 (some index) = s'.linkAt 0 (update 0) := by
    rw [hlink', if_pos (drawLevel_pos coins), linkedIn, Function.update_of_ne hne.symm,
      Function.update_self]
  obtain ⟨s₄, hset₄, hsame₄, hlink₄, hback₄⟩ :=
    setBack_spec (inArena_of_length hsize₃ hnext) (some index)
  have hall := hsame.trans (hsame₃.trans hsame₄)
  refine ⟨{ s₄ with stats := ⟨s₄.stats.entries + 1⟩ }, ?_, ?_⟩
  · simp only [insertNew, halloc, bind, Except.bind]
    simp only [hset, hloop,
      follow_eq (inArena_of_length hsize₃ hindex), hnext₃, hset₄]
    rfl
  · refine ⟨hall.row, hall.level, ?_, ?_, hall.height, hall.free, hall.config, ?_, hall.size⟩
    · intro level
      exact (congrFun hlink₄ level).trans (hlink' level)
    · exact hback₄.trans (by rw [hback₃, hback]; rfl)
    · exact congrArg (fun stats : Stats => (⟨stats.entries + 1⟩ : Stats)) hall.stats

/-- What `remove_found` does: at each level of the node its predecessor takes over its link. -/
theorem removeFound_effect (update : Links) (hnode : s.arena[index]? = some node)
    (hupdate : ∀ level, s.InArena (update level)) (hnext : s.InArena (node.next 0)) :
    ∃ s', s.removeFound update index = .ok s' ∧
      (∀ i, i ≠ index → s'.rowAt i = s.rowAt i) ∧ s'.levelAt = s.levelAt ∧
      (∀ level, s'.linkAt level = Function.update
        (if level < node.level then
          Function.update (s.linkAt level) (update level) (s.linkAt level (some index))
        else s.linkAt level) (some index) none) ∧
      s'.backAt =
        Function.update (Function.update s.backAt (node.next 0) node.prev) (some index) none ∧
      s'.height = shrink s'.heads s.height ∧ s'.free = index :: s.free ∧
      s'.config = s.config ∧ s'.stats = ⟨s.stats.entries - 1⟩ ∧
      s'.arena.length = s.arena.length := by
  have hindex : s.InArena (some index) := (List.getElem?_eq_some_iff.mp hnode).1
  obtain ⟨s₁, hloop, hsame₁, hback₁, hlink₁⟩ := unlinkLevels_spec hindex hupdate node.level
  obtain ⟨s₂, hset, hsame₂, hlink₂, hback₂⟩ :=
    setBack_spec (inArena_of_length hsame₁.size hnext) node.prev
  have hall := hsame₁.trans hsame₂
  have hindex₂ : index < s₂.arena.length := inArena_of_length hall.size hindex
  let s₃ := { s₂ with height := shrink s₂.heads s₂.height }
  let s₄ := { s₃ with arena := s₃.arena.modify index cleared }
  refine ⟨{ s₄ with free := index :: s₄.free, stats := ⟨s₄.stats.entries - 1⟩ },
    ?_, ?_, ?_, ?_, ?_, ?_, ?_, ?_, ?_, ?_⟩
  · simp only [removeFound, node_eq hnode, bind, Except.bind, hloop, hset]
    rw [modify_eq (by exact hindex₂)]
    rfl
  · intro i hi
    exact (rowAt_cleared s₃ index hi).trans (congrFun hall.row i)
  · exact (levelAt_cleared s₃ index).trans hall.level
  · intro level
    refine (linkAt_cleared s₃ index level).trans ?_
    rw [← hlink₁ level, ← hlink₂]
    rfl
  · refine (backAt_cleared s₃ index).trans ?_
    rw [← hback₁, ← hback₂]
    rfl
  · exact congrArg (shrink s₂.heads) hall.height
  · exact congrArg (index :: ·) hall.free
  · exact hall.config
  · exact congrArg (fun stats : Stats => (⟨stats.entries - 1⟩ : Stats)) hall.stats
  · exact (List.length_modify ..).trans hall.size

end Effects

section Insert

variable [LinearOrder K]
variable {s : SkipList K V} {order p q : List Nat} {m lo hi : List (K × V)} {key : K}

/-- The capacity leaves room for one more row. -/
def HasRoom (s : SkipList K V) (m : List (K × V)) : Prop :=
  ∀ n, s.config.capacity.bound = some n → m.length < n

theorem Represents.alloc_full (h : Represents s order m) {n : Nat}
    (hn : s.config.capacity.bound = some n) (hfull : n ≤ m.length) (key : K) (value : V)
    (level : Nat) : s.alloc key value level = .ok (s, .error ⟨n⟩) := by
  have hslots := h.length_slots
  have hroom := h.room n hn
  have hfree : s.free = [] := List.length_eq_zero_iff.mp (by omega)
  have hle : n ≤ s.arena.length := by omega
  simp only [alloc, hfree, hn, if_pos hle]

theorem Represents.alloc_room (h : Represents s order m) (hroom : HasRoom s m) (key : K)
    (value : V) (level : Nat) :
    ∃ s' index, s.alloc key value level = .ok (s', .ok index) ∧
      Placed s s' order index (newNode key value level) := by
  cases hfree : s.free with
  | cons index free =>
    have hslots := h.slots
    rw [hfree] at hslots
    have hlt : index < s.arena.length := List.mem_range.mp (hslots.subset (by simp))
    have hfresh : index ∉ order := by
      have hnodup := h.nodup
      rw [hfree] at hnodup
      exact fun hmem => (List.disjoint_of_nodup_append hnodup) hmem (by simp)
    refine ⟨{ s with free, arena := s.arena.modify index fun _ => newNode key value level },
      index, ?_, ?_⟩
    · simp only [alloc, hfree]
      rw [modify_eq (by exact hlt)]
      rfl
    · refine ⟨by simp [hlt], ?_, hfresh, ?_, ?_, rfl, rfl, rfl, rfl, rfl⟩
      · intro i hi
        simp [Ne.symm hi]
      · simp only [List.length_modify, List.cons_append]
        exact (List.perm_middle.symm.trans hslots)
      · simpa using h.room
  | nil =>
    have hslots := h.slots
    rw [hfree, List.append_nil] at hslots
    have hlen : m.length = s.arena.length := by
      have hlen := h.length_slots
      rwa [hfree, List.length_nil, Nat.add_zero] at hlen
    refine ⟨{ s with arena := s.arena ++ [newNode key value level] }, s.arena.length, ?_, ?_⟩
    · simp only [alloc, hfree]
      cases hn : s.config.capacity.bound with
      | none => rfl
      | some n =>
        have hlt := hroom n hn
        simp only
        rw [if_neg (by omega)]
    · refine ⟨by simp, ?_, ?_, ?_, ?_, rfl, rfl, rfl, rfl, rfl⟩
      · intro i hi
        by_cases hlt : i < s.arena.length
        · exact List.getElem?_append_left hlt
        · rw [List.getElem?_eq_none (by simp; omega), List.getElem?_eq_none (by omega)]
      · exact fun hmem => lt_irrefl _ (h.lt_length hmem)
      · simp only [hfree, List.append_nil, List.length_append, List.length_cons, List.length_nil,
          List.range_succ]
        have hcomm : (s.arena.length :: order).Perm (order ++ [s.arena.length]) :=
          (List.perm_append_singleton _ _).symm
        exact hcomm.trans (hslots.append_right _)
      · intro n hn
        have hlt := hroom n hn
        simp only [List.length_append, List.length_cons, List.length_nil]
        omega

/-- A new key is linked in between the nodes before it and those behind it. -/
theorem Represents.insertNew_room (h : Represents s (p ++ q) (lo ++ hi))
    (hsplit : Splits s p q lo hi key) (habove : ∀ row ∈ hi, key < row.1)
    (hroom : HasRoom s (lo ++ hi)) (value : V) (coins : Nat → Bool) :
    ∃ s' index,
      s.insertNew key value (fun level => (s.tower p level).getLast?) coins =
        .ok (s', .ok index) ∧
      Represents s' (p ++ index :: q) (lo ++ (key, value) :: hi) ∧ s'.config = s.config := by
  obtain ⟨s₁, index, halloc, hplaced⟩ := h.alloc_room hroom key value (drawLevel coins)
  have hne : ∀ i ∈ p ++ q, i ≠ index := fun i hmem heq => hplaced.fresh (heq ▸ hmem)
  have hlast : ∀ level, (s.tower p level).getLast? ≠ some index := by
    intro level heq
    have hmem := mem_of_mem_tower (List.mem_of_getLast? heq)
    exact hne index (List.mem_append_left q hmem) rfl
  have hhead : s₁.linkAt 0 (s.tower p 0).getLast? = q.head? := by
    rw [hplaced.linkAt 0 (hlast 0), h.linkAt_last]
  have hin : ∀ a : Option Nat, (∀ i, a = some i → i ∈ p ++ q) → s₁.InArena a := by
    intro a ha
    cases a with
    | none => trivial
    | some i =>
      have hmem := ha i rfl
      exact List.mem_range.mp (hplaced.slots.subset (by simp at hmem ⊢; tauto))
  have hindex : s₁.InArena (some index) :=
    List.mem_range.mp (hplaced.slots.subset (by simp))
  obtain ⟨s', hinsert, hrow, hlevel, hlink, hback, hheight, hfree, hconfig, hstats, hsize⟩ :=
    insertNew_effect (fun level => (s.tower p level).getLast?) halloc hindex
      (fun level => hin _ fun i hi =>
        List.mem_append_left q (mem_of_mem_tower (List.mem_of_getLast? hi)))
      (hlast 0) (hhead ▸ hin _ fun i hi => List.mem_append_right p (List.mem_of_head? hi))
  have hlevel' : ∀ i ∈ p ++ q, s'.levelAt i = s.levelAt i :=
    fun i hmem => (congrFun hlevel i).trans (hplaced.levelAt (hne i hmem))
  have hindexLevel : s'.levelAt index = drawLevel coins := by
    rw [hlevel, levelAt, hplaced.slot]
    rfl
  have hrow' : ∀ i ∈ p ++ q, s'.rowAt i = s.rowAt i :=
    fun i hmem => (congrFun hrow i).trans (hplaced.rowAt (hne i hmem))
  have hindexRow : s'.rowAt index = some (key, value) := by
    rw [hrow, rowAt, hplaced.slot]
    rfl
  have hchain : ∀ level, Chain (s₁.linkAt level) none (s.tower p level ++ s.tower q level) := by
    intro level
    rw [← tower_append]
    refine (h.chain level).congr (hplaced.linkAt level (by simp)) ?_
    intro i hmem
    exact hplaced.linkAt level (by simpa using hne i (mem_of_mem_tower hmem))
  have hnodup : (p ++ q).Nodup := h.nodup.of_append_left
  refine ⟨s', index, hinsert, ?_, hconfig.trans hplaced.config⟩
  constructor
  case rows =>
    rw [List.map_append, List.map_cons, List.map_append, List.map_cons, hindexRow,
      List.map_congr_left fun i hmem => hrow' i (List.mem_append_left q hmem),
      List.map_congr_left fun i hmem => hrow' i (List.mem_append_right p hmem),
      hsplit.before, hsplit.after]
  case sorted =>
    rw [← SortedMap.insert_of_forall_lt habove, ← SortedMap.insert_append hsplit.below]
    exact SortedMap.sorted_insert h.sorted key value
  case slots =>
    rw [hfree, hsize]
    exact (List.perm_middle.append_right _).trans hplaced.slots
  case levels =>
    intro i hmem
    by_cases hi : i = index
    · rw [hi, hindexLevel]
      exact ⟨drawLevel_pos coins, drawLevel_le coins⟩
    · have hmem' : i ∈ p ++ q := by simpa [hi] using hmem
      rw [hlevel' i hmem']
      exact h.levels i hmem'
  case chain =>
    intro level
    rw [tower_append, tower_cons, hindexLevel,
      tower_congr fun i hmem => hlevel' i (List.mem_append_left q hmem),
      tower_congr fun i hmem => hlevel' i (List.mem_append_right p hmem), hlink]
    split_ifs with hlt
    · refine (hchain level).insert ?_ ?_
      · rw [← tower_append]
        exact hnodup.filter _
      · rw [← tower_append]
        exact fun hmem => hplaced.fresh (mem_of_mem_tower hmem)
    · exact hchain level
  case back =>
    have hreverse : Chain s₁.backAt none (q.reverse ++ p.reverse) := by
      rw [← List.reverse_append]
      refine h.back.congr (hplaced.backAt (by simp)) ?_
      intro i hmem
      exact hplaced.backAt (by simpa using hne i (List.mem_reverse.mp hmem))
    have hinto := hreverse.insert (x := index)
      (by rw [← List.reverse_append]; exact List.nodup_reverse.mpr hnodup)
      (by rw [← List.reverse_append]; exact fun hmem => hplaced.fresh (List.mem_reverse.mp hmem))
    have hprev : s₁.backAt q.head? = p.getLast? := by
      rw [hplaced.backAt, h.backAt_head]
      exact fun heq => hne index (List.mem_append_right p (List.mem_of_head? heq)) rfl
    rw [List.getLast?_reverse, hprev] at hinto
    rw [hback, hhead, h.tower_zero (List.subset_append_left p q), List.reverse_append,
      List.reverse_cons, List.append_assoc]
    exact hinto
  case height =>
    intro level hle
    rw [hheight, hplaced.height, max_le_iff] at hle
    have hlinked := congrFun (hlink level) none
    rw [if_neg (by omega), hplaced.linkAt level (by simp)] at hlinked
    exact hlinked.trans (h.height level hle.1)
  case highest =>
    rw [hheight, hplaced.height]
    exact max_le h.highest (drawLevel_le coins)
  case entries =>
    rw [hstats, hplaced.stats, h.entries]
    simp [Nat.add_assoc]
  case room =>
    rw [hconfig, hsize]
    exact hplaced.room

theorem Represents.insertNew_full (h : Represents s order m) {n : Nat}
    (hn : s.config.capacity.bound = some n) (hfull : n ≤ m.length) (key : K) (value : V)
    (update : Links) (coins : Nat → Bool) :
    s.insertNew key value update coins = .ok (s, .error ⟨n⟩) := by
  simp only [insertNew, h.alloc_full hn hfull, bind, Except.bind]
  rfl

end Insert

section Remove

variable [LinearOrder K]
variable {s : SkipList K V} {p q : List Nat} {lo hi : List (K × V)} {index : Nat} {row : K × V}

theorem heads_shrink {heads : Links} {height : Nat}
    (h : ∀ level, height ≤ level → heads level = none) (level : Nat)
    (hlevel : shrink heads height ≤ level) : heads level = none := by
  induction height with
  | zero => exact h level (Nat.zero_le _)
  | succ height ih =>
    rw [shrink] at hlevel
    split_ifs at hlevel with hhead
    · refine ih ?_ hlevel
      intro l hl
      by_cases heq : l = height
      · rw [heq]
        exact Option.isNone_iff_eq_none.mp hhead
      · exact h l (by omega)
    · exact h level hlevel

theorem shrink_le (heads : Links) (height : Nat) : shrink heads height ≤ height := by
  induction height with
  | zero => exact le_rfl
  | succ height ih =>
    rw [shrink]
    split_ifs
    · exact Nat.le_succ_of_le ih
    · exact le_rfl

/-- The node behind those of `p` is linked out, whatever its value, and its slot is free again. -/
theorem Represents.removeFound_spec (h : Represents s (p ++ index :: q) (lo ++ row :: hi))
    (hbefore : p.map s.rowAt = lo.map some) (hafter : q.map s.rowAt = hi.map some)
    {s₁ : SkipList K V} (hsame : Revalued s s₁ index) :
    ∃ s', s₁.removeFound (fun level => (s.tower p level).getLast?) index = .ok s' ∧
      Represents s' (p ++ q) (lo ++ hi) ∧ s'.config = s.config := by
  have hnodup : (p ++ index :: q).Nodup := h.nodup.of_append_left
  have hfresh : index ∉ p ++ q := (List.nodup_middle.mp hnodup).notMem
  have hne : ∀ i ∈ p ++ q, i ≠ index := fun i hmem heq => hfresh (heq ▸ hmem)
  have hmem' : ∀ i ∈ p ++ q, i ∈ p ++ index :: q := by
    intro i hmem
    simp only [List.mem_append, List.mem_cons] at hmem ⊢
    tauto
  have hlt : index < s₁.arena.length := hsame.size ▸ h.lt_length (by simp)
  have hnode : s₁.arena[index]? = some s₁.arena[index] := List.getElem?_eq_getElem hlt
  have hnext : (s₁.arena[index]).next 0 = s.linkAt 0 (some index) := by
    rw [← hsame.link, linkAt, hnode]
    rfl
  have hprev : (s₁.arena[index]).prev = s.backAt (some index) := by
    rw [← hsame.back, backAt, hnode]
    rfl
  have hlevel₁ : (s₁.arena[index]).level = s.levelAt index := by
    rw [← hsame.level, levelAt, hnode]
    rfl
  have hhead : s.linkAt 0 (some index) = q.head? := by
    have h' : Represents s ((p ++ [index]) ++ q) (lo ++ row :: hi) := by simpa using h
    have hlast := h'.linkAt_last
    rwa [h'.tower_zero (List.subset_append_left _ q), List.getLast?_concat] at hlast
  have hin : ∀ a : Option Nat, (∀ i, a = some i → i ∈ p ++ q) → s₁.InArena a := by
    intro a ha
    cases a with
    | none => trivial
    | some i =>
      refine inArena_of_length hsame.size ?_
      exact h.lt_length (hmem' i (ha i rfl))
  have hupdate : ∀ level, s₁.InArena (s.tower p level).getLast? := fun level =>
    hin _ fun i hi => List.mem_append_left q (mem_of_mem_tower (List.mem_of_getLast? hi))
  have hnextIn : s₁.InArena (s₁.arena[index].next 0) := by
    rw [hnext, hhead]
    exact hin _ fun i hi => List.mem_append_right p (List.mem_of_head? hi)
  obtain ⟨s', hremove, hrow, hlevel, hlink, hback, hheight, hfree, hconfig, hstats, hsize⟩ :=
    removeFound_effect (fun level => (s.tower p level).getLast?) hnode hupdate hnextIn
  have hrow' : ∀ i ∈ p ++ q, s'.rowAt i = s.rowAt i :=
    fun i hmem => (hrow i (hne i hmem)).trans (hsame.row i (hne i hmem))
  have hlevel' : ∀ i ∈ p ++ q, s'.levelAt i = s.levelAt i :=
    fun i _ => (congrFun hlevel i).trans (congrFun hsame.level i)
  rw [hsame.link, hlevel₁] at hlink
  rw [hnext, hprev, hhead, hsame.back] at hback
  refine ⟨s', hremove, ?_, hconfig.trans hsame.config⟩
  constructor
  case rows =>
    rw [List.map_append, List.map_append,
      List.map_congr_left fun i hmem => hrow' i (List.mem_append_left q hmem),
      List.map_congr_left fun i hmem => hrow' i (List.mem_append_right p hmem), hbefore, hafter]
  case sorted =>
    exact h.sorted.sublist (List.Sublist.append_left (List.sublist_cons_self row hi) lo)
  case slots =>
    rw [hfree, hsize, hsame.free, hsame.size]
    refine (List.perm_middle.trans ?_).trans h.slots
    rw [← List.cons_append]
    exact List.perm_middle.symm.append_right _
  case levels =>
    intro i hmem
    rw [hlevel' i hmem]
    exact h.levels i (hmem' i hmem)
  case chain =>
    intro level
    have hchain := h.chain level
    rw [tower_append, tower_cons] at hchain
    rw [tower_congr hlevel', tower_append, hlink]
    have hunlinked : Chain (if level < s.levelAt index then
        Function.update (s.linkAt level) (s.tower p level).getLast? (s.linkAt level (some index))
        else s.linkAt level) none (s.tower p level ++ s.tower q level) := by
      split_ifs at hchain ⊢ with hlt'
      · refine hchain.remove ?_
        have hsub := hnodup.filter fun i => decide (level < s.levelAt i)
        rwa [List.filter_append, List.filter_cons, if_pos (decide_eq_true hlt')] at hsub
      · exact hchain
    refine hunlinked.congr (by simp) ?_
    intro i hmem
    rw [← tower_append] at hmem
    rw [Function.update_of_ne (by simpa using hne i (mem_of_mem_tower hmem))]
  case back =>
    have hreverse : Chain s.backAt none (q.reverse ++ index :: p.reverse) := by
      simpa using h.back
    have hnodup' : (q.reverse ++ index :: p.reverse).Nodup := by
      simpa using List.nodup_reverse.mpr hnodup
    have hunlinked := hreverse.remove hnodup'
    rw [List.getLast?_reverse, ← List.reverse_append] at hunlinked
    rw [hback]
    refine hunlinked.congr (by simp) ?_
    intro i hmem
    rw [Function.update_of_ne (by simpa using hne i (List.mem_reverse.mp hmem))]
  case height =>
    rw [hheight]
    refine heads_shrink ?_
    intro level hle
    rw [hsame.height] at hle
    have hnot : ¬ level < s.levelAt index := by
      have hnil := h.tower_height hle (List.subset_append_right p (index :: q))
      rw [tower, List.filter_eq_nil_iff] at hnil
      simpa using hnil index (by simp)
    have hlinked := congrFun (hlink level) none
    rw [Function.update_of_ne (by simp), if_neg hnot] at hlinked
    exact hlinked.trans (h.height level hle)
  case highest =>
    rw [hheight, hsame.height]
    exact (shrink_le _ _).trans h.highest
  case entries =>
    rw [hstats, hsame.stats, h.entries]
    simp
  case room =>
    rw [hconfig, hsize, hsame.config, hsame.size]
    exact h.room

/-- Another value in the node behind those of `p`. -/
theorem Represents.revalued {key : K} {old value : V}
    (h : Represents s (p ++ index :: q) (lo ++ (key, old) :: hi))
    (hbefore : p.map s.rowAt = lo.map some) (hafter : q.map s.rowAt = hi.map some)
    {s' : SkipList K V} (hsame : Revalued s s' index)
    (hrow : s'.rowAt index = some (key, value)) :
    Represents s' (p ++ index :: q) (lo ++ (key, value) :: hi) := by
  have hnodup : (p ++ index :: q).Nodup := h.nodup.of_append_left
  have hfresh : index ∉ p ++ q := (List.nodup_middle.mp hnodup).notMem
  have hrow' : ∀ i ∈ p ++ q, s'.rowAt i = s.rowAt i :=
    fun i hmem => hsame.row i fun heq => hfresh (heq ▸ hmem)
  constructor
  case rows =>
    rw [List.map_append, List.map_cons, List.map_append, List.map_cons, hrow,
      List.map_congr_left fun i hmem => hrow' i (List.mem_append_left q hmem),
      List.map_congr_left fun i hmem => hrow' i (List.mem_append_right p hmem), hbefore, hafter]
  case sorted =>
    simpa [Sorted, List.pairwise_append] using h.sorted
  case slots =>
    rw [hsame.free, hsame.size]
    exact h.slots
  case levels =>
    rw [hsame.level]
    exact h.levels
  case chain =>
    intro level
    rw [hsame.link, tower_congr fun i _ => congrFun hsame.level i]
    exact h.chain level
  case back =>
    rw [hsame.back]
    exact h.back
  case height =>
    intro level hlevel
    rw [hsame.height] at hlevel
    exact (congrFun (congrFun hsame.link level) none).trans (h.height level hlevel)
  case highest =>
    rw [hsame.height]
    exact h.highest
  case entries =>
    rw [hsame.stats, h.entries]
    simp
  case room =>
    rw [hsame.config, hsame.size]
    exact h.room

end Remove

end SkipList

end ZenDB
