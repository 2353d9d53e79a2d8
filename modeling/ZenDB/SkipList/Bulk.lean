import ZenDB.SkipList.Runs

namespace ZenDB

namespace SkipList

open Linked

variable {K V : Type}

theorem ok_of_bind {α β : Type} {x : Except Fault α} {f : α → Except Fault β} {b : β}
    (h : x >>= f = .ok b) : ∃ a, x = .ok a ∧ f a = .ok b := by
  cases x with
  | error e => cases h
  | ok a => exact ⟨a, rfl, h⟩

section Height

variable {s s' : SkipList K V}

/-- The highest level in use has a node. -/
def Topped (s : SkipList K V) : Prop := ∀ level, s.height = level + 1 → s.heads level ≠ none

theorem setLink_relinked {level : Nat} {previous target : Option Nat}
    (h : s.setLink level previous target = .ok s') : Relinked s s' := by
  cases previous with
  | none =>
    cases h
    exact ⟨rfl, rfl, rfl, rfl, rfl, rfl, rfl⟩
  | some index =>
    simp only [setLink, modify] at h
    split_ifs at h
    cases h
    exact relinked_modify s index _ fun _ => ⟨rfl, rfl, rfl⟩

theorem setBack_relinked {next target : Option Nat} (h : s.setBack next target = .ok s') :
    Relinked s s' := by
  cases next with
  | none =>
    cases h
    exact ⟨rfl, rfl, rfl, rfl, rfl, rfl, rfl⟩
  | some index =>
    simp only [setBack, modify] at h
    split_ifs at h
    cases h
    exact relinked_modify s index _ fun _ => ⟨rfl, rfl, rfl⟩

theorem linkLevel_relinked {update : Links} {index level : Nat}
    (h : s.linkLevel update index level = .ok s') : Relinked s s' := by
  obtain ⟨next, -, h⟩ := ok_of_bind h
  obtain ⟨s₁, hset, h⟩ := ok_of_bind h
  exact (setLink_relinked hset).trans (setLink_relinked h)

theorem unlinkLevel_relinked {update : Links} {index level : Nat}
    (h : s.unlinkLevel update index level = .ok s') : Relinked s s' := by
  obtain ⟨successor, -, h⟩ := ok_of_bind h
  exact setLink_relinked h

theorem foldlM_relinked {f : SkipList K V → Nat → Except Fault (SkipList K V)}
    (hf : ∀ s s' level, f s level = .ok s' → Relinked s s') {levels : List Nat}
    (h : levels.foldlM f s = .ok s') : Relinked s s' := by
  induction levels generalizing s with
  | nil =>
    cases h
    exact Relinked.refl _
  | cons level levels ih =>
    rw [List.foldlM_cons] at h
    obtain ⟨s₁, hlink, h⟩ := ok_of_bind h
    exact (hf _ _ _ hlink).trans (ih h)

theorem levelAt_concat (s : SkipList K V) (node : Node K V) {i : Nat} (hi : i ≠ s.arena.length) :
    levelAt { s with arena := s.arena ++ [node] } i = s.levelAt i := by
  rw [levelAt, levelAt]
  by_cases hlt : i < s.arena.length
  · rw [List.getElem?_append_left hlt]
  · rw [List.getElem?_eq_none (by simp; omega), List.getElem?_eq_none (by omega)]

/-- The level of the node that `alloc` places. -/
theorem alloc_level {key : K} {value : V} {level index : Nat}
    (h : s.alloc key value level = .ok (s', .ok index)) :
    s'.levelAt index = level ∧ (∀ i, i ≠ index → s'.levelAt i = s.levelAt i) ∧ s'.height = s.height := by
  simp only [alloc] at h
  cases hfree : s.free with
  | cons slot free =>
    rw [hfree] at h
    obtain ⟨s₁, hmodify, h⟩ := ok_of_bind h
    cases h
    simp only [modify] at hmodify
    split_ifs at hmodify with hlt
    cases hmodify
    refine ⟨by simp [levelAt, newNode, hlt], ?_, rfl⟩
    intro i hi
    simp [levelAt, Ne.symm hi]
  | nil =>
    rw [hfree] at h
    cases hbound : s.config.capacity.bound with
    | none =>
      rw [hbound] at h
      cases h
      exact ⟨by simp [levelAt, newNode], fun i hi => levelAt_concat s _ hi, rfl⟩
    | some n =>
      simp only [hbound] at h
      split_ifs at h
      · cases h
      · cases h
        exact ⟨by simp [levelAt, newNode], fun i hi => levelAt_concat s _ hi, rfl⟩

theorem insertNew_refused {key : K} {value : V} {update : Links} {coins : Nat → Bool} {e : StorageFull}
    (h : s.insertNew key value update coins = .ok (s', .error e)) : s' = s := by
  obtain ⟨⟨s₁, placed⟩, halloc, h⟩ := ok_of_bind h
  cases placed with
  | error e =>
    cases h
    simp only [alloc] at halloc
    cases hfree : s.free with
    | cons slot free =>
      rw [hfree] at halloc
      obtain ⟨s₂, -, halloc⟩ := ok_of_bind halloc
      cases halloc
    | nil =>
      rw [hfree] at halloc
      cases hbound : s.config.capacity.bound with
      | none =>
        rw [hbound] at halloc
        cases halloc
      | some n =>
        simp only [hbound] at halloc
        split_ifs at halloc
        · cases halloc
          rfl
        · cases halloc
  | ok index =>
    obtain ⟨s₂, -, h⟩ := ok_of_bind h
    obtain ⟨s₃, -, h⟩ := ok_of_bind h
    obtain ⟨next, -, h⟩ := ok_of_bind h
    obtain ⟨s₄, -, h⟩ := ok_of_bind h
    cases h

/-- What `insert_new` does to the height, with the level of the new node. -/
theorem insertNew_height {key : K} {value : V} {update : Links} {coins : Nat → Bool} {index : Nat}
    (h : s.insertNew key value update coins = .ok (s', .ok index)) :
    s'.levelAt index = drawLevel coins ∧ (∀ i, i ≠ index → s'.levelAt i = s.levelAt i) ∧
      s'.height = max s.height (drawLevel coins) := by
  obtain ⟨⟨s₁, placed⟩, halloc, h⟩ := ok_of_bind h
  cases placed with
  | error e => cases h
  | ok slot =>
    obtain ⟨s₂, hback, h⟩ := ok_of_bind h
    obtain ⟨s₃, hlink, h⟩ := ok_of_bind h
    obtain ⟨next, -, h⟩ := ok_of_bind h
    obtain ⟨s₄, hback', h⟩ := ok_of_bind h
    cases h
    obtain ⟨hlevel, hother, hheight⟩ := alloc_level halloc
    have hall := (setBack_relinked hback).trans
      ((foldlM_relinked (fun _ _ _ => linkLevel_relinked) hlink).trans (setBack_relinked hback'))
    refine ⟨(congrFun hall.level _).trans hlevel, ?_, hall.height.trans ?_⟩
    · exact fun i hi => (congrFun hall.level i).trans (hother i hi)
    · rw [← hheight]

theorem heads_of_shrink {heads : Links} {height level : Nat} (h : shrink heads height = level + 1) :
    heads level ≠ none := by
  induction height with
  | zero => cases h
  | succ height ih =>
    rw [shrink] at h
    split_ifs at h with hhead
    · exact ih h
    · obtain rfl : height = level := by omega
      exact fun hnone => hhead (Option.isNone_iff_eq_none.mpr hnone)

/-- A removal makes the height exact and changes no level. -/
theorem topped_removeFound {update : Links} {index : Nat} (h : s.removeFound update index = .ok s') :
    Topped s' ∧ s'.levelAt = s.levelAt := by
  obtain ⟨node, -, h⟩ := ok_of_bind h
  obtain ⟨s₁, hlink, h⟩ := ok_of_bind h
  obtain ⟨s₂, hback, h⟩ := ok_of_bind h
  obtain ⟨s₃, hmodify, h⟩ := ok_of_bind h
  cases h
  simp only [modify] at hmodify
  split_ifs at hmodify
  cases hmodify
  have hall := (foldlM_relinked (fun _ _ _ => unlinkLevel_relinked) hlink).trans (setBack_relinked hback)
  refine ⟨fun level hlevel => heads_of_shrink hlevel, ?_⟩
  exact (levelAt_cleared { s₂ with height := shrink s₂.heads s₂.height } index).trans hall.level

theorem setValue_revalued {index : Nat} {value : Option V} (h : s.setValue index value = .ok s') :
    Revalued s s' index := by
  have hlt : index < s.arena.length := by
    by_contra hnot
    rw [setValue, modify, if_neg hnot] at h
    cases h
  obtain ⟨s₁, hset, hsame, -⟩ := setValue_spec (List.getElem?_eq_getElem hlt) value
  rw [h] at hset
  cases hset
  exact hsame

theorem topped_revalued {index : Nat} (ht : Topped s) (h : Revalued s s' index) : Topped s' := by
  intro level hlevel
  have hhead : s'.heads level = s.heads level := congrFun (congrFun h.link level) none
  rw [hhead]
  exact ht level (h.height ▸ hlevel)

end Height

section Advance

variable [LinearOrder K]
variable {s : SkipList K V} {p q₁ q₂ : List Nat} {m : List (K × V)} {key : K}

omit [LinearOrder K] in
/-- The last node of each level when one more node is passed. -/
theorem getLast?_tower_concat (s : SkipList K V) (p : List Nat) (index level : Nat) :
    (s.tower (p ++ [index]) level).getLast? =
      if level < s.levelAt index then some index else (s.tower p level).getLast? := by
  rw [tower_append, tower_cons]
  split_ifs with hlt
  · simp [tower]
  · simp [tower]

/-- The nodes before the key are passed. -/
theorem Represents.advance_spec (h : Represents s (p ++ (q₁ ++ q₂)) m)
    (hbelow : ∀ index ∈ q₁, ∃ row, s.rowAt index = some row ∧ row.1 < key)
    (habove : ∀ index ∈ q₂, ∃ row, s.rowAt index = some row ∧ key ≤ row.1) {fuel : Nat}
    (hfuel : q₁.length < fuel) :
    s.advance key fuel (fun level => (s.tower p level).getLast?) (q₁ ++ q₂).head? =
      .ok (fun level => (s.tower (p ++ q₁) level).getLast?, q₂.head?) := by
  obtain ⟨fuel, rfl⟩ : ∃ n, fuel = n + 1 := ⟨fuel - 1, by omega⟩
  induction q₁ generalizing p fuel with
  | nil =>
    cases q₂ with
    | nil => simp [advance]
    | cons index q₂ =>
      obtain ⟨row, hrow, hle⟩ := habove index (by simp)
      obtain ⟨node, hnode, hkey, -⟩ := rowAt_eq_some hrow
      simp only [List.nil_append, List.head?_cons, advance, node_eq hnode, bind, Except.bind, hkey,
        if_pos hle, List.append_nil]
      rfl
  | cons index q₁ ih =>
    obtain ⟨row, hrow, hlt⟩ := hbelow index (by simp)
    obtain ⟨node, hnode, hkey, -⟩ := rowAt_eq_some hrow
    obtain ⟨fuel, rfl⟩ : ∃ n, fuel = n + 1 := ⟨fuel - 1, by simp at hfuel; omega⟩
    have h' : Represents s ((p ++ [index]) ++ (q₁ ++ q₂)) m := by simpa using h
    -- the link of the node at the lowest level is to the next one
    have hnext : node.next 0 = (q₁ ++ q₂).head? := by
      have hlast := h'.linkAt_last
      rw [h'.tower_zero (List.subset_append_left _ _), List.getLast?_concat, linkAt, hnode] at hlast
      exact hlast
    have hlevel : node.level = s.levelAt index := by
      rw [levelAt, hnode]
      rfl
    have hupdate : (fun level => if level < node.level then some index
        else (s.tower p level).getLast?) = fun level => (s.tower (p ++ [index]) level).getLast? := by
      funext level
      rw [getLast?_tower_concat, hlevel]
    have hrest := ih h' (fun i hi => hbelow i (List.mem_cons_of_mem _ hi)) fuel
      (by simp at hfuel; omega)
    rw [List.append_assoc, List.singleton_append] at hrest
    simp only [List.cons_append, List.head?_cons]
    rw [advance]
    simp only [node_eq hnode, bind, Except.bind, hkey, if_neg (not_le.mpr hlt), hnext, hupdate]
    exact hrest

end Advance

section Topped

variable [LinearOrder K]
variable {s s' : SkipList K V} {order p q : List Nat} {m lo hi : List (K × V)} {key : K}

theorem Represents.head_of_level (h : Represents s order m) {index level : Nat} (hmem : index ∈ order)
    (hlevel : level < s.levelAt index) : s.heads level ≠ none := by
  have hhead : s.heads level = (s.tower order level).head? := (h.chain level).head
  rw [hhead, ne_eq, List.head?_eq_none_iff]
  exact List.ne_nil_of_mem (List.mem_filter.mpr ⟨hmem, decide_eq_true hlevel⟩)

theorem Represents.level_of_head (h : Represents s order m) {level : Nat} (hhead : s.heads level ≠ none) :
    ∃ index ∈ order, level < s.levelAt index := by
  have heq : s.heads level = (s.tower order level).head? := (h.chain level).head
  rw [heq, ne_eq, List.head?_eq_none_iff] at hhead
  obtain ⟨index, hmem⟩ := List.exists_mem_of_ne_nil _ hhead
  obtain ⟨hin, hlevel⟩ := List.mem_filter.mp hmem
  exact ⟨index, hin, of_decide_eq_true hlevel⟩

/-- A new node keeps the height exact. -/
theorem Represents.topped_insertNew (h : Represents s (p ++ q) (lo ++ hi))
    (hsplit : Splits s p q lo hi key) (habove : ∀ row ∈ hi, key < row.1)
    (hroom : HasRoom s (lo ++ hi)) (ht : Topped s) {value : V} {coins : Nat → Bool} {index : Nat}
    (hins : s.insertNew key value (fun level => (s.tower p level).getLast?) coins = .ok (s', .ok index)) :
    Represents s' (p ++ index :: q) (lo ++ (key, value) :: hi) ∧ Topped s' := by
  obtain ⟨s₁, slot, hins', hrep, -⟩ := h.insertNew_room hsplit habove hroom value coins
  rw [hins] at hins'
  cases hins'
  obtain ⟨hindex, hother, hheight⟩ := insertNew_height hins
  refine ⟨hrep, ?_⟩
  intro level hlevel
  by_cases hlt : level < drawLevel coins
  · exact hrep.head_of_level (by simp) (hindex ▸ hlt)
  · -- the highest level is that of before
    obtain ⟨i, hmem, hi⟩ := h.level_of_head (ht level (by omega))
    have hne : i ≠ index := by
      rintro rfl
      have hnodup := List.nodup_middle.mp hrep.nodup.of_append_left
      exact (List.nodup_cons.mp hnodup).1 hmem
    have hmem' : i ∈ p ++ index :: q := by
      simp only [List.mem_append, List.mem_cons] at hmem ⊢
      tauto
    exact hrep.head_of_level hmem' (by rw [hother i hne]; exact hi)

end Topped

section Singles

variable [LinearOrder K]

/-- `put` for each pair in order until the first error. -/
def putAll (s : SkipList K V) : List (K × V × (Nat → Bool)) →
    Except Fault (SkipList K V × Except StorageFull Unit)
  | [] => .ok (s, .ok ())
  | (key, value, coins) :: items => do
    match ← s.put key value coins with
    | (s, .error e) => return (s, .error e)
    | (s, .ok ()) => s.putAll items

/-- `delete` for each key in order, with the number of keys that were there. -/
def deleteAll (s : SkipList K V) : List K → Except Fault (SkipList K V × Nat)
  | [] => .ok (s, 0)
  | key :: keys => do
    match ← s.delete key with
    | (s, .ok true) =>
      let (s, removed) ← s.deleteAll keys
      return (s, removed + 1)
    | (s, _) => s.deleteAll keys

variable {s s' : SkipList K V} {order p q : List Nat} {m lo hi : List (K × V)} {key : K}

/-- The loop passes the nodes before the next key. -/
theorem Represents.pass (h : Represents s (p ++ q) m)
    (hpassed : ∀ index ∈ p, ∃ row, s.rowAt index = some row ∧ row.1 < key) :
    ∃ q₁ q₂ lo hi, q = q₁ ++ q₂ ∧ m = lo ++ hi ∧ Splits s (p ++ q₁) q₂ lo hi key ∧
      s.advance key (s.arena.length + 1) (fun level => (s.tower p level).getLast?) q.head? =
        .ok (fun level => (s.tower (p ++ q₁) level).getLast?, q₂.head?) := by
  have hrows := h.rows
  rw [List.map_append] at hrows
  obtain ⟨lo, rest, rfl, hlo, hrest⟩ := List.append_eq_map_iff.mp hrows
  have hsorted : Sorted (· < ·) rest := h.sorted.sublist (List.sublist_append_right lo rest)
  obtain ⟨mid, hi, rfl, hmid, hhi⟩ := SortedMap.exists_split hsorted key
  rw [List.map_append] at hrest
  obtain ⟨q₁, q₂, rfl, hq₁, hq₂⟩ := List.map_eq_append_iff.mp hrest.symm
  have hlow : ∀ row ∈ lo, row.1 < key := by
    intro row hrow
    have hmem : some row ∈ p.map s.rowAt := hlo ▸ List.mem_map_of_mem hrow
    obtain ⟨index, hindex, heq⟩ := List.mem_map.mp hmem
    obtain ⟨row', hrow', hlt⟩ := hpassed index hindex
    rw [heq] at hrow'
    cases hrow'
    exact hlt
  have hlen := h.length_slots
  have hlen' := h.length_eq
  rw [List.length_append, List.length_append] at hlen'
  refine ⟨q₁, q₂, lo ++ mid, hi, rfl, (List.append_assoc _ _ _).symm, ⟨?_, hq₂, ?_, hhi⟩, ?_⟩
  · rw [List.map_append, List.map_append, hlo, hq₁]
  · exact fun row hrow => (List.mem_append.mp hrow).elim (hlow row) (hmid row)
  · refine h.advance_spec ?_ ?_ (by omega)
    · intro index hindex
      obtain ⟨row, hrow, heq⟩ := mem_rowAt hq₁ hindex
      exact ⟨row, heq, hmid row hrow⟩
    · intro index hindex
      obtain ⟨row, hrow, heq⟩ := mem_rowAt hq₂ hindex
      exact ⟨row, heq, hhi row hrow⟩

/-- The first node that was not passed has the key, or no node has it. -/
theorem Splits.found_or_missing (h : Splits s p q lo hi key) (hsorted : Sorted (· < ·) (lo ++ hi)) :
    (∃ index q' node old hi', q = index :: q' ∧ hi = (key, old) :: hi' ∧ s.arena[index]? = some node ∧
      node.key = key ∧ q'.map s.rowAt = hi'.map some) ∨
    ((∀ row ∈ hi, key < row.1) ∧
      (q = [] ∨ ∃ index q' node, q = index :: q' ∧ s.arena[index]? = some node ∧ node.key ≠ key)) := by
  have hafter := h.after
  cases q with
  | nil =>
    have hnil : hi = [] := List.map_eq_nil_iff.mp hafter.symm
    exact Or.inr ⟨by simp [hnil], Or.inl rfl⟩
  | cons index q =>
    cases hi with
    | nil => cases hafter
    | cons row hi =>
      obtain ⟨hrow, hrest⟩ := List.cons.inj hafter
      obtain ⟨node, hnode, hkey, -⟩ := rowAt_eq_some hrow
      by_cases heq : row.1 = key
      · refine Or.inl ⟨index, q, node, row.2, hi, rfl, ?_, hnode, hkey.trans heq, hrest⟩
        rw [← heq]
      · refine Or.inr ⟨?_, Or.inr ⟨index, q, node, rfl, hnode, fun hbad => heq (hkey ▸ hbad)⟩⟩
        have hfirst : key < row.1 := lt_of_le_of_ne (h.above row (by simp)) (Ne.symm heq)
        have hpair := (List.pairwise_append.mp hsorted).2.1
        intro row' hrow'
        rcases List.mem_cons.mp hrow' with rfl | hmem
        · exact hfirst
        · exact hfirst.trans ((List.pairwise_cons.mp hpair).1 row' hmem)

/-- `put` of a key that no node has. -/
theorem Represents.put_missing (h : Represents s (p ++ q) (lo ++ hi)) (hsplit : Splits s p q lo hi key)
    (hnode : q = [] ∨ ∃ index q' node, q = index :: q' ∧ s.arena[index]? = some node ∧ node.key ≠ key) (value : V)
    (coins : Nat → Bool) : s.put key value coins =
      (do
        let (s, inserted) ← s.insertNew key value (fun level => (s.tower p level).getLast?) coins
        return (s, inserted.map fun _ => ())) := by
  have hfilter : q.head?.filter (s.hasKey key) = none := by
    rcases hnode with rfl | ⟨index, q', node, rfl, hnode, hne⟩
    · rfl
    · have hno : s.hasKey key index = false := by
        cases hvalue : node.value with
        | none => simp [hasKey, rowAt, hnode, hvalue]
        | some value => simp [hasKey, rowAt, hnode, hvalue, hne]
      simp [hno]
  simp only [put, h.search_spec hsplit, hfilter, bind, Except.bind]

/-- `put` and `delete` of a key that a node has. -/
theorem Represents.search_here {index : Nat} {q' : List Nat} {old : V} {hi' : List (K × V)}
    (h : Represents s (p ++ index :: q') (lo ++ (key, old) :: hi'))
    (hsplit : Splits s p (index :: q') lo ((key, old) :: hi') key) :
    s.search key = .ok (fun level => (s.tower p level).getLast?, some index) := by
  have hrow := (List.cons.inj hsplit.after).1
  have hyes : s.hasKey key index = true := by simp [hasKey, hrow]
  rw [h.search_spec hsplit]
  simp [hyes]

/-- The rows of the nodes that were passed. -/
theorem Splits.passed (h : p.map s.rowAt = lo.map some) (hbelow : ∀ row ∈ lo, row.1 < key) {key' : K}
    (hle : key ≤ key') : ∀ index ∈ p, ∃ row, s.rowAt index = some row ∧ row.1 < key' := by
  intro index hmem
  obtain ⟨row, hrow, heq⟩ := mem_rowAt h hmem
  exact ⟨row, heq, (hbelow row hrow).trans_le hle⟩

end Singles

/-- The links in both directions at all levels, the free slots, the counters, and an exact height. -/
def Invariant [LinearOrder K] (config : Workspace.SkipListConfig) (s : SkipList K V) : Prop :=
  ∃ order m, Represents s order m ∧ Topped s ∧ s.config = config

section Loops

variable [LinearOrder K]
variable {s s' : SkipList K V} {order p q : List Nat} {m lo hi : List (K × V)} {key : K}
  {config : Workspace.SkipListConfig}

omit [LinearOrder K] in
theorem room_cases (s : SkipList K V) (m : List (K × V)) :
    HasRoom s m ∨ ∃ n, s.config.capacity.bound = some n ∧ n ≤ m.length := by
  by_cases hroom : HasRoom s m
  · exact Or.inl hroom
  · rw [HasRoom] at hroom
    push Not at hroom
    exact Or.inr hroom

theorem bulkPutFrom_eq (items : List (K × V × (Nat → Bool))) (h : Represents s (p ++ q) m)
    (ht : Topped s) (hconfig : s.config = config)
    (hpassed : ∀ item ∈ items, ∀ index ∈ p, ∃ row, s.rowAt index = some row ∧ row.1 < item.1)
    (hsorted : items.Pairwise fun a b => a.1 ≤ b.1) :
    s.bulkPutFrom (fun level => (s.tower p level).getLast?) q.head? items = s.putAll items ∧
      ∃ s' result, s.putAll items = .ok (s', result) ∧ Invariant config s' := by
  induction items generalizing s p q m with
  | nil => exact ⟨rfl, s, _, rfl, _, _, h, ht, hconfig⟩
  | cons item items ih =>
    obtain ⟨key, value, coins⟩ := item
    obtain ⟨hfirst, hrest⟩ := List.pairwise_cons.mp hsorted
    obtain ⟨q₁, q₂, lo, hi, rfl, rfl, hsplit, hadvance⟩ := h.pass (hpassed (key, value, coins) (by simp))
    rw [← List.append_assoc] at h
    have hlater : ∀ item ∈ items, key ≤ item.1 := fun item hitem => hfirst item hitem
    rcases hsplit.found_or_missing h.sorted with
      ⟨index, q', node, old, hi', rfl, rfl, hnode, hkey, hafter⟩ | ⟨habove, hmissing⟩
    · -- the value of the node is replaced
      obtain ⟨s₁, hset, hsame, hnode₁⟩ := setValue_spec hnode (some value)
      have hrow : s₁.rowAt index = some (key, value) := by simp [rowAt, hnode₁, hkey]
      have hrep := h.revalued hsplit.before hafter hsame hrow
      have hput : s.put key value coins = .ok (s₁, .ok ()) := by
        simp only [put, h.search_here hsplit, bind, Except.bind, hset]
        rfl
      have hbefore : (p ++ q₁).map s₁.rowAt = lo.map some := by
        have hnodup := List.nodup_middle.mp h.nodup.of_append_left
        rw [← hsplit.before]
        refine List.map_congr_left fun i hi => hsame.row i ?_
        rintro rfl
        exact (List.nodup_cons.mp hnodup).1 (List.mem_append_left _ hi)
      obtain ⟨heq, hdone⟩ := ih hrep (topped_revalued ht hsame) (hsame.config.trans hconfig)
        (fun item hitem => Splits.passed hbefore hsplit.below (hlater item hitem)) hrest
      have htower : (fun level => (s₁.tower (p ++ q₁) level).getLast?) =
          fun level => (s.tower (p ++ q₁) level).getLast? := by
        funext level
        rw [tower_congr fun i _ => congrFun hsame.level i]
      rw [htower] at heq
      refine ⟨?_, ?_⟩
      · rw [bulkPutFrom, putAll]
        simp only [hadvance, bind, Except.bind, List.head?_cons, atKey, node_eq hnode, hkey, hput]
        simp only [pure, Except.pure, if_true, hset]
        exact heq
      · rw [putAll]
        simp only [bind, Except.bind, hput]
        exact hdone
    · have hput := h.put_missing hsplit hmissing value coins
      have hhere : s.atKey key q₂.head? = .ok none := by
        rcases hmissing with rfl | ⟨index, q', node, rfl, hnode, hne⟩
        · rfl
        · simp only [List.head?_cons, atKey, node_eq hnode, bind, Except.bind, if_neg hne]
          rfl
      rcases room_cases s (lo ++ hi) with hroom | ⟨n, hn, hfull⟩
      · obtain ⟨s₁, index, hins, -, hconfig₁⟩ := h.insertNew_room hsplit habove hroom value coins
        obtain ⟨hrep, ht₁⟩ := h.topped_insertNew hsplit habove hroom ht hins
        obtain ⟨-, hother, -⟩ := insertNew_height hins
        have hbefore : (p ++ q₁).map s₁.rowAt = lo.map some := by
          have hrows := hrep.rows
          rw [List.map_append, List.map_append (f := some)] at hrows
          refine (List.append_inj hrows ?_).1
          have hlen := congrArg List.length hsplit.before
          rwa [List.length_map] at hlen ⊢
        obtain ⟨heq, hdone⟩ := ih hrep ht₁ (hconfig₁.trans hconfig)
          (fun item hitem => Splits.passed hbefore hsplit.below (hlater item hitem)) hrest
        have htower : (fun level => (s₁.tower (p ++ q₁) level).getLast?) =
            fun level => (s.tower (p ++ q₁) level).getLast? := by
          funext level
          have hnodup := List.nodup_middle.mp hrep.nodup.of_append_left
          rw [tower_congr fun i hi => hother i ?_]
          rintro rfl
          exact (List.nodup_cons.mp hnodup).1 (List.mem_append_left _ hi)
        rw [htower] at heq
        have hput' : s.put key value coins = .ok (s₁, .ok ()) := by
          rw [hput, hins]
          rfl
        refine ⟨?_, ?_⟩
        · rw [bulkPutFrom, putAll]
          simp only [hadvance, bind, Except.bind, hput', hhere, hins]
          exact heq
        · rw [putAll]
          simp only [bind, Except.bind, hput']
          exact hdone
      · have hins := h.insertNew_full hn hfull key value
          (fun level => (s.tower (p ++ q₁) level).getLast?) coins
        have hput' : s.put key value coins = .ok (s, .error ⟨n⟩) := by
          rw [hput, hins]
          rfl
        refine ⟨?_, s, .error ⟨n⟩, ?_, _, _, h, ht, hconfig⟩
        · rw [bulkPutFrom, putAll]
          simp only [hadvance, bind, Except.bind, hput', hhere, hins]
        · rw [putAll]
          simp only [bind, Except.bind, hput']
          rfl

/-- A key above all rows is not deleted. -/
theorem Represents.deleteAll_above (h : Represents s order m) (keys : List K)
    (habove : ∀ key ∈ keys, ∀ row ∈ m, row.1 < key) : s.deleteAll keys = .ok (s, 0) := by
  induction keys with
  | nil => rfl
  | cons key keys ih =>
    have hget : SortedMap.get m key = none :=
      SortedMap.get_eq_none_of_forall_ne fun row hrow => (habove key (by simp) row hrow).ne
    obtain ⟨update, hsearch, -⟩ := h.missing hget
    have hdelete : s.delete key = .ok (s, .ok false) := by
      simp only [delete, hsearch, bind, Except.bind]
      rfl
    rw [deleteAll]
    simp only [hdelete, bind, Except.bind]
    exact ih fun key hkey => habove key (List.mem_cons_of_mem _ hkey)

theorem bulkDeleteFrom_eq (keys : List K) (h : Represents s (p ++ q) m) (ht : Topped s)
    (hconfig : s.config = config)
    (hpassed : ∀ key ∈ keys, ∀ index ∈ p, ∃ row, s.rowAt index = some row ∧ row.1 < key)
    (hsorted : keys.Pairwise (· ≤ ·)) :
    s.bulkDeleteFrom (fun level => (s.tower p level).getLast?) q.head? keys = s.deleteAll keys ∧
      ∃ s' removed, s.deleteAll keys = .ok (s', removed) ∧ Invariant config s' := by
  induction keys generalizing s p q m with
  | nil => exact ⟨rfl, s, _, rfl, _, _, h, ht, hconfig⟩
  | cons key keys ih =>
    obtain ⟨hlater, hrest⟩ := List.pairwise_cons.mp hsorted
    obtain ⟨q₁, q₂, lo, hi, rfl, rfl, hsplit, hadvance⟩ := h.pass (hpassed key (by simp))
    rw [← List.append_assoc] at h
    rcases hsplit.found_or_missing h.sorted with
      ⟨index, q', node, old, hi', rfl, rfl, hnode, hkey, hafter⟩ | ⟨habove, hmissing⟩
    · -- the node is removed, and the cursor moves to the next one
      obtain ⟨s₁, hremove, hrep, hconfig₁⟩ :=
        h.removeFound_spec hsplit.before hafter (Revalued.refl s index)
      obtain ⟨ht₁, hlevel⟩ := topped_removeFound hremove
      have hdelete : s.delete key = .ok (s₁, .ok true) := by
        simp only [delete, h.search_here hsplit, bind, Except.bind, hremove]
        rfl
      have hnext : node.next 0 = q'.head? := by
        have h' : Represents s ((p ++ q₁ ++ [index]) ++ q') (lo ++ (key, old) :: hi') := by simpa using h
        have hlast := h'.linkAt_last
        rw [h'.tower_zero (List.subset_append_left _ _), List.getLast?_concat, linkAt, hnode] at hlast
        exact hlast
      have hbefore : (p ++ q₁).map s₁.rowAt = lo.map some := by
        have hrows := hrep.rows
        rw [List.map_append, List.map_append (f := some)] at hrows
        refine (List.append_inj hrows ?_).1
        have hlen := congrArg List.length hsplit.before
        rwa [List.length_map] at hlen ⊢
      obtain ⟨heq, s', removed, hrun, hdone⟩ := ih hrep ht₁ (hconfig₁.trans hconfig)
        (fun key hkey => Splits.passed hbefore hsplit.below (hlater key hkey)) hrest
      have htower : (fun level => (s₁.tower (p ++ q₁) level).getLast?) =
          fun level => (s.tower (p ++ q₁) level).getLast? := by
        funext level
        rw [tower_congr fun i _ => congrFun hlevel i]
      rw [htower, hrun] at heq
      refine ⟨?_, s', removed + 1, ?_, hdone⟩
      · rw [bulkDeleteFrom, deleteAll]
        simp only [hadvance, bind, Except.bind, List.head?_cons, node_eq hnode, hkey, hdelete, hnext]
        simp only [if_true, hremove, heq, hrun]
      · rw [deleteAll]
        simp only [bind, Except.bind, hdelete, hrun]
        rfl
    · have hget : SortedMap.get (lo ++ hi) key = none := by
        rw [SortedMap.get_append hsplit.below]
        exact SortedMap.get_eq_none_of_forall_ne fun row hrow => (habove row hrow).ne'
      obtain ⟨update, hsearch, -⟩ := h.missing hget
      have hdelete : s.delete key = .ok (s, .ok false) := by
        simp only [delete, hsearch, bind, Except.bind]
        rfl
      obtain ⟨heq, s', removed, hrun, hdone⟩ := ih h ht hconfig
        (fun key hkey => Splits.passed hsplit.before hsplit.below (hlater key hkey)) hrest
      refine ⟨?_, s', removed, ?_, hdone⟩
      · rcases hmissing with rfl | ⟨index, q', node, rfl, hnode, hne⟩
        · -- the cursor is at the end, and the other keys are not there either
          have hnil : hi = [] := List.map_eq_nil_iff.mp hsplit.after.symm
          have hall := h.deleteAll_above (key :: keys) (by
            intro key' hkey' row hrow
            rw [hnil, List.append_nil] at hrow
            rcases List.mem_cons.mp hkey' with rfl | hmem
            · exact hsplit.below row hrow
            · exact (hsplit.below row hrow).trans_le (hlater key' hmem))
          rw [hall, bulkDeleteFrom]
          simp only [hadvance, bind, Except.bind]
          rfl
        · rw [bulkDeleteFrom, deleteAll]
          simp only [hadvance, bind, Except.bind, List.head?_cons, node_eq hnode, if_neg hne, hdelete]
          exact heq
      · rw [deleteAll]
        simp only [bind, Except.bind, hdelete]
        exact hrun

theorem Represents.get_of_search (h : Represents s order m) {update : Links}
    (hsearch : s.search key = .ok (update, none)) : SortedMap.get m key = none := by
  cases hget : SortedMap.get m key with
  | none => rfl
  | some old =>
    obtain ⟨update', index, node, hsearch', -⟩ := h.found hget
    rw [hsearch] at hsearch'
    cases hsearch'

/-- A new node, or none because the list is full. -/
theorem Represents.topped_insert (h : Represents s order m) (ht : Topped s) {update : Links} {value : V}
    {coins : Nat → Bool} {inserted : Except StorageFull Nat}
    (hsearch : s.search key = .ok (update, none))
    (hins : s.insertNew key value update coins = .ok (s', inserted)) : Topped s' := by
  cases inserted with
  | error e =>
    rw [insertNew_refused hins]
    exact ht
  | ok index =>
    obtain ⟨p, q, lo, hi, rfl, rfl, hsplit, habove, hsearch'⟩ :=
      h.search_missing (h.get_of_search hsearch)
    rw [hsearch] at hsearch'
    cases hsearch'
    rcases room_cases s (lo ++ hi) with hroom | ⟨n, hn, hfull⟩
    · exact (h.topped_insertNew hsplit habove hroom ht hins).2
    · rw [h.insertNew_full hn hfull] at hins
      cases hins

/-- Every write keeps the height exact. -/
theorem Represents.step_topped (h : Represents s order m) (ht : Topped s) {op : Op K V} {reply : Reply V}
    (hstep : s.step op = .ok (s', reply)) : Topped s' := by
  cases op with
  | put key value coins =>
    obtain ⟨⟨s₁, result⟩, hput, hret⟩ := ok_of_bind hstep
    cases hret
    obtain ⟨⟨update, found⟩, hsearch, hput⟩ := ok_of_bind hput
    cases found with
    | some index =>
      obtain ⟨s₂, hset, hret⟩ := ok_of_bind hput
      cases hret
      exact topped_revalued ht (setValue_revalued hset)
    | none =>
      obtain ⟨⟨s₂, inserted⟩, hins, hret⟩ := ok_of_bind hput
      cases hret
      exact h.topped_insert ht hsearch hins
  | putIfAbsent key value coins =>
    obtain ⟨⟨s₁, result⟩, hput, hret⟩ := ok_of_bind hstep
    cases hret
    obtain ⟨⟨update, found⟩, hsearch, hput⟩ := ok_of_bind hput
    cases found with
    | some index =>
      cases hput
      exact ht
    | none =>
      obtain ⟨⟨s₂, inserted⟩, hins, hret⟩ := ok_of_bind hput
      cases hret
      exact h.topped_insert ht hsearch hins
  | replace key value coins =>
    obtain ⟨⟨s₁, result⟩, hput, hret⟩ := ok_of_bind hstep
    cases hret
    obtain ⟨⟨update, found⟩, hsearch, hput⟩ := ok_of_bind hput
    cases found with
    | some index =>
      obtain ⟨node, -, hput⟩ := ok_of_bind hput
      obtain ⟨old, -, hput⟩ := ok_of_bind hput
      obtain ⟨s₂, hset, hret⟩ := ok_of_bind hput
      cases hret
      exact topped_revalued ht (setValue_revalued hset)
    | none =>
      obtain ⟨⟨s₂, inserted⟩, hins, hret⟩ := ok_of_bind hput
      cases hret
      exact h.topped_insert ht hsearch hins
  | update key updateValue coins =>
    obtain ⟨⟨s₁, result⟩, hput, hret⟩ := ok_of_bind hstep
    cases hret
    obtain ⟨⟨update, found⟩, hsearch, hput⟩ := ok_of_bind hput
    cases found with
    | some index =>
      obtain ⟨node, -, hput⟩ := ok_of_bind hput
      obtain ⟨s₂, htake, hput⟩ := ok_of_bind hput
      have ht₂ := topped_revalued ht (setValue_revalued htake)
      cases hnew : updateValue node.value with
      | some value =>
        simp only [hnew] at hput
        obtain ⟨s₃, hset, hret⟩ := ok_of_bind hput
        cases hret
        exact topped_revalued ht₂ (setValue_revalued hset)
      | none =>
        simp only [hnew] at hput
        obtain ⟨s₃, hremove, hret⟩ := ok_of_bind hput
        cases hret
        exact (topped_removeFound hremove).1
    | none =>
      cases hnew : updateValue none with
      | some value =>
        simp only [hnew] at hput
        obtain ⟨⟨s₂, inserted⟩, hins, hret⟩ := ok_of_bind hput
        cases hret
        exact h.topped_insert ht hsearch hins
      | none =>
        simp only [hnew] at hput
        cases hput
        exact ht
  | delete key =>
    obtain ⟨⟨s₁, result⟩, hdelete, hret⟩ := ok_of_bind hstep
    cases hret
    obtain ⟨⟨update, found⟩, -, hdelete⟩ := ok_of_bind hdelete
    cases found with
    | some index =>
      obtain ⟨s₂, hremove, hret⟩ := ok_of_bind hdelete
      cases hret
      exact (topped_removeFound hremove).1
    | none =>
      cases hdelete
      exact ht
  | clear =>
    cases hstep
    intro level hlevel
    cases hlevel

/-- The skip lists of a configuration that writes and sorted bulk operations lead to. -/
inductive Reachable (config : Workspace.SkipListConfig) : SkipList K V → Prop where
  | new : Reachable config (new config)
  | step {s s' : SkipList K V} {op : Op K V} {reply : Reply V} (h : Reachable config s)
      (hstep : s.step op = .ok (s', reply)) : Reachable config s'
  | bulkPut {s s' : SkipList K V} {items : List (K × V × (Nat → Bool))} {result : Except StorageFull Unit}
      (h : Reachable config s) (hsorted : items.Pairwise fun a b => a.1 ≤ b.1)
      (hbulk : s.bulkPutSorted items = .ok (s', result)) : Reachable config s'
  | bulkDelete {s s' : SkipList K V} {keys : List K} {removed : Nat} (h : Reachable config s)
      (hsorted : keys.Pairwise (· ≤ ·)) (hbulk : s.bulkDeleteSorted keys = .ok (s', removed)) :
      Reachable config s'

theorem Invariant.bulkPut (h : Invariant config s) {items : List (K × V × (Nat → Bool))}
    (hsorted : items.Pairwise fun a b => a.1 ≤ b.1) :
    s.bulkPutSorted items = s.putAll items ∧
      ∃ s' result, s.putAll items = .ok (s', result) ∧ Invariant config s' := by
  obtain ⟨order, m, hrep, ht, hconfig⟩ := h
  have hhead : s.heads 0 = order.head? := by
    have hchain := (hrep.chain 0).head
    rwa [hrep.tower_zero (List.Subset.refl _)] at hchain
  have hloop := bulkPutFrom_eq (p := []) items hrep ht hconfig (by simp) hsorted
  rw [← hhead] at hloop
  exact hloop

theorem Invariant.bulkDelete (h : Invariant config s) {keys : List K} (hsorted : keys.Pairwise (· ≤ ·)) :
    s.bulkDeleteSorted keys = s.deleteAll keys ∧
      ∃ s' removed, s.deleteAll keys = .ok (s', removed) ∧ Invariant config s' := by
  obtain ⟨order, m, hrep, ht, hconfig⟩ := h
  have hhead : s.heads 0 = order.head? := by
    have hchain := (hrep.chain 0).head
    rwa [hrep.tower_zero (List.Subset.refl _)] at hchain
  have hloop := bulkDeleteFrom_eq (p := []) keys hrep ht hconfig (by simp) hsorted
  rw [← hhead] at hloop
  exact hloop

theorem Reachable.invariant (h : Reachable config s) : Invariant config s := by
  induction h with
  | new => exact ⟨[], [], represents_new config, (fun level hlevel => by cases hlevel), rfl⟩
  | @step s s' op reply _ hstep ih =>
    obtain ⟨order, m, hrep, ht, hconfig⟩ := ih
    obtain ⟨s₁, order₁, hstep', hrep₁, hconfig₁⟩ := hrep.step_spec op
    rw [hstep] at hstep'
    cases hstep'
    exact ⟨order₁, _, hrep₁, hrep.step_topped ht hstep, hconfig₁.trans hconfig⟩
  | bulkPut _ hsorted hbulk ih =>
    obtain ⟨heq, s₁, result₁, hrun, hinv⟩ := ih.bulkPut hsorted
    rw [hbulk, hrun] at heq
    cases heq
    exact hinv
  | bulkDelete _ hsorted hbulk ih =>
    obtain ⟨heq, s₁, removed₁, hrun, hinv⟩ := ih.bulkDelete hsorted
    rw [hbulk, hrun] at heq
    cases heq
    exact hinv

/-- On every skip list that can be reached, whatever coins were thrown, a bulk operation on sorted
input leaves the same list, slot by slot, and gives the same result as the single operations in turn,
and the links, the counters and the height are right afterwards. -/
theorem bulk_eq_singles (h : Reachable config s) {items : List (K × V × (Nat → Bool))}
    (hitems : items.Pairwise fun a b => a.1 ≤ b.1) {keys : List K} (hkeys : keys.Pairwise (· ≤ ·)) :
    s.bulkPutSorted items = s.putAll items ∧
    s.bulkDeleteSorted keys = s.deleteAll keys ∧
    (∃ s' result, s.bulkPutSorted items = .ok (s', result) ∧ Invariant config s') ∧
    ∃ s' removed, s.bulkDeleteSorted keys = .ok (s', removed) ∧ Invariant config s' := by
  obtain ⟨hput, hputDone⟩ := h.invariant.bulkPut hitems
  obtain ⟨hdelete, hdeleteDone⟩ := h.invariant.bulkDelete hkeys
  exact ⟨hput, hdelete, hput ▸ hputDone, hdelete ▸ hdeleteDone⟩

/-- Three keys in a list that has room for one more. -/
theorem bulk_eq_singles_bounded :
    ∃ s, (new ⟨.bounded 4⟩ : SkipList Nat Nat).bulkPutSorted
        [(1, 10, fun _ => true), (2, 20, fun _ => false), (4, 40, fun level => level == 0)] = .ok (s, .ok ()) ∧
      s.bulkPutSorted [(1, 11, fun _ => true), (3, 30, fun _ => true), (5, 50, fun _ => false)] =
        s.putAll [(1, 11, fun _ => true), (3, 30, fun _ => true), (5, 50, fun _ => false)] ∧
      s.bulkDeleteSorted [2, 2, 3, 4] = s.deleteAll [2, 2, 3, 4] ∧
      ∃ s', s.bulkDeleteSorted [2, 2, 3, 4] = .ok (s', 2) := by
  obtain ⟨s, hbulk, hremoved⟩ : ∃ s, (new ⟨.bounded 4⟩ : SkipList Nat Nat).bulkPutSorted
        [(1, 10, fun _ => true), (2, 20, fun _ => false), (4, 40, fun level => level == 0)] = .ok (s, .ok ()) ∧
      ∃ s', s.bulkDeleteSorted [2, 2, 3, 4] = .ok (s', 2) := ⟨_, rfl, _, rfl⟩
  obtain ⟨hput, hdelete, -⟩ := bulk_eq_singles (Reachable.bulkPut .new (by simp) hbulk)
    (show [(1, 11, fun _ => true), (3, 30, fun _ => true), (5, 50, fun _ => false)].Pairwise _ by simp)
    (show [2, 2, 3, 4].Pairwise (· ≤ ·) by simp)
  exact ⟨s, hbulk, hput, hdelete, hremoved⟩

end Loops

end SkipList

end ZenDB
