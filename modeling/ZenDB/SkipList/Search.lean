import ZenDB.SkipList.Represents

namespace ZenDB

namespace SkipList

open Linked

variable {K V : Type} [LinearOrder K]
variable {s : SkipList K V} {order p q : List Nat} {m lo hi : List (K × V)} {key : K}

/-- The live node in the slot has the key. -/
def hasKey (s : SkipList K V) (key : K) (index : Nat) : Bool :=
  (s.rowAt index).any fun row => row.1 = key

section Walk

variable {index level fuel : Nat} {node : Node K V} {a : Option Nat}

theorem walk_lt (hnode : s.arena[index]? = some node) (h : node.key < key) :
    s.walk key level (fuel + 1) a (some index) =
      s.walk key level fuel (some index) (node.next level) := by
  have hcmp : compare node.key key = .lt := compare_lt_iff_lt.mpr h
  simp only [walk, node_eq hnode, bind, Except.bind, hcmp]

theorem walk_eq (hnode : s.arena[index]? = some node) (h : node.key = key) :
    s.walk key level (fuel + 1) a (some index) = .ok (a, some index) := by
  have hcmp : compare node.key key = .eq := compare_eq_iff_eq.mpr h
  simp only [walk, node_eq hnode, bind, Except.bind, hcmp]
  rfl

theorem walk_gt (hnode : s.arena[index]? = some node) (h : key < node.key) :
    s.walk key level (fuel + 1) a (some index) = .ok (a, none) := by
  have hcmp : compare node.key key = .gt := compare_gt_iff_gt.mpr h
  simp only [walk, node_eq hnode, bind, Except.bind, hcmp]
  rfl

end Walk

/-- The inner loop goes past the nodes before the key and looks at the one behind them. -/
theorem walk_spec {a : Option Nat} {level fuel : Nat}
    (hchain : Chain (s.linkAt level) a (p ++ q))
    (hp : ∀ index ∈ p, ∃ row, s.rowAt index = some row ∧ row.1 < key)
    (hq : ∀ index ∈ q, ∃ row, s.rowAt index = some row ∧ key ≤ row.1) (hfuel : p.length < fuel) :
    s.walk key level fuel a (s.linkAt level a) =
      .ok (p.getLast?.or a, q.head?.filter (s.hasKey key)) := by
  induction p generalizing a fuel with
  | nil =>
    obtain ⟨fuel, rfl⟩ : ∃ n, fuel = n + 1 := Nat.exists_eq_add_one.mpr hfuel
    rw [hchain.head]
    cases q with
    | nil => rfl
    | cons j q =>
      obtain ⟨row, hrow, hle⟩ := hq j (by simp)
      obtain ⟨node, hnode, hkey, -⟩ := rowAt_eq_some hrow
      rcases hle.eq_or_lt with heq | hlt
      · have hhas : s.hasKey key j = true := by simp [hasKey, hrow, heq]
        simp [walk_eq hnode (hkey.trans heq.symm), Option.filter, hhas]
      · have hhas : s.hasKey key j = false := by simp [hasKey, hrow, hlt.ne']
        simp [walk_gt hnode (hkey ▸ hlt), Option.filter, hhas]
  | cons i p ih =>
    obtain ⟨fuel, rfl⟩ : ∃ n, fuel = n + 1 := Nat.exists_eq_add_one.mpr (by omega)
    obtain ⟨row, hrow, hlt⟩ := hp i (by simp)
    obtain ⟨node, hnode, hkey, -⟩ := rowAt_eq_some hrow
    have hnext : node.next level = s.linkAt level (some i) := by simp [linkAt, hnode]
    rw [hchain.1, getLast?_cons_or, walk_lt hnode (hkey ▸ hlt), hnext]
    exact ih hchain.2 (fun j hj => hp j (List.mem_cons_of_mem _ hj)) (by simpa using hfuel)

theorem Splits.inArena (h : Splits s p q lo hi key) {a : Option Nat} {level : Nat}
    (ha : a = (s.tower p level).getLast?) : s.InArena a := by
  cases a with
  | none => trivial
  | some index =>
    have hmem : index ∈ p := (List.mem_filter.mp (List.mem_of_getLast? ha.symm)).1
    obtain ⟨row, -, hrow⟩ := mem_rowAt h.before hmem
    obtain ⟨node, hnode, -⟩ := rowAt_eq_some hrow
    exact (List.getElem?_eq_some_iff.mp hnode).1

omit [LinearOrder K] in
/-- The nodes of a level from the last one of the level above on. -/
theorem exists_tower_split (s : SkipList K V) (p : List Nat) (level : Nat) :
    ∃ p₁ p₂, s.tower p level = p₁ ++ p₂ ∧ p₁.getLast? = (s.tower p (level + 1)).getLast? := by
  cases hlast : (s.tower p (level + 1)).getLast? with
  | none => exact ⟨[], s.tower p level, rfl, rfl⟩
  | some index =>
    have hmem := List.mem_filter.mp (List.mem_of_getLast? hlast)
    have hbelow : index ∈ s.tower p level := by
      refine List.mem_filter.mpr ⟨hmem.1, ?_⟩
      have hlt := of_decide_eq_true hmem.2
      exact decide_eq_true (by omega)
    obtain ⟨p₁, p₂, hsplit⟩ := List.append_of_mem hbelow
    exact ⟨p₁ ++ [index], p₂, by simp [hsplit], by simp⟩

/-- Only the first node behind those before the key can have the key. -/
theorem Splits.head_filter (h : Splits s p q lo hi key) (hsorted : Sorted (· < ·) (lo ++ hi))
    (P : Nat → Bool) :
    (q.filter P).head?.filter (s.hasKey key) = none ∨
      (q.filter P).head?.filter (s.hasKey key) = q.head?.filter (s.hasKey key) := by
  cases q with
  | nil => exact Or.inl rfl
  | cons j q =>
    by_cases hj : P j = true
    · exact Or.inr (by simp [hj])
    left
    -- the nodes behind the first one have later keys
    have hafter := h.after
    cases hi with
    | nil => cases hafter
    | cons e hi =>
      obtain ⟨-, htail⟩ := List.cons.inj hafter
      have hlater := (List.pairwise_cons.mp (List.pairwise_append.mp hsorted).2.1).1
      have hle := h.above e (by simp)
      rw [List.filter_cons, if_neg hj, Option.filter_eq_none_iff]
      intro index hhead
      have hmem : index ∈ q := (List.mem_filter.mp (List.mem_of_head? hhead)).1
      obtain ⟨row, hrow, heq⟩ := mem_rowAt htail hmem
      simp [hasKey, heq, (hle.trans_lt (hlater row hrow)).ne']

/-- The outer loop finds the last node before the key at each level below the given one. -/
theorem Represents.searchLevels_spec (h : Represents s (p ++ q) (lo ++ hi))
    (hsplit : Splits s p q lo hi key) (level : Nat) (update : Links) {found : Option Nat}
    (hfound : found = none ∨ found = q.head?.filter (s.hasKey key)) :
    s.searchLevels key level update (s.tower p level).getLast? found =
      .ok (fun l => if l < level then (s.tower p l).getLast? else update l,
        if level = 0 then found else q.head?.filter (s.hasKey key)) := by
  induction level generalizing update found with
  | zero => rfl
  | succ level ih =>
    obtain ⟨p₁, p₂, htower, hlast⟩ := exists_tower_split s p level
    have hp : ∀ index ∈ p₂, ∃ row, s.rowAt index = some row ∧ row.1 < key := by
      intro index hmem
      have hmem' : index ∈ s.tower p level := htower ▸ List.mem_append_right _ hmem
      obtain ⟨row, hrow, heq⟩ := mem_rowAt hsplit.before (List.mem_filter.mp hmem').1
      exact ⟨row, heq, hsplit.below row hrow⟩
    have hq : ∀ index ∈ s.tower q level, ∃ row, s.rowAt index = some row ∧ key ≤ row.1 := by
      intro index hmem
      obtain ⟨row, hrow, heq⟩ := mem_rowAt hsplit.after (List.mem_filter.mp hmem).1
      exact ⟨row, heq, hsplit.above row hrow⟩
    have hfuel : p₂.length < s.arena.length + 1 := by
      have htower' := congrArg List.length htower
      have hfilter : (s.tower p level).length ≤ p.length := List.length_filter_le _ _
      have hlength := h.length_eq
      have hslots := h.length_slots
      simp only [List.length_append] at htower' hlength hslots
      omega
    have hchain := h.chain level
    rw [tower, List.filter_append, ← tower, ← tower, htower, List.append_assoc] at hchain
    have hrest := hchain.append
    rw [Option.or_none] at hrest
    have hwalk := walk_spec hrest hp hq hfuel
    have hprevious : p₂.getLast?.or p₁.getLast? = (s.tower p level).getLast? := by
      rw [htower, List.getLast?_append]
    have hhere : ((s.tower q level).head?.filter (s.hasKey key)).or found = none ∨
        ((s.tower q level).head?.filter (s.hasKey key)).or found =
          q.head?.filter (s.hasKey key) := by
      rcases hsplit.head_filter h.sorted (fun index => level < s.levelAt index) with hnone | hsome
      · rw [tower, hnone]
        exact hfound
      · rw [tower, hsome]
        rcases hfound with rfl | rfl <;> simp
    rw [← hlast, searchLevels, follow_eq (hsplit.inArena hlast)]
    simp only [bind, Except.bind, hwalk, hprevious]
    rw [ih _ hhere]
    congr 2
    · funext l
      by_cases hl : l = level
      · simp [hl]
      · have hiff : l < level ↔ l < level + 1 := by omega
        simp [hl, hiff]
    · by_cases hlevel : level = 0
      · subst hlevel
        have hall : s.tower q 0 = q := h.tower_zero (List.subset_append_right p q)
        rw [if_pos rfl, if_neg (by omega), hall]
        rcases hfound with rfl | rfl <;> simp
      · rw [if_neg hlevel, if_neg (by omega)]

/-- `search` finds the last node before the key at every level, and the node of the key. -/
theorem Represents.search_spec (h : Represents s (p ++ q) (lo ++ hi))
    (hsplit : Splits s p q lo hi key) :
    s.search key =
      .ok (fun level => (s.tower p level).getLast?, q.head?.filter (s.hasKey key)) := by
  have htop : ∀ level, s.height ≤ level → s.tower p level = [] :=
    fun level hlevel => h.tower_height hlevel (List.subset_append_left p q)
  have hlevels := h.searchLevels_spec hsplit s.height noLinks (Or.inl rfl)
  rw [htop s.height le_rfl, List.getLast?_nil] at hlevels
  rw [search, hlevels]
  congr 2
  · funext level
    split_ifs with hlevel
    · rfl
    · rw [htop level (not_lt.mp hlevel)]
      rfl
  · split_ifs with hzero
    · have hall : s.tower q 0 = q := h.tower_zero (List.subset_append_right p q)
      have hnil : s.tower q 0 = [] :=
        h.tower_height (le_of_eq hzero) (List.subset_append_right p q)
      rw [← hall, hnil]
      rfl
    · rfl

theorem Represents.search_found (h : Represents s order m) {value : V}
    (hget : SortedMap.get m key = some value) :
    ∃ p index q lo hi, order = p ++ index :: q ∧ m = lo ++ (key, value) :: hi ∧
      Splits s p (index :: q) lo ((key, value) :: hi) key ∧
      s.search key = .ok (fun level => (s.tower p level).getLast?, some index) := by
  obtain ⟨p, q, lo, hi, rfl, rfl, hsplit⟩ := h.splits key
  rw [SortedMap.get_append hsplit.below] at hget
  cases hi with
  | nil => cases hget
  | cons e hi =>
    obtain ⟨k, v⟩ := e
    have hlater := (List.pairwise_cons.mp (List.pairwise_append.mp h.sorted).2.1).1
    rw [SortedMap.get] at hget
    by_cases hk : key = k
    · subst hk
      rw [if_pos rfl] at hget
      cases hget
      have hafter := hsplit.after
      cases q with
      | nil => cases hafter
      | cons index q =>
        have hrow : s.rowAt index = some (key, value) := (List.cons.inj hafter).1
        have hhas : s.hasKey key index = true := by simp [hasKey, hrow]
        have hsearch := h.search_spec hsplit
        rw [List.head?_cons, Option.filter, if_pos hhas] at hsearch
        exact ⟨p, index, q, lo, hi, rfl, rfl, hsplit, hsearch⟩
    · -- a later key cannot be equal to one that `k` is not before
      rw [if_neg hk] at hget
      have hmem := SortedMap.mem_of_get hget
      exact absurd (hsplit.above (k, v) (by simp)) (not_le.mpr (hlater _ hmem))

theorem Represents.search_missing (h : Represents s order m)
    (hget : SortedMap.get m key = none) :
    ∃ p q lo hi, order = p ++ q ∧ m = lo ++ hi ∧ Splits s p q lo hi key ∧
      (∀ row ∈ hi, key < row.1) ∧
      s.search key = .ok (fun level => (s.tower p level).getLast?, none) := by
  obtain ⟨p, q, lo, hi, rfl, rfl, hsplit⟩ := h.splits key
  have habove : ∀ row ∈ hi, key < row.1 := by
    intro row hrow
    refine lt_of_le_of_ne (hsplit.above row hrow) ?_
    rintro rfl
    rw [SortedMap.get_of_mem h.sorted (List.mem_append_right lo hrow)] at hget
    cases hget
  have hsearch := h.search_spec hsplit
  have hnone : q.head?.filter (s.hasKey key) = none := by
    rw [Option.filter_eq_none_iff]
    intro index hhead
    obtain ⟨row, hrow, heq⟩ := mem_rowAt hsplit.after (List.mem_of_head? hhead)
    simp [hasKey, heq, (habove row hrow).ne']
  rw [hnone] at hsearch
  exact ⟨p, q, lo, hi, rfl, rfl, hsplit, habove, hsearch⟩

end SkipList

end ZenDB
