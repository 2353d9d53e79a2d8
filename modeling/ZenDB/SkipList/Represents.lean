import ZenDB.Lib.SortedMap
import ZenDB.SkipList.Links

namespace ZenDB

namespace SkipList

open Linked

variable {K V : Type}

/-- The live nodes that a level links, in key order. -/
def tower (s : SkipList K V) (order : List Nat) (level : Nat) : List Nat :=
  order.filter fun index => level < s.levelAt index

theorem tower_append (s : SkipList K V) (p q : List Nat) (level : Nat) :
    s.tower (p ++ q) level = s.tower p level ++ s.tower q level :=
  List.filter_append p q

theorem tower_cons (s : SkipList K V) (index : Nat) (l : List Nat) (level : Nat) :
    s.tower (index :: l) level =
      if level < s.levelAt index then index :: s.tower l level else s.tower l level := by
  rw [tower, List.filter_cons]
  simp only [decide_eq_true_eq]
  rfl

theorem tower_congr {s s' : SkipList K V} {l : List Nat}
    (h : ∀ index ∈ l, s'.levelAt index = s.levelAt index) (level : Nat) :
    s'.tower l level = s.tower l level := by
  refine List.filter_congr ?_
  intro index hmem
  rw [h index hmem]

theorem mem_of_mem_tower {s : SkipList K V} {l : List Nat} {level index : Nat}
    (h : index ∈ s.tower l level) : index ∈ l := (List.mem_filter.mp h).1

variable [LinearOrder K]

/-- The skip list holds the rows `m`; `order` has the slots of its live nodes in key order. -/
structure Represents (s : SkipList K V) (order : List Nat) (m : List (K × V)) : Prop where
  rows : order.map s.rowAt = m.map some
  sorted : Sorted (· < ·) m
  slots : (order ++ s.free).Perm (List.range s.arena.length)
  levels : ∀ index ∈ order, 0 < s.levelAt index ∧ s.levelAt index ≤ maxLevel
  chain : ∀ level, Chain (s.linkAt level) none (s.tower order level)
  back : Chain s.backAt none order.reverse
  height : ∀ level, s.height ≤ level → s.heads level = none
  highest : s.height ≤ maxLevel
  entries : s.stats.entries = m.length
  room : ∀ n, s.config.capacity.bound = some n → s.arena.length ≤ n

variable {s : SkipList K V} {order p q : List Nat} {m lo hi : List (K × V)} {key : K}

theorem represents_new (config : Workspace.SkipListConfig) :
    Represents (new config : SkipList K V) [] [] where
  rows := rfl
  sorted := List.Pairwise.nil
  slots := List.Perm.refl _
  levels := by simp
  chain := fun _ => rfl
  back := rfl
  height := fun _ _ => rfl
  highest := Nat.zero_le _
  entries := rfl
  room := fun _ _ => Nat.zero_le _

theorem Represents.nodup (h : Represents s order m) : (order ++ s.free).Nodup :=
  h.slots.nodup_iff.mpr List.nodup_range

theorem Represents.lt_length (h : Represents s order m) {index : Nat} (hmem : index ∈ order) :
    index < s.arena.length :=
  List.mem_range.mp (h.slots.subset (List.mem_append_left _ hmem))

theorem Represents.length_eq (h : Represents s order m) : order.length = m.length := by
  have hlen := congrArg List.length h.rows
  rwa [List.length_map, List.length_map] at hlen

theorem Represents.length_slots (h : Represents s order m) :
    m.length + s.free.length = s.arena.length := by
  have hlen := h.slots.length_eq
  rwa [List.length_append, List.length_range, h.length_eq] at hlen

/-- Every live node has a link at the lowest level. -/
theorem Represents.tower_zero (h : Represents s order m) {l : List Nat} (hl : l ⊆ order) :
    s.tower l 0 = l := by
  rw [tower, List.filter_eq_self]
  intro index hmem
  exact decide_eq_true (h.levels index (hl hmem)).1

/-- No node reaches the height of the list. -/
theorem Represents.tower_height (h : Represents s order m) {level : Nat} (hlevel : s.height ≤ level)
    {l : List Nat} (hl : l ⊆ order) : s.tower l level = [] := by
  have hhead := (h.chain level).head
  rw [show s.linkAt level none = none from h.height level hlevel, eq_comm, List.head?_eq_none_iff,
    tower, List.filter_eq_nil_iff] at hhead
  rw [tower, List.filter_eq_nil_iff]
  exact fun index hmem => hhead index (hl hmem)

/-- The link from the last node of the first part of the list is to the second part. -/
theorem Represents.linkAt_last (h : Represents s (p ++ q) m) :
    s.linkAt 0 (s.tower p 0).getLast? = q.head? := by
  have hchain := h.chain 0
  rw [h.tower_zero (List.Subset.refl _)] at hchain
  have hrest := hchain.append.head
  rwa [Option.or_none, ← h.tower_zero (List.subset_append_left p q)] at hrest

/-- The link backwards from the second part of the list is to the first part. -/
theorem Represents.backAt_head (h : Represents s (p ++ q) m) :
    s.backAt q.head? = p.getLast? := by
  have hchain := h.back
  rw [List.reverse_append] at hchain
  have hrest := hchain.append.head
  rwa [Option.or_none, List.getLast?_reverse, List.head?_reverse] at hrest

/-- The live nodes in two parts, with the rows of each part. -/
structure Splits (s : SkipList K V) (p q : List Nat) (lo hi : List (K × V)) (key : K) : Prop where
  before : p.map s.rowAt = lo.map some
  after : q.map s.rowAt = hi.map some
  below : ∀ row ∈ lo, row.1 < key
  above : ∀ row ∈ hi, key ≤ row.1

theorem Represents.splits (h : Represents s order m) (key : K) :
    ∃ p q lo hi, order = p ++ q ∧ m = lo ++ hi ∧ Splits s p q lo hi key := by
  obtain ⟨lo, hi, rfl, hlo, hhi⟩ := SortedMap.exists_split h.sorted key
  have hrows := h.rows
  rw [List.map_append] at hrows
  obtain ⟨p, q, rfl, hp, hq⟩ := List.map_eq_append_iff.mp hrows
  exact ⟨p, q, lo, hi, rfl, rfl, hp, hq, hlo, hhi⟩

omit [LinearOrder K] in
theorem mem_rowAt {l : List Nat} {rows : List (K × V)} (h : l.map s.rowAt = rows.map some)
    {index : Nat} (hmem : index ∈ l) : ∃ row ∈ rows, s.rowAt index = some row := by
  have hrow : s.rowAt index ∈ rows.map some := h ▸ List.mem_map_of_mem hmem
  obtain ⟨row, hrow, heq⟩ := List.mem_map.mp hrow
  exact ⟨row, hrow, heq.symm⟩

end SkipList

end ZenDB
