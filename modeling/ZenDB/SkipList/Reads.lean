import ZenDB.SkipList.Search

namespace ZenDB

namespace SkipList

open Linked

variable {K V : Type}
variable {s : SkipList K V} {order p q : List Nat} {m lo hi : List (K × V)}

theorem live_eq {node : Node K V} {value : V} (h : node.value = some value) :
    live node = .ok value := by
  rw [live, h]

/-- An iterator over linked nodes gives their rows up to the first one that it stops at. -/
theorem collect_spec (step : Node K V → Option Nat) (next : Option Nat → Option Nat)
    (hstep : ∀ index node, s.arena[index]? = some node → step node = next (some index))
    (stop : K → Bool) {l : List Nat} {rows : List (K × V)} (hrows : l.map s.rowAt = rows.map some)
    {a : Option Nat} (hchain : Chain next a l) {fuel : Nat} (hfuel : l.length < fuel) :
    s.collect step stop fuel (next a) = .ok (rows.takeWhile fun row => !stop row.1) := by
  induction l generalizing a rows fuel with
  | nil =>
    obtain ⟨fuel, rfl⟩ : ∃ n, fuel = n + 1 := Nat.exists_eq_add_one.mpr hfuel
    cases rows with
    | nil =>
      have hend : next a = none := hchain
      rw [hend]
      rfl
    | cons row rows => cases hrows
  | cons index l ih =>
    obtain ⟨fuel, rfl⟩ : ∃ n, fuel = n + 1 := Nat.exists_eq_add_one.mpr (by omega)
    cases rows with
    | nil => cases hrows
    | cons row rows =>
      obtain ⟨hrow, hrest⟩ := List.cons.inj hrows
      obtain ⟨node, hnode, hkey, hvalue⟩ := rowAt_eq_some hrow
      rw [hchain.1, List.takeWhile_cons]
      simp only [collect, node_eq hnode, bind, Except.bind, hkey]
      cases hstop : stop row.1 with
      | true => rfl
      | false =>
        have hlt : l.length < fuel := by simpa using hfuel
        have hnext := ih hrest hchain.2 hlt
        rw [← hstep index node hnode] at hnext
        simp only [live_eq hvalue, hnext]
        rfl

/-- An iterator without a bound gives all rows. -/
theorem takeWhile_not_false (rows : List (K × V)) : (rows.takeWhile fun _ => !false) = rows := by
  induction rows with
  | nil => rfl
  | cons row rows ih => exact congrArg (row :: ·) ih

theorem collect_next (stop : K → Bool) {l : List Nat} {rows : List (K × V)}
    (hrows : l.map s.rowAt = rows.map some) {a : Option Nat} (hchain : Chain (s.linkAt 0) a l)
    {fuel : Nat} (hfuel : l.length < fuel) :
    s.collect (fun node => node.next 0) stop fuel (s.linkAt 0 a) =
      .ok (rows.takeWhile fun row => !stop row.1) := by
  refine collect_spec _ _ ?_ stop hrows hchain hfuel
  intro index node hnode
  simp [linkAt, hnode]

theorem collect_prev (stop : K → Bool) {l : List Nat} {rows : List (K × V)}
    (hrows : l.map s.rowAt = rows.map some) {a : Option Nat} (hchain : Chain s.backAt a l)
    {fuel : Nat} (hfuel : l.length < fuel) :
    s.collect (fun node => node.prev) stop fuel (s.backAt a) =
      .ok (rows.takeWhile fun row => !stop row.1) := by
  refine collect_spec _ _ ?_ stop hrows hchain hfuel
  intro index node hnode
  simp [backAt, hnode]

variable [LinearOrder K]

theorem Represents.fuel (h : Represents s order m) {l : List Nat} (hl : l.length ≤ order.length) :
    l.length < s.arena.length + 1 := by
  have hlength := h.length_eq
  have hslots := h.length_slots
  omega

theorem Represents.chain_zero (h : Represents s order m) : Chain (s.linkAt 0) none order := by
  have hchain := h.chain 0
  rwa [h.tower_zero (List.Subset.refl _)] at hchain

theorem Represents.rows_reverse (h : Represents s order m) :
    order.reverse.map s.rowAt = m.reverse.map some := by
  rw [List.map_reverse, h.rows, ← List.map_reverse]

theorem Represents.entries_eq (h : Represents s order m) : SkipList.entries s = .ok m := by
  have hall := collect_next (fun _ => false) h.rows h.chain_zero (h.fuel le_rfl)
  rwa [takeWhile_not_false] at hall

theorem Represents.entriesRev_eq (h : Represents s order m) :
    s.entriesRev = .ok m.reverse := by
  have hall := collect_prev (fun _ => false) h.rows_reverse h.back (h.fuel (by simp))
  rwa [takeWhile_not_false] at hall

omit [LinearOrder K] in
theorem endRow_eq {l : List Nat} {rows : List (K × V)} (hrows : l.map s.rowAt = rows.map some) :
    s.endRow l.head? = .ok rows.head? := by
  cases l with
  | nil =>
    cases rows with
    | nil => rfl
    | cons row rows => cases hrows
  | cons index l =>
    cases rows with
    | nil => cases hrows
    | cons row rows =>
      obtain ⟨node, hnode, hkey, hvalue⟩ := rowAt_eq_some (List.cons.inj hrows).1
      simp only [List.head?_cons, endRow, node_eq hnode, live_eq hvalue, bind, Except.bind, hkey]
      rfl

theorem Represents.first_eq (h : Represents s order m) : s.first = .ok m.head? := by
  have hhead : s.heads 0 = order.head? := h.chain_zero.head
  rw [first, hhead]
  exact endRow_eq h.rows

theorem Represents.last_eq (h : Represents s order m) : s.last = .ok m.getLast? := by
  have htail : s.tail = order.reverse.head? := h.back.head
  rw [last, htail, ← List.head?_reverse]
  exact endRow_eq h.rows_reverse

theorem Represents.get_eq (h : Represents s order m) (key : K) :
    s.get key = .ok (SortedMap.get m key) := by
  cases hget : SortedMap.get m key with
  | none =>
    obtain ⟨p, q, lo, hi, -, -, -, -, hsearch⟩ := h.search_missing hget
    simp only [get, hsearch, bind, Except.bind]
    rfl
  | some value =>
    obtain ⟨p, index, q, lo, hi, -, -, hsplit, hsearch⟩ := h.search_found hget
    obtain ⟨node, hnode, -, hvalue⟩ := rowAt_eq_some (List.cons.inj hsplit.after).1
    simp only [get, hsearch, bind, Except.bind, node_eq hnode, live_eq hvalue]
    rfl

theorem Represents.contains_eq (h : Represents s order m) (key : K) :
    s.contains key = .ok (SortedMap.contains m key) := by
  rw [SortedMap.contains]
  cases hget : SortedMap.get m key with
  | none =>
    obtain ⟨p, q, lo, hi, -, -, -, -, hsearch⟩ := h.search_missing hget
    simp only [contains, hsearch, bind, Except.bind]
    rfl
  | some value =>
    obtain ⟨p, index, q, lo, hi, -, -, -, hsearch⟩ := h.search_found hget
    simp only [contains, hsearch, bind, Except.bind]
    rfl

variable {key : K}

theorem Represents.firstAtOrAfter_eq (h : Represents s (p ++ q) (lo ++ hi))
    (hsplit : Splits s p q lo hi key) : s.firstAtOrAfter key = .ok q.head? := by
  have hfollow : s.follow 0 (s.tower p 0).getLast? = .ok q.head? := by
    rw [follow_eq (hsplit.inArena rfl), h.linkAt_last]
  simp only [firstAtOrAfter, h.search_spec hsplit, bind, Except.bind]
  cases hfound : q.head?.filter (s.hasKey key) with
  | none => exact hfollow
  | some index =>
    have hhead := (Option.filter_eq_some_iff.mp hfound).1
    rw [hhead]
    rfl

theorem Represents.range_eq (h : Represents s order m) (start stop : K) :
    s.range start stop = .ok (m.filter fun row => start ≤ row.1 ∧ row.1 < stop) := by
  obtain ⟨p, q, lo, hi, rfl, rfl, hsplit⟩ := h.splits start
  have hchain : Chain (s.linkAt 0) (s.tower p 0).getLast? q := by
    have hrest := h.chain_zero.append
    rwa [Option.or_none, ← h.tower_zero (List.subset_append_left p q)] at hrest
  have hcollect := collect_next (fun key => decide (stop ≤ key)) hsplit.after hchain
    (h.fuel (by simp))
  have hlo : lo.filter (fun row => start ≤ row.1 ∧ row.1 < stop) = [] := by
    rw [List.filter_eq_nil_iff]
    intro row hrow
    simp [hsplit.below row hrow]
  have hhi : hi.filter (fun row => start ≤ row.1 ∧ row.1 < stop) =
      hi.takeWhile fun row => !decide (stop ≤ row.1) := by
    rw [takeWhile_eq_filter]
    · refine List.filter_congr ?_
      intro row hrow
      rw [Bool.eq_iff_iff]
      simp [hsplit.above row hrow]
    · refine (List.pairwise_append.mp h.sorted).2.1.imp ?_
      intro a b hab hb
      simp only [Bool.not_eq_true', decide_eq_false_iff_not, not_le] at hb ⊢
      exact lt_trans hab hb
  rw [List.filter_append, hlo, List.nil_append, hhi, ← hcollect]
  simp only [range, h.firstAtOrAfter_eq hsplit, bind, Except.bind, h.linkAt_last]

theorem Represents.lastBefore_eq (h : Represents s (p ++ q) (lo ++ hi))
    (hsplit : Splits s p q lo hi key) : s.lastBefore key = .ok p.getLast? := by
  have htail : s.tail = (p ++ q).getLast? := by
    rw [← List.head?_reverse]
    exact h.back.head
  have hback := h.backAt_head
  simp only [lastBefore, h.firstAtOrAfter_eq hsplit, bind, Except.bind, htail]
  cases q with
  | nil =>
    rw [List.append_nil]
    cases hlast : p.getLast? with
    | none => rfl
    | some index =>
      obtain ⟨row, hrow, heq⟩ := mem_rowAt hsplit.before (List.mem_of_getLast? hlast)
      obtain ⟨node, hnode, hkey, -⟩ := rowAt_eq_some heq
      have hlt : node.key < key := hkey ▸ hsplit.below row hrow
      simp only [List.head?_nil, pure, Except.pure, node_eq hnode, if_pos hlt]
  | cons j q =>
    obtain ⟨row, -, heq⟩ := mem_rowAt hsplit.after (List.mem_cons_self)
    obtain ⟨node, hnode, -, -⟩ := rowAt_eq_some heq
    have hprev : node.prev = p.getLast? := by
      rw [← hback, List.head?_cons, backAt, hnode]
      rfl
    simp only [List.head?_cons, node_eq hnode, pure, Except.pure, hprev]
    cases hlast : p.getLast? with
    | some index => rfl
    | none =>
      -- every node is at or behind the end of the range, the tail too
      obtain rfl : p = [] := List.getLast?_eq_none_iff.mp hlast
      rw [List.nil_append, List.getLast?_cons]
      have hmem : q.getLast?.getD j ∈ j :: q := List.mem_of_getLast? List.getLast?_cons
      obtain ⟨row, hrow, heq⟩ := mem_rowAt hsplit.after hmem
      obtain ⟨node, hnode, hkey, -⟩ := rowAt_eq_some heq
      have hge : ¬ node.key < key := not_lt.mpr (hkey ▸ hsplit.above row hrow)
      simp only [node_eq hnode, if_neg hge]

theorem Represents.rangeRev_eq (h : Represents s order m) (start stop : K) :
    s.rangeRev start stop = .ok (m.filter fun row => start ≤ row.1 ∧ row.1 < stop).reverse := by
  obtain ⟨p, q, lo, hi, rfl, rfl, hsplit⟩ := h.splits stop
  have hchain : Chain s.backAt q.head? p.reverse := by
    have hreverse := h.back
    rw [List.reverse_append] at hreverse
    have hrest := hreverse.append
    rwa [Option.or_none, List.getLast?_reverse] at hrest
  have hrows : p.reverse.map s.rowAt = lo.reverse.map some := by
    rw [List.map_reverse, hsplit.before, ← List.map_reverse]
  have hcollect := collect_prev (fun key => decide (key < start)) hrows hchain
    (h.fuel (by simp))
  have hhi : hi.filter (fun row => start ≤ row.1 ∧ row.1 < stop) = [] := by
    rw [List.filter_eq_nil_iff]
    intro row hrow
    simp [hsplit.above row hrow]
  have hlo : (lo.filter fun row => start ≤ row.1 ∧ row.1 < stop).reverse =
      lo.reverse.takeWhile fun row => !decide (row.1 < start) := by
    rw [takeWhile_eq_filter, ← List.filter_reverse]
    · refine List.filter_congr ?_
      intro row hrow
      rw [Bool.eq_iff_iff]
      simp [hsplit.below row (List.mem_reverse.mp hrow)]
    · refine ((List.pairwise_append.mp h.sorted).1 : Sorted (· < ·) lo).reverse.imp ?_
      intro a b hab hb
      simp only [Bool.not_eq_true', decide_eq_false_iff_not, not_lt] at hb ⊢
      exact hb.trans (le_of_lt hab)
  rw [List.filter_append, hhi, List.append_nil, hlo, ← hcollect, h.backAt_head]
  simp only [rangeRev, h.lastBefore_eq hsplit, bind, Except.bind]

end SkipList

end ZenDB
