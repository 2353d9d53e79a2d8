import ZenDB.BPlusTree.Placement
import ZenDB.Lib.Rows

namespace ZenDB

open Memory Slotted

/-! Separators, and the child that a descent reaches through them. -/

section Truncation

variable {l r : UInt8} {ls rs left right : Bytes}

theorem truncatedSeparator_of_lt (h : l < r) : truncatedSeparator (l :: ls) (r :: rs) = [r] := by
  rw [truncatedSeparator, separatorPrefix, if_pos h]
  rfl

theorem truncatedSeparator_cons (l : UInt8) (ls rs : Bytes) :
    truncatedSeparator (l :: ls) (l :: rs) = l :: truncatedSeparator ls rs := by
  rw [truncatedSeparator, truncatedSeparator, separatorPrefix, if_neg (lt_irrefl l)]
  cases separatorPrefix ls rs <;> rfl

theorem nil_le (s : Bytes) : [] ≤ s := not_lt.mp (List.not_lt_nil s)

theorem cons_le_cons (x : UInt8) {s s' : Bytes} : x :: s ≤ x :: s' ↔ s ≤ s' := by
  rw [← not_lt, ← not_lt, List.cons_lt_cons_iff]
  simp

/-- The separator lies above the left key and not above the right one. -/
theorem truncatedSeparator_between (h : left < right) :
    left < truncatedSeparator left right ∧ truncatedSeparator left right ≤ right := by
  induction left generalizing right with
  | nil =>
    cases right with
    | nil => exact absurd h (lt_irrefl _)
    | cons r rs =>
      refine ⟨List.nil_lt_cons _ _, not_lt.mp ?_⟩
      intro hlt
      rcases List.cons_lt_cons_iff.mp hlt with hr | ⟨-, hrs⟩
      · exact absurd hr UInt8.not_lt_zero
      · exact absurd hrs (List.not_lt_nil _)
  | cons l ls ih =>
    cases right with
    | nil => exact absurd h (List.not_lt_nil _)
    | cons r rs =>
      rcases List.cons_lt_cons_iff.mp h with hlt | ⟨rfl, hlt⟩
      · rw [truncatedSeparator_of_lt hlt]
        exact ⟨List.cons_lt_cons_iff.mpr (Or.inl hlt), (cons_le_cons r).mpr (nil_le rs)⟩
      · obtain ⟨hleft, hright⟩ := ih hlt
        rw [truncatedSeparator_cons]
        exact ⟨List.cons_lt_cons_iff.mpr (Or.inr ⟨rfl, hleft⟩), (cons_le_cons l).mpr hright⟩

/-- No shorter string separates the two keys. -/
theorem truncatedSeparator_shortest (left right : Bytes) (h : left < right) :
    left < truncatedSeparator left right ∧ truncatedSeparator left right ≤ right ∧
      ∀ s : Bytes, s.length < (truncatedSeparator left right).length → ¬ (left < s ∧ s ≤ right) := by
  obtain ⟨hleft, hright⟩ := truncatedSeparator_between h
  refine ⟨hleft, hright, ?_⟩
  clear hleft hright
  rintro s hlen ⟨hls, hsr⟩
  induction left generalizing right s with
  | nil =>
    cases right with
    | nil => exact absurd h (lt_irrefl _)
    | cons r rs =>
      obtain rfl : s = [] := List.length_eq_zero_iff.mp (Nat.lt_one_iff.mp hlen)
      exact absurd hls (lt_irrefl _)
  | cons l ls ih =>
    cases s with
    | nil => exact absurd hls (List.not_lt_nil _)
    | cons x xs =>
      cases right with
      | nil => exact absurd h (List.not_lt_nil _)
      | cons r rs =>
        rcases List.cons_lt_cons_iff.mp h with hlt | ⟨rfl, hlt⟩
        · rw [truncatedSeparator_of_lt hlt] at hlen
          simp at hlen
        · -- the first byte is that of both keys
          have hx : ¬ l < x := fun hx => absurd (List.cons_lt_cons_iff.mpr (Or.inl hx)) (not_lt.mpr hsr)
          obtain ⟨rfl, hrest⟩ := (List.cons_lt_cons_iff.mp hls).resolve_left hx
          rw [truncatedSeparator_cons] at hlen
          exact ih rs hlt xs (Nat.lt_of_succ_lt_succ hlen) hrest ((cons_le_cons l).mp hsr)

theorem truncatedSeparator_shortest_prefix :
    truncatedSeparator [7] [7, 0, 5] = [7, 0] ∧
      ∀ s : Bytes, s.length < 2 → ¬ (([7] : Bytes) < s ∧ s ≤ [7, 0, 5]) :=
  ⟨by decide, (truncatedSeparator_shortest [7] [7, 0, 5] (by decide)).2.2⟩

/-- The right key has no byte behind the first one in which it exceeds the left key, or it is the left
key and a zero byte. -/
def Uncut (left right : Bytes) : Prop :=
  right = left ++ [0] ∨ right.dropLast <+: left ∧ right.dropLast ≠ left

/-- The right key is its own separator. -/
theorem truncatedSeparator_eq_right_iff (h : left < right) :
    truncatedSeparator left right = right ↔ Uncut left right := by
  induction left generalizing right with
  | nil =>
    have hnil : truncatedSeparator [] right = [0] := by cases right <;> rfl
    rw [hnil, Uncut, List.nil_append, List.prefix_nil, eq_comm]
    simp
  | cons l ls ih =>
    cases right with
    | nil => exact absurd h (List.not_lt_nil _)
    | cons r rs =>
      rcases List.cons_lt_cons_iff.mp h with hlt | ⟨rfl, hlt⟩
      · have hne : r ≠ l := hlt.ne'
        rw [truncatedSeparator_of_lt hlt, Uncut]
        cases rs <;> simp [hne, List.cons_prefix_cons]
      · have hrs : rs ≠ [] := fun hnil => List.not_lt_nil ls (hnil ▸ hlt)
        rw [truncatedSeparator_cons, Uncut, List.dropLast_cons_of_ne_nil hrs, List.cons_append,
          List.cons_prefix_cons]
        simpa [Uncut] using ih hlt

end Truncation

section Routes

variable {seps front back : List (Bytes × Nat)} {q : Bytes} {leftmost : Nat}

/-- The child of the last separator that is not above `q`. -/
def routeChild (leftmost : Nat) (seps : List (Bytes × Nat)) (q : Bytes) : Nat :=
  seps.foldl (fun child e => if e.1 ≤ q then e.2 else child) leftmost

theorem routeChild_append (leftmost : Nat) (front back : List (Bytes × Nat)) (q : Bytes) :
    routeChild leftmost (front ++ back) q = routeChild (routeChild leftmost front q) back q :=
  List.foldl_append

theorem routeChild_cons (leftmost : Nat) (e : Bytes × Nat) (seps : List (Bytes × Nat)) (q : Bytes) :
    routeChild leftmost (e :: seps) q = routeChild (if e.1 ≤ q then e.2 else leftmost) seps q := rfl

theorem routeChild_of_gt (h : ∀ e ∈ seps, q < e.1) : routeChild leftmost seps q = leftmost := by
  induction seps with
  | nil => rfl
  | cons e seps ih =>
    rw [routeChild_cons, if_neg (not_le.mpr (h e List.mem_cons_self))]
    exact ih fun e he => h e (List.mem_cons_of_mem _ he)

theorem routeChild_concat {e : Bytes × Nat} (h : e.1 ≤ q) :
    routeChild leftmost (seps ++ [e]) q = e.2 := by
  rw [routeChild_append, routeChild_cons, if_pos h]
  rfl

/-- The separators up to a key and those above it. -/
theorem exists_route (h : Sorted (· < ·) seps) (q : Bytes) :
    ∃ front back, seps = front ++ back ∧ (∀ e ∈ front, e.1 ≤ q) ∧ ∀ e ∈ back, q < e.1 := by
  obtain ⟨front, back, hseps, hfront, hback⟩ := exists_partition
    (h.imp fun {a b} hab (hb : b.1 ≤ q) => hab.le.trans hb)
  exact ⟨front, back, hseps, hfront, fun e he => not_le.mp (hback e he)⟩

end Routes

namespace BPlusTree

section Splits

variable {t : BPlusTree} {page leftmost : Nat} {seps front back : List (Bytes × Nat)}

/-- The search in an internal page with ascending separators. -/
theorem internalSearch_eq (h : Separators (t.mem page) leftmost seps) (hsorted : Sorted (· < ·) seps)
    (hp : page < t.mapped) (q : Bytes) : t.internalSearch page q = some (routeChild leftmost seps q) := by
  obtain ⟨front, back, rfl, hfront, hback⟩ := exists_route hsorted q
  rw [internalSearch, pageBytes_eq hp]
  simp only [Option.bind_eq_bind, Option.bind_some, h.separatorAfter, routeIndex_eq hfront hback]
  rw [routeChild_append, routeChild_of_gt hback]
  cases front using List.reverseRecOn with
  | nil =>
    rw [if_pos List.length_nil, h.first]
    rfl
  | append_singleton front e =>
    rw [if_neg (by simp), routeChild_concat (hfront e (by simp))]
    exact (h.parts (by simp)).2

/-- A new separator is put in order. -/
theorem sorted_splitSeps (new : Bytes × Nat) (h : Sorted (· < ·) seps) (hnew : ∀ e ∈ seps, e.1 ≠ new.1) :
    Sorted (· < ·) (splitSeps seps new) := by
  obtain ⟨front, back, rfl, hfront, hback⟩ := exists_route h new.1
  rw [splitSeps_eq new hfront hback]
  obtain ⟨hf, hb, hfb⟩ := List.pairwise_append.mp h
  refine List.pairwise_append.mpr ⟨hf, List.pairwise_cons.mpr ⟨hback, hb⟩, ?_⟩
  intro e he
  refine List.forall_mem_cons.mpr ⟨?_, hfb e he⟩
  exact lt_of_le_of_ne (hfront e he) (hnew e (by simp [he]))

/-- The middle of the entries by their sizes: `a` takes the sum to the half, or `b` is the last entry. -/
structure AtMidpoint (order front : List (Bytes × Nat)) (a b : Bytes × Nat)
    (back : List (Bytes × Nat)) : Prop where
  split : order = front ++ a :: b :: back
  before : sepBytes front < sepBytes order/2
  reached : sepBytes order/2 ≤ sepBytes front+sepSize a ∨ back = []

/-- The entries before the middle fit into a page, and those behind it without the first one. -/
def HalvesFit (order : List (Bytes × Nat)) : Prop :=
  ∀ front a b back, AtMidpoint order front a b back →
    sepBytes front+sepSize a ≤ 4096-16 ∧ sepBytes back ≤ 4096-16

/-- The key behind the middle is not cut, or the children on both sides of it are the same. -/
def LiftsWhole (order : List (Bytes × Nat)) : Prop :=
  ∀ front a b back, AtMidpoint order front a b back → Uncut a.1 b.1 ∨ a.2 = b.2

variable {order : List (Bytes × Nat)} {a b : Bytes × Nat} {q : Bytes}

/-- The child reached through the two pages of a split. Only keys from the lifted separator up to the
key it was cut from may go to another child than before. -/
theorem routeChild_split (leftmost : Nat) (h : Sorted (· < ·) (front ++ a :: b :: back)) (q : Bytes) :
    (if q < truncatedSeparator a.1 b.1 then routeChild leftmost (front ++ [a]) q
        else routeChild b.2 back q) =
      if truncatedSeparator a.1 b.1 ≤ q ∧ q < b.1 then b.2
      else routeChild leftmost (front ++ a :: b :: back) q := by
  obtain ⟨-, htail, -⟩ := List.pairwise_append.mp h
  obtain ⟨ha, htail⟩ := List.pairwise_cons.mp htail
  obtain ⟨hb, -⟩ := List.pairwise_cons.mp htail
  obtain ⟨hleft, hright⟩ := truncatedSeparator_between (ha b List.mem_cons_self)
  have hwhole : routeChild leftmost (front ++ a :: b :: back) q =
      routeChild (if b.1 ≤ q then b.2 else routeChild leftmost (front ++ [a]) q) back q := by
    rw [List.append_cons, routeChild_append, routeChild_cons]
  have hback : q < b.1 → ∀ e ∈ back, q < e.1 := fun hq e he => hq.trans (hb e he)
  rw [hwhole]
  by_cases hsep : q < truncatedSeparator a.1 b.1
  · have hq : q < b.1 := lt_of_lt_of_le hsep hright
    rw [if_pos hsep, if_neg fun hgap => absurd hsep (not_lt.mpr hgap.1), if_neg (not_le.mpr hq),
      routeChild_of_gt (hback hq)]
  · rw [if_neg hsep]
    by_cases hq : q < b.1
    · rw [if_pos ⟨not_lt.mp hsep, hq⟩, routeChild_of_gt (hback hq)]
    · rw [if_neg fun hgap => hq hgap.2, if_pos (not_lt.mp hq)]

/-- In the gap the page before the split leads to the child before the lifted one. -/
theorem routeChild_gap (leftmost : Nat) (h : Sorted (· < ·) (front ++ a :: b :: back))
    (hq : truncatedSeparator a.1 b.1 ≤ q ∧ q < b.1) :
    routeChild leftmost (front ++ a :: b :: back) q = a.2 := by
  obtain ⟨-, htail, -⟩ := List.pairwise_append.mp h
  obtain ⟨ha, htail⟩ := List.pairwise_cons.mp htail
  obtain ⟨hb, -⟩ := List.pairwise_cons.mp htail
  obtain ⟨hleft, -⟩ := truncatedSeparator_between (ha b List.mem_cons_self)
  have hgt : ∀ e ∈ b :: back, q < e.1 :=
    List.forall_mem_cons.mpr ⟨hq.2, fun e he => hq.2.trans (hb e he)⟩
  rw [List.append_cons, routeChild_append, routeChild_of_gt hgt,
    routeChild_concat (hleft.le.trans hq.1)]

section Midpoint

theorem AtMidpoint.mid_eq (h : AtMidpoint order front a b back) :
    splitMid (order.map sepSize) = some (front.length+1) := by
  have hsum : (order.map sepSize).sum = sepBytes order := rfl
  have hsizes : order.map sepSize = front.map sepSize ++ sepSize a :: sepSize b :: back.map sepSize := by
    rw [h.split, List.map_append, List.map_cons, List.map_cons]
  have hlen : 2 ≤ (order.map sepSize).length := by
    simp [hsizes]
    omega
  by_cases hle : sepBytes order/2 ≤ sepBytes front+sepSize a
  · rw [splitMid_eq hsizes h.before hle hlen]
    simp
  · obtain rfl : back = [] := h.reached.resolve_left hle
    have htotal : sepBytes order = sepBytes front+sepSize a+sepSize b := by
      rw [h.split]
      simp [Nat.add_assoc]
    have hlast : order.map sepSize = (front ++ [a]).map sepSize ++ sepSize b :: [] := by
      rw [hsizes]
      simp
    rw [splitMid_eq hlast (by rw [hsum]; simpa [sepBytes] using not_le.mp hle)
      (by rw [hsum, htotal]; simp [sepBytes]; omega) hlen]
    simp

theorem AtMidpoint.unique (h : AtMidpoint order front a b back) {front' back' : List (Bytes × Nat)}
    {a' b' : Bytes × Nat} (h' : AtMidpoint order front' a' b' back') :
    front' = front ∧ a' = a ∧ b' = b ∧ back' = back := by
  have hlen : front.length+1 = front'.length+1 :=
    Option.some.inj (h.mid_eq.symm.trans h'.mid_eq)
  have heq := List.append_inj (h'.split.symm.trans h.split) (by omega)
  simpa only [List.cons.injEq] using heq

theorem exists_atMidpoint (hlen : 2 ≤ order.length) : ∃ front a b back, AtMidpoint order front a b back := by
  have hpos : ∀ e : Bytes × Nat, 0 < sepSize e := fun e => by
    rw [sepSize]
    omega
  have hhalf : 0 < sepBytes order/2 := by
    obtain ⟨a, rest, rfl⟩ := List.exists_cons_of_length_pos (show 0 < order.length by omega)
    obtain ⟨b, rest, rfl⟩ := List.exists_cons_of_length_pos (show 0 < rest.length by
      rwa [List.length_cons, Nat.succ_le_succ_iff] at hlen)
    have ha := hpos a
    have hb := hpos b
    simp only [sepBytes_cons]
    omega
  obtain ⟨sizes, x, sizes', hsizes, hlt, hle⟩ := exists_crossing (sepBytes order/2) hhalf
    (order.map sepSize) (Nat.div_le_self _ _)
  obtain ⟨front, rest, rfl, rfl, hrest⟩ := List.map_eq_append_iff.mp hsizes
  obtain ⟨a, rest, rfl, rfl, -⟩ := List.map_eq_cons_iff.mp hrest
  cases rest with
  | cons b back => exact ⟨front, a, b, back, rfl, hlt, Or.inl hle⟩
  | nil =>
    -- the last entry crosses the middle
    cases front using List.reverseRecOn with
    | nil => simp at hlen
    | append_singleton front c =>
      refine ⟨front, c, a, [], by simp, lt_of_le_of_lt ?_ hlt, Or.inr rfl⟩
      rw [← sepBytes, sepBytes_append]
      exact Nat.le_add_right _ _

/-- There is a middle wherever a page is cut. -/
theorem atMidpoint_of_splitMid {mid : Nat} (hmid : splitMid (order.map sepSize) = some mid)
    (ha : order[mid-1]? = some a) (hb : order[mid]? = some b) :
    ∃ front, AtMidpoint order front a b (order.drop (mid+1)) ∧ order.take mid = front ++ [a] := by
  obtain ⟨hpos, hlt⟩ := splitMid_bounds hmid
  rw [List.length_map] at hlt
  obtain ⟨front, a', b', back, hat⟩ := exists_atMidpoint (show 2 ≤ order.length by omega)
  obtain rfl : front.length+1 = mid := Option.some.inj (hat.mid_eq.symm.trans hmid)
  have hsplit := hat.split
  obtain rfl : a' = a := by simpa [hsplit] using ha
  obtain rfl : b' = b := by simpa [hsplit] using hb
  have htake : order.take (front.length+1) = front ++ [a'] := by
    rw [hsplit, List.take_length_add_append]
    rfl
  have hback : order.drop (front.length+1+1) = back := by
    rw [hsplit, Nat.add_assoc, List.drop_length_add_append]
    rfl
  exact ⟨front, hback ▸ hat, htake⟩

end Midpoint

section Search

variable {free : List Nat} {used : Set Nat} {key : Bytes} {child : Nat} {r : BPlusTree × Option PageSplit}

/-- The child that a split leaves for a key: the one behind the lifted separator in the gap, and that
of the page before the split elsewhere. -/
theorem internalSplit_search (h : Allocates t free used) (hp : page ∈ used)
    (hpage : Separators (t.mem page) leftmost seps) (hsorted : Sorted (· < ·) seps)
    (hnew : ∀ e ∈ seps, e.1 ≠ key) (hchild : child < 2^64) (hr : t.internalSplit page key child = some r)
    {split : PageSplit} (hs : r.2 = some split) (hfit : HalvesFit (splitSeps seps (key, child))) :
    ∃ front a b back, AtMidpoint (splitSeps seps (key, child)) front a b back ∧ a.1 < b.1 ∧
      split.separatorKey = truncatedSeparator a.1 b.1 ∧
      (∀ q, r.1.internalSearch (if q < split.separatorKey then split.leftPage else split.rightPage) q =
        some (if split.separatorKey ≤ q ∧ q < b.1 then b.2
          else routeChild leftmost (splitSeps seps (key, child)) q)) ∧
      ∀ q, split.separatorKey ≤ q ∧ q < b.1 →
        routeChild leftmost (splitSeps seps (key, child)) q = a.2 := by
  have horder := sorted_splitSeps (key, child) hsorted hnew
  have hbound := splitSeps_bound key hpage hchild
  rcases (internalSplit_completes h hp hpage hchild).post r hr with
    ⟨-, hnone, -⟩ | ⟨-, right, mid, a, b, hmid, ha, hb, hsome, hsplit⟩
  · rw [hnone] at hs
    cases hs
  rw [hsome] at hs
  cases hs
  generalize splitSeps seps (key, child) = order at horder hbound hmid ha hb hsplit hfit ⊢
  obtain ⟨front, hat, htake⟩ := atMidpoint_of_splitMid hmid ha hb
  obtain ⟨hfitLeft, hfitRight⟩ := hfit _ _ _ _ hat
  obtain ⟨hleft, b', hb', hright⟩ := hsplit.both hpage hbound (by rw [htake]; simpa using hfitLeft) hfitRight
  obtain rfl : b = b' := Option.some.inj (hb.symm.trans hb')
  obtain ⟨free', halloc⟩ := hsplit.allocates
  have horder' := horder
  rw [hat.split] at horder'
  have hab : a.1 < b.1 :=
    (List.pairwise_cons.mp (List.pairwise_append.mp horder').2.1).1 b List.mem_cons_self
  refine ⟨front, a, b, _, hat, hab, rfl, ?_, ?_⟩
  · intro q
    have hroute := routeChild_split leftmost horder' q
    rw [← hat.split, ← htake] at hroute
    rw [← hroute]
    split_ifs
    · exact internalSearch_eq hleft.separators (horder.sublist (List.take_sublist _ _))
        (halloc.used_lt (Set.mem_insert_of_mem _ hp)) q
    · exact internalSearch_eq hright.separators (horder.sublist (List.drop_sublist _ _))
        (halloc.used_lt (Set.mem_insert _ _)) q
  · intro q hq
    rw [hat.split]
    exact routeChild_gap leftmost horder' hq

end Search

/-- A split leaves every key its child if and only if the lifted separator is not cut between two
different children; a page that is only packed anew leaves it anyway. -/
theorem internalSplit_routes_iff (t : BPlusTree) (free : List Nat) (used : Set Nat) (page leftmost : Nat)
    (seps : List (Bytes × Nat)) (key : Bytes) (child : Nat) (r : BPlusTree × Option PageSplit)
    (h : Allocates t free used) (hp : page ∈ used) (hpage : Separators (t.mem page) leftmost seps)
    (hsorted : Sorted (· < ·) seps) (hnew : ∀ e ∈ seps, e.1 ≠ key) (hchild : child < 2^64)
    (hr : t.internalSplit page key child = some r) :
    (r.2 = none → ∀ q, r.1.internalSearch page q =
      some (routeChild leftmost (splitSeps seps (key, child)) q)) ∧
    ∀ split, r.2 = some split → HalvesFit (splitSeps seps (key, child)) →
      ((∀ q, r.1.internalSearch
          (if q < split.separatorKey then split.leftPage else split.rightPage) q =
        some (routeChild leftmost (splitSeps seps (key, child)) q)) ↔
      LiftsWhole (splitSeps seps (key, child))) := by
  refine ⟨fun hnone q => ?_, fun split hs hfit => ?_⟩
  · rcases (internalSplit_completes h hp hpage hchild).post r hr with
      ⟨-, -, pg, hset, hdone⟩ | ⟨-, right, mid, a, b, -, -, -, hsome, -⟩
    · have hpage' : Separators ((t.setPage page pg).mem page) leftmost (splitSeps seps (key, child)) := by
        rw [setPage_mem_self]
        exact hdone.separators
      rw [hset]
      exact internalSearch_eq hpage' (sorted_splitSeps (key, child) hsorted hnew) (h.used_lt hp) q
    · rw [hsome] at hnone
      cases hnone
  obtain ⟨front, a, b, back, hat, hab, hsep, hsearch, hgap⟩ :=
    internalSplit_search h hp hpage hsorted hnew hchild hr hs hfit
  obtain ⟨-, hle⟩ := truncatedSeparator_between hab
  constructor
  · intro hall front' a' b' back' hat'
    obtain ⟨-, rfl, rfl, -⟩ := hat.unique hat'
    rw [← truncatedSeparator_eq_right_iff hab, ← hsep]
    rw [← hsep] at hle
    refine or_iff_not_imp_left.mpr fun hcut => ?_
    -- the cut separator itself lies in the gap
    have hq : split.separatorKey ≤ split.separatorKey ∧ split.separatorKey < b'.1 :=
      ⟨le_rfl, lt_of_le_of_ne hle hcut⟩
    have hchanged := hsearch split.separatorKey
    rw [hall, hgap _ hq, if_pos hq] at hchanged
    exact Option.some.inj hchanged
  · intro hlift q
    rw [hsearch]
    split_ifs with hq
    · rw [hgap q hq]
      rcases hlift front a b back hat with hwhole | hsame
      · rw [hsep, (truncatedSeparator_eq_right_iff hab).mpr hwhole] at hq
        exact absurd hq.2 (not_lt.mpr hq.1)
      · rw [hsame]
    · rfl

/-- A page with two separators is split for a third one, which is lifted. -/
theorem exists_lifted (xs xs' ys : Bytes) (hpage : sepBytes (twoSeps xs xs') ≤ 4080)
    (halone : sepSize (3 :: ys, 8) ≤ 4080)
    (hover : 4080 < sepBytes (twoSeps xs xs')+sepSize (3 :: ys, 8))
    (hfirst : sepSize (1 :: xs, 6) < (sepBytes (twoSeps xs xs')+sepSize (3 :: ys, 8))/2) :
    ∃ pg r split, InternalPage ((onePage pg).mem 1) 5 (twoSeps xs xs') ∧
      (onePage pg).internalSplit 1 (3 :: ys) 8 = some r ∧ r.2 = some split ∧
      AtMidpoint (splitSeps (twoSeps xs xs') (3 :: ys, 8)) [(1 :: xs, 6)] (2 :: xs', 7) (3 :: ys, 8) [] ∧
      HalvesFit (splitSeps (twoSeps xs xs') (3 :: ys, 8)) := by
  have horder := splitSeps_twoSeps xs xs' ys
  have htotal := (sepBytes_splitSeps (twoSeps xs xs') (3 :: ys, 8)).trans (Nat.add_comm _ _)
  have hat : AtMidpoint (splitSeps (twoSeps xs xs') (3 :: ys, 8)) [(1 :: xs, 6)] (2 :: xs', 7)
      (3 :: ys, 8) [] := by
    refine ⟨horder, ?_, Or.inr rfl⟩
    rwa [htotal]
  have hleft : sepBytes [(1 :: xs, 6)]+sepSize (2 :: xs', 7) ≤ 4080 := by simpa [twoSeps] using hpage
  have hfit : HalvesFit (splitSeps (twoSeps xs xs') (3 :: ys, 8)) := by
    intro front a b back hat'
    obtain ⟨rfl, rfl, -, rfl⟩ := hat.unique hat'
    exact ⟨hleft, by decide⟩
  obtain ⟨mid, hmid, -, -, -, hiff⟩ := splitSepSizes_spec hpage halone (htotal ▸ hover)
  obtain rfl : 2 = mid := Option.some.inj (hat.mid_eq.symm.trans hmid)
  have hfits : SplitFits 4080 ((splitSeps (twoSeps xs xs') (3 :: ys, 8)).map sepSize) := by
    refine hiff.mp ?_
    rw [horder]
    simpa [twoSeps] using hpage
  obtain ⟨pg, hpg⟩ := exists_twoSeps xs xs' hpage
  obtain ⟨r, hr, hcases⟩ := (internalSplit_completes onePage_allocates rfl hpg.separators
    (show 8 < 2^64 by decide)).exists_of_room ⟨⟨hpage, halone⟩, onePage_room (by decide), hfits⟩
  rcases hcases with ⟨hsum, -⟩ | ⟨-, right, mid, a, b, -, -, -, hsome, -⟩
  · omega
  · exact ⟨pg, r, _, hpg, hr, hsome, hat, hfit⟩

theorem sorted_twoSeps (xs xs' : Bytes) : Sorted (· < ·) (twoSeps xs xs') := by
  refine List.pairwise_cons.mpr ⟨?_, List.pairwise_singleton ..⟩
  simpa using List.cons_lt_cons_iff.mpr (Or.inl (by decide))

/-- The third separator is lifted as its first byte, which leads to the child behind it and not to the
one before it. -/
theorem internalSplit_misroutes :
    ∃ (t : BPlusTree) (free : List Nat) (used : Set Nat) (page leftmost : Nat) (seps : List (Bytes × Nat))
      (key : Bytes) (child : Nat) (r : BPlusTree × Option PageSplit) (split : PageSplit) (q : Bytes),
      Allocates t free used ∧ page ∈ used ∧ InternalPage (t.mem page) leftmost seps ∧
      Sorted (· < ·) seps ∧ (∀ e ∈ seps, e.1 ≠ key) ∧ child < 2^64 ∧
      t.internalSplit page key child = some r ∧ r.2 = some split ∧
      HalvesFit (splitSeps seps (key, child)) ∧
      routeChild leftmost (splitSeps seps (key, child)) q = 7 ∧
      r.1.internalSearch (if q < split.separatorKey then split.leftPage else split.rightPage) q = some 8 := by
  obtain ⟨xs, hxs⟩ := exists_bytes 1999
  obtain ⟨ys, hys⟩ := exists_bytes 98
  obtain ⟨pg, r, split, hpage, hr, hs, hat, hfit⟩ := exists_lifted xs xs (0 :: ys)
    (by simp [twoSeps, sepSize, hxs]) (by simp [sepSize, hys]) (by simp [twoSeps, sepSize, hxs, hys])
    (by simp [twoSeps, sepSize, hxs, hys])
  have hne : ∀ e ∈ twoSeps xs xs, e.1 ≠ 3 :: 0 :: ys := fun e he => (twoSeps_lt xs xs (0 :: ys) e he).ne
  obtain ⟨front, a, b, back, hat', -, hsep, hsearch, hgap⟩ := internalSplit_search onePage_allocates rfl
    hpage.separators (sorted_twoSeps xs xs) hne (by decide) hr hs hfit
  obtain ⟨-, rfl, rfl, -⟩ := hat.unique hat'
  have hq : split.separatorKey ≤ [3] ∧ ([3] : Bytes) < 3 :: 0 :: ys := by
    rw [hsep, truncatedSeparator_of_lt (by decide)]
    exact ⟨le_rfl, List.cons_lt_cons_iff.mpr (Or.inr ⟨rfl, List.nil_lt_cons _ _⟩)⟩
  refine ⟨onePage pg, [], {1}, 1, 5, twoSeps xs xs, 3 :: 0 :: ys, 8, r, split, [3], onePage_allocates, rfl,
    hpage, sorted_twoSeps xs xs, hne, by decide, hr, hs, hfit, hgap [3] hq, ?_⟩
  rw [hsearch, if_pos hq]

/-- A lifted separator of one byte is not cut. -/
theorem internalSplit_routes_iff_lifted :
    ∃ (xs xs' : Bytes) (pg : Page) (r : BPlusTree × Option PageSplit) (split : PageSplit),
      InternalPage ((onePage pg).mem 1) 5 (twoSeps xs xs') ∧
      (onePage pg).internalSplit 1 [3] 8 = some r ∧ r.2 = some split ∧
      splitSeps (twoSeps xs xs') ([3], 8) = [(1 :: xs, 6), (2 :: xs', 7), ([3], 8)] ∧
      ∀ q, r.1.internalSearch (if q < split.separatorKey then split.leftPage else split.rightPage) q =
        some (routeChild 5 [(1 :: xs, 6), (2 :: xs', 7), ([3], 8)] q) := by
  obtain ⟨xs, hxs⟩ := exists_bytes 2020
  obtain ⟨xs', hxs'⟩ := exists_bytes 2030
  obtain ⟨pg, r, split, hpage, hr, hs, hat, hfit⟩ := exists_lifted xs xs' []
    (by simp [twoSeps, sepSize, hxs, hxs']) (by decide) (by simp [twoSeps, sepSize, hxs, hxs'])
    (by simp [twoSeps, sepSize, hxs, hxs'])
  have hroutes := (internalSplit_routes_iff (onePage pg) [] {1} 1 5 (twoSeps xs xs') [3] 8 r
    onePage_allocates rfl hpage.separators (sorted_twoSeps xs xs')
    (fun e he => (twoSeps_lt xs xs' [] e he).ne) (by decide) hr).2 split hs hfit
  refine ⟨xs, xs', pg, r, split, hpage, hr, hs, splitSeps_twoSeps xs xs' [], ?_⟩
  rw [splitSeps_twoSeps xs xs' []] at hat hroutes
  refine hroutes.mpr ?_
  intro front a b back hat'
  obtain ⟨-, rfl, rfl, -⟩ := hat.unique hat'
  exact Or.inl (Or.inr ⟨List.nil_prefix, (List.cons_ne_nil _ _).symm⟩)

end Splits

end BPlusTree

end ZenDB
