import Mathlib.Data.List.Basic
import Mathlib.Order.Defs.LinearOrder
import Mathlib.Tactic.Common

namespace ZenDB

/-! The binary search of a sorted slice by a comparison, as the standard library of Rust makes it. -/

variable {α : Type}

/-- The loop over a window of the list that starts at `base`; it is halved until one index is left. -/
def searchLoop (cmp : α → Ordering) (l : List α) : Nat → Nat → Nat → Nat
  | 0, _, base => base
  | fuel+1, size, base =>
    if size ≤ 1 then base
    else
      let half := size/2
      let mid := base+half
      searchLoop cmp l fuel (size-half) (if (l[mid]?).map cmp = some .gt then base else mid)

/-- The index of an element that compares as equal. -/
def binarySearchBy (cmp : α → Ordering) (l : List α) : Option Nat :=
  if l.length = 0 then none
  else
    let base := searchLoop cmp l l.length l.length 0
    if (l[base]?).map cmp = some .eq then some base else none

/-- The elements are in the order of the comparison, and at most one compares as equal. -/
def OrderedBy (cmp : α → Ordering) (l : List α) : Prop :=
  l.Pairwise fun a b => cmp a = .lt ∨ cmp b = .gt

variable {cmp : α → Ordering} {l : List α}

theorem OrderedBy.cases (h : OrderedBy cmp l) {i j : Nat} (hij : i < j) {a b : α}
    (ha : l[i]? = some a) (hb : l[j]? = some b) : cmp a = .lt ∨ cmp b = .gt := by
  obtain ⟨hi, rfl⟩ := List.getElem?_eq_some_iff.mp ha
  obtain ⟨hj, rfl⟩ := List.getElem?_eq_some_iff.mp hb
  exact List.pairwise_iff_getElem.mp h i j hi hj hij

/-- An element in the window is found: it stays in the window until nothing else is left. -/
theorem searchLoop_eq (h : OrderedBy cmp l) {index : Nat} {a : α} (ha : l[index]? = some a)
    (heq : cmp a = .eq) {fuel size base : Nat} (hfuel : size ≤ fuel+1)
    (hlo : base ≤ index) (hhi : index < base+size) (hend : base+size ≤ l.length) :
    searchLoop cmp l fuel size base = index := by
  induction fuel generalizing size base with
  | zero =>
    have hone : index = base := by omega
    rw [searchLoop, hone]
  | succ fuel ih =>
    rw [searchLoop]
    split_ifs with hsize
    · omega
    have hhalf : 0 < size/2 := by omega
    have hmid : base+size/2 < l.length := by omega
    obtain ⟨b, hget⟩ : ∃ b, l[base+size/2]? = some b := ⟨_, List.getElem?_eq_getElem hmid⟩
    dsimp only
    rw [hget, Option.map_some]
    by_cases hgt : cmp b = .gt
    · have hbefore : index < base+size/2 := by
        by_contra hge
        rcases Nat.lt_or_eq_of_le (Nat.le_of_not_lt hge) with hlt | hsame
        · rcases h.cases hlt hget ha with hless | hmore
          · rw [hless] at hgt
            cases hgt
          · rw [heq] at hmore
            cases hmore
        · rw [hsame, ha] at hget
          rw [← Option.some.inj hget, heq] at hgt
          cases hgt
      rw [if_pos (congrArg some hgt)]
      exact ih (by omega) hlo (by omega) (by omega)
    · have hbehind : base+size/2 ≤ index := by
        by_contra hlt
        rcases h.cases (Nat.lt_of_not_le hlt) ha hget with hless | hmore
        · rw [heq] at hless
          cases hless
        · exact hgt hmore
      rw [if_neg fun hsome => hgt (Option.some.inj hsome)]
      exact ih (by omega) hbehind (by omega) (by omega)

/-- In an ordered list the search finds exactly the element that compares as equal. -/
theorem binarySearchBy_eq_some (h : OrderedBy cmp l) (index : Nat) :
    binarySearchBy cmp l = some index ↔ ∃ a, l[index]? = some a ∧ cmp a = .eq := by
  constructor
  · intro hfound
    simp only [binarySearchBy] at hfound
    split_ifs at hfound with hempty heq
    obtain rfl := Option.some.inj hfound
    exact Option.map_eq_some_iff.mp heq
  · intro hex
    obtain ⟨a, ha, heq⟩ := hex
    obtain ⟨hlt, -⟩ := List.getElem?_eq_some_iff.mp ha
    have hloop : searchLoop cmp l l.length l.length 0 = index :=
      searchLoop_eq h ha heq (by omega) (by omega) (by omega) (by omega)
    have hempty : ¬ l.length = 0 := by omega
    simp only [binarySearchBy, hloop]
    rw [if_neg hempty, ha, Option.map_some, heq, if_pos rfl]

end ZenDB
