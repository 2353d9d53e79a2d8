import Mathlib
import ZenDB.Lib.SortedMap

namespace ZenDB

/-! Sums over the entries of a map and over sets of events. -/

open Finset

/-- The entries of a map, summed over any set of keys that the others add nothing to. -/
theorem SortedMap.sum_entries {κ ν : Type} [LinearOrder κ] (g : ν → Int) {m : List (κ × ν)}
    (hm : Sorted (· < ·) m) {keys : Finset κ} (hkeys : ∀ e ∈ m, e.1 ∉ keys → g e.2 = 0) :
    (m.map fun e => g e.2).sum = ∑ k ∈ keys, (get m k).elim 0 g := by
  induction m with
  | nil => simp
  | cons e m ih =>
    obtain ⟨key, value⟩ := e
    obtain ⟨hlt, hm⟩ := List.pairwise_cons.mp hm
    have hkey : key ∉ keys → g value = 0 := hkeys (key, value) (by simp)
    have hnone : get m key = none := get_eq_none_of_forall_ne fun e he => (hlt e he).ne'
    have hsplit : ∀ k, (get ((key, value) :: m) k).elim 0 g =
        (if k = key then g value else 0) + (get m k).elim 0 g := by
      intro k
      by_cases hk : k = key
      · subst hk
        simp [get, hnone]
      · simp [get, hk]
    rw [List.map_cons, List.sum_cons, ih hm fun e he => hkeys e (List.mem_cons_of_mem _ he)]
    rw [sum_congr rfl fun k _ => hsplit k, sum_add_distrib, sum_ite_eq']
    split_ifs with hin
    · rfl
    · rw [hkey hin]

/-- The larger of two sums misses the smaller of the parts that only one of them has. -/
theorem sum_union_eq_max_add_min {ι : Type} [DecidableEq ι] (f : ι → Nat) (s t : Finset ι) :
    ∑ i ∈ s ∪ t, f i =
      max (∑ i ∈ s, f i) (∑ i ∈ t, f i) + min (∑ i ∈ s \ t, f i) (∑ i ∈ t \ s, f i) := by
  have hs : ∑ i ∈ s, f i = ∑ i ∈ s ∩ t, f i + ∑ i ∈ s \ t, f i := (sum_inter_add_sum_sdiff s t f).symm
  have ht : ∑ i ∈ t, f i = ∑ i ∈ s ∩ t, f i + ∑ i ∈ t \ s, f i := by
    rw [inter_comm]
    exact (sum_inter_add_sum_sdiff t s f).symm
  have hunion : ∑ i ∈ s ∪ t, f i + ∑ i ∈ s ∩ t, f i = ∑ i ∈ s, f i + ∑ i ∈ t, f i :=
    sum_union_inter
  omega

end ZenDB
