import Mathlib.Data.List.Basic
import Mathlib.Order.Defs.LinearOrder
import Mathlib.Tactic.Common

namespace ZenDB.Ranges

/-! Sets of numbers as lists of inclusive ranges. -/

/-- The number is in one of the ranges. -/
def Mem (ranges : List (Nat × Nat)) (n : Nat) : Prop := ∃ r ∈ ranges, r.1 ≤ n ∧ n ≤ r.2

/-- No range is empty, and each is separated from the ones behind it. -/
def Normal (ranges : List (Nat × Nat)) : Prop :=
  (∀ r ∈ ranges, r.1 ≤ r.2) ∧ ranges.Pairwise fun r s => r.2+1 < s.1

theorem not_mem_nil (n : Nat) : ¬ Mem [] n := by
  simp [Mem]

theorem mem_cons {r : Nat × Nat} {ranges : List (Nat × Nat)} {n : Nat} :
    Mem (r :: ranges) n ↔ r.1 ≤ n ∧ n ≤ r.2 ∨ Mem ranges n := by
  simp [Mem]

theorem mem_append {lo hi : List (Nat × Nat)} {n : Nat} :
    Mem (lo ++ hi) n ↔ Mem lo n ∨ Mem hi n := by
  simp [Mem, or_and_right, exists_or]

theorem normal_cons {r : Nat × Nat} {ranges : List (Nat × Nat)} :
    Normal (r :: ranges) ↔ r.1 ≤ r.2 ∧ (∀ s ∈ ranges, r.2+1 < s.1) ∧ Normal ranges := by
  simp only [Normal, List.mem_cons, List.pairwise_cons, forall_eq_or_imp]
  tauto

theorem normal_append {lo hi : List (Nat × Nat)} :
    Normal (lo ++ hi) ↔ Normal lo ∧ Normal hi ∧ ∀ r ∈ lo, ∀ s ∈ hi, r.2+1 < s.1 := by
  simp only [Normal, List.mem_append, List.pairwise_append, or_imp, forall_and]
  tauto

namespace Normal

variable {r s : Nat × Nat} {ranges others : List (Nat × Nat)}

/-- Behind the first range there is a gap. -/
theorem lt_of_mem_tail (h : Normal (r :: ranges)) {n : Nat} (hn : Mem ranges n) : r.2+1 < n := by
  obtain ⟨s, hs, hle, -⟩ := hn
  have hgap := (normal_cons.mp h).2.1 s hs
  omega

theorem start_le_of_mem (h : Normal (r :: ranges)) {n : Nat} (hn : Mem (r :: ranges) n) : r.1 ≤ n := by
  have hne := (normal_cons.mp h).1
  rcases mem_cons.mp hn with hhead | htail
  · exact hhead.1
  · have hgap := h.lt_of_mem_tail htail
    omega

theorem end_le (h : Normal (r :: ranges)) (hstart : r.1 = s.1)
    (hmem : ∀ n, Mem (r :: ranges) n ↔ Mem (s :: others) n) : s.2 ≤ r.2 := by
  by_contra hlt
  -- the number behind `r` would be in `s`, but it is in a gap of the other list
  have hne := (normal_cons.mp h).1
  have hnext : Mem (r :: ranges) (r.2+1) := (hmem _).mpr (mem_cons.mpr (Or.inl ⟨by omega, by omega⟩))
  rcases mem_cons.mp hnext with hhead | htail
  · omega
  · have hgap := h.lt_of_mem_tail htail
    omega

/-- The number behind a range is in no range. -/
theorem not_mem_next (h : Normal ranges) (hr : r ∈ ranges) : ¬ Mem ranges (r.2+1) := by
  intro hmem
  obtain ⟨lo, hi, rfl⟩ := List.append_of_mem hr
  obtain ⟨hlo, hcons, hcross⟩ := normal_append.mp h
  have hne := (normal_cons.mp hcons).1
  rcases mem_append.mp hmem with hmem | hmem
  · obtain ⟨s, hs, hin⟩ := hmem
    have hgap := hcross s hs r (by simp)
    omega
  rcases mem_cons.mp hmem with hhead | htail
  · omega
  · have hgap := hcons.lt_of_mem_tail htail
    omega

/-- Ranges in normal form are determined by their numbers. -/
theorem ext (h : Normal ranges) (h' : Normal others) (hmem : ∀ n, Mem ranges n ↔ Mem others n) :
    ranges = others := by
  induction ranges generalizing others with
  | nil =>
    cases others with
    | nil => rfl
    | cons s others =>
      have hne := (normal_cons.mp h').1
      exact absurd ((hmem s.1).mpr (mem_cons.mpr (Or.inl ⟨Nat.le_refl _, hne⟩))) (not_mem_nil _)
  | cons r ranges ih =>
    have hr := (normal_cons.mp h).1
    cases others with
    | nil => exact absurd ((hmem r.1).mp (mem_cons.mpr (Or.inl ⟨Nat.le_refl _, hr⟩))) (not_mem_nil _)
    | cons s others =>
      have hs := (normal_cons.mp h').1
      have hstart : r.1 = s.1 := by
        have hle := h.start_le_of_mem ((hmem s.1).mpr (mem_cons.mpr (Or.inl ⟨Nat.le_refl _, hs⟩)))
        have hge := h'.start_le_of_mem ((hmem r.1).mp (mem_cons.mpr (Or.inl ⟨Nat.le_refl _, hr⟩)))
        omega
      have hend : r.2 = s.2 := by
        have hle := h.end_le hstart hmem
        have hge := h'.end_le hstart.symm fun n => (hmem n).symm
        omega
      have hhead : r = s := Prod.ext hstart hend
      subst hhead
      have htail : ∀ n, Mem ranges n ↔ Mem others n := by
        intro n
        constructor
        · intro hn
          have hgap := h.lt_of_mem_tail hn
          rcases mem_cons.mp ((hmem n).mp (mem_cons.mpr (Or.inr hn))) with hin | hn'
          · omega
          · exact hn'
        · intro hn
          have hgap := h'.lt_of_mem_tail hn
          rcases mem_cons.mp ((hmem n).mpr (mem_cons.mpr (Or.inr hn))) with hin | hn'
          · omega
          · exact hn'
      rw [ih (normal_cons.mp h).2.2 (normal_cons.mp h').2.2 htail]

end Normal

end ZenDB.Ranges
