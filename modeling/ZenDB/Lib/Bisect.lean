import Mathlib.Data.List.Basic
import Mathlib.Tactic.Common

namespace ZenDB

/-! Binary searches over an index range whose probes can fail. -/

/-- A property that goes from every element to those before it holds of a first part of the list. -/
theorem exists_partition {α : Type} {P : α → Prop} [DecidablePred P] {l : List α}
    (h : l.Pairwise fun a b => P b → P a) :
    ∃ front back, l = front ++ back ∧ (∀ a ∈ front, P a) ∧ ∀ b ∈ back, ¬ P b := by
  induction l with
  | nil => exact ⟨[], [], rfl, by simp, by simp⟩
  | cons a l ih =>
    obtain ⟨hhead, htail⟩ := List.pairwise_cons.mp h
    by_cases ha : P a
    · obtain ⟨front, back, rfl, hfront, hback⟩ := ih htail
      exact ⟨a :: front, back, rfl, List.forall_mem_cons.mpr ⟨ha, hfront⟩, hback⟩
    · exact ⟨[], a :: l, rfl, by simp,
        List.forall_mem_cons.mpr ⟨ha, fun b hb hPb => ha (hhead b hb hPb)⟩⟩

/-- The first index of a window where the probe says `false`. -/
def partitionLoop (probe : Nat → Option Bool) : Nat → Nat → Nat → Option Nat
  | 0, lo, _ => some lo
  | fuel+1, lo, hi =>
    if lo < hi then do
      let mid := lo+(hi-lo)/2
      if ← probe mid then partitionLoop probe fuel (mid+1) hi else partitionLoop probe fuel lo mid
    else some lo

/-- `Ok` of an index that compares as equal, or `Err` of the place where it would be. -/
def findLoop (probe : Nat → Option Ordering) : Nat → Nat → Nat → Option (Except Nat Nat)
  | 0, lo, _ => some (.error lo)
  | fuel+1, lo, hi =>
    if lo < hi then do
      let mid := lo+(hi-lo)/2
      match ← probe mid with
      | .eq => some (.ok mid)
      | .lt => findLoop probe fuel (mid+1) hi
      | .gt => findLoop probe fuel lo mid
    else some (.error lo)

section Partition

variable {probe : Nat → Option Bool}

/-- Only the probes inside the window matter. -/
theorem partitionLoop_congr {probe' : Nat → Option Bool} (fuel lo hi : Nat)
    (h : ∀ i, lo ≤ i → i < hi → probe' i = probe i) :
    partitionLoop probe' fuel lo hi = partitionLoop probe fuel lo hi := by
  induction fuel generalizing lo hi with
  | zero => rfl
  | succ fuel ih =>
    rw [partitionLoop, partitionLoop]
    split_ifs with hlt
    · dsimp only
      rw [h (lo+(hi-lo)/2) (by omega) (by omega), ih (lo+(hi-lo)/2+1) hi fun i h₁ h₂ => h i (by omega) h₂,
        ih lo (lo+(hi-lo)/2) fun i h₁ h₂ => h i h₁ (by omega)]
    · rfl

/-- Probes that do not fail lead to an index of the window. -/
theorem partitionLoop_some (probe : Nat → Option Bool) (fuel lo hi : Nat)
    (hprobe : ∀ i, lo ≤ i → i < hi → (probe i).isSome = true) (hle : lo ≤ hi) :
    ∃ k, partitionLoop probe fuel lo hi = some k ∧ lo ≤ k ∧ k ≤ hi := by
  induction fuel generalizing lo hi with
  | zero => exact ⟨lo, rfl, Nat.le_refl _, hle⟩
  | succ fuel ih =>
    rw [partitionLoop]
    split_ifs with hlt
    · obtain ⟨b, hb⟩ := Option.isSome_iff_exists.mp (hprobe (lo+(hi-lo)/2) (by omega) (by omega))
      simp only [hb, Option.bind_eq_bind, Option.bind_some]
      cases b with
      | true =>
        obtain ⟨k, hk, hlo, hhi⟩ := ih (lo+(hi-lo)/2+1) hi
          (fun i h₁ h₂ => hprobe i (by omega) h₂) (by omega)
        exact ⟨k, hk, by omega, hhi⟩
      | false =>
        obtain ⟨k, hk, hlo, hhi⟩ := ih lo (lo+(hi-lo)/2)
          (fun i h₁ h₂ => hprobe i h₁ (by omega)) (by omega)
        exact ⟨k, hk, hlo, by omega⟩
    · exact ⟨lo, rfl, Nat.le_refl _, hle⟩

/-- A probe that turns from `true` to `false` at `k`. -/
theorem partitionLoop_eq (fuel lo hi : Nat) {k : Nat}
    (hprobe : ∀ i, lo ≤ i → i < hi → probe i = some (decide (i < k)))
    (hlo : lo ≤ k) (hhi : k ≤ hi) (hfuel : hi ≤ lo+fuel) :
    partitionLoop probe fuel lo hi = some k := by
  induction fuel generalizing lo hi with
  | zero =>
    have heq : lo = k := by omega
    rw [partitionLoop, heq]
  | succ fuel ih =>
    rw [partitionLoop]
    split_ifs with hlt
    · have hmid := hprobe (lo+(hi-lo)/2) (by omega) (by omega)
      simp only [hmid, Option.bind_eq_bind, Option.bind_some, decide_eq_true_eq]
      split_ifs with hk
      · exact ih _ _ (fun i h₁ h₂ => hprobe i (by omega) h₂) (by omega) hhi (by omega)
      · exact ih _ _ (fun i h₁ h₂ => hprobe i h₁ (by omega)) hlo (by omega) (by omega)
    · have heq : lo = k := by omega
      rw [heq]

end Partition

section Find

variable {probe : Nat → Option Ordering}

theorem findLoop_congr {probe' : Nat → Option Ordering} (fuel lo hi : Nat)
    (h : ∀ i, lo ≤ i → i < hi → probe' i = probe i) :
    findLoop probe' fuel lo hi = findLoop probe fuel lo hi := by
  induction fuel generalizing lo hi with
  | zero => rfl
  | succ fuel ih =>
    rw [findLoop, findLoop]
    split_ifs with hlt
    · dsimp only
      rw [h (lo+(hi-lo)/2) (by omega) (by omega), ih (lo+(hi-lo)/2+1) hi fun i h₁ h₂ => h i (by omega) h₂,
        ih lo (lo+(hi-lo)/2) fun i h₁ h₂ => h i h₁ (by omega)]
    · rfl

/-- What is found compares as equal; otherwise the answer is an index of the window or its end. -/
theorem findLoop_some (probe : Nat → Option Ordering) (fuel lo hi : Nat)
    (hprobe : ∀ i, lo ≤ i → i < hi → (probe i).isSome = true) (hle : lo ≤ hi) :
    (∃ i, findLoop probe fuel lo hi = some (.ok i) ∧ lo ≤ i ∧ i < hi ∧ probe i = some .eq) ∨
      ∃ k, findLoop probe fuel lo hi = some (.error k) ∧ lo ≤ k ∧ k ≤ hi := by
  induction fuel generalizing lo hi with
  | zero => exact Or.inr ⟨lo, rfl, Nat.le_refl _, hle⟩
  | succ fuel ih =>
    rw [findLoop]
    split_ifs with hlt
    · obtain ⟨o, ho⟩ := Option.isSome_iff_exists.mp (hprobe (lo+(hi-lo)/2) (by omega) (by omega))
      simp only [ho, Option.bind_eq_bind, Option.bind_some]
      cases o with
      | eq => exact Or.inl ⟨_, rfl, by omega, by omega, ho⟩
      | lt =>
        rcases ih (lo+(hi-lo)/2+1) hi (fun i h₁ h₂ => hprobe i (by omega) h₂) (by omega) with
          ⟨i, hi', h₁, h₂, heq⟩ | ⟨k, hk, h₁, h₂⟩
        · exact Or.inl ⟨i, hi', by omega, h₂, heq⟩
        · exact Or.inr ⟨k, hk, by omega, h₂⟩
      | gt =>
        rcases ih lo (lo+(hi-lo)/2) (fun i h₁ h₂ => hprobe i h₁ (by omega)) (by omega) with
          ⟨i, hi', h₁, h₂, heq⟩ | ⟨k, hk, h₁, h₂⟩
        · exact Or.inl ⟨i, hi', h₁, by omega, heq⟩
        · exact Or.inr ⟨k, hk, h₁, by omega⟩
    · exact Or.inr ⟨lo, rfl, Nat.le_refl _, hle⟩

/-- What comes before `k` compares as less and what comes from `k` on as greater. -/
theorem findLoop_absent (fuel lo hi : Nat) {k : Nat}
    (hprobe : ∀ i, lo ≤ i → i < hi → probe i = some (if i < k then .lt else .gt))
    (hlo : lo ≤ k) (hhi : k ≤ hi) (hfuel : hi ≤ lo+fuel) :
    findLoop probe fuel lo hi = some (.error k) := by
  induction fuel generalizing lo hi with
  | zero =>
    have heq : lo = k := by omega
    rw [findLoop, heq]
  | succ fuel ih =>
    rw [findLoop]
    split_ifs with hlt
    · have hmid := hprobe (lo+(hi-lo)/2) (by omega) (by omega)
      simp only [hmid, Option.bind_eq_bind, Option.bind_some]
      by_cases hk : lo+(hi-lo)/2 < k
      · rw [if_pos hk]
        exact ih _ _ (fun i h₁ h₂ => hprobe i (by omega) h₂) (by omega) hhi (by omega)
      · rw [if_neg hk]
        exact ih _ _ (fun i h₁ h₂ => hprobe i h₁ (by omega)) hlo (by omega) (by omega)
    · have heq : lo = k := by omega
      rw [heq]

/-- The element at `k` compares as equal, those before it as less and those behind it as greater. -/
theorem findLoop_present (fuel lo hi : Nat) {k : Nat}
    (hprobe : ∀ i, lo ≤ i → i < hi →
      probe i = some (if i < k then .lt else if i = k then .eq else .gt))
    (hlo : lo ≤ k) (hhi : k < hi) (hfuel : hi ≤ lo+fuel) :
    findLoop probe fuel lo hi = some (.ok k) := by
  induction fuel generalizing lo hi with
  | zero => omega
  | succ fuel ih =>
    rw [findLoop, if_pos (by omega)]
    have hmid := hprobe (lo+(hi-lo)/2) (by omega) (by omega)
    simp only [hmid, Option.bind_eq_bind, Option.bind_some]
    by_cases hk : lo+(hi-lo)/2 < k
    · rw [if_pos hk]
      exact ih _ _ (fun i h₁ h₂ => hprobe i (by omega) h₂) (by omega) hhi (by omega)
    · rw [if_neg hk]
      by_cases heq : lo+(hi-lo)/2 = k
      · rw [if_pos heq, heq]
      · rw [if_neg heq]
        exact ih _ _ (fun i h₁ h₂ => hprobe i h₁ (by omega)) hlo (by omega) (by omega)

end Find

end ZenDB
