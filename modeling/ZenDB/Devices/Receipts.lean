import Mathlib.Data.List.Induction
import ZenDB.Devices.Model
import ZenDB.Lib.Ranges

namespace ZenDB.ReceiptWindow

open Ranges

/-! A receipt window is the set of the sequence numbers it was shown. -/

/-- A run of calls from the default window. -/
def observeAll (sequences : List Nat) : ReceiptWindow :=
  sequences.foldl (fun w sequence => (w.observe sequence).1) empty

theorem observeAll_append (sequences : List Nat) (sequence : Nat) :
    observeAll (sequences ++ [sequence]) = ((observeAll sequences).observe sequence).1 := by
  simp [observeAll]

/-- The window stands for a set of sequence numbers, in the one way it can. -/
structure Tracks (w : ReceiptWindow) (seen : Nat → Prop) : Prop where
  normal : Normal w.missing
  below : ∀ r ∈ w.missing, 1 ≤ r.1 ∧ r.2 < w.maxSeen
  seen_iff : ∀ n, seen n ↔ 1 ≤ n ∧ n ≤ w.maxSeen ∧ ¬ Mem w.missing n

theorem Tracks.congr {w : ReceiptWindow} {seen seen' : Nat → Prop} (h : w.Tracks seen)
    (heq : ∀ n, seen n ↔ seen' n) : w.Tracks seen' :=
  ⟨h.normal, h.below, fun n => (heq n).symm.trans (h.seen_iff n)⟩

section Search

variable {w : ReceiptWindow}

theorem compareRange_eq {sequence : Nat} {r : Nat × Nat} :
    compareRange sequence r = .eq ↔ r.1 ≤ sequence ∧ sequence ≤ r.2 := by
  rw [compareRange]
  split_ifs <;> simp <;> omega

/-- The order that the binary search needs. -/
theorem orderedBy_compareRange (h : Normal w.missing) (sequence : Nat) :
    OrderedBy (compareRange sequence) w.missing := by
  refine h.2.imp_of_mem ?_
  intro r s hr hs hgap
  have hrne := h.1 r hr
  by_cases hlt : r.2 < sequence
  · left
    rw [compareRange, if_neg (by omega), if_pos hlt]
  · right
    rw [compareRange, if_pos (by omega)]

/-- The search finds the range that holds the number, and there is only one. -/
theorem missingIndex_eq_some (h : Normal w.missing) {sequence index : Nat} :
    w.missingIndex sequence = some index ↔
      ∃ r, w.missing[index]? = some r ∧ r.1 ≤ sequence ∧ sequence ≤ r.2 := by
  rw [missingIndex, binarySearchBy_eq_some (orderedBy_compareRange h sequence)]
  exact exists_congr fun r => and_congr_right fun _ => compareRange_eq

theorem missingIndex_eq_none (h : Normal w.missing) {sequence : Nat} :
    w.missingIndex sequence = none ↔ ¬ Mem w.missing sequence := by
  constructor
  · intro hnone hmem
    obtain ⟨r, hr, hin⟩ := hmem
    obtain ⟨index, hget⟩ := List.mem_iff_getElem?.mp hr
    rw [(missingIndex_eq_some h).mpr ⟨r, hget, hin⟩] at hnone
    cases hnone
  · intro hno
    cases hfound : w.missingIndex sequence with
    | none => rfl
    | some index =>
      obtain ⟨r, hget, hin⟩ := (missingIndex_eq_some h).mp hfound
      exact absurd ⟨r, List.mem_of_getElem? hget, hin⟩ hno

end Search

section Step

variable {w : ReceiptWindow} {seen : Nat → Prop}

/-- The numbers that are skipped by a new one. -/
def gap (maxSeen sequence : Nat) : List (Nat × Nat) :=
  if sequence > maxSeen+1 then [(maxSeen+1, sequence-1)] else []

theorem mem_gap {maxSeen sequence n : Nat} :
    Mem (gap maxSeen sequence) n ↔ maxSeen < n ∧ n < sequence := by
  rw [gap]
  split_ifs with h
  · simp only [Mem, List.mem_singleton, exists_eq_left]
    omega
  · simp only [Mem, List.not_mem_nil, false_and, exists_false, false_iff]
    omega

theorem normal_gap (maxSeen sequence : Nat) : Normal (gap maxSeen sequence) := by
  rw [gap]
  split_ifs with h
  · refine ⟨?_, List.pairwise_singleton _ _⟩
    intro r hr
    rw [List.mem_singleton.mp hr]
    show maxSeen+1 ≤ sequence-1
    omega
  · exact ⟨by simp, List.Pairwise.nil⟩

theorem gap_between {maxSeen sequence : Nat} {r : Nat × Nat} (h : r ∈ gap maxSeen sequence) :
    maxSeen < r.1 ∧ r.2 < sequence := by
  rw [gap] at h
  split_ifs at h with hlt
  · rw [List.mem_singleton.mp h]
    show maxSeen < maxSeen+1 ∧ sequence-1 < sequence
    omega
  · cases h

theorem mem_splitRange {r : Nat × Nat} {sequence : Nat} (hpos : 1 ≤ r.1)
    (hin : r.1 ≤ sequence ∧ sequence ≤ r.2) {n : Nat} :
    Mem (splitRange r sequence) n ↔ (r.1 ≤ n ∧ n ≤ r.2) ∧ n ≠ sequence := by
  rw [splitRange, mem_append]
  split_ifs <;> simp only [Mem, List.mem_singleton, exists_eq_left, List.not_mem_nil, false_and,
    exists_false, or_false, false_or, false_iff] <;> omega

theorem splitRange_within {r s : Nat × Nat} {sequence : Nat}
    (hin : r.1 ≤ sequence ∧ sequence ≤ r.2) (hs : s ∈ splitRange r sequence) :
    r.1 ≤ s.1 ∧ s.1 ≤ s.2 ∧ s.2 ≤ r.2 := by
  rw [splitRange, List.mem_append] at hs
  rcases hs with hs | hs
  · split_ifs at hs with hlt
    · rw [List.mem_singleton.mp hs]
      show r.1 ≤ r.1 ∧ r.1 ≤ sequence-1 ∧ sequence-1 ≤ r.2
      omega
    · cases hs
  · split_ifs at hs with hlt
    · rw [List.mem_singleton.mp hs]
      show r.1 ≤ sequence+1 ∧ sequence+1 ≤ r.2 ∧ r.2 ≤ r.2
      omega
    · cases hs

theorem normal_splitRange {r : Nat × Nat} {sequence : Nat}
    (hin : r.1 ≤ sequence ∧ sequence ≤ r.2) : Normal (splitRange r sequence) := by
  refine ⟨fun s hs => (splitRange_within hin hs).2.1, ?_⟩
  rw [splitRange]
  split_ifs with hlo hhi
  · refine List.pairwise_pair.mpr ?_
    show sequence-1+1 < sequence+1
    omega
  · exact List.pairwise_singleton _ _
  · exact List.pairwise_singleton _ _
  · exact List.Pairwise.nil

/-- A number behind all others leaves the ones in between missing. -/
theorem Tracks.advance (h : w.Tracks seen) {sequence : Nat} (hnew : w.maxSeen < sequence) :
    Tracks ⟨sequence, w.missing ++ gap w.maxSeen sequence⟩ fun n => seen n ∨ n = sequence := by
  refine ⟨?_, ?_, ?_⟩
  · refine normal_append.mpr ⟨h.normal, normal_gap _ _, ?_⟩
    intro r hr s hs
    have hbelow := (h.below r hr).2
    have hgap := (gap_between hs).1
    omega
  · intro r hr
    rcases List.mem_append.mp hr with hr | hr
    · have hbelow := h.below r hr
      exact ⟨hbelow.1, hbelow.2.trans hnew⟩
    · have hgap := gap_between hr
      exact ⟨by omega, hgap.2⟩
  · intro n
    rw [h.seen_iff, mem_append, mem_gap]
    have hmissing : Mem w.missing n → n < w.maxSeen := by
      intro hmem
      obtain ⟨r, hr, hin⟩ := hmem
      have hbelow := (h.below r hr).2
      omega
    by_cases hmem : Mem w.missing n
    · have hlt := hmissing hmem
      simp only [hmem, not_true_eq_false, and_false, true_or, false_or, iff_false]
      omega
    · simp only [hmem, not_false_eq_true, and_true, false_or, not_and, not_lt]
      omega

/-- A missing number that arrives splits its range. -/
theorem Tracks.fill (h : w.Tracks seen) {lo hi : List (Nat × Nat)} {r : Nat × Nat} {sequence : Nat}
    (hsplit : w.missing = lo ++ r :: hi) (hin : r.1 ≤ sequence ∧ sequence ≤ r.2) :
    Tracks ⟨w.maxSeen, lo ++ splitRange r sequence ++ hi⟩ fun n => seen n ∨ n = sequence := by
  have hnormal := h.normal
  have hbelow := h.below
  rw [hsplit] at hnormal hbelow
  obtain ⟨hlo, hcons, hcross⟩ := normal_append.mp hnormal
  obtain ⟨hr, hrhi, hhi⟩ := normal_cons.mp hcons
  have hrbelow := hbelow r (by simp)
  refine ⟨?_, ?_, ?_⟩
  · rw [List.append_assoc]
    refine normal_append.mpr ⟨hlo, normal_append.mpr ⟨normal_splitRange hin, hhi, ?_⟩, ?_⟩
    · intro s hs t ht
      have hwithin := splitRange_within hin hs
      have hgap := hrhi t ht
      omega
    · intro s hs t ht
      rcases List.mem_append.mp ht with ht | ht
      · have hwithin := splitRange_within hin ht
        have hgap := hcross s hs r (by simp)
        omega
      · exact hcross s hs t (List.mem_cons_of_mem _ ht)
  · intro s hs
    rw [List.append_assoc] at hs
    rcases List.mem_append.mp hs with hs | hs
    · exact hbelow s (List.mem_append_left _ hs)
    rcases List.mem_append.mp hs with hs | hs
    · have hwithin := splitRange_within hin hs
      exact ⟨hrbelow.1.trans hwithin.1, hwithin.2.2.trans_lt hrbelow.2⟩
    · exact hbelow s (List.mem_append_right _ (List.mem_cons_of_mem _ hs))
  · intro n
    rw [h.seen_iff, hsplit]
    simp only [mem_append, mem_cons, mem_splitRange hrbelow.1 hin]
    -- `sequence` is in no other range
    have hother : n = sequence → ¬ Mem lo n ∧ ¬ Mem hi n := by
      intro hn
      constructor
      · intro hmem
        obtain ⟨s, hs, hsin⟩ := hmem
        have hgap := hcross s hs r (by simp)
        omega
      · intro hmem
        have hgap := hcons.lt_of_mem_tail hmem
        omega
    by_cases hn : n = sequence
    · have hout := hother hn
      subst hn
      simp only [hout.1, hout.2, ne_eq, not_true_eq_false, and_false, or_false, or_true, true_iff,
        not_false_eq_true, and_true]
      omega
    · simp only [hn, or_false, ne_eq, not_false_eq_true, and_true, or_assoc]

/-- One call: zero is refused, and otherwise the answer tells whether the number is new. -/
theorem Tracks.observe (h : w.Tracks seen) [DecidablePred seen] {sequence : Nat}
    (hpos : sequence ≠ 0) :
    (w.observe sequence).2 = some (if seen sequence then .duplicate else .new) ∧
      (w.observe sequence).1.Tracks fun n => seen n ∨ n = sequence := by
  have hseen := h.seen_iff sequence
  rw [ReceiptWindow.observe, if_neg hpos]
  by_cases hnew : sequence > w.maxSeen
  · have hno : ¬ seen sequence := fun hs => absurd (hseen.mp hs).2.1 (by omega)
    rw [if_pos hnew, if_neg hno]
    exact ⟨rfl, h.advance hnew⟩
  rw [if_neg hnew]
  cases hfound : w.missingIndex sequence with
  | none =>
    have hmissing := (missingIndex_eq_none h.normal).mp hfound
    have hyes : seen sequence := hseen.mpr ⟨by omega, by omega, hmissing⟩
    rw [if_pos hyes]
    refine ⟨rfl, ⟨h.normal, h.below, fun n => ?_⟩⟩
    rw [← h.seen_iff]
    constructor
    · intro hor
      rcases hor with hn | hn
      · exact hn
      · exact hn ▸ hyes
    · exact Or.inl
  | some index =>
    obtain ⟨r, hget, hin⟩ := (missingIndex_eq_some h.normal).mp hfound
    have hno : ¬ seen sequence := fun hs =>
      (hseen.mp hs).2.2 ⟨r, List.mem_of_getElem? hget, hin⟩
    obtain ⟨hlt, hr⟩ := List.getElem?_eq_some_iff.mp hget
    have hsplit : w.missing = w.missing.take index ++ r :: w.missing.drop (index+1) := by
      rw [← hr, List.getElem_cons_drop, List.take_append_drop]
    simp only [hget]
    rw [if_neg hno]
    exact ⟨rfl, h.fill hsplit hin⟩

end Step

section Unique

variable {w w' : ReceiptWindow} {seen : Nat → Prop}

/-- The largest number that was seen is not missing. -/
theorem Tracks.seen_maxSeen (h : w.Tracks seen) (hpos : 1 ≤ w.maxSeen) : seen w.maxSeen := by
  refine (h.seen_iff _).mpr ⟨hpos, Nat.le_refl _, ?_⟩
  intro hmem
  obtain ⟨r, hr, hin⟩ := hmem
  have hbelow := (h.below r hr).2
  omega

theorem Tracks.maxSeen_le (h : w.Tracks seen) (h' : w'.Tracks seen) : w.maxSeen ≤ w'.maxSeen := by
  by_cases hpos : 1 ≤ w.maxSeen
  · exact ((h'.seen_iff _).mp (h.seen_maxSeen hpos)).2.1
  · omega

theorem Tracks.mem_missing_iff (h : w.Tracks seen) {n : Nat} :
    Mem w.missing n ↔ 1 ≤ n ∧ n ≤ w.maxSeen ∧ ¬ seen n := by
  constructor
  · intro hmem
    obtain ⟨r, hr, hin⟩ := id hmem
    have hbelow := h.below r hr
    exact ⟨by omega, by omega, fun hs => ((h.seen_iff n).mp hs).2.2 hmem⟩
  · intro ⟨hpos, hle, hno⟩
    by_contra hmem
    exact hno ((h.seen_iff n).mpr ⟨hpos, hle, hmem⟩)

/-- The window is determined by the set it stands for. -/
theorem Tracks.unique (h : w.Tracks seen) (h' : w'.Tracks seen) : w = w' := by
  have hmax : w.maxSeen = w'.maxSeen := Nat.le_antisymm (h.maxSeen_le h') (h'.maxSeen_le h)
  have hmissing : w.missing = w'.missing := by
    refine h.normal.ext h'.normal fun n => ?_
    rw [h.mem_missing_iff, h'.mem_missing_iff, hmax]
  cases w with
  | mk maxSeen missing =>
    cases w' with
    | mk maxSeen' missing' =>
      obtain rfl : maxSeen = maxSeen' := hmax
      obtain rfl : missing = missing' := hmissing
      rfl

/-- Between two ranges of missing numbers there is one that was seen. -/
theorem Tracks.pairwise_separated (h : w.Tracks seen) :
    w.missing.Pairwise fun r s => ∃ n, seen n ∧ r.2 < n ∧ n < s.1 := by
  refine h.normal.2.imp_of_mem ?_
  intro r s hr hs hgap
  have hrbelow := h.below r hr
  have hsbelow := h.below s hs
  have hsne := h.normal.1 s hs
  refine ⟨r.2+1, ?_, by omega, hgap⟩
  by_contra hno
  have hmem := h.mem_missing_iff.mpr ⟨by omega, by omega, hno⟩
  exact h.normal.not_mem_next hr hmem

end Unique

theorem tracks_empty : empty.Tracks fun _ => False := by
  refine ⟨⟨by simp [empty], List.Pairwise.nil⟩, by simp [empty], fun n => ?_⟩
  simp only [empty, false_iff]
  omega

theorem observe_zero (w : ReceiptWindow) : w.observe 0 = (w, none) := rfl

/-- After any run the window stands for the numbers of the run. -/
theorem tracks_observeAll (sequences : List Nat) :
    (observeAll sequences).Tracks fun n => n ≠ 0 ∧ n ∈ sequences := by
  induction sequences using List.reverseRecOn with
  | nil => exact tracks_empty.congr fun n => by simp
  | append_singleton sequences sequence ih =>
    rw [observeAll_append]
    by_cases hzero : sequence = 0
    · rw [hzero, observe_zero]
      refine ih.congr fun n => ?_
      simp only [List.mem_append, List.mem_singleton]
      tauto
    · refine (ih.observe hzero).2.congr fun n => ?_
      simp only [List.mem_append, List.mem_singleton]
      constructor
      · intro hor
        rcases hor with hn | hn
        · exact ⟨hn.1, Or.inl hn.2⟩
        · exact ⟨hn ▸ hzero, Or.inr hn⟩
      · intro hand
        exact hand.2.imp (fun hn => ⟨hand.1, hn⟩) id

example : observeAll [5, 2, 0, 2] = ⟨5, [(1, 1), (3, 4)]⟩ := by decide +kernel

/-- A receipt window is the set of the numbers that it was shown. -/
theorem observeAll_window (sequences : List Nat) :
    (observeAll sequences).observe 0 = (observeAll sequences, none) ∧
    (∀ n, n ≠ 0 → ((observeAll sequences).observe n).2 =
      some (if n ∈ sequences then .duplicate else .new)) ∧
    (∀ n, (1 ≤ n ∧ n ≤ (observeAll sequences).maxSeen ∧ ¬ Mem (observeAll sequences).missing n) ↔
      n ≠ 0 ∧ n ∈ sequences) ∧
    (∀ r ∈ (observeAll sequences).missing,
      1 ≤ r.1 ∧ r.1 ≤ r.2 ∧ r.2 < (observeAll sequences).maxSeen) ∧
    (observeAll sequences).missing.Pairwise (fun r s => ∃ n ∈ sequences, r.2 < n ∧ n < s.1) ∧
    (∀ others, (∀ n, n ≠ 0 → (n ∈ sequences ↔ n ∈ others)) →
      observeAll others = observeAll sequences) := by
  have h := tracks_observeAll sequences
  refine ⟨observe_zero _, ?_, fun n => (h.seen_iff n).symm, ?_, ?_, ?_⟩
  · intro n hn
    rw [(h.observe hn).1]
    simp only [ne_eq, hn, not_false_eq_true, true_and]
  · intro r hr
    have hbelow := h.below r hr
    exact ⟨hbelow.1, h.normal.1 r hr, hbelow.2⟩
  · refine h.pairwise_separated.imp ?_
    intro r s hsep
    obtain ⟨n, hn, hlo, hhi⟩ := hsep
    exact ⟨n, hn.2, hlo, hhi⟩
  · intro others hsame
    refine ((tracks_observeAll others).congr fun n => ?_).unique h
    exact and_congr_right fun hn => (hsame n hn).symm

end ZenDB.ReceiptWindow
