import Mathlib.Data.List.AList
import Mathlib.Data.List.Sort
import Mathlib.Order.Lattice

namespace ZenDB

variable {K V κ : Type}

/-- The entries of a finite map as pairs. -/
def rows (m : AList (fun _ : K => V)) : List (K × V) := m.entries.map fun e => (e.1, e.2)

theorem mem_rows [DecidableEq K] (m : AList (fun _ : K => V)) (k : K) (v : V) :
    (k, v) ∈ rows m ↔ m.lookup k = some v := by
  rw [rows, List.mem_map]
  constructor
  · rintro ⟨⟨k', v'⟩, hmem, heq⟩
    obtain ⟨rfl, rfl⟩ : k' = k ∧ v' = v := by simpa using heq
    exact AList.mem_lookup_iff.mpr hmem
  · intro h
    exact ⟨⟨k, v⟩, AList.mem_lookup_iff.mp h, rfl⟩

theorem nodup_rows (m : AList (fun _ : K => V)) : ((rows m).map Prod.fst).Nodup := by
  rw [rows, List.map_map]
  exact m.nodupKeys

/-- Rows in strictly increasing order of their keys. -/
def Sorted (r : K → K → Prop) (l : List (K × V)) : Prop := l.Pairwise fun a b => r a.1 b.1

theorem Sorted.filter {r : K → K → Prop} {l : List (K × V)} (h : Sorted r l) (p : K × V → Bool) :
    Sorted r (l.filter p) :=
  List.Pairwise.filter p h

theorem Sorted.reverse {r : K → K → Prop} {l : List (K × V)} (h : Sorted r l) :
    Sorted (fun a b => r b a) l.reverse :=
  List.pairwise_reverse.mpr h

/-- A strictly sorted list is determined by its rows. -/
theorem Sorted.eq_of_mem_iff {r : K → K → Prop} (hasymm : ∀ a b, r a b → ¬ r b a)
    {l l' : List (K × V)} (h : Sorted r l) (h' : Sorted r l') (hmem : ∀ x, x ∈ l ↔ x ∈ l') :
    l = l' := by
  have hnodup : ∀ {l : List (K × V)}, Sorted r l → l.Nodup := by
    intro l hl
    refine List.Pairwise.imp ?_ hl
    intro a b hab heq
    subst heq
    exact hasymm _ _ hab hab
  have hperm := (List.perm_ext_iff_of_nodup (hnodup h) (hnodup h')).mpr hmem
  refine hperm.eq_of_pairwise ?_ h h'
  intro a b _ _ hab hba
  exact absurd hba (hasymm _ _ hab)

/-- Where a row that has the property lets those before it have it too, taking rows while they
have it leaves none out. -/
theorem takeWhile_eq_filter {α : Type} {P : α → Bool} {l : List α}
    (h : l.Pairwise fun a b => P b = true → P a = true) : l.takeWhile P = l.filter P := by
  induction l with
  | nil => rfl
  | cons a l ih =>
    obtain ⟨hhead, htail⟩ := List.pairwise_cons.mp h
    by_cases ha : P a = true
    · rw [List.takeWhile_cons_of_pos ha, List.filter_cons_of_pos ha, ih htail]
    · rw [List.takeWhile_cons_of_neg ha, List.filter_cons_of_neg ha, eq_comm,
        List.filter_eq_nil_iff]
      exact fun b hb hPb => ha (hhead b hb hPb)

section Sorting

variable [LinearOrder κ]

/-- Sorts rows by an image of the key. -/
def sortBy (f : K → κ) (l : List (K × V)) : List (K × V) :=
  l.insertionSort fun a b => f a.1 ≤ f b.1

theorem perm_sortBy (f : K → κ) (l : List (K × V)) : (sortBy f l).Perm l :=
  List.perm_insertionSort _ l

theorem mem_sortBy (f : K → κ) (l : List (K × V)) (x : K × V) : x ∈ sortBy f l ↔ x ∈ l :=
  (List.perm_insertionSort _ l).mem_iff

theorem sorted_sortBy (f : K → κ) (l : List (K × V)) (hl : (l.map Prod.fst).Nodup)
    (hf : ∀ a ∈ l, ∀ b ∈ l, f a.1 = f b.1 → a.1 = b.1) :
    Sorted (fun a b => f a < f b) (sortBy f l) := by
  have : Std.Total fun a b : K × V => f a.1 ≤ f b.1 := ⟨fun a b => le_total _ _⟩
  have : IsTrans (K × V) fun a b => f a.1 ≤ f b.1 := ⟨fun a b c => le_trans⟩
  have hle := List.pairwise_insertionSort (fun a b : K × V => f a.1 ≤ f b.1) l
  have hne : (sortBy f l).Pairwise fun a b => a.1 ≠ b.1 := by
    have hperm := (List.perm_insertionSort (fun a b : K × V => f a.1 ≤ f b.1) l).map Prod.fst
    exact List.pairwise_map.mp (hperm.nodup_iff.mpr hl)
  refine (hle.and hne).imp_of_mem ?_
  rintro a b ha hb ⟨hab, hne⟩
  exact lt_of_le_of_ne hab fun heq =>
    hne (hf a ((mem_sortBy f l a).mp ha) b ((mem_sortBy f l b).mp hb) heq)

end Sorting

/-- Two-way merge; where both lists have a key, the row of the second list is taken. -/
def mergeBy (cmp : K → K → Ordering) : List (K × V) → List (K × V) → List (K × V)
  | [], c => c
  | a :: s, [] => a :: s
  | a :: s, b :: c =>
    match cmp a.1 b.1 with
    | .lt => a :: mergeBy cmp s (b :: c)
    | .gt => b :: mergeBy cmp (a :: s) c
    | .eq => b :: mergeBy cmp s c
termination_by s c => s.length+c.length

theorem head?_mergeBy (cmp : K → K → Ordering) (s c : List (K × V)) :
    (mergeBy cmp s c).head? =
      match s.head?, c.head? with
      | none, b => b
      | some a, none => some a
      | some a, some b => if cmp a.1 b.1 = .lt then some a else some b := by
  cases s with
  | nil => simp [mergeBy]
  | cons a s =>
    cases c with
    | nil => simp [mergeBy]
    | cons b c =>
      rw [mergeBy]
      cases h : cmp a.1 b.1 <;> simp [h]

/-- `cmp` compares by the strict order `r`. -/
structure Compares (cmp : K → K → Ordering) (r : K → K → Prop) : Prop where
  lt : ∀ a b, cmp a b = .lt → r a b
  eq : ∀ a b, cmp a b = .eq → a = b
  gt : ∀ a b, cmp a b = .gt → r b a
  trans : ∀ a b c, r a b → r b c → r a c
  asymm : ∀ a b, r a b → ¬ r b a

variable {cmp : K → K → Ordering} {r : K → K → Prop}

theorem mergeBy_subset (s c : List (K × V)) (x : K × V) (hx : x ∈ mergeBy cmp s c) :
    x ∈ s ∨ x ∈ c := by
  induction s, c using mergeBy.induct cmp with
  | case1 c => exact Or.inr (by simpa [mergeBy] using hx)
  | case2 a s => exact Or.inl (by simpa [mergeBy] using hx)
  | case3 a s b c hcmp ih =>
    rw [mergeBy, hcmp] at hx
    rcases List.mem_cons.mp hx with rfl | hx
    · exact Or.inl (by simp)
    · exact (ih hx).imp (List.mem_cons_of_mem _) id
  | case4 a s b c hcmp ih =>
    rw [mergeBy, hcmp] at hx
    rcases List.mem_cons.mp hx with rfl | hx
    · exact Or.inr (by simp)
    · exact (ih hx).imp id (List.mem_cons_of_mem _)
  | case5 a s b c hcmp ih =>
    rw [mergeBy, hcmp] at hx
    rcases List.mem_cons.mp hx with rfl | hx
    · exact Or.inr (by simp)
    · exact (ih hx).imp (List.mem_cons_of_mem _) (List.mem_cons_of_mem _)

/-- Merging sorted lists gives a sorted list. -/
theorem sorted_mergeBy (hcmp : Compares cmp r) (s c : List (K × V)) (hs : Sorted r s)
    (hc : Sorted r c) : Sorted r (mergeBy cmp s c) := by
  induction s, c using mergeBy.induct cmp with
  | case1 c => simpa [mergeBy] using hc
  | case2 a s => simpa [mergeBy] using hs
  | case3 a s b c heq ih =>
    obtain ⟨ha, hs'⟩ := List.pairwise_cons.mp hs
    obtain ⟨hb, -⟩ := List.pairwise_cons.mp hc
    rw [mergeBy, heq]
    refine List.pairwise_cons.mpr ⟨?_, ih hs' hc⟩
    intro x hx
    have hab := hcmp.lt _ _ heq
    rcases mergeBy_subset s (b :: c) x hx with hx | hx
    · exact ha x hx
    · rcases List.mem_cons.mp hx with rfl | hx
      · exact hab
      · exact hcmp.trans _ _ _ hab (hb x hx)
  | case4 a s b c heq ih =>
    obtain ⟨ha, -⟩ := List.pairwise_cons.mp hs
    obtain ⟨hb, hc'⟩ := List.pairwise_cons.mp hc
    rw [mergeBy, heq]
    refine List.pairwise_cons.mpr ⟨?_, ih hs hc'⟩
    intro x hx
    have hba := hcmp.gt _ _ heq
    rcases mergeBy_subset (a :: s) c x hx with hx | hx
    · rcases List.mem_cons.mp hx with rfl | hx
      · exact hba
      · exact hcmp.trans _ _ _ hba (ha x hx)
    · exact hb x hx
  | case5 a s b c heq ih =>
    obtain ⟨ha, hs'⟩ := List.pairwise_cons.mp hs
    obtain ⟨hb, hc'⟩ := List.pairwise_cons.mp hc
    rw [mergeBy, heq]
    refine List.pairwise_cons.mpr ⟨?_, ih hs' hc'⟩
    intro x hx
    rcases mergeBy_subset s c x hx with hx | hx
    · rw [← hcmp.eq _ _ heq]
      exact ha x hx
    · exact hb x hx

/-- The rows of a merge: all of the second list, and those of the first under other keys. -/
theorem mem_mergeBy (hcmp : Compares cmp r) (s c : List (K × V)) (hs : Sorted r s)
    (hc : Sorted r c) (x : K × V) :
    x ∈ mergeBy cmp s c ↔ x ∈ c ∨ (x ∈ s ∧ ∀ y ∈ c, y.1 ≠ x.1) := by
  induction s, c using mergeBy.induct cmp with
  | case1 c => simp [mergeBy]
  | case2 a s => simp [mergeBy]
  | case3 a s b c heq ih =>
    obtain ⟨ha, hs'⟩ := List.pairwise_cons.mp hs
    obtain ⟨hb, -⟩ := List.pairwise_cons.mp hc
    rw [mergeBy, heq, List.mem_cons, ih hs' hc]
    have hab := hcmp.lt _ _ heq
    have hfree : ∀ y ∈ b :: c, y.1 ≠ a.1 := by
      intro y hy heq
      have hay : r a.1 y.1 := by
        rcases List.mem_cons.mp hy with rfl | hy
        · exact hab
        · exact hcmp.trans _ _ _ hab (hb y hy)
      rw [heq] at hay
      exact hcmp.asymm _ _ hay hay
    constructor
    · rintro (rfl | hx | ⟨hx, hne⟩)
      · exact Or.inr ⟨by simp, hfree⟩
      · exact Or.inl hx
      · exact Or.inr ⟨List.mem_cons_of_mem _ hx, hne⟩
    · rintro (hx | ⟨hx, hne⟩)
      · exact Or.inr (Or.inl hx)
      · rcases List.mem_cons.mp hx with rfl | hx
        · exact Or.inl rfl
        · exact Or.inr (Or.inr ⟨hx, hne⟩)
  | case4 a s b c heq ih =>
    obtain ⟨ha, -⟩ := List.pairwise_cons.mp hs
    obtain ⟨hb, hc'⟩ := List.pairwise_cons.mp hc
    rw [mergeBy, heq, List.mem_cons, ih hs hc']
    have hba := hcmp.gt _ _ heq
    have hfree : ∀ y ∈ a :: s, b.1 ≠ y.1 := by
      intro y hy heq
      have hby : r b.1 y.1 := by
        rcases List.mem_cons.mp hy with rfl | hy
        · exact hba
        · exact hcmp.trans _ _ _ hba (ha y hy)
      rw [heq] at hby
      exact hcmp.asymm _ _ hby hby
    constructor
    · rintro (rfl | hx | ⟨hx, hne⟩)
      · exact Or.inl (by simp)
      · exact Or.inl (List.mem_cons_of_mem _ hx)
      · refine Or.inr ⟨hx, ?_⟩
        intro y hy
        rcases List.mem_cons.mp hy with rfl | hy
        · exact hfree x hx
        · exact hne y hy
    · rintro (hx | ⟨hx, hne⟩)
      · rcases List.mem_cons.mp hx with rfl | hx
        · exact Or.inl rfl
        · exact Or.inr (Or.inl hx)
      · exact Or.inr (Or.inr ⟨hx, fun y hy => hne y (List.mem_cons_of_mem _ hy)⟩)
  | case5 a s b c heq ih =>
    obtain ⟨ha, hs'⟩ := List.pairwise_cons.mp hs
    obtain ⟨hb, hc'⟩ := List.pairwise_cons.mp hc
    rw [mergeBy, heq, List.mem_cons, ih hs' hc']
    have hab := hcmp.eq _ _ heq
    have hfree : ∀ y ∈ s, b.1 ≠ y.1 := by
      intro y hy heq
      have hay := ha y hy
      rw [hab, heq] at hay
      exact hcmp.asymm _ _ hay hay
    constructor
    · rintro (rfl | hx | ⟨hx, hne⟩)
      · exact Or.inl (by simp)
      · exact Or.inl (List.mem_cons_of_mem _ hx)
      · refine Or.inr ⟨List.mem_cons_of_mem _ hx, ?_⟩
        intro y hy
        rcases List.mem_cons.mp hy with rfl | hy
        · exact hfree x hx
        · exact hne y hy
    · rintro (hx | ⟨hx, hne⟩)
      · rcases List.mem_cons.mp hx with rfl | hx
        · exact Or.inl rfl
        · exact Or.inr (Or.inl hx)
      · rcases List.mem_cons.mp hx with rfl | hx
        · exact absurd hab.symm (hne b (by simp))
        · exact Or.inr (Or.inr ⟨hx, fun y hy => hne y (List.mem_cons_of_mem _ hy)⟩)

end ZenDB
