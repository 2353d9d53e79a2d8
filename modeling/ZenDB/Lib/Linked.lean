import Mathlib.Data.List.Nodup
import Mathlib.Data.Option.Basic
import Mathlib.Logic.Function.Basic

namespace ZenDB

namespace Linked

variable {ι : Type}

/-- The links from `a` go through the elements of the list in turn and end there. The sentinel
`none` stands in front of the first element, and a link to it is the end of the list. -/
def Chain (next : Option ι → Option ι) : Option ι → List ι → Prop
  | a, [] => next a = none
  | a, i :: is => next a = some i ∧ Chain next (some i) is

/-- The last of an element and those behind it. -/
theorem getLast?_cons_or (i : ι) (p : List ι) (a : Option ι) :
    (i :: p).getLast?.or a = p.getLast?.or (some i) := by
  cases hp : p.getLast? <;> simp [List.getLast?_cons, hp]

theorem getLast?_or_mem (i : ι) (p : List ι) : p.getLast?.or (some i) ∈ (i :: p).map some := by
  cases hp : p.getLast? with
  | none => simp
  | some j =>
    have hj := List.mem_of_getLast? hp
    simp [hj]

variable {next next' : Option ι → Option ι}

theorem Chain.head {a : Option ι} {l : List ι} (h : Chain next a l) : next a = l.head? := by
  cases l with
  | nil => exact h
  | cons i is => exact h.1

theorem Chain.congr {a : Option ι} {l : List ι} (h : Chain next a l) (ha : next' a = next a)
    (hl : ∀ i ∈ l, next' (some i) = next (some i)) : Chain next' a l := by
  induction l generalizing a with
  | nil => exact ha.trans h
  | cons i is ih =>
    refine ⟨ha.trans h.1, ih h.2 (hl i (by simp)) ?_⟩
    exact fun j hj => hl j (List.mem_cons_of_mem _ hj)

theorem Chain.append {a : Option ι} {p q : List ι} (h : Chain next a (p ++ q)) :
    Chain next (p.getLast?.or a) q := by
  induction p generalizing a with
  | nil => exact h
  | cons i p ih =>
    rw [getLast?_cons_or]
    exact ih h.2

variable [DecidableEq ι]

theorem Chain.append_insert {a : Option ι} {p q : List ι} {x : ι} (h : Chain next a (p ++ q))
    (hnodup : (a :: (p ++ q).map some).Nodup) (hx : some x ∉ a :: (p ++ q).map some) :
    Chain (Function.update (Function.update next (some x) (next (p.getLast?.or a)))
      (p.getLast?.or a) (some x)) a (p ++ x :: q) := by
  induction p generalizing a with
  | nil =>
    obtain ⟨ha, hq⟩ := List.nodup_cons.mp hnodup
    have hxa : some x ≠ a := fun heq => hx (by simp [heq])
    have hxq : ∀ i ∈ q, i ≠ x := fun i hi heq => hx (by simp [← heq, hi])
    have haq : ∀ i ∈ q, some i ≠ a := fun i hi heq => ha (by simp [← heq, hi])
    refine ⟨by simp, ?_⟩
    cases q with
    | nil =>
      have hend : next a = none := h
      simp [Chain, Function.update_of_ne hxa, hend]
    | cons j q =>
      refine ⟨by simp [Function.update_of_ne hxa, h.1], h.2.congr ?_ ?_⟩
      · simp [Function.update_of_ne (haq j (by simp)), hxq j (by simp)]
      · intro i hi
        have hi' : i ∈ j :: q := List.mem_cons_of_mem _ hi
        simp [Function.update_of_ne (haq i hi'), hxq i hi']
  | cons i p ih =>
    obtain ⟨ha, hrest⟩ := List.nodup_cons.mp hnodup
    have hmem : p.getLast?.or (some i) ∈ ((i :: p) ++ q).map some := by
      rw [List.map_append]
      exact List.mem_append_left _ (getLast?_or_mem i p)
    have hne : a ≠ p.getLast?.or (some i) := fun heq => ha (heq ▸ hmem)
    have hxa : a ≠ some x := fun heq => hx (by simp [heq])
    have hx' : some x ∉ some i :: (p ++ q).map some :=
      fun hmem => hx (List.mem_cons_of_mem _ hmem)
    rw [getLast?_cons_or]
    refine ⟨?_, ih h.2 hrest hx'⟩
    rw [Function.update_of_ne hne, Function.update_of_ne hxa]
    exact h.1

/-- An element is linked in behind the elements of `p`. -/
theorem Chain.insert {p q : List ι} {x : ι} (h : Chain next none (p ++ q))
    (hnodup : (p ++ q).Nodup) (hx : x ∉ p ++ q) :
    Chain (Function.update (Function.update next (some x) (next p.getLast?)) p.getLast? (some x))
      none (p ++ x :: q) := by
  have hmap : ((p ++ q).map some).Nodup := hnodup.map (Option.some_injective ι)
  have hall : (none :: (p ++ q).map some).Nodup := List.nodup_cons.mpr ⟨by simp, hmap⟩
  have hx' : some x ∉ none :: (p ++ q).map some := by
    intro hmem
    exact hx (by simpa using hmem)
  have hinsert := h.append_insert hall hx'
  rwa [Option.or_none] at hinsert

theorem Chain.append_remove {a : Option ι} {p q : List ι} {x : ι}
    (h : Chain next a (p ++ x :: q)) (hnodup : (a :: (p ++ x :: q).map some).Nodup) :
    Chain (Function.update next (p.getLast?.or a) (next (some x))) a (p ++ q) := by
  induction p generalizing a with
  | nil =>
    obtain ⟨ha, -⟩ := List.nodup_cons.mp hnodup
    have haq : ∀ i ∈ q, some i ≠ a := fun i hi heq => ha (by simp [← heq, hi])
    cases q with
    | nil =>
      have hend : next (some x) = none := h.2
      simp [Chain, hend]
    | cons j q =>
      refine ⟨by simp [h.2.1], h.2.2.congr ?_ ?_⟩
      · simp [Function.update_of_ne (haq j (by simp))]
      · intro i hi
        simp [Function.update_of_ne (haq i (List.mem_cons_of_mem _ hi))]
  | cons i p ih =>
    obtain ⟨ha, hrest⟩ := List.nodup_cons.mp hnodup
    have hmem : p.getLast?.or (some i) ∈ ((i :: p) ++ x :: q).map some := by
      rw [List.map_append]
      exact List.mem_append_left _ (getLast?_or_mem i p)
    have hne : a ≠ p.getLast?.or (some i) := fun heq => ha (heq ▸ hmem)
    rw [getLast?_cons_or]
    refine ⟨?_, ih h.2 hrest⟩
    rw [Function.update_of_ne hne]
    exact h.1

/-- The element behind those of `p` is linked out. -/
theorem Chain.remove {p q : List ι} {x : ι} (h : Chain next none (p ++ x :: q))
    (hnodup : (p ++ x :: q).Nodup) :
    Chain (Function.update next p.getLast? (next (some x))) none (p ++ q) := by
  have hmap : ((p ++ x :: q).map some).Nodup := hnodup.map (Option.some_injective ι)
  have hall : (none :: (p ++ x :: q).map some).Nodup := List.nodup_cons.mpr ⟨by simp, hmap⟩
  have hremove := h.append_remove hall
  rwa [Option.or_none] at hremove

end Linked

end ZenDB
