import Mathlib.Order.Bounds.Basic
import ZenDB.Lib.Merge

namespace ZenDB

/-! Replicas that apply operations and merge each other. A replica is determined by its operations
when some relation `D` between sets of operations and states is kept by both, and holds of at most
one state for a set. -/

/-- How a replica came about. -/
inductive History (E : Type) where
  | empty
  | apply (h : History E) (e : E)
  | merge (h remote : History E)

namespace History

variable {E X ε : Type}

/-- Every operation that is in the replica, with its repetitions. -/
def events : History E → List E
  | .empty => []
  | .apply h e => e :: h.events
  | .merge h remote => h.events ++ remote.events

/-- The state that a call leaves behind, if it returns `Ok`. -/
def okState (r : X × Except ε Bool) : Option X :=
  match r with
  | (x, .ok _) => some x
  | (_, .error _) => none

theorem okState_of_succeeds {r : X × Except ε Bool} (h : Succeeds r) : okState r = some r.1 := by
  obtain ⟨x, e | c⟩ := r
  · obtain ⟨c, hc⟩ := h
    cases hc
  · rfl

variable (init : X) (apply : X → E → X × Except ε Bool) (merge : X → X → X × Except ε Bool)

/-- The replica, if every step returns `Ok`. -/
def run : History E → Option X
  | .empty => some init
  | .apply h e => do
    let x ← h.run
    okState (apply x e)
  | .merge h remote => do
    let x ← h.run
    let y ← remote.run
    okState (merge x y)

end History

namespace History

variable {E X : Type} (init : X) (apply : X → E → X) (merge : X → X → X)

/-- The replica, where a step that fails leaves the state it has reached. -/
def outcome : History E → X
  | .empty => init
  | .apply h e => apply h.outcome e
  | .merge h remote => merge h.outcome remote.outcome

variable {init apply merge}

theorem outcome_induction {U : Set E} {Q : X → Prop} (hinit : Q init)
    (happly : ∀ x, Q x → ∀ e ∈ U, Q (apply x e)) (hmerge : ∀ x y, Q x → Q y → Q (merge x y))
    (h : History E) (hU : ∀ e ∈ h.events, e ∈ U) : Q (h.outcome init apply merge) := by
  induction h with
  | empty => exact hinit
  | apply h e ih =>
    exact happly _ (ih fun e' he' => hU e' (List.mem_cons_of_mem _ he')) e (hU e List.mem_cons_self)
  | merge h remote ih ih' =>
    exact hmerge _ _ (ih fun e he => hU e (List.mem_append_left _ he))
      (ih' fun e he => hU e (List.mem_append_right _ he))

end History

section Stamped

variable {α S X ε : Type}

/-- Operations with their stamps, applied by a method that takes both. -/
def applyStamped (f : X → α → S → X × Except ε Bool) (x : X) (e : α × S) : X × Except ε Bool :=
  f x e.1 e.2

/-- The same for a method without errors. -/
def applyOk (f : X → α → S → X × Bool) (x : X) (e : α × S) : X × Except Empty Bool :=
  ((f x e.1 e.2).1, .ok (f x e.1 e.2).2)

def DistinctStamps (ops : Set (α × S)) : Prop := ∀ e ∈ ops, ∀ e' ∈ ops, e.2 = e'.2 → e = e'

end Stamped

section Determined

variable {E X ε : Type} {init : X} {apply : X → E → X × Except ε Bool}
  {merge : X → X → X × Except ε Bool} {U : Set E} {D : Set E → X → Prop}

/-- `D ops x` says that `x` is the state of `ops`; it is only looked at for operations of `U`. -/
structure Determined (init : X) (apply : X → E → X × Except ε Bool)
    (merge : X → X → X × Except ε Bool) (U : Set E) (D : Set E → X → Prop) : Prop where
  init : D ∅ init
  apply : ∀ ops x e, ops ⊆ U → e ∈ U → D ops x →
    Succeeds (apply x e) ∧ D (insert e ops) (apply x e).1
  merge : ∀ ops ops' x y, ops ⊆ U → ops' ⊆ U → D ops x → D ops' y →
    Succeeds (merge x y) ∧ D (ops ∪ ops') (merge x y).1
  unique : ∀ ops x y, ops ⊆ U → D ops x → D ops y → x = y

namespace Determined

/-- Every step of a history goes through and leaves the state of the operations so far. -/
theorem run_eq_some (hD : Determined init apply merge U D) (h : History E)
    (hU : ∀ e ∈ h.events, e ∈ U) :
    ∃ x, h.run init apply merge = some x ∧ D {e | e ∈ h.events} x := by
  induction h with
  | empty => exact ⟨init, rfl, by simpa [History.events] using hD.init⟩
  | apply h e ih =>
    obtain ⟨x, hx, hDx⟩ := ih fun a ha => hU a (List.mem_cons_of_mem _ ha)
    obtain ⟨hok, hD'⟩ := hD.apply _ x e (fun a ha => hU a (List.mem_cons_of_mem _ ha))
      (hU e List.mem_cons_self) hDx
    refine ⟨(apply x e).1, ?_, ?_⟩
    · rw [History.run, hx]
      exact History.okState_of_succeeds hok
    · have hset : {a | a ∈ (History.apply h e).events} = insert e {a | a ∈ h.events} := by
        ext a
        simp [History.events]
      rwa [hset]
  | merge h remote ih ih' =>
    obtain ⟨x, hx, hDx⟩ := ih fun a ha => hU a (List.mem_append_left _ ha)
    obtain ⟨y, hy, hDy⟩ := ih' fun a ha => hU a (List.mem_append_right _ ha)
    obtain ⟨hok, hD'⟩ := hD.merge _ _ x y (fun a ha => hU a (List.mem_append_left _ ha))
      (fun a ha => hU a (List.mem_append_right _ ha)) hDx hDy
    refine ⟨(merge x y).1, ?_, ?_⟩
    · rw [History.run, hx, hy]
      exact History.okState_of_succeeds hok
    · have hset : {a | a ∈ (History.merge h remote).events} =
          {a | a ∈ h.events} ∪ {a | a ∈ remote.events} := by
        ext a
        simp [History.events]
      rwa [hset]

/-- Replicas with the same operations are equal. -/
theorem run_eq_run (hD : Determined init apply merge U D) (h h' : History E)
    (hU : ∀ e ∈ h.events, e ∈ U) (hsame : ∀ e, e ∈ h.events ↔ e ∈ h'.events) :
    h.run init apply merge = h'.run init apply merge := by
  obtain ⟨x, hx, hDx⟩ := hD.run_eq_some h hU
  obtain ⟨y, hy, hDy⟩ := hD.run_eq_some h' fun e he => hU e ((hsame e).mpr he)
  have hset : {e | e ∈ h'.events} = {e | e ∈ h.events} := by
    ext e
    exact (hsame e).symm
  rw [hset] at hDy
  rw [hx, hy, hD.unique _ x y hU hDx hDy]

end Determined

end Determined

section Maps

open SortedMap

variable {E κ ν ε : Type} [LinearOrder κ] {D : Set E → κ → Option ν → Prop} {ops ops' : Set E}
  {m m' : List (κ × ν)}

/-- A sorted map of which each key has what the operations say. -/
def MapOf (D : Set E → κ → Option ν → Prop) (ops : Set E) (m : List (κ × ν)) : Prop :=
  Sorted (· < ·) m ∧ ∀ key, D ops key (get m key)

namespace MapOf

theorem empty (hD : ∀ key, D ∅ key none) : MapOf D ∅ [] := ⟨List.Pairwise.nil, hD⟩

theorem unique (hD : ∀ key v v', D ops key v → D ops key v' → v = v') (hm : MapOf D ops m)
    (hm' : MapOf D ops m') : m = m' :=
  ext hm.1 hm'.1 fun key => hD key _ _ (hm.2 key) (hm'.2 key)

/-- An operation that writes one key. -/
theorem insert (hm : MapOf D ops m) {key : κ} {value : ν} (hkey : D ops' key (some value))
    (hframe : ∀ k, k ≠ key → D ops k (get m k) → D ops' k (get m k)) :
    MapOf D ops' (SortedMap.insert m key value) := by
  refine ⟨sorted_insert hm.1 key value, ?_⟩
  intro k
  rw [get_insert]
  split_ifs with hk
  · rw [hk]
    exact hkey
  · exact hframe k hk (hm.2 k)

/-- An operation that visits several keys. -/
theorem updateAll (hm : MapOf D ops m) {g : κ → Option ν → Option ν} (hg : Settles g)
    {keys : List κ} (hkeys : ∀ k ∈ keys, ∀ v, D ops k v → D ops' k ((g k v).or v))
    (hframe : ∀ k, k ∉ keys → ∀ v, D ops k v → D ops' k v) :
    MapOf D ops' (SortedMap.updateAll g m keys).1 := by
  refine ⟨sorted_updateAll g hm.1 keys, ?_⟩
  intro k
  rw [get_updateAll hg]
  split_ifs with hk
  · exact hkeys k hk _ (hm.2 k)
  · exact hframe k hk _ (hm.2 k)

theorem mergeMap {f : κ → ν → ν → ν × Except ε Bool} (hm : MapOf D ops m) (hm' : MapOf D ops' m')
    (hok : ∀ key l r, D ops key (some l) → D ops' key (some r) → Succeeds (f key l r))
    (hf : ∀ key v v', D ops key v → D ops' key v' → D (ops ∪ ops') key (mergeEntry f key v v')) :
    Succeeds (SortedMap.mergeMap f m m' false) ∧
      MapOf D (ops ∪ ops') (SortedMap.mergeMap f m m' false).1 := by
  have hmerges : Succeeds (SortedMap.mergeMap f m m' false) := by
    rw [succeeds_mergeMap hm'.1]
    intro key l r hl hr
    exact hok key l r (hl ▸ hm.2 key) (hr ▸ hm'.2 key)
  refine ⟨hmerges, sorted_mergeMap hm.1 m' false, ?_⟩
  intro key
  rw [get_mergeMap hm'.1 hmerges]
  exact hf key _ _ (hm.2 key) (hm'.2 key)

theorem mergeTotal {f : ν → ν → ν × Bool} (hm : MapOf D ops m) (hm' : MapOf D ops' m')
    (hf : ∀ key v v', D ops key v → D ops' key v' → D (ops ∪ ops') key (joinEntry f v v')) :
    MapOf D (ops ∪ ops') (SortedMap.mergeTotal f m m').1 := by
  refine ⟨sorted_mergeTotal f hm.1 m', ?_⟩
  intro key
  rw [(mergeTotal_spec f hm'.1 m).1]
  exact hf key _ _ (hm.2 key) (hm'.2 key)

end MapOf

end Maps

/-- What one of two replicas knows, if they do not contradict each other. -/
theorem or_eq_some_of_agree {α : Type} {a b : Option α} (h : ∀ x y, a = some x → b = some y → x = y)
    (c : α) : a.or b = some c ↔ a = some c ∨ b = some c := by
  cases a with
  | none => simp
  | some x =>
    cases b with
    | none => simp
    | some y => simp [h x y rfl rfl]

section Latest

variable {S : Type} [LinearOrder S]

/-- The greatest element of a set, if it has one; `none` stands for the empty set. -/
def IsLatest (stamps : Set S) : Option S → Prop
  | none => stamps = ∅
  | some s => IsGreatest stamps s

namespace IsLatest

variable {stamps stamps' : Set S} {c c' : Option S}

theorem unique (h : IsLatest stamps c) (h' : IsLatest stamps c') : c = c' := by
  cases c <;> cases c'
  · rfl
  · exact absurd h'.1 (by rw [show stamps = ∅ from h]; simp)
  · exact absurd h.1 (by rw [show stamps = ∅ from h']; simp)
  · rw [IsGreatest.unique h h']

theorem isSome_iff (h : IsLatest stamps c) : c.isSome ↔ stamps.Nonempty := by
  cases c with
  | none => simp [show stamps = ∅ from h]
  | some s => exact iff_of_true rfl ⟨s, h.1⟩

theorem insert_some {s t : S} (h : IsLatest stamps (some t)) :
    IsLatest (Insert.insert s stamps) (some (max s t)) :=
  IsGreatest.insert s h

theorem insert_none {s : S} (h : IsLatest stamps none) :
    IsLatest (Insert.insert s stamps) (some s) := by
  rw [show stamps = ∅ from h]
  simp [IsLatest]

theorem union_some {s t : S} (h : IsLatest stamps (some s)) (h' : IsLatest stamps' (some t)) :
    IsLatest (stamps ∪ stamps') (some (max s t)) :=
  IsGreatest.union h h'

end IsLatest

end Latest

end ZenDB
