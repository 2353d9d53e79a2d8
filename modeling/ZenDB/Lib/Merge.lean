import ZenDB.Lib.SortedMap

namespace ZenDB

open SortedMap

/-! Merges of replicated data: what makes them joins, and how that passes to pairs and to maps that
are merged entry by entry. -/

variable {κ μ ν ε : Type}

/-- The merge went through. -/
def Succeeds (r : ν × Except ε Bool) : Prop := ∃ changed, r.2 = .ok changed

theorem Succeeds.of_eq {r : ν × Except ε Bool} {r' : μ × Except ε Bool} (h : Succeeds r)
    (heq : r.2 = r'.2) : Succeeds r' := by
  obtain ⟨c, hc⟩ := h
  exact ⟨c, heq ▸ hc⟩

theorem not_succeeds_iff {r : ν × Except ε Bool} : ¬ Succeeds r ↔ ∃ e, r.2 = .error e := by
  obtain ⟨v, answer⟩ := r
  cases answer <;> simp [Succeeds]

/-- Without a reported change, the answer was `false` or an error. -/
theorem ne_ok_true_iff {r : ν × Except ε Bool} :
    r.2 ≠ .ok true ↔ r.2 = .ok false ∨ ∃ e, r.2 = .error e := by
  obtain ⟨v, e | _ | _⟩ := r <;> simp

/-- The laws of a merge on values with `W`. `R v r` says that `v` holds everything of `r` already,
and `C v r` that the two agree wherever the merge takes the local side. -/
structure MergeLaws (W : ν → Prop) (f : ν → ν → ν × Except ε Bool) (R C : ν → ν → Prop) : Prop where
  wf : ∀ v r, W v → W r → W (f v r).1
  unchanged : ∀ v r, W v → W r → ((f v r).2 = .ok false ↔ R v r)
  same : ∀ v r, W v → W r → Succeeds (f v r) → ((f v r).1 = v ↔ R v r)
  comm : ∀ v r, W v → W r → Succeeds (f v r) → Succeeds (f r v) →
    ((f v r).1 = (f r v).1 ↔ C v r)
  assoc : ∀ a b c, W a → W b → W c → Succeeds (f a b) → Succeeds (f (f a b).1 c) →
    Succeeds (f b c) → Succeeds (f a (f b c).1) → (f (f a b).1 c).1 = (f a (f b c).1).1

/-- A merge without errors. -/
def liftOk (f : ν → ν → ν × Bool) (v r : ν) : ν × Except ε Bool := ((f v r).1, .ok (f v r).2)

theorem succeeds_liftOk (f : ν → ν → ν × Bool) (v r : ν) :
    Succeeds (liftOk f v r : ν × Except ε Bool) :=
  ⟨_, rfl⟩

/-- Both answers; the first error counts. -/
def bothOk : Except ε Bool → Except ε Bool → Except ε Bool
  | .ok a, .ok b => .ok (a || b)
  | .error e, _ => .error e
  | .ok _, .error e => .error e

def mergePairs (f : μ → μ → μ × Except ε Bool) (g : ν → ν → ν × Except ε Bool) (p q : μ × ν) :
    (μ × ν) × Except ε Bool :=
  (((f p.1 q.1).1, (g p.2 q.2).1), bothOk (f p.1 q.1).2 (g p.2 q.2).2)

variable {W : ν → Prop} {W' : μ → Prop} {R C : ν → ν → Prop} {R' C' : μ → μ → Prop}

theorem succeeds_mergePairs {f : μ → μ → μ × Except ε Bool} {g : ν → ν → ν × Except ε Bool}
    {p q : μ × ν} :
    Succeeds (mergePairs f g p q) ↔ Succeeds (f p.1 q.1) ∧ Succeeds (g p.2 q.2) := by
  simp only [Succeeds, mergePairs]
  cases (f p.1 q.1).2 <;> cases (g p.2 q.2).2 <;> simp [bothOk]

theorem bothOk_eq_ok_false {a b : Except ε Bool} :
    bothOk a b = .ok false ↔ a = .ok false ∧ b = .ok false := by
  cases a <;> cases b <;> simp [bothOk]

namespace MergeLaws

/-- Pairs merge component by component. -/
theorem pairs {f : μ → μ → μ × Except ε Bool} {g : ν → ν → ν × Except ε Bool}
    (hf : MergeLaws W' f R' C') (hg : MergeLaws W g R C) :
    MergeLaws (fun p : μ × ν => W' p.1 ∧ W p.2) (mergePairs f g)
      (fun p q => R' p.1 q.1 ∧ R p.2 q.2) (fun p q => C' p.1 q.1 ∧ C p.2 q.2) := by
  refine ⟨?_, ?_, ?_, ?_, ?_⟩
  · intro p q hp hq
    exact ⟨hf.wf _ _ hp.1 hq.1, hg.wf _ _ hp.2 hq.2⟩
  · intro p q hp hq
    rw [mergePairs, bothOk_eq_ok_false, hf.unchanged _ _ hp.1 hq.1, hg.unchanged _ _ hp.2 hq.2]
  · intro p q hp hq hok
    obtain ⟨h₁, h₂⟩ := succeeds_mergePairs.mp hok
    rw [← hf.same _ _ hp.1 hq.1 h₁, ← hg.same _ _ hp.2 hq.2 h₂]
    exact Prod.ext_iff
  · intro p q hp hq hok hok'
    obtain ⟨h₁, h₂⟩ := succeeds_mergePairs.mp hok
    obtain ⟨h₁', h₂'⟩ := succeeds_mergePairs.mp hok'
    rw [← hf.comm _ _ hp.1 hq.1 h₁ h₁', ← hg.comm _ _ hp.2 hq.2 h₂ h₂']
    exact Prod.ext_iff
  · intro a b c ha hb hc hab habc hbc habc'
    obtain ⟨h₁, h₂⟩ := succeeds_mergePairs.mp hab
    obtain ⟨h₃, h₄⟩ := succeeds_mergePairs.mp habc
    obtain ⟨h₅, h₆⟩ := succeeds_mergePairs.mp hbc
    obtain ⟨h₇, h₈⟩ := succeeds_mergePairs.mp habc'
    exact Prod.ext (hf.assoc _ _ _ ha.1 hb.1 hc.1 h₁ h₃ h₅ h₇)
      (hg.assoc _ _ _ ha.2 hb.2 hc.2 h₂ h₄ h₆ h₈)

/-- The laws of data that is another presentation of lawful data; what a failed merge leaves behind
and which error it gives need not be the same. -/
theorem pullbackOk {f : ν → ν → ν × Except ε Bool} (hf : MergeLaws W f R C)
    {g : μ → μ → μ × Except ε Bool} (e : μ → ν) (he : Function.Injective e)
    (hwf : ∀ a b, W (e a) → W (e b) → W (e (g a b).1))
    (hok : ∀ a b, W (e a) → W (e b) → Succeeds (f (e a) (e b)) → Succeeds (g a b))
    (hgood : ∀ a b, W (e a) → W (e b) → Succeeds (g a b) →
      (e (g a b).1, (g a b).2) = f (e a) (e b)) :
    MergeLaws (fun a => W (e a)) g (fun a b => R (e a) (e b)) (fun a b => C (e a) (e b)) := by
  have hstate : ∀ {a b}, W (e a) → W (e b) → Succeeds (g a b) → e (g a b).1 = (f (e a) (e b)).1 :=
    fun ha hb h => by rw [← hgood _ _ ha hb h]
  have hanswer : ∀ {a b}, W (e a) → W (e b) → Succeeds (g a b) → (g a b).2 = (f (e a) (e b)).2 :=
    fun ha hb h => by rw [← hgood _ _ ha hb h]
  have hsucc : ∀ {a b}, W (e a) → W (e b) → Succeeds (g a b) → Succeeds (f (e a) (e b)) :=
    fun ha hb h => h.of_eq (hanswer ha hb h)
  refine ⟨hwf, ?_, ?_, ?_, ?_⟩
  · intro a b ha hb
    rw [← hf.unchanged _ _ ha hb]
    constructor
    · intro h
      rw [← hanswer ha hb ⟨false, h⟩, h]
    · intro h
      rw [hanswer ha hb (hok a b ha hb ⟨false, h⟩), h]
  · intro a b ha hb h
    rw [← hf.same _ _ ha hb (hsucc ha hb h), ← hstate ha hb h]
    exact he.eq_iff.symm
  · intro a b ha hb h h'
    rw [← hf.comm _ _ ha hb (hsucc ha hb h) (hsucc hb ha h'), ← hstate ha hb h, ← hstate hb ha h']
    exact he.eq_iff.symm
  · intro a b c ha hb hc hab habc hbc habc'
    have hwab := hwf a b ha hb
    have hwbc := hwf b c hb hc
    have h := hsucc hwab hc habc
    have h' := hsucc ha hwbc habc'
    apply he
    rw [hstate hwab hc habc, hstate ha hwbc habc']
    rw [hstate ha hb hab] at h ⊢
    rw [hstate hb hc hbc] at h' ⊢
    exact hf.assoc _ _ _ ha hb hc (hsucc ha hb hab) h (hsucc hb hc hbc) h'

theorem pullback {f : ν → ν → ν × Except ε Bool} (hf : MergeLaws W f R C)
    {g : μ → μ → μ × Except ε Bool} (e : μ → ν) (he : Function.Injective e)
    (hg : ∀ a b, (e (g a b).1, (g a b).2) = f (e a) (e b)) :
    MergeLaws (fun a => W (e a)) g (fun a b => R (e a) (e b)) (fun a b => C (e a) (e b)) := by
  refine hf.pullbackOk e he ?_ ?_ (fun a b _ _ _ => hg a b)
  · intro a b ha hb
    have h := hf.wf _ _ ha hb
    rw [← hg] at h
    exact h
  · rintro a b _ _ ⟨c, hc⟩
    rw [← hg] at hc
    exact ⟨c, hc⟩

theorem congr {f : ν → ν → ν × Except ε Bool} (hf : MergeLaws W f R C) {X : ν → Prop}
    {D : ν → ν → Prop} (hX : ∀ v, X v ↔ W v) (hD : ∀ v r, C v r ↔ D v r) : MergeLaws X f R D := by
  obtain rfl : X = W := funext fun v => propext (hX v)
  obtain rfl : C = D := funext fun v => funext fun r => propext (hD v r)
  exact hf

/-- Without errors their type does not matter. -/
theorem changeError {η : Type} {f : ν → ν → ν × Bool}
    (hf : MergeLaws W (liftOk f : ν → ν → ν × Except ε Bool) R C) :
    MergeLaws W (liftOk f : ν → ν → ν × Except η Bool) R C := by
  have hok := succeeds_liftOk (ε := ε) f
  refine ⟨hf.wf, ?_, ?_, ?_, ?_⟩
  · intro v r hv hr
    rw [← hf.unchanged v r hv hr]
    simp [liftOk]
  · exact fun v r hv hr _ => hf.same v r hv hr (hok v r)
  · exact fun v r hv hr _ _ => hf.comm v r hv hr (hok v r) (hok r v)
  · exact fun a b c ha hb hc _ _ _ _ => hf.assoc a b c ha hb hc (hok _ _) (hok _ _) (hok _ _) (hok _ _)

end MergeLaws

section Absorption

/-- After a merge that goes through, nothing of the remote side is missing. -/
def Absorbs (W : ν → Prop) (f : ν → ν → ν × Except ε Bool) (R : ν → ν → Prop) : Prop :=
  ∀ v r, W v → W r → Succeeds (f v r) → R (f v r).1 r

namespace Absorbs

theorem pairs {f : μ → μ → μ × Except ε Bool} {g : ν → ν → ν × Except ε Bool}
    (hf : Absorbs W' f R') (hg : Absorbs W g R) :
    Absorbs (fun p : μ × ν => W' p.1 ∧ W p.2) (mergePairs f g)
      (fun p q => R' p.1 q.1 ∧ R p.2 q.2) := by
  intro p q hp hq hok
  obtain ⟨h₁, h₂⟩ := succeeds_mergePairs.mp hok
  exact ⟨hf _ _ hp.1 hq.1 h₁, hg _ _ hp.2 hq.2 h₂⟩

theorem pullbackOk {f : ν → ν → ν × Except ε Bool} (hf : Absorbs W f R)
    {g : μ → μ → μ × Except ε Bool} (e : μ → ν)
    (hgood : ∀ a b, W (e a) → W (e b) → Succeeds (g a b) →
      (e (g a b).1, (g a b).2) = f (e a) (e b)) :
    Absorbs (fun a => W (e a)) g (fun a b => R (e a) (e b)) := by
  intro a b ha hb hok
  have heq := hgood a b ha hb hok
  have hok' : Succeeds (f (e a) (e b)) := hok.of_eq (congrArg Prod.snd heq)
  have h := hf (e a) (e b) ha hb hok'
  rw [← heq] at h
  exact h

end Absorbs

/-- Where merges cannot fail, merging `r` twice is merging it with itself first. -/
theorem MergeLaws.absorbs {f : ν → ν → ν × Bool}
    (hf : MergeLaws W (liftOk f : ν → ν → ν × Except ε Bool) R C) (hself : ∀ r, W r → R r r) :
    Absorbs W (liftOk f : ν → ν → ν × Except ε Bool) R := by
  intro v r hv hr _
  have hok := succeeds_liftOk (ε := ε) f
  have hrr : (f r r).1 = r := (hf.same r r hr hr (hok r r)).mpr (hself r hr)
  have hassoc := hf.assoc v r r hv hr hr (hok _ _) (hok _ _) (hok _ _) (hok _ _)
  simp only [liftOk, hrr] at hassoc
  exact (hf.same _ r (hf.wf v r hv hr) hr (hok _ _)).mp hassoc

end Absorption

section Maps

variable [LinearOrder κ]

/-- A sorted map whose values have `W`. -/
def WMap (W : ν → Prop) (m : List (κ × ν)) : Prop :=
  Sorted (· < ·) m ∧ ∀ key v, get m key = some v → W v

/-- Every entry of `remote` has a counterpart in `m`. -/
def CoversMap (R : ν → ν → Prop) (m remote : List (κ × ν)) : Prop :=
  ∀ key r, get remote key = some r → ∃ v, get m key = some v ∧ R v r

theorem CoversMap.refl {m : List (κ × ν)} (h : ∀ key v, get m key = some v → R v v) :
    CoversMap R m m :=
  fun key r hr => ⟨r, hr, h key r hr⟩

/-- `C` holds of the values under common keys. -/
def OnCommon (C : ν → ν → Prop) (m remote : List (κ × ν)) : Prop :=
  ∀ key v r, get m key = some v → get remote key = some r → C v r

theorem WMap.nil : WMap (κ := κ) W [] := ⟨List.Pairwise.nil, fun _ _ h => by cases h⟩

theorem WMap.insert {m : List (κ × ν)} (h : WMap W m) (key : κ) {value : ν} (hvalue : W value) :
    WMap W (SortedMap.insert m key value) := by
  refine ⟨sorted_insert h.1 key value, ?_⟩
  intro k v hv
  rw [get_insert] at hv
  split_ifs at hv
  · cases hv
    exact hvalue
  · exact h.2 k v hv

theorem WMap.updateAll {m : List (κ × ν)} (h : WMap W m) (keys : List κ)
    {g : κ → Option ν → Option ν}
    (hg : ∀ key v, (∀ w, v = some w → W w) → ∀ value, g key v = some value → W value) :
    WMap W (SortedMap.updateAll g m keys).1 := by
  induction keys generalizing m with
  | nil => exact h
  | cons key keys ih =>
    rw [SortedMap.updateAll]
    cases hvalue : g key (get m key) with
    | none => exact ih h
    | some value => exact ih (h.insert key (hg key _ (fun w hw => h.2 key w hw) value hvalue))

variable {f : κ → ν → ν → ν × Except ε Bool}

/-- A loop keeps what its steps keep. They may count on going through if the loop does
(`strict`); otherwise an error may have ended it. -/
theorem WMap.mergeMap (strict : Prop) {m remote : List (κ × ν)}
    (hf : ∀ e ∈ remote, ∀ v, W v → (strict → Succeeds (f e.1 v e.2)) → W (f e.1 v e.2).1)
    (hm : WMap W m) (hremote : ∀ e ∈ remote, W e.2) (changed : Bool)
    (hok : strict → Succeeds (SortedMap.mergeMap f m remote changed)) :
    WMap W (SortedMap.mergeMap f m remote changed).1 := by
  induction remote generalizing m changed with
  | nil => exact hm
  | cons e rest ih =>
    obtain ⟨key, r⟩ := e
    have hr : W r := hremote (key, r) (by simp)
    have hrest : ∀ e ∈ rest, W e.2 := fun e he => hremote e (List.mem_cons_of_mem _ he)
    have hf' := fun e he => hf e (List.mem_cons_of_mem _ he)
    rw [SortedMap.mergeMap] at hok ⊢
    cases hget : get m key with
    | none =>
      rw [hget] at hok
      exact ih hf' (hm.insert key hr) hrest _ hok
    | some v =>
      rw [hget] at hok
      have hv' := hf (key, r) (by simp) v (hm.2 key v hget)
      dsimp only at hok hv' ⊢
      rcases hmerge : f key v r with ⟨v', e | c⟩
      · rw [hmerge] at hv' hok
        exact hm.insert key (hv' fun hs => hok hs)
      · rw [hmerge] at hv' hok
        exact ih hf' (hm.insert key (hv' fun _ => ⟨c, rfl⟩)) hrest _ hok

theorem succeeds_mergeMap {m remote : List (κ × ν)} (hremote : Sorted (· < ·) remote) :
    Succeeds (mergeMap f m remote false) ↔ MergesOk f m remote := by
  constructor
  · rintro ⟨c, hc⟩
    exact mergesOk_of_mergeMap hremote m false c hc
  · intro hok
    obtain ⟨⟨c, hc, -⟩, -⟩ := mergeMap_of_ok hremote m false hok
    exact ⟨c, hc⟩

theorem get_mergeMap {m remote : List (κ × ν)} (hremote : Sorted (· < ·) remote)
    (hok : Succeeds (mergeMap f m remote false)) (key : κ) :
    get (mergeMap f m remote false).1 key = mergeEntry f key (get m key) (get remote key) :=
  (mergeMap_of_ok hremote m false ((succeeds_mergeMap hremote).mp hok)).2 key

theorem mergeMap_unchanged {m remote : List (κ × ν)} (hremote : Sorted (· < ·) remote) :
    (mergeMap f m remote false).2 = .ok false ↔
      ∀ key r, get remote key = some r → ∃ v, get m key = some v ∧ (f key v r).2 = .ok false := by
  constructor
  · intro h key r hr
    have hok := mergesOk_of_mergeMap hremote m false false h
    obtain ⟨⟨c, hc, hiff⟩, -⟩ := mergeMap_of_ok hremote m false hok
    rw [h, Except.ok.injEq] at hc
    have hnot : ¬ MergeChanges f m remote := fun hch => by
      have := hiff.mpr (Or.inr hch)
      rw [← hc] at this
      cases this
    have hex : ¬ ∀ v, get m key = some v → (f key v r).2 = .ok true :=
      fun hall => hnot ⟨key, r, hr, hall⟩
    push Not at hex
    obtain ⟨v, hv, hne⟩ := hex
    obtain ⟨d, hd⟩ := hok key v r hv hr
    refine ⟨v, hv, ?_⟩
    cases d with
    | false => exact hd
    | true => exact absurd hd hne
  · intro h
    have hok : MergesOk f m remote := by
      intro key v r hv hr
      obtain ⟨v', hv', hf⟩ := h key r hr
      rw [hv] at hv'
      cases hv'
      exact ⟨false, hf⟩
    obtain ⟨⟨c, hc, hiff⟩, -⟩ := mergeMap_of_ok hremote m false hok
    cases c with
    | false => exact hc
    | true =>
      obtain hfalse | ⟨key, r, hr, hall⟩ := hiff.mp rfl
      · cases hfalse
      · obtain ⟨v, hv, hf⟩ := h key r hr
        have := hall v hv
        rw [hf] at this
        cases this

theorem mergeMap_eq_iff {m remote m' : List (κ × ν)} (hm : Sorted (· < ·) m)
    (hremote : Sorted (· < ·) remote) (hm' : Sorted (· < ·) m')
    (hok : Succeeds (mergeMap f m remote false)) :
    (mergeMap f m remote false).1 = m' ↔
      ∀ key, mergeEntry f key (get m key) (get remote key) = get m' key := by
  constructor
  · intro h key
    rw [← get_mergeMap hremote hok, h]
  · intro h
    refine ext (sorted_mergeMap hm remote false) hm' ?_
    intro key
    rw [get_mergeMap hremote hok, h]

theorem mergeMap_same {m remote : List (κ × ν)} (hm : Sorted (· < ·) m)
    (hremote : Sorted (· < ·) remote) (hok : Succeeds (mergeMap f m remote false)) :
    (mergeMap f m remote false).1 = m ↔
      ∀ key r, get remote key = some r → ∃ v, get m key = some v ∧ (f key v r).1 = v := by
  rw [mergeMap_eq_iff hm hremote hm hok]
  refine forall_congr' fun key => ?_
  cases hr : get remote key <;> cases hv : get m key <;> simp [mergeEntry]

theorem mergeMap_comm {m remote : List (κ × ν)} (hm : Sorted (· < ·) m)
    (hremote : Sorted (· < ·) remote) (hok : Succeeds (mergeMap f m remote false))
    (hok' : Succeeds (mergeMap f remote m false)) :
    (mergeMap f m remote false).1 = (mergeMap f remote m false).1 ↔
      ∀ key v r, get m key = some v → get remote key = some r → (f key v r).1 = (f key r v).1 := by
  rw [mergeMap_eq_iff hm hremote (sorted_mergeMap hremote m false) hok]
  refine forall_congr' fun key => ?_
  rw [get_mergeMap hm hok']
  cases hr : get remote key <;> cases hv : get m key <;> simp [mergeEntry]

theorem mergeMap_assoc {a b c : List (κ × ν)} (ha : Sorted (· < ·) a) (hb : Sorted (· < ·) b)
    (hc : Sorted (· < ·) c) (hab : Succeeds (mergeMap f a b false))
    (habc : Succeeds (mergeMap f (mergeMap f a b false).1 c false))
    (hbc : Succeeds (mergeMap f b c false))
    (habc' : Succeeds (mergeMap f a (mergeMap f b c false).1 false)) :
    (mergeMap f (mergeMap f a b false).1 c false).1 =
        (mergeMap f a (mergeMap f b c false).1 false).1 ↔
      ∀ key x y z, get a key = some x → get b key = some y → get c key = some z →
        (f key (f key x y).1 z).1 = (f key x (f key y z).1).1 := by
  have hsab := sorted_mergeMap (f := f) ha b false
  have hsbc := sorted_mergeMap (f := f) hb c false
  rw [mergeMap_eq_iff hsab hc (sorted_mergeMap ha _ false) habc]
  refine forall_congr' fun key => ?_
  rw [get_mergeMap hsbc habc', get_mergeMap hb hab, get_mergeMap hc hbc]
  cases hx : get a key <;> cases hy : get b key <;> cases hz : get c key <;> simp [mergeEntry]

/-- Common entries of merges that go through merge without an error. -/
theorem Succeeds.entry {m remote : List (κ × ν)} (hremote : Sorted (· < ·) remote)
    (hok : Succeeds (mergeMap f m remote false)) {key : κ} {v r : ν} (hv : get m key = some v)
    (hr : get remote key = some r) : Succeeds (f key v r) :=
  (succeeds_mergeMap hremote).mp hok key v r hv hr

/-- A merge of three maps that goes through merges the entries of common keys. -/
theorem Succeeds.entries {a b c : List (κ × ν)} (hb : Sorted (· < ·) b) (hc : Sorted (· < ·) c)
    (hab : Succeeds (mergeMap f a b false))
    (habc : Succeeds (mergeMap f (mergeMap f a b false).1 c false)) {key : κ} {x y z : ν}
    (hx : get a key = some x) (hy : get b key = some y) (hz : get c key = some z) :
    Succeeds (f key (f key x y).1 z) := by
  refine habc.entry hc ?_ hz
  rw [get_mergeMap hb hab, hx, hy]
  rfl

theorem Succeeds.entries_right {a b c : List (κ × ν)} (hb : Sorted (· < ·) b)
    (hc : Sorted (· < ·) c) (hbc : Succeeds (mergeMap f b c false))
    (habc : Succeeds (mergeMap f a (mergeMap f b c false).1 false)) {key : κ} {x y z : ν}
    (hx : get a key = some x) (hy : get b key = some y) (hz : get c key = some z) :
    Succeeds (f key x (f key y z).1) := by
  refine habc.entry (sorted_mergeMap hb c false) hx ?_
  rw [get_mergeMap hc hbc, hy, hz]
  rfl

/-- Maps whose entries merge lawfully merge lawfully. -/
theorem MergeLaws.map (hf : ∀ key, MergeLaws W (f key) R C) :
    MergeLaws (WMap W) (fun m r => mergeMap f m r false) (CoversMap (κ := κ) R)
      (OnCommon (κ := κ) C) := by
  refine ⟨?_, ?_, ?_, ?_, ?_⟩
  · intro m r hm hr
    have hremote : ∀ e ∈ r, W e.2 := fun e he => hr.2 e.1 e.2 (get_of_mem hr.1 he)
    exact WMap.mergeMap False (fun e he v hv _ => (hf e.1).wf v e.2 hv (hremote e he)) hm hremote false
      False.elim
  · intro m r hm hr
    rw [mergeMap_unchanged hr.1]
    refine forall_congr' fun key => forall_congr' fun r' => forall_congr' fun hr' => ?_
    refine exists_congr fun v => and_congr_right fun hv => ?_
    exact (hf key).unchanged v r' (hm.2 key v hv) (hr.2 key r' hr')
  · intro m r hm hr hok
    rw [mergeMap_same hm.1 hr.1 hok]
    refine forall_congr' fun key => forall_congr' fun r' => forall_congr' fun hr' => ?_
    refine exists_congr fun v => and_congr_right fun hv => ?_
    exact (hf key).same v r' (hm.2 key v hv) (hr.2 key r' hr') (hok.entry hr.1 hv hr')
  · intro m r hm hr hok hok'
    rw [mergeMap_comm hm.1 hr.1 hok hok']
    refine forall_congr' fun key => forall_congr' fun v => forall_congr' fun r' =>
      forall_congr' fun hv => forall_congr' fun hr' => ?_
    exact (hf key).comm v r' (hm.2 key v hv) (hr.2 key r' hr') (hok.entry hr.1 hv hr')
      (hok'.entry hm.1 hr' hv)
  · intro a b c ha hb hc hab habc hbc habc'
    rw [mergeMap_assoc ha.1 hb.1 hc.1 hab habc hbc habc']
    intro key x y z hx hy hz
    exact (hf key).assoc x y z (ha.2 key x hx) (hb.2 key y hy) (hc.2 key z hz)
      (hab.entry hb.1 hx hy) (Succeeds.entries hb.1 hc.1 hab habc hx hy hz) (hbc.entry hc.1 hy hz)
      (Succeeds.entries_right hb.1 hc.1 hbc habc' hx hy hz)

/-- The laws of the loop over entries that merge without errors. -/
theorem MergeLaws.total {g : ν → ν → ν × Bool}
    (hg : MergeLaws W (liftOk g : ν → ν → ν × Except Empty Bool) R C) :
    MergeLaws (WMap W) (liftOk (mergeTotal g) : List (κ × ν) → List (κ × ν) → _ × Except Empty Bool)
      (CoversMap R) (OnCommon C) := by
  have heq : (liftOk (mergeTotal g) : List (κ × ν) → List (κ × ν) → _ × Except Empty Bool) =
      fun m r => SortedMap.mergeMap (fun _ => liftOk g) m r false := by
    funext m r
    exact (mergeTotal_eq g m r).symm
  rw [heq]
  exact MergeLaws.map fun _ => hg

/-- A map absorbs another one if its entries do; entries that are new are covered by themselves. -/
theorem Absorbs.map (hf : ∀ key, Absorbs W (f key) R) (hself : ∀ r, W r → R r r) :
    Absorbs (WMap W) (fun m r => mergeMap f m r false) (CoversMap (κ := κ) R) := by
  intro m remote hm hremote hok key r hr
  rw [get_mergeMap hremote.1 hok, hr]
  cases hv : get m key with
  | none => exact ⟨r, rfl, hself r (hremote.2 key r hr)⟩
  | some v =>
    exact ⟨_, rfl, hf key v r (hm.2 key v hv) (hremote.2 key r hr) (hok.entry hremote.1 hv hr)⟩

/-- A key at which the loop stops, with the entries before it and its own as they were. -/
def StopsClean (f : κ → ν → ν → ν × Except ε Bool) (m remote : List (κ × ν)) (key : κ) : Prop :=
  (∃ v r, get m key = some v ∧ get remote key = some r ∧ ¬ Succeeds (f key v r) ∧
    (f key v r).1 = v) ∧
  ∀ k < key, ∀ r, get remote k = some r →
    ∃ v, get m k = some v ∧ Succeeds (f k v r) ∧ (f k v r).1 = v

/-- In front of the other keys stands one that fails, or one that is passed. -/
theorem exists_stopsClean_cons {m rest : List (κ × ν)} {key : κ} {r : ν}
    (hlt : ∀ e ∈ rest, key < e.1) :
    (∃ k, StopsClean f m ((key, r) :: rest) k) ↔
      ∃ v, get m key = some v ∧ (f key v r).1 = v ∧
        (¬ Succeeds (f key v r) ∨ Succeeds (f key v r) ∧ ∃ k, StopsClean f m rest k) := by
  have hhead : get ((key, r) :: rest) key = some r := by rw [SortedMap.get, if_pos rfl]
  have hbehind : ∀ k, k ≠ key → get ((key, r) :: rest) k = get rest k := by
    intro k hk
    rw [SortedMap.get, if_neg hk]
  have hrest : ∀ k r', get rest k = some r' → key < k := fun k r' h => hlt _ (mem_of_get h)
  constructor
  · rintro ⟨k, ⟨v, r', hv, hr', hfail, hsame⟩, hbefore⟩
    by_cases hk : k = key
    · subst hk
      rw [hhead] at hr'
      cases hr'
      exact ⟨v, hv, hsame, Or.inl hfail⟩
    · rw [hbehind k hk] at hr'
      obtain ⟨v', hv', hok, hsame'⟩ := hbefore key (hrest k r' hr') r hhead
      refine ⟨v', hv', hsame', Or.inr ⟨hok, k, ⟨v, r', hv, hr', hfail, hsame⟩, ?_⟩⟩
      intro k' hk' r'' hr''
      refine hbefore k' hk' r'' ?_
      rw [hbehind k' (hrest k' r'' hr'').ne', hr'']
  · rintro ⟨v, hv, hsame, hfail | ⟨hok, k, ⟨v', r', hv', hr', hfail, hsame'⟩, hbefore⟩⟩
    · refine ⟨key, ⟨v, r, hv, hhead, hfail, hsame⟩, ?_⟩
      intro k hk r' hr'
      rw [hbehind k hk.ne] at hr'
      exact absurd hk (hrest k r' hr').not_gt
    · refine ⟨k, ⟨v', r', hv', ?_, hfail, hsame'⟩, ?_⟩
      · rw [hbehind k (hrest k r' hr').ne', hr']
      · intro k' hk' r'' hr''
        by_cases heq : k' = key
        · subst heq
          rw [hhead] at hr''
          cases hr''
          exact ⟨v, hv, hok, hsame⟩
        · rw [hbehind k' heq] at hr''
          exact hbefore k' hk' r'' hr''

/-- What a loop that fails leaves behind is the map it was given exactly when it stops before it has
written anything. -/
theorem mergeMap_failed_same {m remote : List (κ × ν)} (hm : Sorted (· < ·) m)
    (hremote : Sorted (· < ·) remote) {changed : Bool}
    (hfail : ¬ Succeeds (mergeMap f m remote changed)) :
    (mergeMap f m remote changed).1 = m ↔ ∃ key, StopsClean f m remote key := by
  induction remote generalizing changed with
  | nil => exact absurd ⟨changed, rfl⟩ hfail
  | cons e rest ih =>
    obtain ⟨key, r⟩ := e
    obtain ⟨hlt, hrest⟩ := List.pairwise_cons.mp hremote
    have hnone : get rest key = none := get_eq_none_of_forall_ne fun e he => (hlt e he).ne'
    -- what is written under `key` is still there in the end
    have hkept : ∀ v' changed, (mergeMap f (SortedMap.insert m key v') rest changed).1 = m →
        get m key = some v' := by
      intro v' changed h
      have hget := get_mergeMap_of_absent (f := f) hnone (SortedMap.insert m key v') changed
      rw [h, get_insert, if_pos rfl] at hget
      exact hget
    rw [exists_stopsClean_cons hlt]
    rw [mergeMap] at hfail ⊢
    cases hv : get m key with
    | none =>
      refine iff_of_false (fun h => ?_) (by simp)
      have hin := hkept _ _ h
      rw [hv] at hin
      cases hin
    | some v =>
      rw [hv] at hfail
      simp only [Option.some.injEq, exists_eq_left']
      rcases hf : f key v r with ⟨v', e | c⟩
      · have hno : ¬ Succeeds ((v', .error e) : ν × Except ε Bool) := by simp [Succeeds]
        simp [insert_eq_iff hm, hv, hno, eq_comm]
      · have hyes : Succeeds ((v', .ok c) : ν × Except ε Bool) := ⟨c, rfl⟩
        simp only [hf] at hfail
        dsimp only
        by_cases hsame : v' = v
        · subst hsame
          rw [insert_of_get hm hv] at hfail ⊢
          rw [ih hrest hfail]
          simp [hyes]
        · refine iff_of_false (fun h => ?_) (by simp [hsame])
          have hin := hkept _ _ h
          rw [hv] at hin
          cases hin
          exact hsame rfl

/-- Values under a common key are in conflict. -/
def ConflictsMap (D : ν → ν → Prop) (m remote : List (κ × ν)) : Prop :=
  ∃ key v r, get m key = some v ∧ get remote key = some r ∧ D v r

/-- The values under some key have `K`, and all remote entries before it are covered. -/
def FailsEarlyMap (K R : ν → ν → Prop) (m remote : List (κ × ν)) : Prop :=
  ∃ key, (∃ v r, get m key = some v ∧ get remote key = some r ∧ K v r) ∧
    ∀ k < key, ∀ r, get remote k = some r → ∃ v, get m k = some v ∧ R v r

theorem FailsEarlyMap.conflicts {K R : ν → ν → Prop} {m remote : List (κ × ν)}
    (h : FailsEarlyMap K R m remote) : ConflictsMap K m remote := by
  obtain ⟨key, ⟨v, r, hv, hr, hkey⟩, -⟩ := h
  exact ⟨key, v, r, hv, hr, hkey⟩

theorem fails_mergeMap {m remote : List (κ × ν)} (hremote : Sorted (· < ·) remote) {D : ν → ν → Prop}
    (hD : ∀ key v r, get m key = some v → get remote key = some r →
      (¬ Succeeds (f key v r) ↔ D v r)) :
    ¬ Succeeds (mergeMap f m remote false) ↔ ConflictsMap D m remote := by
  rw [succeeds_mergeMap hremote, MergesOk]
  push Not
  refine exists_congr fun key => exists_congr fun v => exists_congr fun r => ?_
  refine and_congr_right fun hv => and_congr_right fun hr => ?_
  rw [← hD key v r hv hr, Succeeds]
  push Not
  rfl

theorem failed_mergeMap_same {m remote : List (κ × ν)} (hm : Sorted (· < ·) m)
    (hremote : Sorted (· < ·) remote) {K R : ν → ν → Prop}
    (hK : ∀ key v r, get m key = some v → get remote key = some r →
      (¬ Succeeds (f key v r) ∧ (f key v r).1 = v ↔ K v r))
    (hR : ∀ key v r, get m key = some v → get remote key = some r →
      (Succeeds (f key v r) ∧ (f key v r).1 = v ↔ R v r))
    (hfail : ¬ Succeeds (mergeMap f m remote false)) :
    (mergeMap f m remote false).1 = m ↔ FailsEarlyMap K R m remote := by
  rw [mergeMap_failed_same hm hremote hfail]
  refine exists_congr fun key => and_congr ?_ ?_
  · refine exists_congr fun v => exists_congr fun r => ?_
    refine and_congr_right fun hv => and_congr_right fun hr => hK key v r hv hr
  · refine forall_congr' fun k => forall_congr' fun _ => forall_congr' fun r =>
      forall_congr' fun hr => exists_congr fun v => and_congr_right fun hv => hR k v r hv hr

end Maps

end ZenDB
