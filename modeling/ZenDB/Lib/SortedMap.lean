import ZenDB.Lib.Rows

namespace ZenDB

namespace SortedMap

variable {κ ν ε : Type} [LinearOrder κ]

/-- A map as the list of its entries in key order; a set has entries with value `()`. -/
def get : List (κ × ν) → κ → Option ν
  | [], _ => none
  | (k, v) :: m, key => if key = k then some v else get m key

def insert : List (κ × ν) → κ → ν → List (κ × ν)
  | [], key, value => [(key, value)]
  | (k, v) :: m, key, value =>
    if key < k then (key, value) :: (k, v) :: m
    else if key = k then (key, value) :: m
    else (k, v) :: insert m key value

def erase : List (κ × ν) → κ → List (κ × ν)
  | [], _ => []
  | (k, v) :: m, key => if key = k then m else (k, v) :: erase m key

def contains (m : List (κ × ν)) (key : κ) : Bool := (get m key).isSome

@[simp] theorem get_nil (key : κ) : get ([] : List (κ × ν)) key = none := rfl

theorem get_insert (m : List (κ × ν)) (key : κ) (value : ν) (k : κ) :
    get (insert m key value) k = if k = key then some value else get m k := by
  induction m with
  | nil => rfl
  | cons e m ih =>
    obtain ⟨k', v'⟩ := e
    by_cases hlt : key < k'
    · rw [insert, if_pos hlt, get]
    by_cases heq : key = k'
    · subst heq
      rw [insert, if_neg hlt, if_pos rfl, get, get]
      split_ifs <;> rfl
    · rw [insert, if_neg hlt, if_neg heq, get, ih, get]
      by_cases hk : k = k'
      · rw [if_pos hk, if_pos hk, if_neg (by rw [hk]; exact Ne.symm heq)]
      · rw [if_neg hk, if_neg hk]

theorem mem_of_get {m : List (κ × ν)} {key : κ} {value : ν} (h : get m key = some value) :
    (key, value) ∈ m := by
  induction m with
  | nil => cases h
  | cons e m ih =>
    obtain ⟨k, v⟩ := e
    rw [get] at h
    split_ifs at h with heq
    · cases h
      simp [heq]
    · exact List.mem_cons_of_mem _ (ih h)

theorem get_eq_none_of_forall_ne {m : List (κ × ν)} {key : κ} (h : ∀ e ∈ m, e.1 ≠ key) :
    get m key = none := by
  cases hget : get m key with
  | none => rfl
  | some value => exact absurd rfl (h _ (mem_of_get hget))

theorem get_of_mem {m : List (κ × ν)} (hm : Sorted (· < ·) m) {key : κ} {value : ν}
    (h : (key, value) ∈ m) : get m key = some value := by
  induction m with
  | nil => cases h
  | cons e m ih =>
    obtain ⟨hlt, hm⟩ := List.pairwise_cons.mp hm
    rcases List.mem_cons.mp h with rfl | h
    · rw [get, if_pos rfl]
    · rw [get, if_neg (hlt _ h).ne', ih hm h]

/-- Sorted maps that agree on every key are equal. -/
theorem ext {m m' : List (κ × ν)} (hm : Sorted (· < ·) m) (hm' : Sorted (· < ·) m')
    (h : ∀ key, get m key = get m' key) : m = m' := by
  refine hm.eq_of_mem_iff (fun a b hab hba => lt_asymm hab hba) hm' ?_
  rintro ⟨key, value⟩
  constructor
  · intro hmem
    exact mem_of_get (h key ▸ get_of_mem hm hmem)
  · intro hmem
    exact mem_of_get ((h key).symm ▸ get_of_mem hm' hmem)

theorem mem_insert {m : List (κ × ν)} {key : κ} {value : ν} {e : κ × ν}
    (h : e ∈ insert m key value) : e = (key, value) ∨ e ∈ m := by
  induction m with
  | nil => exact Or.inl (List.mem_singleton.mp h)
  | cons e' m ih =>
    rw [insert] at h
    split_ifs at h
    · exact List.mem_cons.mp h
    · exact (List.mem_cons.mp h).imp id (List.mem_cons_of_mem _)
    · rcases List.mem_cons.mp h with rfl | h
      · exact Or.inr (by simp)
      · exact (ih h).imp id (List.mem_cons_of_mem _)

theorem sorted_insert {m : List (κ × ν)} (hm : Sorted (· < ·) m) (key : κ) (value : ν) :
    Sorted (· < ·) (insert m key value) := by
  induction m with
  | nil => exact List.pairwise_singleton _ _
  | cons e m ih =>
    obtain ⟨k, v⟩ := e
    obtain ⟨hlt, hm'⟩ := List.pairwise_cons.mp hm
    rw [insert]
    split_ifs with h heq
    · refine List.pairwise_cons.mpr ⟨?_, hm⟩
      intro e he
      rcases List.mem_cons.mp he with rfl | he
      · exact h
      · exact h.trans (hlt e he)
    · subst heq
      exact List.pairwise_cons.mpr ⟨hlt, hm'⟩
    · refine List.pairwise_cons.mpr ⟨?_, ih hm'⟩
      intro e he
      rcases mem_insert he with rfl | he
      · exact lt_of_le_of_ne (not_lt.mp h) (Ne.symm heq)
      · exact hlt e he

/-- Writing what is there changes nothing. -/
theorem insert_of_get {m : List (κ × ν)} (hm : Sorted (· < ·) m) {key : κ} {value : ν}
    (h : get m key = some value) : insert m key value = m := by
  refine ext (sorted_insert hm key value) hm ?_
  intro k
  rw [get_insert]
  split_ifs with hk
  · rw [hk, h]
  · rfl

theorem insert_eq_iff {m : List (κ × ν)} (hm : Sorted (· < ·) m) {key : κ} {value : ν} :
    insert m key value = m ↔ get m key = some value := by
  refine ⟨fun h => ?_, insert_of_get hm⟩
  rw [← h, get_insert, if_pos rfl]

theorem sorted_erase {m : List (κ × ν)} (hm : Sorted (· < ·) m) (key : κ) :
    Sorted (· < ·) (erase m key) := by
  have hsub : ∀ m : List (κ × ν), (erase m key).Sublist m := by
    intro m
    induction m with
    | nil => exact List.Sublist.refl _
    | cons e m ih =>
      rw [erase]
      split_ifs
      · exact List.sublist_cons_self _ _
      · exact ih.cons_cons _
  exact List.Pairwise.sublist (hsub m) hm

theorem erase_of_get_none {m : List (κ × ν)} {key : κ} (h : get m key = none) :
    erase m key = m := by
  induction m with
  | nil => rfl
  | cons e m ih =>
    rw [get] at h
    split_ifs at h with heq
    rw [erase, if_neg heq, ih h]

theorem get_erase {m : List (κ × ν)} (hm : Sorted (· < ·) m) (key k : κ) :
    get (erase m key) k = if k = key then none else get m k := by
  induction m with
  | nil => simp [erase]
  | cons e m ih =>
    obtain ⟨k', v'⟩ := e
    obtain ⟨hlt, hm⟩ := List.pairwise_cons.mp hm
    rw [erase]
    split_ifs with heq hk hk
    · subst hk
      exact get_eq_none_of_forall_ne fun e he hek => (hlt e he).ne (by rw [hek, heq])
    · rw [get, if_neg (by rwa [← heq])]
    · rw [get, ih hm, if_pos hk, if_neg (by rwa [hk])]
    · rw [get, ih hm, if_neg hk, get]

theorem get_filter (p : κ → Bool) (m : List (κ × ν)) (key : κ) :
    get (m.filter fun e => p e.1) key = if p key then get m key else none := by
  induction m with
  | nil => simp
  | cons e m ih =>
    obtain ⟨k, v⟩ := e
    rw [List.filter_cons]
    by_cases hkey : key = k
    · subst hkey
      by_cases hp : p key <;> simp [hp, get, ih]
    · by_cases hp : p k <;> simp [hp, get, ih, hkey]

/-- A map goes through a function value by value. -/
theorem get_map {μ : Type} (f : ν → μ) (m : List (κ × ν)) (key : κ) :
    get (m.map fun e => (e.1, f e.2)) key = (get m key).map f := by
  induction m with
  | nil => rfl
  | cons e m ih =>
    rw [List.map_cons, get, get]
    split_ifs
    · rfl
    · exact ih

theorem sorted_map {μ : Type} (f : ν → μ) {m : List (κ × ν)} (hm : Sorted (· < ·) m) :
    Sorted (· < ·) (m.map fun e => (e.1, f e.2)) :=
  List.pairwise_map.mpr hm

/-- A sorted map in two parts: the keys before `key`, and `key` with those behind it. -/
theorem exists_split {m : List (κ × ν)} (hm : Sorted (· < ·) m) (key : κ) :
    ∃ lo hi, m = lo ++ hi ∧ (∀ e ∈ lo, e.1 < key) ∧ ∀ e ∈ hi, key ≤ e.1 := by
  induction m with
  | nil => exact ⟨[], [], rfl, by simp, by simp⟩
  | cons e m ih =>
    obtain ⟨hlt, hm⟩ := List.pairwise_cons.mp hm
    by_cases he : e.1 < key
    · obtain ⟨lo, hi, rfl, hlo, hhi⟩ := ih hm
      refine ⟨e :: lo, hi, rfl, ?_, hhi⟩
      intro x hx
      rcases List.mem_cons.mp hx with rfl | hx
      · exact he
      · exact hlo x hx
    · refine ⟨[], e :: m, rfl, by simp, ?_⟩
      intro x hx
      rcases List.mem_cons.mp hx with rfl | hx
      · exact not_lt.mp he
      · exact (not_lt.mp he).trans (hlt x hx).le

section Split

variable {lo hi : List (κ × ν)} {key : κ}

theorem get_append (hlo : ∀ e ∈ lo, e.1 < key) : get (lo ++ hi) key = get hi key := by
  induction lo with
  | nil => rfl
  | cons e lo ih =>
    rw [List.cons_append, get, if_neg (hlo e (by simp)).ne']
    exact ih fun x hx => hlo x (List.mem_cons_of_mem _ hx)

theorem insert_append (hlo : ∀ e ∈ lo, e.1 < key) (value : ν) :
    insert (lo ++ hi) key value = lo ++ insert hi key value := by
  induction lo with
  | nil => rfl
  | cons e lo ih =>
    have he := hlo e (by simp)
    rw [List.cons_append, insert, if_neg he.asymm, if_neg he.ne',
      ih fun x hx => hlo x (List.mem_cons_of_mem _ hx)]
    rfl

theorem insert_of_forall_lt (hhi : ∀ e ∈ hi, key < e.1) (value : ν) :
    insert hi key value = (key, value) :: hi := by
  cases hi with
  | nil => rfl
  | cons e hi => rw [insert, if_pos (hhi e (by simp))]

theorem erase_append (hlo : ∀ e ∈ lo, e.1 < key) : erase (lo ++ hi) key = lo ++ erase hi key := by
  induction lo with
  | nil => rfl
  | cons e lo ih =>
    rw [List.cons_append, erase, if_neg (hlo e (by simp)).ne',
      ih fun x hx => hlo x (List.mem_cons_of_mem _ hx)]
    rfl

end Split

theorem contains_iff_mem_keys {m : List (κ × ν)} {key : κ} :
    contains m key = true ↔ key ∈ m.map Prod.fst := by
  induction m with
  | nil => simp [contains]
  | cons e m ih =>
    obtain ⟨k, v⟩ := e
    rw [contains] at ih
    by_cases hkey : key = k <;> simp [contains, get, hkey, ih]

/-- Goes through the remote entries in key order. A known key is merged in place by `f`, which
returns what it leaves behind and its answer; a new one is inserted. The first error ends the
loop, with the entries as they are by then. -/
def mergeMap (f : κ → ν → ν → ν × Except ε Bool) :
    List (κ × ν) → List (κ × ν) → Bool → List (κ × ν) × Except ε Bool
  | m, [], changed => (m, .ok changed)
  | m, (key, remote) :: rest, changed =>
    match get m key with
    | some v =>
      match f key v remote with
      | (v', .ok c) => mergeMap f (insert m key v') rest (changed || c)
      | (v', .error e) => (insert m key v', .error e)
    | none => mergeMap f (insert m key remote) rest true

/-- What a merge leaves under one key. -/
def mergeEntry (f : κ → ν → ν → ν × Except ε Bool) (key : κ) : Option ν → Option ν → Option ν
  | some v, some remote => some (f key v remote).1
  | some v, none => some v
  | none, remote => remote

/-- Every key that both maps have is merged without an error. -/
def MergesOk (f : κ → ν → ν → ν × Except ε Bool) (m remote : List (κ × ν)) : Prop :=
  ∀ key v r, get m key = some v → get remote key = some r → ∃ c, (f key v r).2 = .ok c

/-- Some entry of the remote map is new, or reports a change. -/
def MergeChanges (f : κ → ν → ν → ν × Except ε Bool) (m remote : List (κ × ν)) : Prop :=
  ∃ key r, get remote key = some r ∧ ∀ v, get m key = some v → (f key v r).2 = .ok true

variable {f : κ → ν → ν → ν × Except ε Bool}

theorem sorted_mergeMap {m : List (κ × ν)} (hm : Sorted (· < ·) m) (remote : List (κ × ν))
    (changed : Bool) : Sorted (· < ·) (mergeMap f m remote changed).1 := by
  induction remote generalizing m changed with
  | nil => exact hm
  | cons e rest ih =>
    obtain ⟨key, r⟩ := e
    rw [mergeMap]
    split
    · split
      · exact ih (sorted_insert hm _ _) _
      · exact sorted_insert hm _ _
    · exact ih (sorted_insert hm _ _) _

/-- Keys that the remote map does not have stay as they are, also when an error ends the loop. -/
theorem get_mergeMap_of_absent {remote : List (κ × ν)} {key : κ} (h : get remote key = none)
    (m : List (κ × ν)) (changed : Bool) :
    get (mergeMap f m remote changed).1 key = get m key := by
  induction remote generalizing m changed with
  | nil => rfl
  | cons e rest ih =>
    obtain ⟨k, r⟩ := e
    rw [get] at h
    split_ifs at h with hkey
    have hinsert : ∀ v, get (insert m k v) key = get m key := by
      intro v
      rw [get_insert, if_neg hkey]
    rw [mergeMap]
    split
    · split
      · rw [ih h, hinsert]
      · exact hinsert _
    · rw [ih h, hinsert]

/-- A part of the entries that each merge keeps or takes over where it is missing is kept or taken
over by the loop, also when an error ends it. -/
theorem mergeMap_part {α : Type} {part : ν → Option α}
    (hf : ∀ key v r, part (f key v r).1 = part v ∨ part v = none ∧ part (f key v r).1 = part r)
    {remote : List (κ × ν)} (hremote : Sorted (· < ·) remote) (m : List (κ × ν)) (changed : Bool)
    (key : κ) :
    (get (mergeMap f m remote changed).1 key).bind part = (get m key).bind part ∨
      (get m key).bind part = none ∧
        (get (mergeMap f m remote changed).1 key).bind part = (get remote key).bind part := by
  induction remote generalizing m changed with
  | nil => exact .inl rfl
  | cons e rest ih =>
    obtain ⟨k, r⟩ := e
    obtain ⟨hlt, hrest⟩ := List.pairwise_cons.mp hremote
    by_cases hkey : key = k
    · subst hkey
      have hnone : get rest key = none := get_eq_none_of_forall_ne fun e he => (hlt e he).ne'
      have hrest' : ∀ v c, get (mergeMap f (insert m key v) rest c).1 key = some v := by
        intro v c
        rw [get_mergeMap_of_absent hnone, get_insert, if_pos rfl]
      have hr : get ((key, r) :: rest) key = some r := by rw [get, if_pos rfl]
      rw [mergeMap, hr]
      cases hv : get m key with
      | none =>
        dsimp only
        rw [hrest']
        exact .inr ⟨rfl, rfl⟩
      | some v =>
        have hstep := hf key v r
        dsimp only
        rcases hfv : f key v r with ⟨v', e | c⟩
        · rw [hfv] at hstep
          dsimp only
          rw [get_insert, if_pos rfl]
          exact hstep
        · rw [hfv] at hstep
          dsimp only
          rw [hrest']
          exact hstep
    · have hinsert : ∀ v, get (insert m k v) key = get m key := by
        intro v
        rw [get_insert, if_neg hkey]
      have hr : get ((k, r) :: rest) key = get rest key := by rw [get, if_neg hkey]
      have hafter : ∀ v c, _ := fun v c => ih hrest (insert m k v) c
      simp only [hinsert] at hafter
      rw [mergeMap, hr]
      cases hv : get m k with
      | none => exact hafter r true
      | some v =>
        dsimp only
        rcases f k v r with ⟨v', e | c⟩
        · exact .inl (by rw [hinsert])
        · exact hafter v' _

/-- The answer so far is only passed on. -/
theorem mergeMap_flag (m remote : List (κ × ν)) (changed : Bool) :
    mergeMap f m remote changed =
      ((mergeMap f m remote false).1, (mergeMap f m remote false).2.map (changed || ·)) := by
  induction remote generalizing m changed with
  | nil => simp [mergeMap, Except.map]
  | cons e rest ih =>
    obtain ⟨key, r⟩ := e
    rw [mergeMap, mergeMap]
    cases get m key with
    | none =>
      dsimp only
      rw [ih _ true]
      cases (mergeMap f (insert m key r) rest false).2 <;> simp [Except.map]
    | some v =>
      dsimp only
      rcases f key v r with ⟨v', e | c⟩
      · rfl
      · dsimp only
        rw [ih _ (changed || c), ih _ (false || c)]
        cases (mergeMap f (insert m key v') rest false).2 <;> simp [Except.map, Bool.or_assoc]

/-- Without errors the loop goes through, and the result is known key by key. -/
theorem mergeMap_of_ok {remote : List (κ × ν)} (hremote : Sorted (· < ·) remote)
    (m : List (κ × ν)) (changed : Bool) (hok : MergesOk f m remote) :
    (∃ c, (mergeMap f m remote changed).2 = .ok c ∧
      (c = true ↔ changed = true ∨ MergeChanges f m remote)) ∧
    ∀ key, get (mergeMap f m remote changed).1 key =
      mergeEntry f key (get m key) (get remote key) := by
  induction remote generalizing m changed with
  | nil =>
    refine ⟨⟨changed, rfl, by simp [MergeChanges]⟩, ?_⟩
    intro key
    cases h : get m key <;> simp [mergeMap, mergeEntry, h]
  | cons e rest ih =>
    obtain ⟨key, r⟩ := e
    obtain ⟨hlt, hrest⟩ := List.pairwise_cons.mp hremote
    have hnone : get rest key = none := get_eq_none_of_forall_ne fun e he => (hlt e he).ne'
    -- the entries behind `key` are merged as they would be into `m`
    have hbehind : ∀ v k r', get rest k = some r' → get (insert m key v) k = get m k := by
      intro v k r' hk
      rw [get_insert, if_neg]
      rintro rfl
      rw [hnone] at hk
      cases hk
    have hkey : ∀ k r', get rest k = some r' → get ((key, r) :: rest) k = some r' := by
      intro k r' hk
      rw [get, if_neg, hk]
      rintro rfl
      rw [hnone] at hk
      cases hk
    have hok' : ∀ v, MergesOk f (insert m key v) rest := by
      intro v k v' r' hv' hr'
      rw [hbehind v k r' hr'] at hv'
      exact hok k v' r' hv' (hkey k r' hr')
    have hchanges : ∀ v, MergeChanges f m ((key, r) :: rest) ↔
        (∀ v, get m key = some v → (f key v r).2 = .ok true) ∨
          MergeChanges f (insert m key v) rest := by
      intro v
      constructor
      · rintro ⟨k, r', hr', hall⟩
        rw [get] at hr'
        split_ifs at hr' with hk
        · cases hr'
          exact Or.inl (hk ▸ hall)
        · exact Or.inr ⟨k, r', hr', by rwa [hbehind v k r' hr']⟩
      · rintro (hall | ⟨k, r', hr', hall⟩)
        · exact ⟨key, r, by rw [get, if_pos rfl], hall⟩
        · exact ⟨k, r', hkey k r' hr', by rwa [hbehind v k r' hr'] at hall⟩
    have hget : ∀ v, some v = mergeEntry f key (get m key) (some r) → ∀ changed k,
        get (mergeMap f (insert m key v) rest changed).1 k =
          mergeEntry f k (get m k) (get ((key, r) :: rest) k) := by
      intro v hv changed k
      rw [(ih hrest (insert m key v) changed (hok' v)).2, get_insert, get]
      by_cases hk : k = key
      · subst hk
        rw [if_pos rfl, if_pos rfl, hnone, ← hv]
        rfl
      · rw [if_neg hk, if_neg hk]
    rw [mergeMap]
    cases hm : get m key with
    | none =>
      obtain ⟨⟨c, hc, hiff⟩, -⟩ := ih hrest (insert m key r) true (hok' r)
      have hnew : MergeChanges f m ((key, r) :: rest) :=
        (hchanges r).mpr (Or.inl fun v hv => by rw [hm] at hv; cases hv)
      exact ⟨⟨c, hc, by simp [hiff, hnew]⟩, hget r (by rw [hm]; rfl) true⟩
    | some v =>
      obtain ⟨c, hc⟩ := hok key v r hm (by rw [get, if_pos rfl])
      have hf : f key v r = ((f key v r).1, .ok c) := by rw [← hc]
      dsimp only
      rw [hf]
      obtain ⟨⟨c', hc', hiff⟩, -⟩ := ih hrest (insert m key (f key v r).1) (changed || c) (hok' _)
      have hhere : (∀ v', get m key = some v' → (f key v' r).2 = .ok true) ↔ c = true := by
        rw [hm]
        simp [hc]
      refine ⟨⟨c', hc', ?_⟩, hget _ (by rw [hm]; rfl) _⟩
      rw [hiff, hchanges (f key v r).1, hhere, Bool.or_eq_true, or_assoc]

/-- A loop that goes through has met no error. -/
theorem mergesOk_of_mergeMap {remote : List (κ × ν)} (hremote : Sorted (· < ·) remote)
    (m : List (κ × ν)) (changed c : Bool) (h : (mergeMap f m remote changed).2 = .ok c) :
    MergesOk f m remote := by
  induction remote generalizing m changed with
  | nil => exact fun key v r _ hr => by cases hr
  | cons e rest ih =>
    obtain ⟨key, r⟩ := e
    obtain ⟨hlt, hrest⟩ := List.pairwise_cons.mp hremote
    have hnone : get rest key = none := get_eq_none_of_forall_ne fun e he => (hlt e he).ne'
    -- one entry in front of a loop that is known to have met no error
    have hcons : ∀ v, MergesOk f (insert m key v) rest →
        (∀ v', get m key = some v' → ∃ c, (f key v' r).2 = .ok c) →
        MergesOk f m ((key, r) :: rest) := by
      intro v hok hhere k v' r' hv' hr'
      rw [get] at hr'
      split_ifs at hr' with hk
      · cases hr'
        subst hk
        exact hhere v' hv'
      · exact hok k v' r' (by rwa [get_insert, if_neg hk]) hr'
    rw [mergeMap] at h
    cases hm : get m key with
    | none =>
      rw [hm] at h
      exact hcons r (ih hrest _ _ h) fun v hv => by rw [hm] at hv; cases hv
    | some v =>
      rw [hm] at h
      dsimp only at h
      cases hf : f key v r with
      | mk v' answer =>
        rw [hf] at h
        cases answer with
        | error e => cases h
        | ok d =>
          refine hcons v' (ih hrest _ _ h) ?_
          intro w hw
          rw [hm] at hw
          cases hw
          exact ⟨d, by rw [hf]⟩

/-- The same loop for entries that merge without errors. -/
def mergeTotal (f : ν → ν → ν × Bool) (m remote : List (κ × ν)) : List (κ × ν) × Bool :=
  match mergeMap (fun _ v r => ((f v r).1, (.ok (f v r).2 : Except Empty Bool))) m remote false with
  | (m', .ok changed) => (m', changed)

/-- Without errors the loop does not depend on their type. -/
theorem mergeTotal_eq (f : ν → ν → ν × Bool) (m remote : List (κ × ν)) :
    mergeMap (fun _ v r => ((f v r).1, (.ok (f v r).2 : Except ε Bool))) m remote false =
      ((mergeTotal f m remote).1, .ok (mergeTotal f m remote).2) := by
  have hloop : ∀ (remote m : List (κ × ν)) (changed : Bool), ∃ m' c,
      mergeMap (fun _ v r => ((f v r).1, (.ok (f v r).2 : Except ε Bool))) m remote changed =
        (m', .ok c) ∧
      mergeMap (fun _ v r => ((f v r).1, (.ok (f v r).2 : Except Empty Bool))) m remote changed =
        (m', .ok c) := by
    intro remote
    induction remote with
    | nil => exact fun m changed => ⟨m, changed, rfl, rfl⟩
    | cons e rest ih =>
      intro m changed
      rw [mergeMap, mergeMap]
      cases get m e.1 with
      | none => exact ih _ _
      | some v => exact ih _ _
  obtain ⟨m', c, h, h'⟩ := hloop remote m false
  rw [mergeTotal, h, h']

/-- The loop depends on `f` only at the entries that it merges. -/
theorem mergeMap_congr {f g : κ → ν → ν → ν × Except ε Bool} {remote : List (κ × ν)}
    (hremote : Sorted (· < ·) remote) (m : List (κ × ν)) (changed : Bool)
    (h : ∀ key v r, get m key = some v → get remote key = some r → f key v r = g key v r) :
    mergeMap f m remote changed = mergeMap g m remote changed := by
  induction remote generalizing m changed with
  | nil => rfl
  | cons e rest ih =>
    obtain ⟨key, r⟩ := e
    obtain ⟨hlt, hrest⟩ := List.pairwise_cons.mp hremote
    have hrest' : ∀ w changed, mergeMap f (insert m key w) rest changed =
        mergeMap g (insert m key w) rest changed := by
      intro w changed
      refine ih hrest _ _ ?_
      intro k v r' hv hr'
      have hne : k ≠ key := fun heq => (hlt _ (mem_of_get hr')).ne' heq
      rw [get_insert, if_neg hne] at hv
      exact h k v r' hv (by rw [get, if_neg hne, hr'])
    rw [mergeMap, mergeMap]
    cases hget : get m key with
    | none => exact hrest' r true
    | some v =>
      dsimp only
      rw [h key v r hget (by rw [get, if_pos rfl])]
      rcases g key v r with ⟨v', e | c⟩
      · rfl
      · exact hrest' v' _

theorem sorted_mergeTotal (f : ν → ν → ν × Bool) {m : List (κ × ν)} (hm : Sorted (· < ·) m)
    (remote : List (κ × ν)) : Sorted (· < ·) (mergeTotal f m remote).1 := by
  have h := sorted_mergeMap (f := fun _ v r => ((f v r).1, (Except.ok (f v r).2 : Except Empty Bool)))
    hm remote false
  rwa [mergeTotal_eq] at h

/-- What the loop leaves under one key. -/
def joinEntry (f : ν → ν → ν × Bool) : Option ν → Option ν → Option ν
  | some v, some remote => some (f v remote).1
  | some v, none => some v
  | none, remote => remote

theorem mergeTotal_spec (f : ν → ν → ν × Bool) {remote : List (κ × ν)}
    (hremote : Sorted (· < ·) remote) (m : List (κ × ν)) :
    (∀ key, get (mergeTotal f m remote).1 key = joinEntry f (get m key) (get remote key)) ∧
    ((mergeTotal f m remote).2 = true ↔
      ∃ key r, get remote key = some r ∧ ∀ v, get m key = some v → (f v r).2 = true) := by
  obtain ⟨⟨c, hc, hiff⟩, hget⟩ :=
    mergeMap_of_ok (f := fun _ v r => ((f v r).1, (Except.ok (f v r).2 : Except Empty Bool))) hremote m
      false (fun key v r _ _ => ⟨(f v r).2, rfl⟩)
  rw [mergeTotal_eq] at hc hget
  obtain rfl : (mergeTotal f m remote).2 = c := by simpa using hc
  refine ⟨?_, ?_⟩
  · intro key
    rw [hget]
    cases get m key <;> cases get remote key <;> rfl
  · rw [hiff]
    simp [MergeChanges]

theorem mergeTotal_nil (f : ν → ν → ν × Bool) {remote : List (κ × ν)}
    (hremote : Sorted (· < ·) remote) : (mergeTotal f [] remote).1 = remote := by
  refine ext (sorted_mergeTotal f List.Pairwise.nil remote) hremote ?_
  intro key
  rw [(mergeTotal_spec f hremote []).1]
  rfl

/-- Visits the entries of the given keys in turn; `g` gives the entry to write, if it changes. -/
def updateAll (g : κ → Option ν → Option ν) : List (κ × ν) → List κ → List (κ × ν) × Bool
  | m, [] => (m, false)
  | m, key :: keys =>
    match g key (get m key) with
    | some value => ((updateAll g (insert m key value) keys).1, true)
    | none => updateAll g m keys

/-- An entry that was just written needs no further change. -/
def Settles (g : κ → Option ν → Option ν) : Prop :=
  ∀ key v value, g key v = some value → g key (some value) = none

theorem sorted_updateAll (g : κ → Option ν → Option ν) {m : List (κ × ν)} (hm : Sorted (· < ·) m)
    (keys : List κ) : Sorted (· < ·) (updateAll g m keys).1 := by
  induction keys generalizing m with
  | nil => exact hm
  | cons key keys ih =>
    rw [updateAll]
    split
    · exact ih (sorted_insert hm _ _)
    · exact ih hm

theorem get_updateAll {g : κ → Option ν → Option ν} (hg : Settles g) (m : List (κ × ν))
    (keys : List κ) (key : κ) :
    get (updateAll g m keys).1 key =
      if key ∈ keys then (g key (get m key)).or (get m key) else get m key := by
  induction keys generalizing m with
  | nil => simp [updateAll]
  | cons k keys ih =>
    rw [updateAll]
    by_cases hk : key = k
    · subst hk
      rw [if_pos (by simp)]
      cases hv : g key (get m key) with
      | some value => simp [ih, get_insert, hg _ _ _ hv]
      | none => simp [ih, hv]
    · have hmem : key ∈ k :: keys ↔ key ∈ keys := by simp [hk]
      cases hv : g k (get m k) with
      | some value => simp only [ih, get_insert, if_neg hk, hmem]
      | none => simp only [ih, hmem]

theorem updateAll_changed {g : κ → Option ν → Option ν} (m : List (κ × ν)) (keys : List κ) :
    (updateAll g m keys).2 = true ↔ ∃ key ∈ keys, (g key (get m key)).isSome := by
  induction keys generalizing m with
  | nil => simp [updateAll]
  | cons k keys ih =>
    rw [updateAll]
    cases hv : g k (get m k) with
    | some value => simp [hv]
    | none => simp [hv, ih]

theorem updateAll_unchanged {g : κ → Option ν → Option ν} (m : List (κ × ν)) (keys : List κ)
    (h : (updateAll g m keys).2 = false) : (updateAll g m keys).1 = m := by
  induction keys generalizing m with
  | nil => rfl
  | cons k keys ih =>
    rw [updateAll] at h ⊢
    split at h
    · cases h
    · exact ih m h

/-- Removes the entries of the given keys; the answer is whether there was one. -/
def eraseAll : List (κ × ν) → List κ → List (κ × ν) × Bool
  | m, [] => (m, false)
  | m, key :: keys => ((eraseAll (erase m key) keys).1, contains m key || (eraseAll (erase m key) keys).2)

theorem sorted_eraseAll {m : List (κ × ν)} (hm : Sorted (· < ·) m) (keys : List κ) :
    Sorted (· < ·) (eraseAll m keys).1 := by
  induction keys generalizing m with
  | nil => exact hm
  | cons key keys ih => exact ih (sorted_erase hm key)

theorem get_eraseAll {m : List (κ × ν)} (hm : Sorted (· < ·) m) (keys : List κ) (key : κ) :
    get (eraseAll m keys).1 key = if key ∈ keys then none else get m key := by
  induction keys generalizing m with
  | nil => simp [eraseAll]
  | cons k keys ih =>
    rw [eraseAll, ih (sorted_erase hm k), get_erase hm]
    by_cases hk : key = k <;> simp [hk]

theorem eraseAll_changed {m : List (κ × ν)} (hm : Sorted (· < ·) m) (keys : List κ) :
    (eraseAll m keys).2 = true ↔ ∃ key ∈ keys, (get m key).isSome := by
  induction keys generalizing m with
  | nil => simp [eraseAll]
  | cons k keys ih =>
    rw [eraseAll, Bool.or_eq_true, ih (sorted_erase hm k)]
    constructor
    · rintro (h | ⟨key, hmem, h⟩)
      · exact ⟨k, by simp, h⟩
      · rw [get_erase hm] at h
        split_ifs at h
        · cases h
        · exact ⟨key, by simp [hmem], h⟩
    · rintro ⟨key, hmem, h⟩
      by_cases hk : key = k
      · exact Or.inl (hk ▸ h)
      · refine Or.inr ⟨key, (List.mem_cons.mp hmem).resolve_left hk, ?_⟩
        rwa [get_erase hm, if_neg hk]

theorem eraseAll_unchanged {m : List (κ × ν)} {keys : List κ}
    (hm : Sorted (· < ·) m) :
    (eraseAll m keys).2 = false ↔ ∀ key ∈ keys, get m key = none := by
  rw [← Bool.not_eq_true, eraseAll_changed hm]
  simp

theorem eraseAll_of_absent {m : List (κ × ν)} {keys : List κ}
    (h : ∀ key ∈ keys, get m key = none) : (eraseAll m keys).1 = m := by
  induction keys with
  | nil => rfl
  | cons key keys ih =>
    rw [eraseAll, erase_of_get_none (h key (by simp))]
    exact ih fun k hk => h k (List.mem_cons_of_mem _ hk)

end SortedMap

end ZenDB
