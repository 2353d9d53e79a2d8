import ZenDB.Lib.SortedMap
import Mathlib.Data.List.Induction
import Mathlib.Data.List.Lex

namespace ZenDB.Forest

/-! Forests in which every node names the node it stands behind, and the walk that visits them
depth first, with later siblings in front. -/

variable {κ : Type}

section Walk

variable [LinearOrder κ]

/-- The walk below `after`: siblings that were visited are passed over, a node without an entry is
only marked. What is visited and what is listed so far are handed on; `none` stands for a recursion
that goes deeper than the given depth. -/
def walkVisible (children : Option κ → List κ) (shown : κ → Option Bool) :
    Nat → Option κ → List κ × List κ → Option (List κ × List κ)
  | 0, _, _ => none
  | depth+1, after, acc =>
    (children after).foldlM (fun acc id =>
      if id ∈ acc.1 then some acc
      else
        match shown id with
        | none => some (id :: acc.1, acc.2)
        | some live =>
          walkVisible children shown depth (some id)
            (id :: acc.1, if live then acc.2 ++ [id] else acc.2)) acc

variable {ν : Type}

/-- The nodes behind `after`, the later ones first. -/
def children (linkOf : ν → Option (Option κ)) (entries : List (κ × ν)) (after : Option κ) : List κ :=
  ((entries.filter fun e => linkOf e.2 = some after).map Prod.fst).insertionSort (· ≥ ·)

/-- The walk from the head. No chain of nodes is longer than the map, so its size bounds the depth. -/
def visibleIds (linkOf : ν → Option (Option κ)) (shows : κ → ν → Bool) (entries : List (κ × ν)) :
    Option (List κ) :=
  (walkVisible (children linkOf entries) (fun id => (SortedMap.get entries id).map (shows id))
    (entries.length+1) none ([], [])).map Prod.snd

end Walk

section Paths

variable {link link' : κ → Option (Option κ)} {p q : List κ} {id : κ}

/-- The links lead from the node to the head. -/
inductive Reachable (link : κ → Option (Option κ)) : κ → Prop
  | head {id : κ} (h : link id = some none) : Reachable link id
  | after {id a : κ} (h : link id = some (some a)) (ha : Reachable link a) : Reachable link id

/-- The nodes from the head on, each behind the one before it. -/
def IsPath (link : κ → Option (Option κ)) (p : List κ) : Prop :=
  ∀ q id, q ++ [id] <+: p → link id = some q.getLast?

theorem isPath_nil : IsPath link [] := by
  intro q id h
  simp at h

theorem IsPath.of_prefix (hp : IsPath link p) (hq : q <+: p) : IsPath link q :=
  fun r id h => hp r id (h.trans hq)

theorem isPath_concat : IsPath link (p ++ [id]) ↔ IsPath link p ∧ link id = some p.getLast? := by
  constructor
  · intro h
    exact ⟨h.of_prefix (List.prefix_append _ _), h p id List.prefix_rfl⟩
  · rintro ⟨hp, hid⟩ q x hq
    rcases List.prefix_concat_iff.mp hq with heq | hq
    · obtain ⟨rfl, hx⟩ := List.append_inj' heq rfl
      obtain rfl : x = id := by simpa using hx
      exact hid
    · exact hp q x hq

theorem reachable_iff : Reachable link id ↔ ∃ p, IsPath link (p ++ [id]) := by
  constructor
  · intro h
    induction h with
    | head h => exact ⟨[], isPath_concat.mpr ⟨isPath_nil, h⟩⟩
    | @after id a h _ ih =>
      obtain ⟨p, hp⟩ := ih
      exact ⟨p ++ [a], isPath_concat.mpr ⟨hp, by rw [h, List.getLast?_concat]⟩⟩
  · rintro ⟨p, hp⟩
    induction p using List.reverseRecOn generalizing id with
    | nil => exact .head (isPath_concat.mp hp).2
    | append_singleton p a ih =>
      obtain ⟨hpa, hid⟩ := isPath_concat.mp hp
      rw [List.getLast?_concat] at hid
      exact .after hid (ih hpa)

theorem Reachable.link_isSome (h : Reachable link id) : (link id).isSome := by
  cases h with
  | head h => simp [h]
  | after h _ => simp [h]

theorem isPath_mono (h : ∀ id a, link id = some a → link' id = some a) (hp : IsPath link p) :
    IsPath link' p :=
  fun q id hq => h id _ (hp q id hq)

/-- Two forests give a node the same place where both give it one. -/
def Agree (link link' : κ → Option (Option κ)) : Prop :=
  ∀ id a a', link id = some a → link' id = some a' → a = a'

theorem agree_refl : Agree link link := by
  intro id a a' h h'
  rw [h] at h'
  exact Option.some.inj h'

theorem agree_of_kept (h : ∀ id, link' id = link id ∨ link id = none) : Agree link link' := by
  intro id a a' ha ha'
  rcases h id with hsame | hnone
  · exact Option.some.inj (ha.symm.trans (hsame.symm.trans ha'))
  · rw [hnone] at ha
    cases ha

/-- A node that is reachable in both forests has the same path in both. -/
theorem Agree.path_eq (h : Agree link link') (hp : IsPath link (p ++ [id]))
    (hq : IsPath link' (q ++ [id])) : p = q := by
  induction p using List.reverseRecOn generalizing q id with
  | nil =>
    have hlast := h _ _ _ (isPath_concat.mp hp).2 (isPath_concat.mp hq).2
    exact (List.getLast?_eq_none_iff.mp hlast.symm).symm
  | append_singleton p a ih =>
    obtain ⟨hpa, hid⟩ := isPath_concat.mp hp
    obtain ⟨hq, hid'⟩ := isPath_concat.mp hq
    have hlast := h _ _ _ hid hid'
    rw [List.getLast?_concat] at hlast
    obtain ⟨q', rfl⟩ := List.getLast?_eq_some_iff.mp hlast.symm
    rw [ih hpa hq]

theorem IsPath.unique (hp : IsPath link (p ++ [id])) (hq : IsPath link (q ++ [id])) : p = q :=
  agree_refl.path_eq hp hq

theorem IsPath.nodup (hp : IsPath link p) : p.Nodup := by
  induction p using List.reverseRecOn with
  | nil => exact List.nodup_nil
  | append_singleton p id ih =>
    refine List.nodup_append.mpr ⟨ih (isPath_concat.mp hp).1, List.nodup_singleton _, ?_⟩
    rintro x hx y hy rfl
    obtain rfl : x = id := by simpa using hy
    -- a second occurrence would be the end of a shorter path to the same node
    obtain ⟨s, t, rfl⟩ := List.append_of_mem hx
    have hs : IsPath link (s ++ [x]) := hp.of_prefix ⟨t ++ [x], by simp⟩
    have heq : s = s ++ x :: t := hs.unique hp
    simpa using congrArg List.length heq

/-- Every node of a path has a link. -/
theorem IsPath.link_isSome (hp : IsPath link p) (hid : id ∈ p) : (link id).isSome := by
  obtain ⟨s, t, rfl⟩ := List.append_of_mem hid
  rw [hp s id ⟨t, by simp⟩]
  rfl

end Paths

section Order

variable [LinearOrder κ]
variable {link link' : κ → Option (Option κ)} {p q : List κ} {x y : κ}

/-- The order of paths: a node comes before what is behind it, and later siblings come first. -/
def Before (p q : List κ) : Prop := List.Lex (fun a b => b < a) p q

/-- Reachable nodes in the order of their paths. -/
def Precedes (link : κ → Option (Option κ)) (x y : κ) : Prop :=
  ∃ p q, IsPath link (p ++ [x]) ∧ IsPath link (q ++ [y]) ∧ Before (p ++ [x]) (q ++ [y])

theorem Before.irrefl (p : List κ) : ¬ Before p p := by
  induction p with
  | nil => rintro ⟨⟩
  | cons a p ih =>
    intro h
    cases h with
    | cons h => exact ih h
    | rel h => exact lt_irrefl a h

theorem Before.asymm (h : Before p q) : ¬ Before q p := by
  induction h with
  | nil => rintro ⟨⟩
  | cons _ ih =>
    intro h
    cases h with
    | cons h => exact ih h
    | rel h => exact lt_irrefl _ h
  | rel hlt =>
    intro h
    cases h with
    | cons h => exact lt_irrefl _ hlt
    | rel h => exact lt_asymm hlt h

theorem before_append (p : List κ) {q : List κ} (hq : q ≠ []) : Before p (p ++ q) := by
  obtain ⟨a, q, rfl⟩ := List.exists_cons_of_ne_nil hq
  have h : Before [] (a :: q) := .nil
  simpa [Before] using List.Lex.append_left _ h p

theorem before_sibling (p q q' : List κ) (h : y < x) : Before (p ++ x :: q) (p ++ y :: q') := by
  have hhead : Before (x :: q) (y :: q') := .rel h
  exact List.Lex.append_left _ hhead p

/-- A path that comes before another is the beginning of it, or everything behind the one comes
before everything behind the other. -/
theorem Before.prefix_or (h : Before p q) : p <+: q ∨ ∀ r r', Before (p ++ r) (q ++ r') := by
  induction h with
  | nil => exact .inl (List.nil_prefix)
  | @cons a p q h ih =>
    rcases ih with ih | ih
    · exact .inl (List.prefix_cons_inj a |>.mpr ih)
    · exact .inr fun r r' => .cons (ih r r')
  | rel h => exact .inr fun r r' => .rel h

theorem Precedes.irrefl (x : κ) : ¬ Precedes link x x := by
  rintro ⟨p, q, hp, hq, h⟩
  rw [hp.unique hq] at h
  exact h.irrefl

theorem Precedes.asymm (h : Precedes link x y) : ¬ Precedes link y x := by
  rintro ⟨q', p', hq', hp', h'⟩
  obtain ⟨p, q, hp, hq, h⟩ := h
  rw [hp.unique hp', hq.unique hq'] at h
  exact h.asymm h'

/-- The order of two nodes is the same in every forest that both are reachable in. -/
theorem Agree.precedes_iff (h : Agree link link') (hx : Reachable link x) (hy : Reachable link y)
    (hx' : Reachable link' x) (hy' : Reachable link' y) : Precedes link x y ↔ Precedes link' x y := by
  obtain ⟨p, hp⟩ := reachable_iff.mp hx
  obtain ⟨q, hq⟩ := reachable_iff.mp hy
  obtain ⟨p', hp'⟩ := reachable_iff.mp hx'
  obtain ⟨q', hq'⟩ := reachable_iff.mp hy'
  obtain rfl := h.path_eq hp hp'
  obtain rfl := h.path_eq hq hq'
  constructor
  · rintro ⟨r, s, hr, hs, hbefore⟩
    rw [hr.unique hp, hs.unique hq] at hbefore
    exact ⟨p, q, hp', hq', hbefore⟩
  · rintro ⟨r, s, hr, hs, hbefore⟩
    rw [hr.unique hp', hs.unique hq'] at hbefore
    exact ⟨p, q, hp, hq, hbefore⟩

end Order

section Listing

variable [LinearOrder κ]
variable {link link' : κ → Option (Option κ)} {live live' : κ → Bool} {ids ids' : List κ}

/-- The reachable nodes that are live, in the order of their paths. -/
structure Listing (link : κ → Option (Option κ)) (live : κ → Bool) (ids : List κ) : Prop where
  mem : ∀ id, id ∈ ids ↔ Reachable link id ∧ live id = true
  ordered : ids.Pairwise (Precedes link)

theorem nodup_of_precedes (h : ids.Pairwise (Precedes link)) : ids.Nodup := by
  refine List.Pairwise.imp ?_ h
  rintro x y hxy rfl
  exact hxy.irrefl

theorem Listing.nodup (h : Listing link live ids) : ids.Nodup := nodup_of_precedes h.ordered

/-- There is one listing. -/
theorem Listing.unique (h : Listing link live ids) (h' : Listing link live ids') : ids = ids' := by
  have hperm : ids.Perm ids' := by
    refine (List.perm_ext_iff_of_nodup h.nodup h'.nodup).mpr ?_
    intro id
    rw [h.mem, h'.mem]
  refine hperm.eq_of_pairwise ?_ h.ordered h'.ordered
  intro x y _ _ hxy hyx
  exact absurd hyx hxy.asymm

theorem Listing.filter (h : Listing link live ids) (keep : κ → Bool)
    (hlive : ∀ id, Reachable link id → (live' id = true ↔ live id = true ∧ keep id = true)) :
    Listing link live' (ids.filter keep) := by
  refine ⟨?_, h.ordered.filter keep⟩
  intro id
  rw [List.mem_filter, h.mem, and_assoc]
  exact and_congr_right fun hid => (hlive id hid).symm

/-- A listing is cut behind a node, or before all of them. -/
theorem Listing.split (h : Listing link (fun _ => true) ids) {after : Option κ}
    (hafter : ∀ a, after = some a → Reachable link a) :
    ∃ front back, ids = front ++ back ∧ front.getLast? = after := by
  cases after with
  | none => exact ⟨[], ids, rfl, rfl⟩
  | some a =>
    obtain ⟨s, t, hst⟩ := List.append_of_mem ((h.mem a).mpr ⟨hafter a rfl, rfl⟩)
    exact ⟨s ++ [a], t, by simp [hst], by simp⟩

omit [LinearOrder κ] in
theorem pair_sublist_iff {r : κ → κ → Prop} (hasymm : ∀ x y, r x y → ¬ r y x) (h : ids.Pairwise r)
    {x y : κ} (hx : x ∈ ids) (hy : y ∈ ids) : [x, y].Sublist ids ↔ r x y := by
  constructor
  · intro hsub
    simpa using h.sublist hsub
  · intro hxy
    obtain ⟨s, t, rfl⟩ := List.append_of_mem hx
    obtain ⟨-, -, hcross⟩ := List.pairwise_append.mp h
    rcases List.mem_append.mp hy with hs | ht
    · exact absurd (hcross y hs x List.mem_cons_self) (hasymm x y hxy)
    · rcases List.mem_cons.mp ht with rfl | ht
      · exact absurd hxy (hasymm y y hxy)
      · have htail : [x, y].Sublist (x :: t) := (List.singleton_sublist.mpr ht).cons_cons x
        exact htail.trans (List.sublist_append_right s _)

/-- Nodes that both lists have stand in the same order in both. -/
def SameOrder (ids ids' : List κ) : Prop :=
  ∀ x y, x ∈ ids → y ∈ ids → x ∈ ids' → y ∈ ids' → ([x, y].Sublist ids ↔ [x, y].Sublist ids')

theorem Listing.sameOrder (h : Listing link live ids) (h' : Listing link' live' ids')
    (hagree : Agree link link') : SameOrder ids ids' := by
  intro x y hx hy hx' hy'
  rw [pair_sublist_iff (fun _ _ => Precedes.asymm) h.ordered hx hy,
    pair_sublist_iff (fun _ _ => Precedes.asymm) h'.ordered hx' hy']
  exact hagree.precedes_iff ((h.mem x).mp hx).1 ((h.mem y).mp hy).1 ((h'.mem x).mp hx').1
    ((h'.mem y).mp hy').1

end Listing

section Preorder

variable [LinearOrder κ]
variable {link : κ → Option (Option κ)} {children : Option κ → List κ} {p : List κ} {id : κ}

/-- The index has the nodes behind each node, the later ones first. -/
structure Indexes (link : κ → Option (Option κ)) (children : Option κ → List κ) : Prop where
  mem : ∀ after id, id ∈ children after ↔ link id = some after
  descending : ∀ after, (children after).Pairwise (· > ·)

/-- The nodes below `after` down to a depth. -/
def preorder (children : Option κ → List κ) : Nat → Option κ → List κ
  | 0, _ => []
  | depth+1, after => (children after).flatMap fun id => id :: preorder children depth (some id)

theorem Indexes.isPath_child (h : Indexes link children) (hp : IsPath link p)
    (hid : id ∈ children p.getLast?) : IsPath link (p ++ [id]) :=
  isPath_concat.mpr ⟨hp, (h.mem _ _).mp hid⟩

theorem Indexes.mem_preorder (h : Indexes link children) (depth : Nat) (hp : IsPath link p) (id : κ) :
    id ∈ preorder children depth p.getLast? ↔
      ∃ q, q.length < depth ∧ IsPath link (p ++ q ++ [id]) := by
  induction depth generalizing p with
  | zero => simp [preorder]
  | succ depth ih =>
    have hbelow : ∀ k, IsPath link (p ++ [k]) → (id ∈ preorder children depth (some k) ↔
        ∃ q, q.length < depth ∧ IsPath link (p ++ [k] ++ q ++ [id])) := by
      intro k hk
      have hiff := ih hk
      rwa [List.getLast?_concat] at hiff
    rw [preorder, List.mem_flatMap]
    constructor
    · rintro ⟨k, hk, hid⟩
      have hpk := h.isPath_child hp hk
      rcases List.mem_cons.mp hid with rfl | hid
      · exact ⟨[], by simp, by simpa using hpk⟩
      · obtain ⟨q, hq, hpath⟩ := (hbelow k hpk).mp hid
        exact ⟨k :: q, by simpa using hq, by simpa using hpath⟩
    · rintro ⟨q, hq, hpath⟩
      cases q with
      | nil =>
        have hid : link id = some p.getLast? := by simpa using (isPath_concat.mp hpath).2
        exact ⟨id, (h.mem _ _).mpr hid, List.mem_cons_self⟩
      | cons k q =>
        have hpk : IsPath link (p ++ [k]) := hpath.of_prefix ⟨q ++ [id], by simp⟩
        refine ⟨k, (h.mem _ _).mpr (isPath_concat.mp hpk).2, List.mem_cons_of_mem _ ?_⟩
        exact (hbelow k hpk).mpr ⟨q, by simpa using hq, by simpa using hpath⟩

/-- A node of the branch at `k` has a path through `k`. -/
theorem Indexes.path_of_branch (h : Indexes link children) (depth : Nat) {k : κ}
    (hk : IsPath link (p ++ [k])) (hid : id ∈ k :: preorder children depth (some k)) :
    ∃ r q, IsPath link (r ++ [id]) ∧ r ++ [id] = p ++ k :: q := by
  rcases List.mem_cons.mp hid with rfl | hid
  · exact ⟨p, [], hk, rfl⟩
  · have hiff := h.mem_preorder depth hk id
    rw [List.getLast?_concat] at hiff
    obtain ⟨q, -, hpath⟩ := hiff.mp hid
    exact ⟨p ++ [k] ++ q, q ++ [id], hpath, by simp⟩

theorem Indexes.pairwise_preorder (h : Indexes link children) (depth : Nat) (hp : IsPath link p) :
    (preorder children depth p.getLast?).Pairwise (Precedes link) := by
  induction depth generalizing p with
  | zero => exact List.Pairwise.nil
  | succ depth ih =>
    rw [preorder, List.pairwise_flatMap]
    constructor
    · intro k hk
      have hpk := h.isPath_child hp hk
      have hbelow := ih hpk
      rw [List.getLast?_concat] at hbelow
      refine List.pairwise_cons.mpr ⟨?_, hbelow⟩
      intro y hy
      have hiff := h.mem_preorder depth hpk y
      rw [List.getLast?_concat] at hiff
      obtain ⟨q, -, hpath⟩ := hiff.mp hy
      refine ⟨p, p ++ [k] ++ q, hpk, hpath, ?_⟩
      rw [List.append_assoc (p ++ [k])]
      exact before_append _ (by simp)
    · refine List.Pairwise.imp_of_mem ?_ (h.descending p.getLast?)
      intro k k' hk hk' hlt x hx y hy
      obtain ⟨r, q, hr, hrq⟩ := h.path_of_branch depth (h.isPath_child hp hk) hx
      obtain ⟨r', q', hr', hrq'⟩ := h.path_of_branch depth (h.isPath_child hp hk') hy
      refine ⟨r, r', hr, hr', ?_⟩
      rw [hrq, hrq']
      exact before_sibling p q q' hlt

variable {shown : κ → Option Bool} {live : κ → Bool}

/-- The walk meets no node twice: it lists the live ones of the preorder, and marks all of them. -/
theorem Indexes.walkVisible_eq (h : Indexes link children)
    (hshown : ∀ id, (link id).isSome → shown id = some (live id)) {n : Nat}
    (hn : ∀ p, IsPath link p → p.length ≤ n) (depth : Nat) (hp : IsPath link p)
    (hdepth : n < depth+p.length) (acc : List κ × List κ)
    (hfresh : ∀ id ∈ preorder children depth p.getLast?, id ∉ acc.1) :
    ∃ visited,
      walkVisible children shown depth p.getLast? acc =
        some (visited, acc.2 ++ (preorder children depth p.getLast?).filter live) ∧
      ∀ id, id ∈ visited ↔ id ∈ acc.1 ∨ id ∈ preorder children depth p.getLast? := by
  induction depth generalizing p acc with
  | zero =>
    have hlength := hn p hp
    omega
  | succ depth ih =>
    have hnodup := nodup_of_precedes (h.pairwise_preorder (depth+1) hp)
    rw [preorder] at hfresh hnodup ⊢
    rw [walkVisible]
    have hpaths : ∀ k ∈ children p.getLast?, IsPath link (p ++ [k]) := fun k => h.isPath_child hp
    -- the loop over the siblings, with what is left of them
    generalize children p.getLast? = siblings at hfresh hnodup hpaths ⊢
    induction siblings generalizing acc with
    | nil => exact ⟨acc.1, by simp, by simp⟩
    | cons k siblings ihs =>
      rw [List.flatMap_cons] at hfresh hnodup ⊢
      obtain ⟨hbranch, hrest, hdisjoint⟩ := List.nodup_append.mp hnodup
      obtain ⟨hk, -⟩ := List.nodup_cons.mp hbranch
      have hpk := hpaths k List.mem_cons_self
      have hlive : shown k = some (live k) := hshown k (hpk.link_isSome (by simp))
      have hdeep : n < depth+(p ++ [k]).length := by
        rw [List.length_append, List.length_singleton]
        omega
      have hbelow := ih hpk hdeep (k :: acc.1, if live k then acc.2 ++ [k] else acc.2)
      rw [List.getLast?_concat] at hbelow
      obtain ⟨visited, hwalk, hvisited⟩ := hbelow fun id hid => by
        rw [List.mem_cons]
        rintro (rfl | hmem)
        · exact hk hid
        · exact hfresh id (by simp [hid]) hmem
      have hvisited' : ∀ id, id ∈ visited ↔ id ∈ acc.1 ∨ id ∈ k :: preorder children depth (some k) := by
        intro id
        rw [hvisited, List.mem_cons, List.mem_cons]
        tauto
      obtain ⟨visited', hwalk', hall⟩ := ihs
        (visited, acc.2 ++ (k :: preorder children depth (some k)).filter live)
        (fun id hid hmem => by
          rcases (hvisited' id).mp hmem with hmem | hmem
          · exact hfresh id (List.mem_append_right _ hid) hmem
          · exact hdisjoint id hmem id hid rfl)
        hrest (fun k' hk' => hpaths k' (List.mem_cons_of_mem _ hk'))
      refine ⟨visited', ?_, ?_⟩
      · rw [List.foldlM_cons, if_neg (hfresh k (by simp)), hlive]
        have hlisted : (if live k then acc.2 ++ [k] else acc.2) ++
            (preorder children depth (some k)).filter live =
              acc.2 ++ (k :: preorder children depth (some k)).filter live := by
          cases hl : live k <;> simp [hl]
        simp only [hwalk, hlisted, Option.bind_eq_bind, Option.bind_some]
        rw [hwalk', List.filter_append, List.append_assoc]
      · intro id
        rw [hall, hvisited', List.mem_append, or_assoc]

end Preorder

section Entries

variable [LinearOrder κ] {ν : Type} {linkOf : ν → Option (Option κ)} {shows : κ → ν → Bool}
variable {entries : List (κ × ν)}

/-- What the entry of a node says about its place. -/
def linkIn (linkOf : ν → Option (Option κ)) (entries : List (κ × ν)) (id : κ) : Option (Option κ) :=
  (SortedMap.get entries id).bind linkOf

/-- Whether the entry of a node says that it is shown. -/
def liveIn (shows : κ → ν → Bool) (entries : List (κ × ν)) (id : κ) : Bool :=
  (SortedMap.get entries id).any (shows id)

theorem exists_entry {id : κ} (h : (linkIn linkOf entries id).isSome) :
    ∃ v, SortedMap.get entries id = some v := by
  cases hget : SortedMap.get entries id with
  | none => simp [linkIn, hget] at h
  | some v => exact ⟨v, rfl⟩

theorem indexes_children (hm : Sorted (· < ·) entries) :
    Indexes (linkIn linkOf entries) (children linkOf entries) := by
  refine ⟨?_, ?_⟩
  · intro after id
    rw [children, List.mem_insertionSort, List.mem_map, linkIn, Option.bind_eq_some_iff]
    constructor
    · rintro ⟨⟨id, v⟩, he, rfl⟩
      obtain ⟨hmem, hlink⟩ := List.mem_filter.mp he
      exact ⟨v, SortedMap.get_of_mem hm hmem, of_decide_eq_true hlink⟩
    · rintro ⟨v, hget, hlink⟩
      exact ⟨(id, v), List.mem_filter.mpr ⟨SortedMap.mem_of_get hget, decide_eq_true hlink⟩, rfl⟩
  · intro after
    have hsorted := List.pairwise_insertionSort (· ≥ ·)
      ((entries.filter fun e => linkOf e.2 = some after).map Prod.fst)
    have hnodup : (children linkOf entries after).Nodup := by
      refine (List.perm_insertionSort _ _).nodup_iff.mpr ?_
      refine List.Pairwise.map _ ?_ (hm.filter _)
      intro a b hab
      exact hab.ne
    refine List.Pairwise.imp ?_ (hsorted.and hnodup)
    rintro x y ⟨hge, hne⟩
    exact lt_of_le_of_ne hge hne.symm

/-- A path has no more nodes than the map has entries. -/
theorem IsPath.length_le {p : List κ} (hp : IsPath (linkIn linkOf entries) p) :
    p.length ≤ entries.length := by
  have hsub : p ⊆ entries.map Prod.fst := by
    intro id hid
    obtain ⟨v, hget⟩ := exists_entry (hp.link_isSome hid)
    exact List.mem_map.mpr ⟨(id, v), SortedMap.mem_of_get hget, rfl⟩
  have hlength := (List.subperm_of_subset hp.nodup hsub).length_le
  rwa [List.length_map] at hlength

variable (linkOf shows) in
/-- The walk from the head goes through, and lists what is live and reachable. -/
theorem visibleIds_listing (hm : Sorted (· < ·) entries) :
    ∃ ids, visibleIds linkOf shows entries = some ids ∧
      Listing (linkIn linkOf entries) (liveIn shows entries) ids := by
  have hindex : Indexes (linkIn linkOf entries) (children linkOf entries) := indexes_children hm
  have hshown : ∀ id, (linkIn linkOf entries id).isSome →
      (SortedMap.get entries id).map (shows id) = some (liveIn shows entries id) := by
    intro id hid
    obtain ⟨v, hget⟩ := exists_entry hid
    rw [liveIn, hget]
    rfl
  obtain ⟨visited, hwalk, -⟩ := hindex.walkVisible_eq hshown (fun p hp => hp.length_le)
    (entries.length+1) isPath_nil (by simp) ([], []) (by simp)
  have hpre := hindex.pairwise_preorder (entries.length+1) isPath_nil
  have hmem := hindex.mem_preorder (entries.length+1) isPath_nil
  rw [List.getLast?_nil] at hwalk hpre hmem
  refine ⟨_, by rw [visibleIds, hwalk]; rfl, ?_, (hpre.filter _)⟩
  intro id
  rw [List.mem_filter, hmem, reachable_iff]
  refine and_congr_left fun _ => ⟨?_, ?_⟩
  · rintro ⟨q, -, hq⟩
    exact ⟨q, hq⟩
  · rintro ⟨q, hq⟩
    have hlength := hq.length_le
    rw [List.length_append, List.length_singleton] at hlength
    exact ⟨q, by omega, hq⟩

/-- Two walks go through, and list what both have in the same order. -/
def OrderKept (before after : Option (List κ)) : Prop :=
  ∃ ids ids', before = some ids ∧ after = some ids' ∧ SameOrder ids ids'

theorem orderKept_of_agree {entries' : List (κ × ν)} (hm : Sorted (· < ·) entries)
    (hm' : Sorted (· < ·) entries') (h : Agree (linkIn linkOf entries) (linkIn linkOf entries')) :
    OrderKept (visibleIds linkOf shows entries) (visibleIds linkOf shows entries') := by
  obtain ⟨ids, hids, hlist⟩ := visibleIds_listing linkOf shows hm
  obtain ⟨ids', hids', hlist'⟩ := visibleIds_listing linkOf shows hm'
  exact ⟨ids, ids', hids, hids', hlist.sameOrder hlist' h⟩

end Entries

section Graft

variable [LinearOrder κ]
variable {link link' : κ → Option (Option κ)} {anchor new before behind : List κ} {id : κ}

theorem IsPath.pairwise {p : List κ} (hp : IsPath link p) : p.Pairwise (Precedes link) := by
  induction p using List.reverseRecOn with
  | nil => exact List.Pairwise.nil
  | append_singleton p y ih =>
    refine List.pairwise_append.mpr ⟨ih (isPath_concat.mp hp).1, List.pairwise_singleton _ _, ?_⟩
    intro x hx z hz
    obtain rfl : z = y := by simpa using hz
    obtain ⟨s, t, rfl⟩ := List.append_of_mem hx
    refine ⟨s, s ++ x :: t, hp.of_prefix ⟨t ++ [z], by simp⟩, hp, ?_⟩
    have hsplit : s ++ x :: t ++ [z] = s ++ [x] ++ (t ++ [z]) := by simp
    rw [hsplit]
    exact before_append _ (by simp)

/-- A chain of new nodes is put behind the end of a path. No old node is as late as the new ones,
and none was placed behind them. -/
structure Grafted (link link' : κ → Option (Option κ)) (anchor new : List κ) : Prop where
  path : IsPath link anchor
  chain : IsPath link' (anchor ++ new)
  kept : ∀ id, id ∉ new → link' id = link id
  later : ∀ n ∈ new, ∀ id a, link id = some a → id < n ∧ a ≠ some n

theorem Grafted.link_eq (h : Grafted link link' anchor new) {a : Option κ} (hid : link id = some a) :
    link' id = some a := by
  have hnew : id ∉ new := fun hmem => lt_irrefl id (h.later id hmem id a hid).1
  rw [h.kept id hnew, hid]

theorem Grafted.isPath (h : Grafted link link' anchor new) {p : List κ} (hp : IsPath link p) :
    IsPath link' p :=
  isPath_mono (fun _ _ => h.link_eq) hp

theorem Grafted.precedes (h : Grafted link link' anchor new) {x y : κ} (hxy : Precedes link x y) :
    Precedes link' x y := by
  obtain ⟨p, q, hp, hq, hbefore⟩ := hxy
  exact ⟨p, q, h.isPath hp, h.isPath hq, hbefore⟩

theorem Grafted.path_new (h : Grafted link link' anchor new) (hid : id ∈ new) :
    ∃ s, (∀ x ∈ s ++ [id], x ∈ new) ∧ IsPath link' (anchor ++ s ++ [id]) := by
  obtain ⟨s, t, hst⟩ := List.append_of_mem hid
  refine ⟨s, ?_, h.chain.of_prefix ⟨t, by simp [hst]⟩⟩
  intro x hx
  rw [hst]
  rcases List.mem_append.mp hx with hx | hx
  · exact List.mem_append_left _ hx
  · obtain rfl : x = id := by simpa using hx
    simp

theorem Grafted.reachable_iff (h : Grafted link link' anchor new) :
    Reachable link' id ↔ Reachable link id ∨ id ∈ new := by
  constructor
  · intro hid
    induction hid with
    | @head id hlink =>
      by_cases hnew : id ∈ new
      · exact .inr hnew
      · exact .inl (.head (h.kept id hnew ▸ hlink))
    | @after id a hlink _ ih =>
      by_cases hnew : id ∈ new
      · exact .inr hnew
      · have hold : link id = some (some a) := h.kept id hnew ▸ hlink
        rcases ih with ih | ih
        · exact .inl (.after hold ih)
        · exact absurd rfl (h.later a ih id _ hold).2
  · rintro (hid | hid)
    · obtain ⟨p, hp⟩ := Forest.reachable_iff.mp hid
      exact Forest.reachable_iff.mpr ⟨p, h.isPath hp⟩
    · obtain ⟨s, -, hs⟩ := h.path_new hid
      exact Forest.reachable_iff.mpr ⟨anchor ++ s, hs⟩

/-- What comes before the new nodes: the anchor, and the nodes before it. -/
theorem Grafted.precedes_new (h : Grafted link link' anchor new) {x : κ}
    (hx : ∃ p, IsPath link (p ++ [x]) ∧ (p ++ [x] = anchor ∨ Before (p ++ [x]) anchor))
    (hid : id ∈ new) : Precedes link' x id := by
  obtain ⟨p, hp, hpos⟩ := hx
  obtain ⟨s, -, hs⟩ := h.path_new hid
  refine ⟨p, anchor ++ s, h.isPath hp, hs, ?_⟩
  rw [List.append_assoc]
  rcases hpos with heq | hbefore
  · rw [heq]
    exact before_append _ (by simp)
  · exact hbefore.append_right _ _

/-- What comes after the new nodes: the older ones behind the anchor, and what comes after those. -/
theorem Grafted.new_precedes (h : Grafted link link' anchor new) {y : κ} {q : List κ}
    (hq : IsPath link (q ++ [y])) (hpos : Before anchor (q ++ [y])) (hid : id ∈ new) :
    Precedes link' id y := by
  obtain ⟨s, hnew, hs⟩ := h.path_new hid
  refine ⟨anchor ++ s, q, hs, h.isPath hq, ?_⟩
  rw [List.append_assoc]
  rcases hpos.prefix_or with ⟨r, hr⟩ | hall
  · -- below the anchor: the first node of the branch is older than the first new one
    cases r with
    | nil =>
      rw [List.append_nil] at hr
      rw [hr] at hpos
      exact absurd hpos (Before.irrefl _)
    | cons k r =>
      have hk : link k = some anchor.getLast? := by
        rw [← hr] at hq
        exact hq anchor k ⟨r, by simp⟩
      obtain ⟨n, s', hns⟩ := List.exists_cons_of_ne_nil (List.concat_ne_nil id s)
      have hn : n ∈ new := hnew n (by simp [hns])
      rw [← hr, hns]
      exact before_sibling _ _ _ (h.later n hn k _ hk).1
  · simpa using hall (s ++ [id]) []

/-- The new nodes come right behind the anchor. -/
theorem Grafted.listing (h : Grafted link link' anchor new)
    (hlist : Listing link (fun _ => true) (before ++ behind))
    (hlast : before.getLast? = anchor.getLast?) :
    Listing link' (fun _ => true) (before ++ new ++ behind) := by
  obtain ⟨hbefore, hbehind, hcross⟩ := List.pairwise_append.mp hlist.ordered
  have hfront : ∀ x ∈ before,
      ∃ p, IsPath link (p ++ [x]) ∧ (p ++ [x] = anchor ∨ Before (p ++ [x]) anchor) := by
    intro x hx
    obtain ⟨a, ha⟩ : ∃ a, before.getLast? = some a :=
      Option.isSome_iff_exists.mp (List.getLast?_isSome.mpr (List.ne_nil_of_mem hx))
    obtain ⟨anchor', rfl⟩ := List.getLast?_eq_some_iff.mp (hlast.symm.trans ha)
    obtain ⟨before', rfl⟩ := List.getLast?_eq_some_iff.mp ha
    rcases List.mem_append.mp hx with hx | hx
    · obtain ⟨p, q, hp, hq, hpq⟩ := (List.pairwise_append.mp hbefore).2.2 x hx a (by simp)
      rw [hq.unique h.path] at hpq
      exact ⟨p, hp, .inr hpq⟩
    · obtain rfl : x = a := by simpa using hx
      exact ⟨anchor', h.path, .inl rfl⟩
  have hback : ∀ y ∈ behind, ∃ q, IsPath link (q ++ [y]) ∧ Before anchor (q ++ [y]) := by
    intro y hy
    cases ha : anchor.getLast? with
    | none =>
      rw [List.getLast?_eq_none_iff.mp ha]
      obtain ⟨q, hq⟩ := Forest.reachable_iff.mp ((hlist.mem y).mp (List.mem_append_right _ hy)).1
      exact ⟨q, hq, before_append [] (by simp)⟩
    | some a =>
      obtain ⟨p, q, hp, hq, hpq⟩ := hcross a (List.mem_of_getLast? (hlast.trans ha)) y hy
      obtain ⟨anchor', rfl⟩ := List.getLast?_eq_some_iff.mp ha
      rw [hp.unique h.path] at hpq
      exact ⟨q, hq, hpq⟩
  have hnew : new.Pairwise (Precedes link') := h.chain.pairwise.sublist (List.sublist_append_right _ _)
  refine ⟨?_, ?_⟩
  · intro id
    have hold := hlist.mem id
    rw [List.mem_append] at hold
    rw [h.reachable_iff, List.mem_append, List.mem_append]
    tauto
  · rw [List.append_assoc, List.pairwise_append, List.pairwise_append]
    refine ⟨hbefore.imp h.precedes, ⟨hnew, hbehind.imp h.precedes, ?_⟩, ?_⟩
    · intro n hn y hy
      obtain ⟨q, hq, hpos⟩ := hback y hy
      exact h.new_precedes hq hpos hn
    · intro x hx y hy
      rcases List.mem_append.mp hy with hy | hy
      · exact h.precedes_new (hfront x hx) hy
      · exact h.precedes (hcross x hx y hy)

/-- What is shown after a graft: the new nodes come between what was shown up to the anchor and the
rest of it. -/
theorem Grafted.shown_eq (h : Grafted link link' anchor new)
    (hlist : Listing link (fun _ => true) (before ++ behind))
    (hlast : before.getLast? = anchor.getLast?) {live live' : κ → Bool}
    (hold : ∀ id, (link id).isSome → live' id = live id) (hnew : ∀ id ∈ new, live' id = true)
    {ids : List κ} (hids : Listing link' live' ids) :
    ids = before.filter live ++ new ++ behind.filter live := by
  have hall : Listing link' live' ((before ++ new ++ behind).filter live') :=
    (h.listing hlist hlast).filter live' (by simp)
  have hsame : ∀ l : List κ, (∀ id ∈ l, id ∈ before ++ behind) → l.filter live' = l.filter live := by
    intro l hl
    refine List.filter_congr ?_
    intro id hid
    exact hold id ((hlist.mem id).mp (hl id hid)).1.link_isSome
  rw [hids.unique hall, List.filter_append, List.filter_append, List.filter_eq_self.mpr hnew,
    hsame before fun _ => List.mem_append_left _, hsame behind fun _ => List.mem_append_right _]

end Graft

section Edits

variable [LinearOrder κ] {ν : Type} {linkOf : ν → Option (Option κ)} {shows : κ → ν → Bool}
variable {entries entries' : List (κ × ν)} {after : Option κ}

/-- Everything that the walk meets, shown or not. -/
def reachableIds (linkOf : ν → Option (Option κ)) (entries : List (κ × ν)) : Option (List κ) :=
  visibleIds linkOf (fun _ _ => true) entries

variable (linkOf) in
theorem reachableIds_listing (hm : Sorted (· < ·) entries) :
    ∃ ids, reachableIds linkOf entries = some ids ∧
      Listing (linkIn linkOf entries) (fun _ => true) ids := by
  obtain ⟨ids, hids, hlist⟩ := visibleIds_listing linkOf (fun _ _ => true) hm
  refine ⟨ids, hids, ?_, hlist.ordered⟩
  intro id
  rw [hlist.mem]
  refine and_congr_right fun hid => ?_
  obtain ⟨v, hget⟩ := exists_entry hid.link_isSome
  simp [liveIn, hget]

/-- The entries of new nodes are written behind a reachable node or the head. -/
theorem visibleIds_grafted (hm : Sorted (· < ·) entries) (hm' : Sorted (· < ·) entries')
    (hafter : ∀ a, after = some a → Reachable (linkIn linkOf entries) a) {new : List κ}
    (hgraft : ∀ p, IsPath (linkIn linkOf entries) p → p.getLast? = after →
      Grafted (linkIn linkOf entries) (linkIn linkOf entries') p new)
    (hold : ∀ id, id ∉ new → liveIn shows entries' id = liveIn shows entries id)
    (hnew : ∀ id ∈ new, liveIn shows entries' id = true) :
    ∃ front back, reachableIds linkOf entries = some (front ++ back) ∧ front.getLast? = after ∧
      (∀ id ∈ front ++ back, id ∉ new) ∧
      visibleIds linkOf shows entries =
        some (front.filter (liveIn shows entries) ++ back.filter (liveIn shows entries)) ∧
      visibleIds linkOf shows entries' =
        some (front.filter (liveIn shows entries) ++ new ++ back.filter (liveIn shows entries)) := by
  obtain ⟨all, hall, hlist⟩ := reachableIds_listing linkOf hm
  obtain ⟨front, back, rfl, hlast⟩ := hlist.split hafter
  obtain ⟨p, hpath, hp⟩ : ∃ p, IsPath (linkIn linkOf entries) p ∧ p.getLast? = after := by
    cases after with
    | none => exact ⟨[], isPath_nil, rfl⟩
    | some a =>
      obtain ⟨p, hp⟩ := reachable_iff.mp (hafter a rfl)
      exact ⟨p ++ [a], hp, by simp⟩
  have h := hgraft p hpath hp
  have hfresh : ∀ id, (linkIn linkOf entries id).isSome → id ∉ new := by
    intro id hid hmem
    obtain ⟨a, ha⟩ := Option.isSome_iff_exists.mp hid
    exact lt_irrefl id (h.later id hmem id a ha).1
  obtain ⟨ids, hids, hshown⟩ := visibleIds_listing linkOf shows hm
  obtain ⟨ids', hids', hshown'⟩ := visibleIds_listing linkOf shows hm'
  refine ⟨front, back, hall, hlast, ?_, ?_, ?_⟩
  · exact fun id hid => hfresh id ((hlist.mem id).mp hid).1.link_isSome
  · have hfilter : Listing (linkIn linkOf entries) (liveIn shows entries)
        ((front ++ back).filter (liveIn shows entries)) := hlist.filter _ (by simp)
    rw [hids, hshown.unique hfilter, List.filter_append]
  · rw [hids', h.shown_eq hlist (hlast.trans hp.symm) (fun id hid => hold id (hfresh id hid)) hnew
      hshown']

/-- Nodes are hidden, and all of them stay in their places. -/
theorem visibleIds_hidden (hm : Sorted (· < ·) entries) (hm' : Sorted (· < ·) entries')
    (hlink : ∀ id, linkIn linkOf entries' id = linkIn linkOf entries id) (keep : κ → Bool)
    (hlive : ∀ id, (linkIn linkOf entries id).isSome →
      (liveIn shows entries' id = true ↔ liveIn shows entries id = true ∧ keep id = true)) :
    ∃ ids, visibleIds linkOf shows entries = some ids ∧
      visibleIds linkOf shows entries' = some (ids.filter keep) := by
  obtain ⟨ids, hids, hshown⟩ := visibleIds_listing linkOf shows hm
  obtain ⟨ids', hids', hshown'⟩ := visibleIds_listing linkOf shows hm'
  rw [funext hlink] at hshown'
  have hfilter : Listing (linkIn linkOf entries) (liveIn shows entries') (ids.filter keep) :=
    hshown.filter keep fun id hid => hlive id hid.link_isSome
  exact ⟨ids, hids, by rw [hids', hshown'.unique hfilter]⟩

end Edits

end ZenDB.Forest
