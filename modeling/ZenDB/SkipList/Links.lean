import ZenDB.Lib.Linked
import ZenDB.SkipList.Model

namespace ZenDB

namespace SkipList

variable {K V : Type}

/-! What the slots of the arena say, index by index. The front of the list is the index `none`:
its link at a level is the head, and its link backwards is the tail. -/

def linkAt (s : SkipList K V) (level : Nat) : Option Nat → Option Nat
  | some index => s.arena[index]?.bind fun node => node.next level
  | none => s.heads level

def backAt (s : SkipList K V) : Option Nat → Option Nat
  | some index => s.arena[index]?.bind fun node => node.prev
  | none => s.tail

def levelAt (s : SkipList K V) (index : Nat) : Nat :=
  (s.arena[index]?.map fun node => node.level).getD 0

/-- The row of a live node. -/
def rowAt (s : SkipList K V) (index : Nat) : Option (K × V) :=
  s.arena[index]?.bind fun node => node.value.map fun value => (node.key, value)

theorem rowAt_eq_some {s : SkipList K V} {index : Nat} {row : K × V}
    (h : s.rowAt index = some row) :
    ∃ node, s.arena[index]? = some node ∧ node.key = row.1 ∧ node.value = some row.2 := by
  rw [rowAt] at h
  obtain ⟨node, hnode, hvalue⟩ := Option.bind_eq_some_iff.mp h
  obtain ⟨value, hsome, rfl⟩ := Option.map_eq_some_iff.mp hvalue
  exact ⟨node, hnode, rfl, hsome⟩

/-- An index that the arena has; the front always is one. -/
def InArena (s : SkipList K V) : Option Nat → Prop
  | some index => index < s.arena.length
  | none => True

theorem node_eq {s : SkipList K V} {index : Nat} {node : Node K V}
    (h : s.arena[index]? = some node) : s.node index = .ok node := by
  rw [SkipList.node, h]

theorem follow_eq {s : SkipList K V} {previous : Option Nat} (h : s.InArena previous)
    (level : Nat) : s.follow level previous = .ok (s.linkAt level previous) := by
  cases previous with
  | none => rfl
  | some index =>
    have hnode : s.arena[index]? = some s.arena[index] := List.getElem?_eq_getElem h
    simp only [follow, node_eq hnode, linkAt, hnode]
    rfl

/-- Two states that differ only in their links. -/
structure Relinked (s s' : SkipList K V) : Prop where
  size : s'.arena.length = s.arena.length
  level : s'.levelAt = s.levelAt
  row : s'.rowAt = s.rowAt
  height : s'.height = s.height
  free : s'.free = s.free
  config : s'.config = s.config
  stats : s'.stats = s.stats

theorem Relinked.refl (s : SkipList K V) : Relinked s s := ⟨rfl, rfl, rfl, rfl, rfl, rfl, rfl⟩

theorem Relinked.trans {s s' s'' : SkipList K V} (h : Relinked s s') (h' : Relinked s' s'') :
    Relinked s s'' :=
  ⟨h'.size.trans h.size, h'.level.trans h.level, h'.row.trans h.row, h'.height.trans h.height,
    h'.free.trans h.free, h'.config.trans h.config, h'.stats.trans h.stats⟩

theorem inArena_of_length {s s' : SkipList K V} (h : s'.arena.length = s.arena.length)
    {index : Option Nat} (hindex : s.InArena index) : s'.InArena index := by
  cases index with
  | none => trivial
  | some index =>
    rw [InArena] at hindex ⊢
    rwa [h]

theorem modify_eq {s : SkipList K V} {index : Nat} (h : index < s.arena.length)
    (f : Node K V → Node K V) :
    s.modify index f = .ok { s with arena := s.arena.modify index f } := if_pos h

theorem relinked_modify (s : SkipList K V) (index : Nat) (f : Node K V → Node K V)
    (hf : ∀ node, (f node).key = node.key ∧ (f node).value = node.value ∧
      (f node).level = node.level) :
    Relinked s { s with arena := s.arena.modify index f } := by
  refine ⟨by simp, ?_, ?_, rfl, rfl, rfl, rfl⟩
  · funext i
    simp only [levelAt, List.getElem?_modify]
    cases s.arena[i]? with
    | none => rfl
    | some node => by_cases hi : index = i <;> simp [hi, (hf node).2.2]
  · funext i
    simp only [rowAt, List.getElem?_modify]
    cases s.arena[i]? with
    | none => rfl
    | some node => by_cases hi : index = i <;> simp [hi, (hf node).1, (hf node).2.1]

theorem setLink_spec {s : SkipList K V} {previous : Option Nat} (h : s.InArena previous)
    (level : Nat) (target : Option Nat) :
    ∃ s', s.setLink level previous target = .ok s' ∧ Relinked s s' ∧ s'.backAt = s.backAt ∧
      s'.linkAt =
        Function.update s.linkAt level (Function.update (s.linkAt level) previous target) := by
  cases previous with
  | none =>
    refine ⟨_, rfl, ⟨rfl, rfl, rfl, rfl, rfl, rfl, rfl⟩, rfl, ?_⟩
    funext l a
    by_cases hl : l = level
    · subst hl
      cases a <;> simp [linkAt]
    · rw [Function.update_of_ne hl]
      cases a <;> simp [linkAt, hl]
  | some index =>
    have hnode : s.arena[index]? = some s.arena[index] := List.getElem?_eq_getElem h
    refine ⟨_, modify_eq h _, relinked_modify s index _ fun _ => ⟨rfl, rfl, rfl⟩, ?_, ?_⟩
    · funext a
      cases a with
      | none => rfl
      | some i =>
        simp only [backAt, List.getElem?_modify]
        cases s.arena[i]? with
        | none => rfl
        | some node => by_cases hi : index = i <;> simp [hi]
    · funext l a
      by_cases hl : l = level
      · subst hl
        rw [Function.update_self]
        cases a with
        | none => rfl
        | some i =>
          by_cases hi : i = index
          · subst hi
            simp [linkAt, hnode]
          · rw [Function.update_of_ne (by simpa using hi)]
            simp [linkAt, Ne.symm hi]
      · rw [Function.update_of_ne hl]
        cases a with
        | none => rfl
        | some i =>
          simp only [linkAt, List.getElem?_modify]
          cases s.arena[i]? with
          | none => rfl
          | some node => by_cases hi : index = i <;> simp [hi, Function.update_of_ne hl]

theorem setBack_spec {s : SkipList K V} {next : Option Nat} (h : s.InArena next)
    (target : Option Nat) :
    ∃ s', s.setBack next target = .ok s' ∧ Relinked s s' ∧ s'.linkAt = s.linkAt ∧
      s'.backAt = Function.update s.backAt next target := by
  cases next with
  | none =>
    refine ⟨_, rfl, ⟨rfl, rfl, rfl, rfl, rfl, rfl, rfl⟩, rfl, ?_⟩
    funext a
    cases a <;> simp [backAt]
  | some index =>
    have hnode : s.arena[index]? = some s.arena[index] := List.getElem?_eq_getElem h
    refine ⟨_, modify_eq h _, relinked_modify s index _ fun _ => ⟨rfl, rfl, rfl⟩, ?_, ?_⟩
    · funext l a
      cases a with
      | none => rfl
      | some i =>
        simp only [linkAt, List.getElem?_modify]
        cases s.arena[i]? with
        | none => rfl
        | some node => by_cases hi : index = i <;> simp [hi]
    · funext a
      cases a with
      | none => rfl
      | some i =>
        by_cases hi : i = index
        · subst hi
          simp [backAt, hnode]
        · rw [Function.update_of_ne (by simpa using hi)]
          simp [backAt, Ne.symm hi]

/-- The links of one level with an element linked in behind `previous`. -/
def linkedIn (link : Option Nat → Option Nat) (previous : Option Nat) (index : Nat) :
    Option Nat → Option Nat :=
  Function.update (Function.update link (some index) (link previous)) previous (some index)

theorem linkLevel_spec {s : SkipList K V} {update : Links} {index level : Nat}
    (hindex : s.InArena (some index)) (hupdate : s.InArena (update level)) :
    ∃ s', s.linkLevel update index level = .ok s' ∧ Relinked s s' ∧ s'.backAt = s.backAt ∧
      s'.linkAt =
        Function.update s.linkAt level (linkedIn (s.linkAt level) (update level) index) := by
  obtain ⟨s₁, hset, hsame, hback, hlink⟩ :=
    setLink_spec hindex level (s.linkAt level (update level))
  obtain ⟨s₂, hset', hsame', hback', hlink'⟩ :=
    setLink_spec (inArena_of_length hsame.size hupdate) level (some index)
  refine ⟨s₂, ?_, hsame.trans hsame', hback'.trans hback, ?_⟩
  · simp only [linkLevel, follow_eq hupdate, bind, Except.bind, hset, hset']
  · rw [hlink', hlink, Function.update_self, Function.update_idem]
    rfl

theorem unlinkLevel_spec {s : SkipList K V} {update : Links} {index level : Nat}
    (hindex : s.InArena (some index)) (hupdate : s.InArena (update level)) :
    ∃ s', s.unlinkLevel update index level = .ok s' ∧ Relinked s s' ∧ s'.backAt = s.backAt ∧
      s'.linkAt = Function.update s.linkAt level
        (Function.update (s.linkAt level) (update level) (s.linkAt level (some index))) := by
  obtain ⟨s₁, hset, hsame, hback, hlink⟩ :=
    setLink_spec hupdate level (s.linkAt level (some index))
  refine ⟨s₁, ?_, hsame, hback, hlink⟩
  simp only [unlinkLevel, follow_eq hindex, bind, Except.bind, hset]

/-- Two states that differ only in the value of one node. -/
structure Revalued (s s' : SkipList K V) (index : Nat) : Prop where
  size : s'.arena.length = s.arena.length
  link : s'.linkAt = s.linkAt
  back : s'.backAt = s.backAt
  level : s'.levelAt = s.levelAt
  row : ∀ i, i ≠ index → s'.rowAt i = s.rowAt i
  height : s'.height = s.height
  free : s'.free = s.free
  config : s'.config = s.config
  stats : s'.stats = s.stats

theorem Revalued.refl (s : SkipList K V) (index : Nat) : Revalued s s index :=
  ⟨rfl, rfl, rfl, rfl, fun _ _ => rfl, rfl, rfl, rfl, rfl⟩

theorem Revalued.trans {s s' s'' : SkipList K V} {index : Nat} (h : Revalued s s' index)
    (h' : Revalued s' s'' index) : Revalued s s'' index :=
  ⟨h'.size.trans h.size, h'.link.trans h.link, h'.back.trans h.back, h'.level.trans h.level,
    fun i hi => (h'.row i hi).trans (h.row i hi), h'.height.trans h.height,
    h'.free.trans h.free, h'.config.trans h.config, h'.stats.trans h.stats⟩

theorem setValue_spec {s : SkipList K V} {index : Nat} {node : Node K V}
    (hnode : s.arena[index]? = some node) (value : Option V) :
    ∃ s', s.setValue index value = .ok s' ∧ Revalued s s' index ∧
      s'.arena[index]? = some { node with value } := by
  have hlt : index < s.arena.length := (List.getElem?_eq_some_iff.mp hnode).1
  refine ⟨_, modify_eq hlt _, ⟨by simp, ?_, ?_, ?_, ?_, rfl, rfl, rfl, rfl⟩, by simp [hnode]⟩
  · funext level a
    cases a with
    | none => rfl
    | some i =>
      simp only [linkAt, List.getElem?_modify]
      cases s.arena[i]? with
      | none => rfl
      | some node => by_cases hi : index = i <;> simp [hi]
  · funext a
    cases a with
    | none => rfl
    | some i =>
      simp only [backAt, List.getElem?_modify]
      cases s.arena[i]? with
      | none => rfl
      | some node => by_cases hi : index = i <;> simp [hi]
  · funext i
    simp only [levelAt, List.getElem?_modify]
    cases s.arena[i]? with
    | none => rfl
    | some node => by_cases hi : index = i <;> simp [hi]
  · intro i hi
    simp [rowAt, Ne.symm hi]

section Clear

variable (s : SkipList K V) (index : Nat)

theorem linkAt_cleared (level : Nat) :
    linkAt { s with arena := s.arena.modify index cleared } level =
      Function.update (s.linkAt level) (some index) none := by
  funext a
  cases a with
  | none => rfl
  | some i =>
    by_cases hi : i = index
    · subst hi
      cases hnode : s.arena[i]? <;> simp [linkAt, hnode, cleared, noLinks]
    · rw [Function.update_of_ne (by simpa using hi)]
      simp [linkAt, Ne.symm hi]

theorem backAt_cleared :
    backAt { s with arena := s.arena.modify index cleared } =
      Function.update s.backAt (some index) none := by
  funext a
  cases a with
  | none => rfl
  | some i =>
    by_cases hi : i = index
    · subst hi
      cases hnode : s.arena[i]? <;> simp [backAt, hnode, cleared]
    · rw [Function.update_of_ne (by simpa using hi)]
      simp [backAt, Ne.symm hi]

theorem levelAt_cleared :
    levelAt { s with arena := s.arena.modify index cleared } = s.levelAt := by
  funext i
  simp only [levelAt, List.getElem?_modify]
  cases s.arena[i]? with
  | none => rfl
  | some node => by_cases hi : index = i <;> simp [hi, cleared]

theorem rowAt_cleared {i : Nat} (hi : i ≠ index) :
    rowAt { s with arena := s.arena.modify index cleared } i = s.rowAt i := by
  simp [rowAt, Ne.symm hi]

end Clear

/-- A loop over the levels whose body rewrites the links of its own level. -/
theorem foldlM_levels {f : SkipList K V → Nat → Except Fault (SkipList K V)} {size : Nat}
    {g : Nat → (Option Nat → Option Nat) → Option Nat → Option Nat}
    (hf : ∀ s level, s.arena.length = size → ∃ s', f s level = .ok s' ∧ Relinked s s' ∧
      s'.backAt = s.backAt ∧ s'.linkAt = Function.update s.linkAt level (g level (s.linkAt level)))
    (s : SkipList K V) (hs : s.arena.length = size) (n : Nat) :
    ∃ s', (List.range n).foldlM f s = .ok s' ∧ Relinked s s' ∧ s'.backAt = s.backAt ∧
      ∀ level, s'.linkAt level =
        if level < n then g level (s.linkAt level) else s.linkAt level := by
  induction n with
  | zero => exact ⟨s, rfl, Relinked.refl s, rfl, fun level => rfl⟩
  | succ n ih =>
    obtain ⟨s₁, hrun, hsame, hback, hlink⟩ := ih
    obtain ⟨s₂, hstep, hsame', hback', hlink'⟩ := hf s₁ n (hsame.size.trans hs)
    refine ⟨s₂, ?_, hsame.trans hsame', hback'.trans hback, ?_⟩
    · rw [List.range_succ, List.foldlM_append, hrun]
      simp only [List.foldlM_cons, List.foldlM_nil]
      exact (congrArg (· >>= pure) hstep).trans rfl
    · intro level
      rw [hlink']
      by_cases hlevel : level = n
      · subst hlevel
        rw [Function.update_self, hlink, if_neg (by omega), if_pos (by omega)]
      · rw [Function.update_of_ne hlevel, hlink]
        by_cases hlt : level < n
        · rw [if_pos hlt, if_pos (by omega)]
        · rw [if_neg hlt, if_neg (by omega)]

theorem linkLevels_spec {s : SkipList K V} {update : Links} {index : Nat}
    (hindex : s.InArena (some index)) (hupdate : ∀ level, s.InArena (update level)) (n : Nat) :
    ∃ s', (List.range n).foldlM (fun s level => s.linkLevel update index level) s = .ok s' ∧
      Relinked s s' ∧ s'.backAt = s.backAt ∧ ∀ level, s'.linkAt level =
        if level < n then linkedIn (s.linkAt level) (update level) index else s.linkAt level := by
  refine foldlM_levels (g := fun level link => linkedIn link (update level) index) ?_ s rfl n
  intro t level ht
  exact linkLevel_spec (inArena_of_length ht hindex) (inArena_of_length ht (hupdate level))

theorem unlinkLevels_spec {s : SkipList K V} {update : Links} {index : Nat}
    (hindex : s.InArena (some index)) (hupdate : ∀ level, s.InArena (update level)) (n : Nat) :
    ∃ s', (List.range n).foldlM (fun s level => s.unlinkLevel update index level) s = .ok s' ∧
      Relinked s s' ∧ s'.backAt = s.backAt ∧ ∀ level, s'.linkAt level =
        if level < n then
          Function.update (s.linkAt level) (update level) (s.linkAt level (some index))
        else s.linkAt level := by
  refine foldlM_levels
    (g := fun level link => Function.update link (update level) (link (some index))) ?_ s rfl n
  intro t level ht
  exact unlinkLevel_spec (inArena_of_length ht hindex) (inArena_of_length ht (hupdate level))

end SkipList

end ZenDB
