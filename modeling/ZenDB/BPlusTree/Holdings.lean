import ZenDB.BPlusTree.Placement

namespace ZenDB.BPlusTree

/-! The allocator over whole runs of calls. -/

/-- What was allocated and not given back. -/
inductive Holding where
  | page (p : Nat)
  | extent (start : Nat) (value : Bytes)

namespace Holding

def pages : Holding → Set Nat
  | page p => {p}
  | extent start value => {p | start ≤ p ∧ p < start+extentPages value.length}

def Stored (t : BPlusTree) : Holding → Prop
  | page _ => True
  | extent start value => t.readExtent start value.length = some value

def release (t : BPlusTree) : Holding → Option BPlusTree
  | page p => t.freePage p
  | extent start value => t.freeExtent start value.length

end Holding

/-- A leaf cell has 31 bits for the length that `free_extent` gets. Between the calls the system may
change which sizes it grants. -/
inductive AllocOp where
  | page
  | extent (value : {v : Bytes // v.length < 2^31})
  | release (i : Nat)
  | system (grants : Nat → Bool)

/-- What keeps a call from failing: the file may have to grow, but not for a release. -/
def AllocOp.HasRoom (t : BPlusTree) : AllocOp → Prop
  | page => t.Grows (t.metaPage.pages+1)
  | extent value => t.Grows (t.metaPage.pages+extentPages value.1.length)
  | release _ => True
  | system _ => True

def allocStep (s : BPlusTree × List Holding) : AllocOp → Option (BPlusTree × List Holding)
  | .page => do
    let (p, t) ← s.1.allocPage
    return (t, .page p :: s.2)
  | .extent value => do
    let (start, t) ← s.1.writeExtent value
    return (t, .extent start value :: s.2)
  | .release i =>
    match s.2[i]? with
    | none => some s
    | some x => (x.release s.1).map fun t => (t, s.2.eraseIdx i)
  | .system grants => some ({s.1 with grants := grants}, s.2)

def heldPages (held : List Holding) : Set Nat := {p | ∃ x ∈ held, p ∈ x.pages}

/-- Every page is on the freelist or in one holding, and the extents have their values. -/
structure Holds (t : BPlusTree) (held : List Holding) : Prop where
  allocates : ∃ free, Allocates t free (heldPages held)
  disjoint : held.Pairwise fun x y => ∀ p ∈ x.pages, p ∉ y.pages
  stored : ∀ x ∈ held, x.Stored t

variable {t t' : BPlusTree} {held held' : List Holding} {x : Holding} {ops : List AllocOp}
  {s s' : BPlusTree × List Holding} {config : Config} {grants : Nat → Bool}

theorem heldPages_cons : heldPages (x :: held) = heldPages held ∪ x.pages := by
  ext p
  simp [heldPages, or_comm]

theorem Holding.Stored.congr (h : x.Stored t) (hmem : ∀ p ∈ x.pages, t'.mem p = t.mem p)
    (hmapped : t.mapped ≤ t'.mapped) : x.Stored t' := by
  cases x with
  | page p => trivial
  | extent start value => exact readExtent_congr hmapped (fun p h₁ h₂ => hmem p ⟨h₁, h₂⟩) h

theorem Allocates.release {free : List Nat} {used : Set Nat} (h : Allocates t free used)
    (hx : x.pages ⊆ used) : ∃ t', x.release t = some t' ∧ Freed t used x.pages t' := by
  cases x with
  | page p => exact h.freePage (hx rfl)
  | extent start value => exact h.freeExtent fun p h₁ h₂ => hx ⟨h₁, h₂⟩

theorem Holds.take (h : Holds t held) (hfresh : ∀ p ∈ x.pages, p ∉ heldPages held)
    (halloc : ∃ free, Allocates t' free (heldPages held ∪ x.pages))
    (hmem : ∀ p ∈ heldPages held, t'.mem p = t.mem p) (hmapped : t.mapped ≤ t'.mapped)
    (hx : x.Stored t') : Holds t' (x :: held) := by
  refine ⟨heldPages_cons ▸ halloc, List.pairwise_cons.mpr ⟨fun y hy => ?_, h.disjoint⟩,
    List.forall_mem_cons.mpr ⟨hx, fun y hy => ?_⟩⟩
  · exact fun p hp hin => hfresh p hp ⟨y, hy, hin⟩
  · exact (h.stored y hy).congr (fun p hp => hmem p ⟨y, hy, hp⟩) hmapped

theorem Holds.give (h : Holds t (x :: held)) (hfreed : Freed t (heldPages (x :: held)) x.pages t') :
    Holds t' held := by
  obtain ⟨hx, hrest⟩ := List.pairwise_cons.mp h.disjoint
  have hout : ∀ p ∈ heldPages held, p ∉ x.pages := by
    rintro p ⟨y, hy, hp⟩ hin
    exact hx y hy p hin hp
  refine ⟨?_, hrest, fun y hy => ?_⟩
  · have halloc := hfreed.allocates
    rwa [heldPages_cons, Set.union_sdiff_right, (Set.disjoint_left.mpr hout).sdiff_eq_left] at halloc
  · exact (h.stored y (List.mem_cons_of_mem x hy)).congr
      (fun p hp => hfreed.mem p (hout p ⟨y, hy, hp⟩)) hfreed.mapped.ge

theorem Holds.perm (h : Holds t held) (hperm : held.Perm held') : Holds t held' := by
  have hpages : heldPages held = heldPages held' := by simp only [heldPages, hperm.mem_iff]
  exact ⟨hpages ▸ h.allocates, (hperm.pairwise_iff fun hd p hy hx => hd p hx hy).mp h.disjoint,
    fun y hy => h.stored y (hperm.mem_iff.mpr hy)⟩

theorem Holds.step (h : Holds s.1 s.2) (op : AllocOp) :
    Completes (op.HasRoom s.1) (allocStep s op) fun s' => Holds s'.1 s'.2 := by
  obtain ⟨free, halloc⟩ := h.allocates
  cases op with
  | page =>
    refine Completes.bind halloc.allocPage fun r hr => .some (h.take ?_ ?_ ?_ hr.mapped trivial)
    · rintro p rfl
      exact hr.fresh
    · rw [Holding.pages, Set.union_singleton]
      exact hr.allocates
    · exact fun p _ => congrFun hr.mem p
  | extent value =>
    refine Completes.bind (halloc.writeExtent value) fun r hr => .some ?_
    exact h.take (fun p hp => hr.1.fresh p hp.1 hp.2) hr.1.allocates hr.1.mem hr.1.mapped hr.2
  | release i =>
    rw [allocStep]
    cases hi : s.2[i]? with
    | none => exact .some h
    | some x =>
      obtain ⟨hlt, rfl⟩ := List.getElem?_eq_some_iff.mp hi
      have hfront := h.perm (List.getElem_cons_eraseIdx_perm hlt).symm
      obtain ⟨free', halloc'⟩ := hfront.allocates
      obtain ⟨t', ht', hfreed⟩ := halloc'.release fun p hp => ⟨_, List.mem_cons_self, hp⟩
      dsimp only
      rw [ht']
      exact .some (hfront.give hfreed)
  | system grants =>
    have hsame : ∀ x ∈ s.2, x.Stored {s.1 with grants := grants} := fun x hx =>
      (h.stored x hx).congr (fun _ _ => rfl) le_rfl
    exact .some ⟨⟨free, halloc.frame rfl rfl rfl halloc.mirrored rfl fun _ _ => rfl⟩, h.disjoint, hsame⟩

theorem Holds.run (h : Holds s.1 s.2) (hrun : ops.foldlM allocStep s = some s') :
    Holds s'.1 s'.2 := by
  induction ops generalizing s with
  | nil =>
    cases hrun
    exact h
  | cons op ops ih =>
    obtain ⟨s₁, hstep, hrest⟩ := Option.bind_eq_some_iff.mp hrun
    exact ih ((h.step op).post s₁ hstep) hrest

end ZenDB.BPlusTree
