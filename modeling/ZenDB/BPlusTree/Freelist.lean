import ZenDB.BPlusTree.Writes
import Mathlib.Data.List.Perm.Subperm

namespace ZenDB

open Memory Slotted

namespace BPlusTree

/-! The freelist, and the runs of consecutive pages that are taken from it. -/

/-- The links from `head` go through the pages of the list and end with 0. -/
def FreeChain (mem : Nat → Page) : Nat → List Nat → Prop
  | head, [] => head = 0
  | head, p :: rest => head = p ∧ p ≠ 0 ∧ FreeChain mem (freeLink (mem p)) rest

/-- The pages of the freelist are different, and as many as the counter says. -/
structure Freelist (t : BPlusTree) (free : List Nat) : Prop where
  chain : FreeChain t.mem t.metaPage.freeHead free
  nodup : free.Nodup
  range : ∀ p ∈ free, 0 < p ∧ p < t.metaPage.pages
  counted : t.stats.freePages = free.length
  pagesLe : t.metaPage.pages ≤ t.mapped
  mappedLt : t.mapped < 2^51

variable {t t' : BPlusTree} {free : List Nat}

theorem FreeChain.congr {mem mem' : Nat → Page} {head : Nat} (h : FreeChain mem head free)
    (hmem : ∀ p ∈ free, mem' p = mem p) : FreeChain mem' head free := by
  induction free generalizing head with
  | nil => exact h
  | cons p rest ih =>
    obtain ⟨hhead, hne, hrest⟩ := h
    refine ⟨hhead, hne, ?_⟩
    rw [hmem p (by simp)]
    exact ih hrest fun q hq => hmem q (List.mem_cons_of_mem _ hq)

theorem pageBytes_eq {p : Nat} (h : p < t.mapped) : t.pageBytes p = some (t.mem p) := if_pos h

theorem modifyPage_eq {p : Nat} (h : p < t.mapped) {f : Page → Option Page} {pg : Page}
    (hf : f (t.mem p) = some pg) : t.modifyPage p f = some (t.setPage p pg) := by
  rw [modifyPage, pageBytes_eq h]
  simp [hf]

theorem modifyPage_some {p : Nat} (h : p < t.mapped) (f : Page → Page) :
    (t.modifyPage p fun pg => some (f pg)) = some (t.setPage p (f (t.mem p))) :=
  modifyPage_eq h rfl

@[simp] theorem setPage_mem_self (t : BPlusTree) (p : Nat) (pg : Page) : (t.setPage p pg).mem p = pg := by
  simp [setPage]

theorem setPage_mem_of_ne {p q : Nat} {pg : Page} (h : q ≠ p) : (t.setPage p pg).mem q = t.mem q := by
  simp [setPage, h]

@[simp] theorem setPage_metaPage (t : BPlusTree) (p : Nat) (pg : Page) :
    (t.setPage p pg).metaPage = t.metaPage := rfl

theorem freeLink_setFreeLink {pg : Page} {p : Nat} (h : p < 2^64) : freeLink (setFreeLink pg p) = p :=
  leNat_read_write pg 0 8 p h

/-- The link behind the pages of a list. -/
def linkAfter (mem : Nat → Page) : Nat → List Nat → Nat
  | head, [] => head
  | _, p :: rest => linkAfter mem (freeLink (mem p)) rest

theorem FreeChain.drop {mem : Nat → Page} {head : Nat} (pre : List Nat) {rest : List Nat}
    (h : FreeChain mem head (pre ++ rest)) : FreeChain mem (linkAfter mem head pre) rest := by
  induction pre generalizing head with
  | nil => exact h
  | cons p pre ih => exact ih h.2.2

theorem linkAfter_append (mem : Nat → Page) (head : Nat) (pre rest : List Nat) :
    linkAfter mem head (pre ++ rest) = linkAfter mem (linkAfter mem head pre) rest := by
  induction pre generalizing head with
  | nil => rfl
  | cons p pre ih => exact ih _

/-- The pages `last-1, last-2, …` of a descending run. -/
def descending : Nat → Nat → List Nat
  | 0, _ => []
  | k+1, last => (last-1) :: descending k (last-1)

theorem mem_descending {k last p : Nat} (h : k ≤ last) :
    p ∈ descending k last ↔ last-k ≤ p ∧ p < last := by
  induction k generalizing last with
  | zero =>
    simp [descending]
  | succ k ih =>
    rw [descending, List.mem_cons, ih (by omega)]
    omega

theorem descending_add (a b last : Nat) :
    descending (a+b) last = descending a last ++ descending b (last-a) := by
  induction a generalizing last with
  | zero => rw [Nat.zero_add, Nat.sub_zero, descending, List.nil_append]
  | succ a ih =>
    rw [Nat.succ_add, descending, descending, ih, List.cons_append, Nat.sub_sub, Nat.add_comm 1 a]

theorem length_descending (k last : Nat) : (descending k last).length = k := by
  induction k generalizing last with
  | zero => rfl
  | succ k ih => rw [descending, List.length_cons, ih]

/-- The search for a run follows the list while the page numbers go down by one. -/
theorem extendRun_eq {n last : Nat} (runLen : Nat) {rest : List Nat}
    (hchain : FreeChain t.mem (freeLink (t.mem last)) rest) (hlast : 0 < last ∧ last < t.mapped)
    (hrest : ∀ p ∈ rest, 0 < p ∧ p < t.mapped) :
    ∃ k post, k ≤ n ∧ k < last ∧ rest = descending k last ++ post ∧
      (k = n ∨ post.head? ≠ some (last-k-1)) ∧ t.extendRun n last runLen = some (last-k, runLen+k) := by
  induction n generalizing last runLen rest with
  | zero => exact ⟨0, rest, le_rfl, hlast.1, rfl, Or.inl rfl, rfl⟩
  | succ n ih =>
    rw [extendRun, pageBytes_eq hlast.2]
    simp only [Option.bind_eq_bind, Option.bind_some]
    cases rest with
    | nil =>
      have hnil : freeLink (t.mem last) = 0 := hchain
      rw [if_pos (Or.inl hnil)]
      exact ⟨0, [], Nat.zero_le _, hlast.1, rfl, Or.inr (by simp), rfl⟩
    | cons p rest =>
      obtain ⟨hp, hpnz, hchain⟩ := hchain
      have hprange := hrest p (by simp)
      rw [hp]
      split_ifs with hstop
      · have hdown := hstop.resolve_left hpnz
        refine ⟨0, p :: rest, Nat.zero_le _, hlast.1, rfl, Or.inr ?_, rfl⟩
        rw [List.head?_cons, ne_eq, Option.some.injEq]
        omega
      · obtain ⟨-, hdown⟩ := not_or.mp hstop
        have hplast : p = last-1 := by omega
        obtain ⟨k, post, hk, hklt, hlist, hmax, hrun⟩ :=
          ih (runLen+1) hchain hprange fun q hq => hrest q (List.mem_cons_of_mem _ hq)
        have hsub : p-k = last-(k+1) := by omega
        rw [hsub] at hmax hrun
        refine ⟨k+1, post, by omega, by omega, ?_, hmax.imp_left (congrArg Nat.succ), ?_⟩
        · rw [descending, ← hplast, List.cons_append, ← hlist]
        · rw [hrun, Nat.add_assoc, Nat.add_comm 1 k]

/-- Unlinking a run in the middle of the list. -/
theorem FreeChain.unlink {mem : Nat → Page} {head p after : Nat} {pre run post : List Nat}
    (h : FreeChain mem head (pre ++ run ++ post)) (hnodup : (pre ++ run ++ post).Nodup)
    (hlast : pre.getLast? = some p) (hafter : linkAfter mem head (pre ++ run) = after)
    (hlt : after < 2^64) :
    FreeChain (Function.update mem p (setFreeLink (mem p) after)) head (pre ++ post) := by
  induction pre generalizing head with
  | nil => cases hlast
  | cons q pre ih =>
    obtain ⟨hhead, hne, hchain⟩ := h
    obtain ⟨hq, hnodup⟩ := List.nodup_cons.mp hnodup
    refine ⟨hhead, hne, ?_⟩
    cases pre with
    | nil =>
      obtain rfl : q = p := by simpa using hlast
      have hpost : q ∉ post := fun hin => hq (by simp [hin])
      have hrest := hchain.drop run
      rw [Function.update_self, freeLink_setFreeLink hlt, ← hafter]
      exact hrest.congr fun r hr => by
        have hne : r ≠ q := fun heq => hpost (heq ▸ hr)
        rw [Function.update_of_ne hne]
    | cons r pre =>
      have hlast' : (r :: pre).getLast? = some p := by simpa using hlast
      have hqp : q ≠ p := by
        intro heq
        have hin : p ∈ r :: pre := List.mem_of_getLast? hlast'
        rw [heq] at hq
        exact hq (List.mem_append_left _ (List.mem_append_left _ hin))
      rw [Function.update_of_ne hqp]
      exact ih hchain hnodup hlast' hafter

theorem linkAfter_concat (mem : Nat → Page) (head : Nat) (pages : List Nat) (p : Nat) :
    linkAfter mem head (pages ++ [p]) = freeLink (mem p) := by
  rw [linkAfter_append]
  rfl

/-- Somewhere in the list `n` page numbers in a row go down by one. -/
def HasRun (n : Nat) (free : List Nat) : Prop :=
  ∃ pre start post, free = pre ++ descending n (start+n) ++ post

/-- The first of these places; the numbers go down to `start`. -/
structure FirstRun (n : Nat) (free pre : List Nat) (start : Nat) (post : List Nat) : Prop where
  split : free = pre ++ descending n (start+n) ++ post
  first : ∀ pre' start' post', free = pre' ++ descending n (start'+n) ++ post' → pre.length ≤ pre'.length

/-- The run is no longer in the list. The pages are as before, but for the link of the one that was
before the run, and the meta page but for the head of the list and the counter. -/
structure RunTaken (t : BPlusTree) (pre : List Nat) (n : Nat) (post : List Nat) (t' : BPlusTree) :
    Prop where
  freelist : Freelist t' (pre ++ post)
  mem : ∀ p, pre.getLast? ≠ some p → t'.mem p = t.mem p
  content : ∀ p k, 8 ≤ k → t'.mem p k = t.mem p k
  metaPage : ∃ head, t'.metaPage = {t.metaPage with freeHead := head, freePages := t.stats.freePages-n}
  stats : t'.stats = {t.stats with freePages := t.stats.freePages-n}
  mapped : t'.mapped = t.mapped
  config : t'.config = t.config
  grants : t'.grants = t.grants

section Runs

variable {pre post : List Nat} {start n : Nat}

theorem descending_concat (hn : 0 < n) (start : Nat) :
    descending n (start+n) = descending (n-1) (start+n) ++ [start] := by
  obtain ⟨m, rfl⟩ : ∃ m, n = m+1 := ⟨n-1, by omega⟩
  rw [descending_add, Nat.add_sub_cancel]
  congr 1
  rw [show start+(m+1)-m = start+1 by omega]
  rfl

theorem Freelist.link_lt (h : Freelist t free) {p : Nat} (hp : p ∈ free) : p < t.mapped ∧ p < 2^64 := by
  have h₁ := (h.range p hp).2
  have h₂ := h.pagesLe
  have h₃ := h.mappedLt
  omega

theorem Freelist.start_mem (h : Freelist t (pre ++ descending n (start+n) ++ post)) (hn : 0 < n) :
    0 < start ∧ start < t.mapped := by
  have hin : start ∈ pre ++ descending n (start+n) ++ post := by
    rw [descending_concat hn]
    simp
  exact ⟨(h.range start hin).1, (h.link_lt hin).1⟩

/-- What is left when the links lead past a run. -/
theorem Freelist.takeRun (h : Freelist t (pre ++ descending n (start+n) ++ post)) {t₁ : BPlusTree}
    (hchain : FreeChain t₁.mem t₁.metaPage.freeHead (pre ++ post))
    (hmem : ∀ p, pre.getLast? ≠ some p → t₁.mem p = t.mem p)
    (hcontent : ∀ p k, 8 ≤ k → t₁.mem p k = t.mem p k)
    (hmeta : ∃ head, t₁.metaPage = {t.metaPage with freeHead := head}) (hstats : t₁.stats = t.stats)
    (hmapped : t₁.mapped = t.mapped) (hconfig : t₁.config = t.config) (hgrants : t₁.grants = t.grants) :
    RunTaken t pre n post (t₁.writeFreePages (t.stats.freePages-n)) := by
  obtain ⟨head, hmeta⟩ := hmeta
  have hsub : (pre ++ post).Sublist (pre ++ descending n (start+n) ++ post) := by
    rw [List.append_assoc]
    exact (List.Sublist.refl pre).append (List.sublist_append_right _ _)
  have hpages : t₁.metaPage.pages = t.metaPage.pages := by rw [hmeta]
  refine ⟨⟨hchain, h.nodup.sublist hsub, ?_, ?_, ?_, ?_⟩, hmem, hcontent, ⟨head, ?_⟩, ?_, hmapped, hconfig,
    hgrants⟩
  · intro p hp
    show 0 < p ∧ p < t₁.metaPage.pages
    rw [hpages]
    exact h.range p (hsub.subset hp)
  · show t.stats.freePages-n = (pre ++ post).length
    rw [h.counted, List.length_append, List.length_append, List.length_append, length_descending]
    omega
  · show t₁.metaPage.pages ≤ t₁.mapped
    rw [hpages, hmapped]
    exact h.pagesLe
  · show t₁.mapped < 2^51
    rw [hmapped]
    exact h.mappedLt
  · rw [writeFreePages, hmeta]
  · rw [writeFreePages, hstats]

/-- The link to a run is set to what is behind it. -/
theorem Freelist.unlinkRun (h : Freelist t (pre ++ descending n (start+n) ++ post)) (hn : 0 < n) :
    ∃ t₁, t.setLinkBehind pre.getLast? (freeLink (t.mem start)) = some t₁ ∧
      RunTaken t pre n post (t₁.writeFreePages (t.stats.freePages-n)) := by
  have hafter : linkAfter t.mem t.metaPage.freeHead (pre ++ descending n (start+n)) =
      freeLink (t.mem start) := by
    rw [descending_concat hn, ← List.append_assoc, linkAfter_concat]
  have hpost : FreeChain t.mem (freeLink (t.mem start)) post := by
    rw [← hafter]
    exact h.chain.drop _
  cases hprev : pre.getLast? with
  | none =>
    obtain rfl : pre = [] := List.getLast?_eq_none_iff.mp hprev
    exact ⟨_, rfl, h.takeRun hpost (fun _ _ => rfl) (fun _ _ _ => rfl) ⟨_, rfl⟩ rfl rfl rfl rfl⟩
  | some p =>
    have hp : p ∈ pre ++ descending n (start+n) ++ post :=
      List.mem_append_left _ (List.mem_append_left _ (List.mem_of_getLast? hprev))
    have hlt : freeLink (t.mem start) < 2^64 := leNat_read_lt _ 0 8
    refine ⟨_, modifyPage_some (h.link_lt hp).1 _, h.takeRun ?_ ?_ ?_ ⟨_, rfl⟩ rfl rfl rfl rfl⟩
    · exact h.chain.unlink h.nodup hprev hafter hlt
    · intro q hq
      refine setPage_mem_of_ne fun heq => hq ?_
      rw [heq, hprev]
    · intro q k hk
      by_cases hqp : q = p
      · rw [hqp, setPage_mem_self]
        exact write_of_disjoint (by rw [length_leBytes]; omega)
      · rw [setPage_mem_of_ne hqp]

/-- A run does not start where the search for one stops early. -/
theorem no_run_at {cur k : Nat} {rest : List Nat} (hrest : rest = descending k cur ++ post) (hk : k < n-1)
    (hmax : post.head? ≠ some (cur-k-1)) (start : Nat) (tail : List Nat) :
    cur :: rest ≠ descending n (start+n) ++ tail := by
  intro heq
  obtain ⟨m, rfl⟩ : ∃ m, n = k+(m+1)+1 := ⟨n-k-2, by omega⟩
  rw [descending, List.cons_append, List.cons.injEq] at heq
  obtain ⟨hcur, hlist⟩ := heq
  rw [← hcur, descending_add, List.append_assoc, hrest] at hlist
  have hpost := List.append_cancel_left hlist
  rw [hpost, descending] at hmax
  exact hmax rfl

theorem not_hasRun_nil (hn : 0 < n) : ¬ HasRun n [] := by
  rintro ⟨pre, start, post, hrun⟩
  have hlen := congrArg List.length hrun
  simp only [List.length_nil, List.length_append, length_descending] at hlen
  omega

/-- The scan of the freelist from a place in it takes the first run behind that place. -/
theorem Freelist.scan (h : Freelist t free) (hn : 0 < n) (fuel : Nat) (pre rest : List Nat)
    (hlist : free = pre ++ rest) (hfuel : rest.length ≤ fuel) :
    (t.scanFreelist n fuel pre.getLast? (linkAfter t.mem t.metaPage.freeHead pre) = some none ∧
      ¬ HasRun n rest) ∨
    ∃ mid start post t', FirstRun n rest mid start post ∧
      t.scanFreelist n fuel pre.getLast? (linkAfter t.mem t.metaPage.freeHead pre) =
        some (some (start, t')) ∧ RunTaken t (pre ++ mid) n post t' := by
  induction fuel generalizing pre rest with
  | zero =>
    obtain rfl : rest = [] := List.length_eq_zero_iff.mp (Nat.le_zero.mp hfuel)
    exact Or.inl ⟨rfl, not_hasRun_nil hn⟩
  | succ fuel ih =>
    have hrest := h.chain
    rw [hlist] at hrest
    replace hrest := hrest.drop pre
    rw [scanFreelist]
    cases rest with
    | nil =>
      rw [if_pos (show linkAfter t.mem t.metaPage.freeHead pre = 0 from hrest)]
      exact Or.inl ⟨rfl, not_hasRun_nil hn⟩
    | cons cur rest =>
      obtain ⟨hcur, hne, hchain⟩ := hrest
      have hin : ∀ p ∈ cur :: rest, 0 < p ∧ p < t.mapped := by
        intro p hp
        have hfree : p ∈ free := hlist ▸ List.mem_append_right _ hp
        exact ⟨(h.range p hfree).1, (h.link_lt hfree).1⟩
      obtain ⟨hcurIn, hrestIn⟩ := List.forall_mem_cons.mp hin
      obtain ⟨k, post, hk, hklt, hpost, hmax, hrun⟩ := extendRun_eq (n := n-1) 1 hchain hcurIn hrestIn
      rw [hcur, if_neg hne, hrun]
      simp only [Option.bind_eq_bind, Option.bind_some]
      by_cases hfull : 1+k = n
      · -- the run has the wanted length
        have hsplit : cur :: rest = descending n (cur-k+n) ++ post := by
          rw [show cur-k+n = cur+1 by omega, ← hfull, Nat.add_comm 1 k, descending, Nat.add_sub_cancel,
            List.cons_append, ← hpost]
        rw [hlist, hsplit, ← List.append_assoc] at h
        obtain ⟨t₁, hlink, htaken⟩ := h.unlinkRun hn
        rw [if_pos hfull, pageBytes_eq (by omega), Option.bind_some, hlink]
        refine Or.inr ⟨[], cur-k, post, _, ⟨hsplit, fun _ _ _ _ => Nat.zero_le _⟩, rfl, ?_⟩
        rwa [List.append_nil]
      · rw [if_neg hfull, pageBytes_eq hcurIn.2, Option.bind_some]
        have hhere := no_run_at (n := n) hpost (by omega) (hmax.resolve_left (by omega))
        have hnext := ih (pre ++ [cur]) rest (by rw [hlist]; simp) (Nat.le_of_succ_le_succ hfuel)
        rw [List.getLast?_concat, linkAfter_concat] at hnext
        rcases hnext with ⟨hnone, hno⟩ | ⟨mid, start, post', t', hfirst, hsome, htaken⟩
        · refine Or.inl ⟨hnone, ?_⟩
          rintro ⟨pre', start, post', hrun'⟩
          cases pre' with
          | nil => exact hhere start post' hrun'
          | cons x pre' =>
            rw [List.cons_append, List.cons_append, List.cons.injEq] at hrun'
            exact hno ⟨pre', start, post', hrun'.2⟩
        · refine Or.inr ⟨cur :: mid, start, post', t', ⟨?_, ?_⟩, hsome, ?_⟩
          · rw [hfirst.split]
            rfl
          · intro pre' start' post'' hrun'
            cases pre' with
            | nil => exact absurd hrun' (hhere start' post'')
            | cons x pre' =>
              rw [List.cons_append, List.cons_append, List.cons.injEq] at hrun'
              exact Nat.succ_le_succ (hfirst.first pre' start' post'' hrun'.2)
          · rwa [List.append_cons]

theorem Freelist.length_le (h : Freelist t free) : free.length ≤ t.metaPage.pages := by
  have hsub : free ⊆ List.range t.metaPage.pages := fun p hp => List.mem_range.mpr (h.range p hp).2
  have hlen := (h.nodup.subperm hsub).length_le
  rwa [List.length_range] at hlen

/-- The first run of the list is taken, if there is one. -/
theorem Freelist.allocExtentFromFreelist (h : Freelist t free) (hn : 0 < n) :
    (t.allocExtentFromFreelist n = some none ∧ ¬ HasRun n free) ∨
    ∃ pre start post t', FirstRun n free pre start post ∧
      t.allocExtentFromFreelist n = some (some (start, t')) ∧ RunTaken t pre n post t' := by
  rw [BPlusTree.allocExtentFromFreelist, if_neg hn.ne']
  split_ifs with hone hhead
  · cases free with
    | nil => exact Or.inl ⟨rfl, not_hasRun_nil hn⟩
    | cons p rest => exact absurd (h.chain.1.symm.trans hhead) h.chain.2.1
  · cases free with
    | nil => exact absurd h.chain hhead
    | cons p rest =>
      obtain ⟨hp, -, hchain⟩ := h.chain
      have hsplit : p :: rest = [] ++ descending 1 (p+1) ++ rest := rfl
      have hmapped := (h.link_lt (List.mem_cons_self ..)).1
      rw [hone, hp, pageBytes_eq hmapped]
      refine Or.inr ⟨[], p, rest, _, ⟨hsplit, fun _ _ _ _ => Nat.zero_le _⟩, rfl, ?_⟩
      rw [hsplit] at h
      exact h.takeRun hchain (fun _ _ => rfl) (fun _ _ _ => rfl) ⟨_, rfl⟩ rfl rfl rfl rfl
  · exact h.scan hn t.metaPage.pages [] free rfl h.length_le

end Runs

section Frees

variable {start n : Nat}

theorem Freelist.freeHead_lt (h : Freelist t free) : t.metaPage.freeHead < 2^64 := by
  have hchain := h.chain
  cases free with
  | nil =>
    rw [show t.metaPage.freeHead = 0 from hchain]
    exact Nat.two_pow_pos 64
  | cons p rest =>
    rw [hchain.1]
    exact (h.link_lt (List.mem_cons_self ..)).2

/-- A page is put in front of the list. -/
theorem Freelist.freePage (h : Freelist t free) {p : Nat} (hp : 0 < p ∧ p < t.metaPage.pages)
    (hnot : p ∉ free) : ∃ t', t.freePage p = some t' ∧ Freelist t' (p :: free) ∧
      (∀ q, q ≠ p → t'.mem q = t.mem q) ∧ t'.mapped = t.mapped ∧ t'.config = t.config ∧
      t'.grants = t.grants ∧
      t'.metaPage = {t.metaPage with freeHead := p, freePages := t.stats.freePages+1} ∧
      t'.stats = {t.stats with freePages := t.stats.freePages+1} := by
  rw [BPlusTree.freePage, modifyPage_some (hp.2.trans_le h.pagesLe)]
  refine ⟨_, rfl, ⟨⟨rfl, hp.1.ne', ?_⟩, List.nodup_cons.mpr ⟨hnot, h.nodup⟩, ?_, ?_, h.pagesLe, h.mappedLt⟩,
    fun q hq => setPage_mem_of_ne hq, rfl, rfl, rfl, rfl, rfl⟩
  · show FreeChain (t.setPage p _).mem (freeLink ((t.setPage p _).mem p)) free
    rw [setPage_mem_self, freeLink_setFreeLink h.freeHead_lt]
    exact h.chain.congr fun q hq => setPage_mem_of_ne fun heq => hnot (heq ▸ hq)
  · exact List.forall_mem_cons.mpr ⟨hp, h.range⟩
  · exact congrArg Nat.succ h.counted

/-- The pages of an extent are put in front of the list one after the other, the last one first. -/
theorem Freelist.freePages (n i : Nat) {t : BPlusTree} {free : List Nat} (h : Freelist t free)
    (hin : ∀ p, start+i ≤ p → p < start+i+n → 0 < p ∧ p < t.metaPage.pages ∧ p ∉ free) :
    ∃ t', t.freePages start n i = some t' ∧ Freelist t' (descending n (start+i+n) ++ free) := by
  induction n generalizing i t free with
  | zero => exact ⟨t, rfl, h⟩
  | succ n ih =>
    obtain ⟨hpos, hlt, hnot⟩ := hin (start+i) le_rfl (by omega)
    obtain ⟨t₁, hfree, h₁, -, -, -, -, hmeta, -⟩ := h.freePage ⟨hpos, hlt⟩ hnot
    obtain ⟨t', hrest, hlist⟩ := ih (i+1) h₁ fun p hle hplt => by
      obtain ⟨hp, hpages, hout⟩ := hin p (by omega) (by omega)
      rw [hmeta]
      refine ⟨hp, hpages, ?_⟩
      rw [List.mem_cons, not_or]
      exact ⟨by omega, hout⟩
    refine ⟨t', ?_, ?_⟩
    · rw [BPlusTree.freePages, hfree]
      exact hrest
    · rw [descending_concat (n := n+1) (Nat.succ_pos n), Nat.add_sub_cancel, List.append_assoc]
      rwa [show start+i+(n+1) = start+(i+1)+n by omega]

/-- What stands first in the list is found first. -/
theorem FirstRun.at_front {rest pre post : List Nat} {start' : Nat} (hn : 0 < n)
    (h : FirstRun n (descending n (start+n) ++ rest) pre start' post) : start' = start := by
  have hlen := h.first [] start rest rfl
  obtain rfl : pre = [] := List.length_eq_zero_iff.mp (Nat.le_zero.mp hlen)
  obtain ⟨m, rfl⟩ : ∃ m, n = m+1 := ⟨n-1, by omega⟩
  have hsplit := h.split
  rw [List.nil_append, descending, descending, List.cons_append, List.cons_append, List.cons.injEq] at hsplit
  omega

/-- An extent that was given back is found again. -/
theorem Freelist.reuse (h : Freelist t free) (hn : 0 < n)
    (hin : ∀ p, start ≤ p → p < start+n → 0 < p ∧ p < t.metaPage.pages ∧ p ∉ free) :
    ∃ t' t'', t.freePages start n 0 = some t' ∧ t'.allocExtent n = some (start, t'') := by
  obtain ⟨t', hfree, h'⟩ := h.freePages n 0 hin
  rcases h'.allocExtentFromFreelist hn with ⟨-, hno⟩ | ⟨pre, start', post, t'', hfirst, hsome, -⟩
  · exact absurd ⟨[], start, free, rfl⟩ hno
  · obtain rfl := hfirst.at_front hn
    refine ⟨t', t'', hfree, ?_⟩
    rw [allocExtent, hsome]
    rfl

theorem hasRun_one : HasRun 1 free ↔ free ≠ [] := by
  constructor
  · rintro ⟨pre, start, post, rfl⟩
    exact List.append_ne_nil_of_left_ne_nil (List.append_ne_nil_of_right_ne_nil _ (List.cons_ne_nil _ _)) _
  · intro hne
    obtain ⟨p, rest, rfl⟩ := List.exists_cons_of_ne_nil hne
    exact ⟨[], p, rest, rfl⟩

/-- An extent comes from the freelist exactly when its pages stand there next to each other, and then
it is the first such place that is taken out; an extent that was freed is the next one allocated. -/
theorem allocExtentFromFreelist_exact (h : Freelist t free) (hn : 1 ≤ n) :
    ((∃ start t', t.allocExtentFromFreelist n = some (some (start, t'))) ↔ HasRun n free) ∧
    (n = 1 → (HasRun n free ↔ free ≠ [])) ∧
    (¬ HasRun n free → t.allocExtentFromFreelist n = some none) ∧
    (∀ start t', t.allocExtentFromFreelist n = some (some (start, t')) →
      ∃ pre post, FirstRun n free pre start post ∧ RunTaken t pre n post t') ∧
    ∀ start len, extentPages len = n →
      (∀ p, start ≤ p → p < start+n → 0 < p ∧ p < t.metaPage.pages ∧ p ∉ free) →
      ∃ t' t'', t.freeExtent start len = some t' ∧ t'.allocExtent n = some (start, t'') := by
  have hreuse : ∀ start len, extentPages len = n →
      (∀ p, start ≤ p → p < start+n → 0 < p ∧ p < t.metaPage.pages ∧ p ∉ free) →
      ∃ t' t'', t.freeExtent start len = some t' ∧ t'.allocExtent n = some (start, t'') := by
    intro start len hlen hin
    rw [freeExtent, hlen]
    exact h.reuse hn hin
  have hone : n = 1 → (HasRun n free ↔ free ≠ []) := by
    rintro rfl
    exact hasRun_one
  rcases h.allocExtentFromFreelist hn with ⟨hnone, hno⟩ | ⟨pre, start, post, t', hfirst, hsome, htaken⟩
  · refine ⟨⟨?_, fun hrun => absurd hrun hno⟩, hone, fun _ => hnone, ?_, hreuse⟩
    · rintro ⟨start, t', hsome⟩
      cases hnone.symm.trans hsome
    · intro start t' hsome
      cases hnone.symm.trans hsome
  · have hrun : HasRun n free := ⟨pre, start, post, hfirst.split⟩
    refine ⟨⟨fun _ => hrun, fun _ => ⟨start, t', hsome⟩⟩, hone, fun hno => absurd hrun hno, ?_, hreuse⟩
    intro start' t'' hsome'
    cases hsome.symm.trans hsome'
    exact ⟨pre, post, hfirst, htaken⟩

/-- The pages 9, 4, 3 and 6 are free: a run of two is behind the first of them. -/
theorem allocExtentFromFreelist_exact_middle :
    ∃ t start t', Freelist t [9, 4, 3, 6] ∧ t.allocExtentFromFreelist 2 = some (some (start, t')) := by
  have hempty : Freelist ((fresh ⟨16⟩ fun _ => true).setPagesCounter 10) [] :=
    ⟨rfl, List.nodup_nil, fun p hp => absurd hp List.not_mem_nil, rfl, by decide, by decide⟩
  obtain ⟨t₁, -, h₁, -, -, -, -, hmeta₁, -⟩ := hempty.freePage (p := 6) (by decide) List.not_mem_nil
  have hpages₁ : t₁.metaPage.pages = 10 := by rw [hmeta₁]; rfl
  obtain ⟨t₂, -, h₂, -, -, -, -, hmeta₂, -⟩ := h₁.freePage (p := 3) (by omega) (by decide)
  have hpages₂ : t₂.metaPage.pages = 10 := by rw [hmeta₂]; exact hpages₁
  obtain ⟨t₃, -, h₃, -, -, -, -, hmeta₃, -⟩ := h₂.freePage (p := 4) (by omega) (by decide)
  have hpages₃ : t₃.metaPage.pages = 10 := by rw [hmeta₃]; exact hpages₂
  obtain ⟨t, -, h, -⟩ := h₃.freePage (p := 9) (by omega) (by decide)
  have hrun : HasRun 2 [9, 4, 3, 6] := ⟨[9], 3, [6], rfl⟩
  obtain ⟨start, t', hsome⟩ := (allocExtentFromFreelist_exact h (by decide)).1.mpr hrun
  exact ⟨t, start, t', h, hsome⟩

end Frees

end BPlusTree

end ZenDB
