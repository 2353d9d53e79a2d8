import Mathlib.Data.List.Induction
import ZenDB.BPlusTree.Splits

namespace ZenDB

open Memory Slotted

namespace BPlusTree

/-! When the entries of a page that is split have room in the two pages. -/

variable {t t' : BPlusTree} {free : List Nat} {used : Set Nat} {page leftmost child : Nat}
  {cells : List LeafCell} {seps : List (Bytes × Nat)} {key value : Bytes}

/-- The leaf behind `page` is a page in use. -/
def NextInUse (t : BPlusTree) (used : Set Nat) (page : Nat) : Prop :=
  nextLeaf (t.mem page) ≠ 0 → nextLeaf (t.mem page) ∈ used ∧ nextLeaf (t.mem page) ≠ page

/-- `leaf_split` ends with all old entries and the new one in the old and the new page. -/
def LeafPlaced (t : BPlusTree) (page : Nat) (cells : List LeafCell) (key value : Bytes) : Prop :=
  ∃ t' split start, ∃ hkey : key.length < 65536, ∃ left right,
    t.leafSplit page key value = some (t', split) ∧
    (needsExtent key value = true → t'.readExtent start value.length = some value) ∧
    left ++ right = splitCells cells (newCell key value start hkey) ∧
    LeafPage (t'.mem page) left ∧ (split = none → right = []) ∧
    ∀ s, split = some s → LeafPage (t'.mem s.rightPage) right

/-- `internal_split` ends with all old separators and the new one in the old and the new page, but for
the one that goes up. -/
def InternalPlaced (t : BPlusTree) (page leftmost : Nat) (seps : List (Bytes × Nat)) (key : Bytes)
    (child : Nat) : Prop :=
  ∃ t' split, t.internalSplit page key child = some (t', split) ∧
    (split = none → InternalPage (t'.mem page) leftmost (splitSeps seps (key, child))) ∧
    ∀ s, split = some s → ∃ left e right, left ++ e :: right = splitSeps seps (key, child) ∧
      InternalPage (t'.mem page) leftmost left ∧ InternalPage (t'.mem s.rightPage) e.2 right

theorem count_resetSlots (pg : Page) : count (resetSlots pg) = 0 := by
  rw [resetSlots, count_setDataOff, count_setCount (by omega)]

theorem count_setNextLeaf (pg : Page) (p : Nat) : count (setNextLeaf pg p) = count pg :=
  count_congr fun k _ hk => write_of_disjoint (by omega)

/-- The old leaf has the entries before `mid`. -/
theorem LeafSplit.length_left {order left : List LeafCell} {right mid start : Nat}
    (h : LeafSplit t used page key value order right mid start t') (hmid : mid ≤ order.length)
    (hleft : LeafPage (t'.mem page) left) : left.length = mid := by
  obtain ⟨pg, hpacks, hpage⟩ := h.leftPage
  have hcount := hpacks.count
  rw [count_resetSlots, List.length_map, List.length_take] at hcount
  rw [← hleft.counted, hpage, count_setNextLeaf, hcount]
  omega

/-- Both leaves of a split whose first part is small enough. -/
theorem LeafSplit.both {order : List LeafCell} {right mid start : Nat}
    (h : LeafSplit t used page key value order right mid start t') (hkind : t.mem page 0 = 1)
    (htake : leafBytes (order.take mid) ≤ 4072) (hdrop : leafBytes (order.drop mid) ≤ 4072) :
    LeafPage (t'.mem page) (order.take mid) ∧ LeafPage (t'.mem right) (order.drop mid) := by
  obtain ⟨pg, hpacks, hpage⟩ := h.leftPage
  obtain ⟨pg₀, pg', hpg₀, hpacks', hright⟩ := h.rightPage
  have hleft := ((leafPage_reset hkind).packed hpacks (by simpa using htake)).1
  have hright' := (hpg₀.packed hpacks' (by simpa using hdrop)).1
  rw [hpage, hright]
  exact ⟨hleft.setNextLeaf _, (hright'.setNextLeaf _).setPrevLeaf _⟩

theorem leafPlaced_iff (h : Allocates t free used) (hp : page ∈ used)
    (hleaf : LeafPage (t.mem page) cells) (hnext : NextInUse t used page)
    (hroom : t.Room (1+extentPages value.length))
    (halone : leafEntryBytes key.length (payloadOf key value) ≤ 4072) :
    LeafPlaced t page cells key value ↔ SplitFits 4072 (splitSizes cells key value) := by
  have hkey : key.length < 65536 := by
    rw [leafEntryBytes] at halone
    omega
  have hspec := leafSplit_completes h hp hleaf hkey halone hnext
  constructor
  · intro hplaced
    obtain ⟨t', split, start', hkey', left, right, hsplit, -, horder, hleft, -, -⟩ := hplaced
    obtain ⟨start, ⟨hsum, -, -⟩ | ⟨hover, right', mid, a, b, hmid, -, -, -, hdone⟩⟩ :=
      hspec.post _ hsplit
    · exact Or.inl hsum
    · obtain ⟨mid', hmid', -, hlt, -, htake⟩ := splitSizes_spec hleaf.fits halone hover
      rw [hmid] at hmid'
      cases hmid'
      rw [← splitCells_sizes cells start hkey, List.length_map] at hlt
      have hlen := hdone.length_left hlt.le hleft
      refine htake.mp ?_
      have hfits := hleft.fits
      rwa [← splitCells_sizes cells start' hkey', ← leafBytes_take, ← horder, ← hlen, List.take_left]
  · intro hfits
    obtain ⟨r, hsplit, start, hcases⟩ := hspec.exists_of_room ⟨hroom, hfits⟩
    rcases hcases with ⟨-, hnone, hdone⟩ | ⟨hover, right, mid, a, b, hmid, -, -, hsome, hdone⟩
    · refine ⟨r.1, r.2, start, hkey, _, [], hsplit, fun hext => (hdone.stored.held hext).2,
        List.append_nil _, hdone.leaf, fun _ => rfl, ?_⟩
      intro s hs
      rw [hnone] at hs
      cases hs
    · obtain ⟨mid', hmid', -, hlt, hdrop, htake⟩ := splitSizes_spec hleaf.fits halone hover
      rw [hmid] at hmid'
      cases hmid'
      have hpages := hdone.both hleaf.kind
        (by rw [leafBytes_take, splitCells_sizes]; exact htake.mpr hfits)
        (by rw [leafBytes_drop, splitCells_sizes]; exact hdrop)
      refine ⟨r.1, r.2, start, hkey, _, _, hsplit, fun hext => (hdone.stored.held hext).2,
        List.take_append_drop mid _, hpages.1, ?_, ?_⟩
      · intro hnone
        rw [hsome] at hnone
        cases hnone
      · intro s hs
        rw [hsome] at hs
        cases hs
        exact hpages.2

theorem InternalSplit.length_left {order left : List (Bytes × Nat)} {right mid : Nat}
    (h : InternalSplit t used page order right mid t') (hmid : mid ≤ order.length)
    (hleft : InternalPage (t'.mem page) leftmost left) : left.length = mid := by
  have hcount := h.leftPage.count
  rw [count_resetSlots, List.length_map, List.length_take] at hcount
  rw [← hleft.counted, hcount]
  omega

theorem InternalSplit.both {order : List (Bytes × Nat)} {right mid : Nat}
    (h : InternalSplit t used page order right mid t') (hpage : Separators (t.mem page) leftmost seps)
    (hbound : ∀ e ∈ order, e.2 < 2^64) (htake : sepBytes (order.take mid) ≤ 4080)
    (hdrop : sepBytes (order.drop (mid+1)) ≤ 4080) :
    InternalPage (t'.mem page) leftmost (order.take mid) ∧
      ∃ e, order[mid]? = some e ∧ InternalPage (t'.mem right) e.2 (order.drop (mid+1)) := by
  obtain ⟨e, pg₀, he, hpg₀, hright⟩ := h.rightPage
  have hleft := hpage.reset.packed h.leftPage (by simpa using htake)
    fun e he => hbound e (List.mem_of_mem_take he)
  have hright' := hpg₀.packed hright (by simpa using hdrop) fun e he => hbound e (List.mem_of_mem_drop he)
  exact ⟨hleft, e, he, hright'⟩

theorem internalPlaced_iff (h : Allocates t free used) (hp : page ∈ used)
    (hpage : InternalPage (t.mem page) leftmost seps) (hchild : child < 2^64) (hroom : t.Room 1)
    (halone : sepSize (key, child) ≤ 4080) :
    InternalPlaced t page leftmost seps key child ↔
      SplitFits 4080 ((splitSeps seps (key, child)).map sepSize) := by
  have hspec := (internalSplit_completes h hp hpage.separators hchild).weaken
    fun hr => ⟨⟨hpage.fits, halone⟩, hr⟩
  constructor
  · intro hplaced
    obtain ⟨t', split, hsplit, -, hsome'⟩ := hplaced
    rcases hspec.post _ hsplit with ⟨hsum, -, -⟩ | ⟨hover, right, mid, a, b, hmid, -, -, hsome, hdone⟩
    · exact Or.inl hsum
    · obtain ⟨left, e, right', horder, hleft, -⟩ := hsome' _ hsome
      obtain ⟨mid', hmid', -, hlt, -, htake⟩ := splitSepSizes_spec hpage.fits halone hover
      rw [hmid] at hmid'
      cases hmid'
      have hlen := hdone.length_left hlt.le hleft
      refine htake.mp ?_
      have hfits := hleft.fits
      rwa [← horder, ← hlen, List.take_left]
  · intro hfits
    obtain ⟨r, hsplit, hcases⟩ := hspec.exists_of_room ⟨hroom, hfits⟩
    refine ⟨r.1, r.2, hsplit, ?_⟩
    rcases hcases with ⟨-, hnone, pg, hset, hdone⟩ | ⟨hover, right, mid, a, b, hmid, -, -, hsome, hdone⟩
    · rw [hnone, hset, setPage_mem_self]
      exact ⟨fun _ => hdone, fun s hs => by cases hs⟩
    · obtain ⟨mid', hmid', -, hlt, hdrop, htake⟩ := splitSepSizes_spec hpage.fits halone hover
      rw [hmid] at hmid'
      cases hmid'
      obtain ⟨hleft, e, he, hright⟩ := hdone.both hpage.separators
        (splitSeps_bound key hpage.separators hchild)
        (htake.mpr hfits) hdrop
      refine ⟨fun hnone => ?_, fun s hs =>
        ⟨_, e, (splitSeps seps (key, child)).drop (mid+1), ?_, hleft, ?_⟩⟩
      · rw [hsome] at hnone
        cases hnone
      · obtain ⟨_, rfl⟩ := List.getElem?_eq_some_iff.mp he
        rw [← List.drop_eq_getElem_cons hlt, List.take_append_drop]
      · rw [hsome] at hs
        cases hs
        exact hright

/-- A split of a leaf or of an internal page places all entries if and only if the entry that crosses
the byte midpoint, unless it is the last one, fits into a page together with those before it. -/
theorem split_places_iff_fits (t : BPlusTree) (free : List Nat) (used : Set Nat) (page : Nat)
    (key : Bytes) (h : Allocates t free used) (hp : page ∈ used) :
    (∀ (cells : List LeafCell) (value : Bytes), LeafPage (t.mem page) cells →
      NextInUse t used page → t.Room (1+extentPages value.length) →
      leafEntryBytes key.length (payloadOf key value) ≤ 4096-24 →
      (LeafPlaced t page cells key value ↔ SplitFits (4096-24) (splitSizes cells key value))) ∧
    ∀ (leftmost : Nat) (seps : List (Bytes × Nat)) (child : Nat),
      InternalPage (t.mem page) leftmost seps → child < 2^64 → t.Room 1 →
      sepSize (key, child) ≤ 4096-16 →
      (InternalPlaced t page leftmost seps key child ↔
        SplitFits (4096-16) ((splitSeps seps (key, child)).map sepSize)) := by
  refine ⟨?_, ?_⟩
  · intro cells value hleaf hnext hroom halone
    exact leafPlaced_iff h hp hleaf hnext hroom halone
  · intro leftmost seps child hpage hchild hroom halone
    exact internalPlaced_iff h hp hpage hchild hroom halone

theorem exists_bytes (n : Nat) : ∃ bs : Bytes, bs.length = n :=
  ⟨List.replicate n 0, List.length_replicate⟩

/-- A leaf with given entries. -/
theorem exists_leafPage (cells : List LeafCell) (h : leafBytes cells ≤ 4072) :
    ∃ pg, LeafPage pg cells ∧ nextLeaf pg = 0 ∧ prevLeaf pg = 0 := by
  induction cells using List.reverseRecOn with
  | nil => exact ⟨_, leafPage_init (fun _ => 0) 0⟩
  | append_singleton cells c ih =>
    rw [leafBytes_append] at h
    obtain ⟨pg, hpg, hnext, hprev⟩ := ih (by omega)
    obtain ⟨pg', -, hpacks⟩ := (appendEntry_completes (by omega) (by omega) pg c.enc).exists_of_room
      (hpg.roomFor (show leafBytes cells+leafBytes [c] ≤ 4072 from h))
    obtain ⟨hdone, hlinks⟩ := hpg.packed hpacks (show leafBytes cells+leafBytes [c] ≤ 4072 from h)
    refine ⟨pg', hdone, ?_, ?_⟩
    · rw [← hnext]
      exact nextLeaf_congr fun k hk hlt => hlinks k (by omega)
    · rw [← hprev]
      exact prevLeaf_congr fun k hk hlt => hlinks k (by omega)

/-- An internal page with given separators. -/
theorem exists_internalPage {first : Nat} (hfirst : first < 2^64) (seps : List (Bytes × Nat))
    (h : sepBytes seps ≤ 4080) (hbound : ∀ e ∈ seps, e.2 < 2^64) :
    ∃ pg, InternalPage pg first seps := by
  induction seps using List.reverseRecOn with
  | nil => exact ⟨_, internalPage_init (fun _ => 0) hfirst⟩
  | append_singleton seps e ih =>
    rw [sepBytes_append] at h
    obtain ⟨pg, hpg⟩ := ih (by omega) fun e he => hbound e (by simp [he])
    obtain ⟨pg', -, hpacks⟩ := (appendEntry_completes (by omega) (by omega) pg (sepEnc e)).exists_of_room
      (hpg.roomFor (show sepBytes seps+sepBytes [e] ≤ 4080 from h))
    refine ⟨pg', hpg.packed (show Packs 16 4096 pg pg' ([e].map sepEnc) from hpacks) h ?_⟩
    exact fun e' he' => hbound e' (List.mem_append_right _ he')

theorem fresh_allocates (config : Config) (grants : Nat → Bool)
    (h : max config.initialCapacityPages 2 < 2^51) : Allocates (fresh config grants) [] {1} := by
  have hpages : (fresh config grants).metaPage.pages = 2 := rfl
  refine ⟨rfl, .nil, fun p hp => absurd hp List.not_mem_nil, ?_, ?_, rfl, ?_, le_max_right _ _, h, rfl⟩
  · intro p hp
    rw [Set.mem_singleton_iff.mp hp]
    omega
  · intro p hpos hlt
    exact Or.inr (by rw [Set.mem_singleton_iff]; omega)
  · omega

/-- A new tree with a given root page, in a file that can grow. -/
def onePage (pg : Page) : BPlusTree := (fresh ⟨2⟩ fun _ => true).setPage 1 pg

section OnePage

variable {pg : Page}

@[simp] theorem onePage_mem (pg : Page) : (onePage pg).mem 1 = pg := setPage_mem_self _ _ _

theorem onePage_allocates : Allocates (onePage pg) [] {1} :=
  (fresh_allocates ⟨2⟩ _ (by decide)).setPage rfl pg

theorem onePage_room {n : Nat} (h : n < 2^49) : (onePage pg).Room n :=
  ⟨show 2+n < 2^50 by omega, fun _ _ => rfl⟩

theorem onePage_nextInUse (h : nextLeaf pg = 0) : NextInUse (onePage pg) {1} 1 := by
  intro hne
  rw [onePage_mem] at hne
  exact absurd h hne

end OnePage

section Separators

variable {front back : List (Bytes × Nat)} {q : Bytes}

theorem routeIndex_eq (hfront : ∀ e ∈ front, e.1 ≤ q) (hback : ∀ e ∈ back, q < e.1) :
    routeIndex ((front ++ back).map Prod.fst) q = front.length := by
  have hprobe : ∀ i, 0 ≤ i → i < ((front ++ back).map Prod.fst).length →
      (((front ++ back).map Prod.fst)[i]?.map fun s => decide (s ≤ q)) =
        some (decide (i < front.length)) := by
    intro i _ hi
    rw [List.getElem?_eq_getElem hi, List.getElem_map, Option.map_some]
    congr 1
    by_cases hlt : i < front.length
    · rw [List.getElem_append_left hlt, decide_eq_true hlt]
      exact decide_eq_true (hfront _ (List.getElem_mem hlt))
    · rw [List.getElem_append_right (not_lt.mp hlt), decide_eq_false hlt]
      exact decide_eq_false (not_le.mpr (hback _ (List.getElem_mem _)))
  rw [routeIndex, partitionLoop_eq _ 0 _ hprobe (Nat.zero_le _) (by simp) (by omega)]
  rfl

theorem splitSeps_eq (new : Bytes × Nat) (hfront : ∀ e ∈ front, e.1 ≤ new.1)
    (hback : ∀ e ∈ back, new.1 < e.1) : splitSeps (front ++ back) new = front ++ new :: back := by
  rw [splitSeps, routeIndex_eq hfront hback, List.take_left, List.drop_left]

/-- Two separators, and a third one behind them in the examples of a split. -/
def twoSeps (xs xs' : Bytes) : List (Bytes × Nat) := [(1 :: xs, 6), (2 :: xs', 7)]

theorem twoSeps_lt (xs xs' ys : Bytes) : ∀ e ∈ twoSeps xs xs', e.1 < 3 :: ys := by
  simp only [twoSeps, List.forall_mem_cons]
  exact ⟨List.cons_lt_cons_iff.mpr (Or.inl (by decide)), List.cons_lt_cons_iff.mpr (Or.inl (by decide)),
    by simp⟩

theorem splitSeps_twoSeps (xs xs' ys : Bytes) :
    splitSeps (twoSeps xs xs') (3 :: ys, 8) = twoSeps xs xs' ++ [(3 :: ys, 8)] := by
  have h := splitSeps_eq (3 :: ys, 8) (fun e he => (twoSeps_lt xs xs' ys e he).le)
    (show ∀ e ∈ ([] : List (Bytes × Nat)), 3 :: ys < e.1 by simp)
  rwa [List.append_nil] at h

theorem exists_twoSeps (xs xs' : Bytes) (h : sepBytes (twoSeps xs xs') ≤ 4080) :
    ∃ pg, InternalPage ((onePage pg).mem 1) 5 (twoSeps xs xs') := by
  obtain ⟨pg, hpg⟩ := exists_internalPage (show 5 < 2^64 by decide) (twoSeps xs xs') h (by simp [twoSeps])
  exact ⟨pg, by rwa [onePage_mem]⟩

end Separators

theorem inline_size (k : UInt8) {value : Bytes} {n : Nat} (hn : value.length = n) (h : n ≤ 4057) :
    leafEntryBytes ([k] : Bytes).length (payloadOf [k] value) = n+9 := by
  have hinline : ¬ needsExtent [k] value = true := by
    simp only [needsExtent, decide_eq_true_eq, List.length_singleton]
    omega
  rw [payloadOf, if_neg hinline, leafEntryBytes, List.length_singleton]
  omega

/-- A leaf full with the keys `[0]` and `[2]`, and the sizes of the entries in a split for `[1]`. -/
theorem exists_fullLeaf :
    ∃ (pg : Page) (cells : List LeafCell), LeafPage pg cells ∧ nextLeaf pg = 0 ∧ leafBytes cells = 4072 ∧
      ∀ value, splitSizes cells [1] value = [2000, leafEntryBytes 1 (payloadOf [1] value), 2072] := by
  obtain ⟨a, ha⟩ := exists_bytes 1991
  obtain ⟨b, hb⟩ := exists_bytes 2063
  have hsizeA := inline_size 0 ha (by decide)
  have hsizeB := inline_size 2 hb (by decide)
  generalize hcells : [newCell [0] a 0 (by decide), newCell [2] b 0 (by decide)] = cells
  have hbytes : leafBytes cells = 4072 := by
    rw [← hcells, leafBytes_cons, leafBytes_cons, newCell_size, newCell_size, hsizeA, hsizeB]
    rfl
  obtain ⟨pg, hpg, hnext, -⟩ := exists_leafPage cells hbytes.le
  refine ⟨pg, cells, hpg, hnext, hbytes, fun value => ?_⟩
  have hip : insertionPoint [[0], [2]] [1] = 1 := by decide
  rw [splitSizes, ← hcells]
  simp only [List.map_cons, List.map_nil, newCell_key, hip, List.take_succ_cons, List.take_zero,
    List.drop_succ_cons, List.drop_zero, newCell_size, hsizeA, hsizeB]
  rfl

/-- Two entries fill a leaf, and a third one of nearly a page goes between them. -/
theorem split_overfull :
    ∃ (t : BPlusTree) (free : List Nat) (used : Set Nat) (page : Nat) (cells : List LeafCell)
      (key value : Bytes), Allocates t free used ∧ page ∈ used ∧ LeafPage (t.mem page) cells ∧
      NextInUse t used page ∧ t.Room (1+extentPages value.length) ∧
      leafEntryBytes key.length (payloadOf key value) ≤ 4096-24 ∧ ¬ LeafPlaced t page cells key value := by
  obtain ⟨c, hc⟩ := exists_bytes 4057
  have hsize := inline_size 1 hc (by decide)
  obtain ⟨pg, cells, hpg, hnext, -, hsizes⟩ := exists_fullLeaf
  have hroom : (onePage pg).Room (1+extentPages c.length) := onePage_room (by rw [hc]; decide)
  rw [← onePage_mem pg] at hpg
  refine ⟨onePage pg, [], {1}, 1, cells, [1], c, onePage_allocates, rfl, hpg, onePage_nextInUse hnext,
    hroom, by omega, ?_⟩
  rw [leafPlaced_iff onePage_allocates rfl hpg (onePage_nextInUse hnext) hroom (by omega), hsizes,
    show leafEntryBytes 1 (payloadOf [1] c) = 4066 from hsize]
  intro hfits
  rcases hfits with hsum | hcross
  · exact absurd hsum (by decide)
  · exact absurd (hcross [2000] 4066 [2072] rfl (by simp) (by decide) (by decide)) (by decide)

/-- A split that places its entries: the full leaf with a new entry as long as its last one, and two
separators that fill an internal page with a third one behind them. -/
theorem split_places_iff_fits_full :
    (∃ (pg : Page) (cells : List LeafCell) (value : Bytes), LeafPage pg cells ∧
      splitSizes cells [1] value = [2000, 2072, 2072] ∧ LeafPlaced (onePage pg) 1 cells [1] value) ∧
    ∃ (pg : Page) (xs xs' : Bytes), InternalPage ((onePage pg).mem 1) 5 (twoSeps xs xs') ∧
      (splitSeps (twoSeps xs xs') ([3], 8)).map sepSize = [2033, 2043, 13] ∧
      InternalPlaced (onePage pg) 1 5 (twoSeps xs xs') [3] 8 := by
  constructor
  · obtain ⟨c, hc⟩ := exists_bytes 2063
    have hsize := inline_size 1 hc (by decide)
    obtain ⟨pg, cells, hpg, hnext, -, hsizes⟩ := exists_fullLeaf
    have hsizes' : splitSizes cells [1] c = [2000, 2072, 2072] := by
      rw [hsizes, show leafEntryBytes 1 (payloadOf [1] c) = 2072 from hsize]
    refine ⟨pg, cells, c, hpg, hsizes', ?_⟩
    refine ((split_places_iff_fits (onePage pg) [] {1} 1 [1] onePage_allocates rfl).1 cells c
      (by rwa [onePage_mem]) (onePage_nextInUse hnext) (onePage_room (by rw [hc]; decide))
      (by omega)).mpr ?_
    rw [hsizes']
    exact splitFits_of_crossing (show _ = [2000] ++ 2072 :: [2072] from rfl) (by decide) (by decide)
      (by decide)
  · obtain ⟨xs, hxs⟩ := exists_bytes 2020
    obtain ⟨xs', hxs'⟩ := exists_bytes 2030
    have hsizes : (splitSeps (twoSeps xs xs') ([3], 8)).map sepSize = [2033, 2043, 13] := by
      rw [splitSeps_twoSeps]
      simp [twoSeps, sepSize, hxs, hxs']
    obtain ⟨pg, hpg⟩ := exists_twoSeps xs xs' (by simp [twoSeps, sepSize, hxs, hxs'])
    refine ⟨pg, xs, xs', hpg, hsizes, ?_⟩
    refine ((split_places_iff_fits (onePage pg) [] {1} 1 [3] onePage_allocates rfl).2 5 (twoSeps xs xs') 8
      hpg (by decide) (onePage_room (by decide)) (by decide)).mpr ?_
    rw [hsizes]
    exact splitFits_of_crossing (show _ = [2033] ++ 2043 :: [13] from rfl) (by decide) (by decide)
      (by decide)

end BPlusTree

end ZenDB
