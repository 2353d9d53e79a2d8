import Mathlib.Algebra.GroupWithZero.Nat
import ZenDB.Topic.Files
import ZenDB.Topic.Spec

namespace ZenDB

/-- The segments tile the offsets from `b` to `e`; only the last one may be empty. -/
def Cover : Nat → List Segment → Nat → Prop
  | b, [], e => b = e
  | b, s :: rest, e =>
    s.baseOffset = b ∧ b ≤ s.endOffset ∧ (rest ≠ [] → b < s.endOffset) ∧ Cover s.endOffset rest e

namespace Cover

theorem mem_bounds {b e : Nat} {segs : List Segment} (h : Cover b segs e) :
    ∀ s ∈ segs, b ≤ s.baseOffset ∧ s.baseOffset ≤ s.endOffset ∧ s.endOffset ≤ e := by
  induction segs generalizing b with
  | nil => simp
  | cons s rest ih =>
    obtain ⟨hb, hle, -, hrest⟩ := h
    have hse : s.endOffset ≤ e := by
      cases rest with
      | nil =>
        have hend : s.endOffset = e := hrest
        omega
      | cons s' rest =>
        have hs := ih hrest s' (by simp)
        omega
    intro x hx
    rcases List.mem_cons.mp hx with rfl | hx
    · omega
    · have hx := ih hrest x hx
      omega

theorem find {b e o : Nat} {segs : List Segment} (h : Cover b segs e) (hb : b ≤ o) (he : o < e) :
    ∃ s ∈ segs, (segs.find? fun s => s.baseOffset ≤ o && o < s.endOffset) = some s ∧
      s.baseOffset ≤ o ∧ o < s.endOffset := by
  induction segs generalizing b with
  | nil =>
    have hbe : b = e := h
    omega
  | cons s rest ih =>
    obtain ⟨hbase, -, -, hrest⟩ := h
    by_cases ho : o < s.endOffset
    · have hs : s.baseOffset ≤ o := by omega
      refine ⟨s, by simp, ?_, hs, ho⟩
      rw [List.find?_cons_of_pos]
      simp [hs, ho]
    · obtain ⟨x, hx, hfind, hxb, hxe⟩ := ih hrest (by omega)
      refine ⟨x, List.mem_cons_of_mem _ hx, ?_, hxb, hxe⟩
      rw [List.find?_cons_of_neg (by simp [ho]), hfind]

/-- Writing to the active segment extends the tiling, cutting it shortens it. -/
theorem setLast {b e e' : Nat} {segs : List Segment} {a a' : Segment}
    (h : Cover b (segs ++ [a]) e) (hbase : a'.baseOffset = a.baseOffset) (hend : a'.endOffset = e')
    (hle : a.baseOffset ≤ e') : Cover b (segs ++ [a']) e' := by
  induction segs generalizing b with
  | nil =>
    obtain ⟨hb, -, -, -⟩ := h
    exact ⟨by omega, by omega, fun hne => absurd rfl hne, hend⟩
  | cons s rest ih =>
    obtain ⟨hb, hle', hlt, hrest⟩ := h
    exact ⟨hb, hle', fun _ => hlt (by simp), ih hrest⟩

theorem last_end {b e : Nat} {segs : List Segment} {a : Segment} (h : Cover b (segs ++ [a]) e) :
    a.endOffset = e := by
  induction segs generalizing b with
  | nil => exact h.2.2.2
  | cons s rest ih => exact ih h.2.2.2

theorem init_le {b e : Nat} {segs : List Segment} {a : Segment} (h : Cover b (segs ++ [a]) e) :
    ∀ x ∈ segs, x.endOffset ≤ a.baseOffset := by
  induction segs generalizing b with
  | nil => simp
  | cons s rest ih =>
    obtain ⟨-, -, -, hrest⟩ := h
    intro x hx
    rcases List.mem_cons.mp hx with rfl | hx
    · exact (mem_bounds hrest a (by simp)).1
    · exact ih hrest x hx

/-- Rotation starts a new segment behind an active one that holds a record. -/
theorem snoc {b e : Nat} {segs : List Segment} {a s : Segment} (h : Cover b (segs ++ [a]) e)
    (ha : a.baseOffset < a.endOffset) (hs : s.baseOffset = e) (hse : s.endOffset = e) :
    Cover b (segs ++ [a] ++ [s]) e := by
  induction segs generalizing b with
  | nil =>
    obtain ⟨hb, hae, -, hrest⟩ := h
    have hend : a.endOffset = e := hrest
    exact ⟨hb, hae, fun _ => by omega, by omega, by omega, fun hne => absurd rfl hne, hse⟩
  | cons x rest ih =>
    obtain ⟨hb, hle, hlt, hrest⟩ := h
    exact ⟨hb, hle, fun _ => hlt (by simp), ih hrest⟩

/-- What is left after removing segments from the front starts where the last removed one ended. -/
theorem drop {b e : Nat} {segs : List Segment} (h : Cover b segs e) (k : Nat)
    (hk : k < segs.length) :
    ∃ b', Cover b' (segs.drop k) e ∧ b ≤ b' ∧ ((segs.take k).map Segment.recordCount).sum = b'-b ∧
      (∀ s ∈ segs.take k, s.baseOffset < s.endOffset ∧ s.endOffset ≤ b') ∧
      (b' = b ∨ ∃ s ∈ segs.take k, s.endOffset = b') := by
  induction k generalizing b segs with
  | zero => exact ⟨b, h, le_refl _, by simp, by simp, Or.inl rfl⟩
  | succ k ih =>
    cases segs with
    | nil => simp at hk
    | cons s rest =>
      obtain ⟨hb, hle, hlt, hrest⟩ := h
      rw [List.length_cons] at hk
      have hne : rest ≠ [] := by
        intro hnil
        simp [hnil] at hk
      have hpos := hlt hne
      obtain ⟨b', hcover, hle', hsum, hbelow, hfrom⟩ := ih hrest (by omega)
      have hcount : s.endOffset-s.baseOffset+(b'-s.endOffset) = b'-b := by
        clear hfrom
        omega
      refine ⟨b', hcover, hle.trans hle', ?_, ?_, Or.inr ?_⟩
      · rw [List.take_succ_cons, List.map_cons, List.sum_cons, hsum, Segment.recordCount, hcount]
      · intro x hx
        rw [List.take_succ_cons] at hx
        rcases List.mem_cons.mp hx with rfl | hx
        · omega
        · exact hbelow x hx
      · rcases hfrom with rfl | ⟨x, hx, hxe⟩
        · exact ⟨s, by simp, rfl⟩
        · exact ⟨x, by simp [hx], hxe⟩

theorem head_eq {b e : Nat} {s : Segment} {rest : List Segment} (h : Cover b (s :: rest) e) :
    s.baseOffset = b := h.1

theorem pairwise_base {b e : Nat} {segs : List Segment} (h : Cover b segs e) :
    (segs.map Segment.baseOffset).Pairwise (· < ·) := by
  induction segs generalizing b with
  | nil => simp
  | cons s rest ih =>
    obtain ⟨hb, -, hlt, hrest⟩ := h
    rw [List.map_cons, List.pairwise_cons]
    refine ⟨?_, ih hrest⟩
    intro x hx
    obtain ⟨s', hs', rfl⟩ := List.mem_map.mp hx
    have hne : rest ≠ [] := List.ne_nil_of_mem hs'
    have hpos := hlt hne
    have hs' := mem_bounds hrest s' hs'
    omega

/-- No segment holds an offset in front of the first. -/
theorem find_none {b e o : Nat} {segs : List Segment} (h : Cover b segs e) (ho : o < b) :
    (segs.find? fun s => s.baseOffset ≤ o && o < s.endOffset) = none := by
  rw [List.find?_eq_none]
  intro s hs
  have hle := (mem_bounds h s hs).1
  simp only [Bool.and_eq_true, decide_eq_true_eq]
  omega

/-- An offset belongs to one segment only. -/
theorem unique {b e o : Nat} {segs : List Segment} {x y : Segment} (h : Cover b segs e)
    (hx : x ∈ segs) (hxo : x.baseOffset ≤ o ∧ o < x.endOffset) (hy : y ∈ segs)
    (hyo : y.baseOffset ≤ o ∧ o < y.endOffset) : x = y := by
  induction segs generalizing b with
  | nil => cases hx
  | cons s rest ih =>
    obtain ⟨-, -, -, hrest⟩ := h
    rcases List.mem_cons.mp hx with hxs | hx <;> rcases List.mem_cons.mp hy with hys | hy
    · rw [hxs, hys]
    · have hle := (mem_bounds hrest y hy).1
      rw [hxs] at hxo
      omega
    · have hle := (mem_bounds hrest x hx).1
      rw [hys] at hyo
      omega
    · exact ih hrest hx hy

/-- A segment ends where the next begins or in front of it. -/
theorem end_le_of_base_lt {b e : Nat} {segs : List Segment} {x y : Segment} (h : Cover b segs e)
    (hx : x ∈ segs) (hy : y ∈ segs) (hxy : x.baseOffset < y.baseOffset) :
    x.endOffset ≤ y.baseOffset := by
  induction segs generalizing b with
  | nil => cases hx
  | cons s rest ih =>
    obtain ⟨hb, hle', -, hrest⟩ := h
    rcases List.mem_cons.mp hx with rfl | hxr <;> rcases List.mem_cons.mp hy with rfl | hyr
    · omega
    · exact (mem_bounds hrest y hyr).1
    · have hle := (mem_bounds hrest x hxr).1
      omega
    · exact ih hrest hxr hyr

/-- A segment with another behind it holds a record, and one begins where it ends. -/
theorem exists_next {b e : Nat} {segs : List Segment} {x y : Segment} (h : Cover b segs e)
    (hx : x ∈ segs) (hy : y ∈ segs) (hxy : x.baseOffset < y.baseOffset) :
    x.baseOffset < x.endOffset ∧ ∃ z ∈ segs, z.baseOffset = x.endOffset := by
  induction segs generalizing b with
  | nil => cases hx
  | cons s rest ih =>
    obtain ⟨hb, hle, hlt, hrest⟩ := h
    rcases List.mem_cons.mp hx with rfl | hxr <;> rcases List.mem_cons.mp hy with rfl | hyr
    · omega
    · obtain ⟨z, rest, rfl⟩ := List.exists_cons_of_ne_nil (List.ne_nil_of_mem hyr)
      have hpos := hlt (by simp)
      exact ⟨by omega, z, by simp, hrest.head_eq⟩
    · have hle := (mem_bounds hrest x hxr).1
      omega
    · obtain ⟨hpos, z, hz, hzx⟩ := ih hrest hxr hyr
      exact ⟨hpos, z, List.mem_cons_of_mem _ hz, hzx⟩

end Cover

variable {Name : Type} [DecidableEq Name]

namespace Topic

theorem shared_iff (t : Topic Name) (base : Nat) :
    t.shared base = true ↔ ∃ name cursor, t.readers.lookup name = some (some cursor) ∧
      cursor.segment = base := by
  simp only [shared, cursors, List.any_eq_true, List.mem_filterMap, decide_eq_true_eq]
  constructor
  · rintro ⟨cursor, ⟨⟨name, current⟩, hmem, hcur⟩, hbase⟩
    refine ⟨name, cursor, ?_, hbase⟩
    have hlook : t.readers.lookup name = some current := AList.mem_lookup_iff.mpr hmem
    rw [hlook, ← hcur]
  · rintro ⟨name, cursor, hlook, hbase⟩
    exact ⟨cursor, ⟨⟨name, some cursor⟩, AList.mem_lookup_iff.mp hlook, rfl⟩, hbase⟩

theorem lookup_same {γ : Type} (m : AList (fun _ : Name => γ)) {name : Name} {b : γ}
    (h : m.lookup name = some b) (n : Name) :
    m.lookup n = if n = name then some b else m.lookup n := by
  split_ifs with hn
  · rw [hn, h]
  · rfl

/-- Dropping segments that are marked for deletion removes exactly their files. -/
theorem lookup_eraseFiles (dead : List Segment) (hdead : ∀ s ∈ dead, s.deleteOnDrop = true)
    (dir : AList (fun _ : Nat => Bytes)) (b : Nat) :
    (dead.foldl (fun d s => if s.deleteOnDrop then d.erase s.baseOffset else d) dir).lookup b =
      if b ∈ dead.map Segment.baseOffset then none else dir.lookup b := by
  induction dead generalizing dir with
  | nil => simp
  | cons s dead ih =>
    have hs : s.deleteOnDrop = true := hdead s (by simp)
    have h := ih (fun x hx => hdead x (List.mem_cons_of_mem _ hx)) (dir.erase s.baseOffset)
    rw [List.foldl_cons, if_pos hs, h, List.map_cons]
    by_cases hb : b = s.baseOffset
    · subst hb
      simp [AList.lookup_erase]
    · rw [AList.lookup_erase_ne hb]
      simp [hb]

variable {t : Topic Name}

omit [DecidableEq Name] in
theorem lookup_release (hheld : ∀ seg ∈ t.held, seg.deleteOnDrop = true) (b : Nat) :
    t.release.dir.lookup b =
      if b ∈ (t.held.filter fun seg => !t.shared seg.baseOffset).map Segment.baseOffset then none
      else t.dir.lookup b :=
  lookup_eraseFiles _ (fun seg hseg => hheld seg (List.mem_of_mem_filter hseg)) _ b

omit [DecidableEq Name] in
/-- The file of a segment that stays is not among those that are deleted. -/
theorem lookup_release_kept (hheld : ∀ seg ∈ t.held, seg.deleteOnDrop = true)
    (hdistinct : ((t.segments ++ t.held).map Segment.baseOffset).Nodup) {x : Segment}
    (hx : x ∈ t.segments ++ t.release.held) :
    t.release.dir.lookup x.baseOffset = t.dir.lookup x.baseOffset := by
  rw [Topic.lookup_release hheld, if_neg]
  intro hmem
  obtain ⟨y, hy, hyx⟩ := List.mem_map.mp hmem
  obtain ⟨hyheld, hyshared⟩ := List.mem_filter.mp hy
  have hxin : x ∈ t.segments ++ t.held := by
    rcases List.mem_append.mp hx with hx | hx
    · exact List.mem_append_left _ hx
    · exact List.mem_append_right _ (List.mem_of_mem_filter hx)
  have hyx' : y = x :=
    List.inj_on_of_nodup_map hdistinct (List.mem_append_right _ hyheld) hxin hyx
  subst hyx'
  rcases List.mem_append.mp hx with hx | hx
  · have hdup := List.disjoint_of_nodup_append (by simpa using hdistinct)
    exact hdup (List.mem_map_of_mem hx) (List.mem_map_of_mem hyheld)
  · have hshared := (List.mem_filter.mp hx).2
    simp [hshared] at hyshared

omit [DecidableEq Name] in
/-- A file that `release` leaves was there before, and its segment stays with it. -/
theorem lookup_of_release (hheld : ∀ seg ∈ t.held, seg.deleteOnDrop = true) {b : Nat} {file : Bytes}
    (hb : t.release.dir.lookup b = some file) :
    t.dir.lookup b = some file ∧ (b ∈ (t.segments ++ t.held).map Segment.baseOffset →
      b ∈ (t.segments ++ t.release.held).map Segment.baseOffset) := by
  rw [Topic.lookup_release hheld] at hb
  split_ifs at hb with hdead
  refine ⟨hb, fun hmem => ?_⟩
  obtain ⟨x, hx, rfl⟩ := List.mem_map.mp hmem
  refine List.mem_map_of_mem ?_
  rcases List.mem_append.mp hx with hx | hx
  · exact List.mem_append_left _ hx
  · refine List.mem_append_right _ (List.mem_filter.mpr ⟨hx, ?_⟩)
    by_contra hns
    exact hdead (List.mem_map_of_mem (List.mem_filter.mpr ⟨hx, by simpa using hns⟩))

end Topic

end ZenDB
