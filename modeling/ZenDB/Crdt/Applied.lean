import ZenDB.Crdt.Covers

namespace ZenDB.Crdt

open SortedMap

/-! What operations keep of the values they are applied to: sorted maps, and registers without
assignments that they have replaced. -/

variable {P S K V : Type} [LinearOrder S]

section Leaves

namespace Counter

theorem wf_apply [LinearOrder P] {c : Counter P} (hc : c.WF) (op : CounterOp) (peer : P) :
    (c.apply op peer).1.WF := by
  obtain ⟨delta⟩ := op
  rw [apply]
  split_ifs
  · exact hc
  · rw [addAt]
    split_ifs <;> exact WMap.insert hc peer trivial

end Counter

namespace OrSet

theorem wf_apply [LinearOrder K] {o : OrSet K S} (ho : o.WF) (op : OrSetOp K S) (stamp : S) :
    (o.apply op stamp).1.WF := by
  have hentry : ∀ key, ((get o.entries key).getD ⟨[], []⟩).WF := by
    intro key
    cases hget : get o.entries key with
    | none => exact ⟨WMap.nil, WMap.nil⟩
    | some entry => exact ho.2 key entry hget
  cases op with
  | add key => exact WMap.insert ho key ⟨(hentry key).1.insert stamp trivial, (hentry key).2⟩
  | remove key observed =>
    exact WMap.insert ho key ⟨(hentry key).1, sorted_updateAll _ (hentry key).2.1 _, fun _ _ _ => trivial⟩

end OrSet

namespace LwwSet

theorem wf_apply [LinearOrder K] [Inhabited S] {s : LwwSet K S} (hs : s.WF) (op : SetOp K)
    (stamp : S) : (s.apply op stamp).1.WF := by
  cases op with
  | add key => exact WMap.insert hs key trivial
  | remove key => exact WMap.insert hs key trivial

end LwwSet

namespace PriorityQueue

theorem wf_apply [DecidableEq V] {q : PriorityQueue S V} (hq : q.WF) (op : PqOp S V) (stamp : S) :
    (q.apply op stamp).1.WF := by
  cases op with
  | push priority value =>
    rw [apply]
    rcases get q.entries stamp with _ | (d | ⟨p, v, d⟩)
    · exact WMap.insert hq stamp trivial
    · exact WMap.insert hq stamp trivial
    · dsimp only
      split_ifs <;> exact hq
  | pop id =>
    rw [apply]
    dsimp only
    split_ifs
    · exact hq
    · rcases get q.entries id with _ | (d | ⟨p, v, d⟩) <;> exact WMap.insert hq id trivial

end PriorityQueue

namespace Text

omit [LinearOrder S] in
theorem wf_writeChar (after : Option (TextId S)) (characters : List Char) (id : TextId S)
    (v : Option (TextEntry S V)) (hv : ∀ entry, v = some entry → entry.WF) (entry : TextEntry S V)
    (h : writeChar after characters id v = some entry) : entry.WF := by
  rw [writeChar] at h
  cases hchar : characters[id.offset]? with
  | none =>
    rw [hchar] at h
    cases h
  | some character =>
    rw [hchar] at h
    cases v with
    | none =>
      cases h
      exact WMap.nil
    | some entry' =>
      dsimp only at h
      split_ifs at h
      cases h
      exact hv entry' rfl

theorem wf_deleteChar (stamp : S) (id : TextId S) (v : Option (TextEntry S V))
    (hv : ∀ entry, v = some entry → entry.WF) (entry : TextEntry S V)
    (h : deleteChar stamp id v = some entry) : entry.WF := by
  rw [deleteChar.eq_def] at h
  split_ifs at h
  cases v with
  | none =>
    cases h
    exact WMap.nil
  | some entry' =>
    dsimp only at h
    split_ifs at h
    cases h
    exact hv entry' rfl

theorem wf_formatChar (stamp : S) (key : String) (value : Option V) (v : Option (TextEntry S V))
    (hv : ∀ entry, v = some entry → entry.WF) (entry : TextEntry S V)
    (h : formatChar stamp key value v = some entry) : entry.WF := by
  have hold : (v.getD ⟨none, none, []⟩).WF := by
    cases v with
    | none => exact WMap.nil
    | some entry' => exact hv entry' rfl
  rw [formatChar] at h
  rcases hget : get (v.getD ⟨none, none, []⟩).attrs key with _ | ⟨_, existing⟩
  · rw [hget] at h
    cases h
    exact hold.insert key trivial
  · rw [hget] at h
    dsimp only at h
    split_ifs at h
    cases h
    exact hold.insert key trivial

theorem wf_apply [Inhabited S] {t : Text S V} (ht : t.WF) (op : TextOp S V) (stamp : S) :
    (t.apply op stamp).1.WF := by
  rw [apply.eq_def]
  split_ifs
  · exact ht
  · cases op with
    | insert after text =>
      dsimp only
      split_ifs
      · exact ht
      · exact ht
      · exact ht
      · cases t.entries.find? (conflicts after text.toList stamp) with
        | some e => exact ht
        | none => exact WMap.updateAll ht _ (wf_writeChar after text.toList)
    | delete ids =>
      dsimp only
      split_ifs
      · exact ht
      · exact WMap.updateAll ht _ (wf_deleteChar stamp)
    | format ids key value =>
      dsimp only
      split_ifs
      · exact ht
      · exact WMap.updateAll ht _ fun _ => wf_formatChar stamp key value

end Text

namespace MvRegister

/-- No assignment is both visible and replaced. -/
def Clean (r : MvRegister S V) : Prop :=
  ∀ id, contains r.removed id = true → get r.entries id = none

variable [DecidableEq V] {r : MvRegister S V}

theorem wf_apply (hr : r.WF) (op : MvRegisterOp S V) (stamp : S) : (r.apply op stamp).1.WF := by
  obtain ⟨value, replaces⟩ := op
  have hremoved := sorted_updateAll (fun _ => raise stamp) hr.2.1 replaces
  have hentries := sorted_eraseAll hr.1.1 replaces
  rw [apply]
  dsimp only
  split_ifs
  · exact hr
  · exact ⟨⟨hentries, fun _ _ _ => trivial⟩, hremoved, fun _ _ _ => trivial⟩
  · exact ⟨⟨sorted_insert hentries _ _, fun _ _ _ => trivial⟩, hremoved, fun _ _ _ => trivial⟩

/-- An id is replaced after the loop if it was before, or the loop went over it. -/
theorem contains_replaced (removed : List (S × S)) (replaces : List S) (stamp id : S) :
    contains (updateAll (fun _ => raise stamp) removed replaces).1 id = true ↔
      id ∈ replaces ∨ contains removed id = true := by
  rw [contains, get_updateAll (settles_raise stamp)]
  split_ifs with hid
  · refine iff_of_true ?_ (Or.inl hid)
    cases hget : get removed id with
    | none => rfl
    | some s => cases hraise : raise stamp (some s) <;> rfl
  · simp [hid, contains]

theorem clean_apply (hr : r.WF) (hclean : r.Clean) (op : MvRegisterOp S V) (stamp : S) :
    (r.apply op stamp).1.Clean := by
  obtain ⟨value, replaces⟩ := op
  have hloops : ∀ id, contains (updateAll (fun _ => raise stamp) r.removed replaces).1 id = true →
      get (eraseAll r.entries replaces).1 id = none := by
    intro id hid
    rw [get_eraseAll hr.1.1]
    split_ifs with hmem
    · rfl
    · exact hclean id (((contains_replaced _ _ _ _).mp hid).resolve_left hmem)
  rw [apply]
  dsimp only
  split_ifs with hconflict hdead
  · exact hclean
  · exact hloops
  · intro id hid
    rw [get_insert, if_neg, hloops id hid]
    rintro rfl
    exact hdead hid

theorem clean_merge {remote : MvRegister S V} (hr : r.WF) (hremote : remote.WF)
    (hok : Succeeds (r.merge remote)) : (r.merge remote).1.Clean := by
  intro id hid
  rw [removed_merge, contains_mergeRemovals hremote.2.1] at hid
  rw [get_merge hr hremote hok, if_pos hid]

end MvRegister

end Leaves

variable [LinearOrder P]

/-- The maps of a leaf are sorted, and a register shows nothing that it has replaced. -/
def Value.LeafTidy : Value P → Prop
  | .mvRegister r => r.WF ∧ r.Clean
  | v => v.LeafWF

def Value.Tidy (v : Value P) : Prop := v.All Value.LeafTidy

def Cell.Tidy (c : RowCell P) : Prop := c.All Value.LeafTidy

theorem Value.LeafTidy.leafWF {v : Value P} (h : v.LeafTidy) : v.LeafWF := by
  cases v with
  | mvRegister r => exact h.1
  | _ => exact h

theorem leafTidy_kept : KeptByLeaves True (Value.LeafTidy (P := P)) := by
  intro v r stamps hleaf htag hv hr hok
  have hwf := leafWF_kept v r stamps hleaf htag hv.leafWF hr.leafWF False.elim
  induction v, r, htag using Value.sameTagCases with
  | mvRegister a b =>
    refine ⟨hwf, MvRegister.clean_merge hv.1 hr.1 ?_⟩
    obtain ⟨c, hc⟩ := hok trivial
    rw [Value.merge] at hc
    rcases hmerge : (a.merge b).2 with e | d
    · rw [hmerge] at hc
      cases hc
    · exact ⟨d, hmerge⟩
  | scalar a b hab =>
    rw [Value.merge, if_neg (not_not.mpr hab)] at hwf ⊢
    split_ifs at hwf ⊢ <;> exact trivial
  | counter a b => exact hwf
  | orSet a b => exact hwf
  | priorityQueue a b => exact hwf
  | set a b => exact hwf
  | text a b => exact hwf
  | record a b => cases hleaf
  | list a b => cases hleaf

section AllMono

variable {L L' : Value P → Prop}

theorem Value.All.mono (h : ∀ v, L v → L' v) (v : Value P) : v.All L → v.All L' := by
  induction v using Value.containerInduction with
  | leaf v hleaf =>
    rw [all_leaf hleaf, all_leaf hleaf]
    exact h v
  | record fields ih =>
    rw [all_record, all_record]
    rintro ⟨hsorted, hall⟩
    refine ⟨hsorted, fun field c hc => ?_⟩
    rw [Cell.all_iff]
    exact fun v hv => ih _ (mem_of_get hc) v hv ((Cell.all_iff c).mp (hall field c hc) v hv)
  | list entries ih =>
    rw [all_list, all_list]
    rintro ⟨hsorted, hall⟩
    refine ⟨hsorted, fun id e he => (Cell.all_iff e.cell).mpr fun v hv => ?_⟩
    exact ih _ (mem_of_get he) v hv ((Cell.all_iff e.cell).mp (hall id e he) v hv)

theorem Cell.All.mono (h : ∀ v, L v → L' v) {c : RowCell P} (hc : c.All L) : c.All L' := by
  rw [Cell.all_iff] at hc ⊢
  exact fun v hv => Value.All.mono h v (hc v hv)

end AllMono

theorem Value.Tidy.wf {v : Value P} (h : v.Tidy) : v.WF := Value.All.mono (fun _ => LeafTidy.leafWF) v h

theorem Cell.Tidy.wf {c : RowCell P} (h : c.Tidy) : c.WF := Cell.All.mono (fun _ => Value.LeafTidy.leafWF) h

section ListOps

variable [Inhabited P]

/-- The element that an operation is about. -/
def ListOp.target (op : ListOp P) (stamp : EventStamp P) : EventStamp P :=
  match op with
  | .insert _ _ => stamp
  | .delete id => id

/-- What an operation would write of its element into an empty list. -/
def ListOp.written (op : ListOp P) (stamp : EventStamp P) : RowEntry P :=
  match op with
  | .insert after value => ⟨.known after, ⟨some value, stamp⟩⟩
  | .delete _ => ⟨.unknown, ⟨none, stamp⟩⟩

omit [LinearOrder P] [Inhabited P] in
theorem adoptPosition_known [DecidableEq P] (entry : RowEntry P) (id : EventStamp P)
    (after : Option (EventStamp P)) :
    adoptPosition entry id (.known after) = resolvePosition entry id after := by
  cases after <;> rfl

theorem ListOp.apply_zero (entries : List (EventStamp P × RowEntry P)) {op : ListOp P}
    {stamp : EventStamp P} (h : op.target stamp = default) :
    op.apply entries stamp = (entries, .error .zeroId) := by
  cases op <;> exact if_pos h

/-- An operation merges a list that has only its element. -/
theorem ListOp.apply_eq (entries : List (EventStamp P × RowEntry P)) {op : ListOp P}
    {stamp : EventStamp P} (h : op.target stamp ≠ default) :
    (op.apply entries stamp).1 =
        (mergeMap mergeEntry entries [(op.target stamp, op.written stamp)] false).1 ∧
      ∀ c, (op.apply entries stamp).2 = .ok c ↔
        (mergeMap mergeEntry entries [(op.target stamp, op.written stamp)] false).2 = .ok c := by
  cases op with
  | insert after value =>
    have hstamp : stamp ≠ default := h
    rw [apply, if_neg hstamp, target, written]
    simp only [mergeMap]
    cases get entries stamp with
    | none => exact ⟨rfl, fun c => by simp⟩
    | some entry =>
      simp only [mergeEntry, adoptPosition_known]
      rcases resolvePosition entry stamp after with ⟨entry', e | positioned⟩
      · exact ⟨rfl, fun c => by simp⟩
      · rcases hjoin : entry'.cell.join ⟨some value, stamp⟩ with ⟨w, e | d⟩
        · simp [hjoin, Except.map, Except.mapError]
        · simp [hjoin, Except.map, Except.mapError, Bool.or_comm]
  | delete id =>
    have hid : id ≠ default := h
    rw [apply, if_neg hid, target, written]
    simp only [mergeMap]
    cases get entries id with
    | none => exact ⟨rfl, fun c => by simp⟩
    | some entry =>
      simp only [mergeEntry, adoptPosition, ListPosition.after?]
      rcases entry.cell.join ⟨none, stamp⟩ with ⟨w, e | d⟩
      · simp [Except.map, Except.mapError]
      · simp [Except.map, Except.mapError]

theorem ListOp.succeeds_apply {entries : List (EventStamp P × RowEntry P)} {op : ListOp P}
    {stamp : EventStamp P} : Succeeds (op.apply entries stamp) ↔ op.target stamp ≠ default ∧
      Succeeds (mergeMap mergeEntry entries [(op.target stamp, op.written stamp)] false) := by
  by_cases h : op.target stamp = default
  · rw [apply_zero entries h]
    simp [Succeeds, h]
  · rw [and_iff_right h]
    exact exists_congr (apply_eq entries h).2

end ListOps

section Applied

variable [Inhabited P] {L : Value P → Prop} {strict : Prop}

/-- Operations on a leaf keep `L`. -/
def KeptByOps (L : Value P → Prop) : Prop :=
  ∀ v op stamp, v.isLeaf = true → L v → L (v.apply op stamp).1

theorem Value.isLeaf_apply (v : Value P) (op : TypeOp P) (stamp : EventStamp P) :
    (v.apply op stamp).1.isLeaf = v.isLeaf := by
  cases v <;> cases op <;> rfl

theorem leafWF_applied : KeptByOps (Value.LeafWF (P := P)) := by
  intro v op stamp hleaf hv
  cases v with
  | scalar s => cases op <;> exact trivial
  | counter c => cases op with
    | counter op => exact Counter.wf_apply hv op _
    | _ => exact hv
  | mvRegister r => cases op with
    | mvRegister op => exact MvRegister.wf_apply hv op stamp
    | _ => exact hv
  | orSet o => cases op with
    | orSet op => exact OrSet.wf_apply hv op stamp
    | _ => exact hv
  | priorityQueue q => cases op with
    | priorityQueue op => exact PriorityQueue.wf_apply hv op stamp
    | _ => exact hv
  | set s => cases op with
    | set op => exact LwwSet.wf_apply hv op stamp
    | _ => exact hv
  | text t => cases op with
    | text op => exact Text.wf_apply hv op stamp
    | _ => exact hv
  | record fields => cases hleaf
  | list entries => cases hleaf

theorem leafTidy_applied : KeptByOps (Value.LeafTidy (P := P)) := by
  intro v op stamp hleaf hv
  have hwf := leafWF_applied v op stamp hleaf hv.leafWF
  cases v with
  | mvRegister r => cases op with
    | mvRegister op => exact ⟨hwf, MvRegister.clean_apply hv.1 hv.2 op stamp⟩
    | _ => exact hv
  | record fields => cases hleaf
  | list entries => cases hleaf
  | scalar s => cases op <;> exact hwf
  | counter c => cases op <;> exact hwf
  | orSet o => cases op <;> exact hwf
  | priorityQueue q => cases op <;> exact hwf
  | set s => cases op <;> exact hwf
  | text t => cases op <;> exact hwf

/-- The values that an operation puts into a list as they are. -/
def TypeOp.AllInserted (L : Value P → Prop) : TypeOp P → Prop
  | .list (.insert _ value) => value.All L
  | _ => True

omit [Inhabited P] in
theorem all_mergeEntry (hL : KeptByLeaves strict L) {id : EventStamp P} {entry remote : RowEntry P}
    (hentry : entry.cell.All L) (hremote : remote.cell.All L)
    (hok : strict → Succeeds (mergeEntry id entry remote)) :
    (mergeEntry id entry remote).1.cell.All L := by
  rcases cell_mergeEntry id entry remote with ⟨-, heq⟩ | ⟨hiff, heq⟩
  · rw [heq]
    exact hentry
  · rw [heq]
    exact Cell.all_join hL hentry hremote fun hs => hiff.mp (hok hs)

theorem ListOp.all_apply (hL : KeptByLeaves strict L) {entries : List (EventStamp P × RowEntry P)}
    (hentries : WMap (fun e => e.cell.All L) entries) {op : ListOp P} {stamp : EventStamp P}
    (hop : TypeOp.AllInserted L (.list op)) (hok : strict → Succeeds (op.apply entries stamp)) :
    WMap (fun e => e.cell.All L) (op.apply entries stamp).1 := by
  by_cases htarget : op.target stamp = default
  · rw [apply_zero entries htarget]
    exact hentries
  · rw [(apply_eq entries htarget).1]
    have hwritten : (op.written stamp).cell.All L := by
      cases op with
      | insert after value => exact hop
      | delete id => exact trivial
    refine WMap.mergeMap strict ?_ hentries ?_ false fun hs => (succeeds_apply.mp (hok hs)).2
    · intro e he entry hentry hok'
      obtain rfl := List.mem_singleton.mp he
      exact all_mergeEntry hL hentry hwritten hok'
    · intro e he
      obtain rfl := List.mem_singleton.mp he
      exact hwritten

theorem Value.succeeds_apply_list {entries : List (EventStamp P × RowEntry P)} {op : ListOp P}
    {stamp : EventStamp P} :
    Succeeds ((Value.list entries).apply (.list op) stamp) ↔ Succeeds (op.apply entries stamp) := by
  rw [Value.apply]
  cases h : (op.apply entries stamp).2 <;> simp [Succeeds, h, Except.mapError]

theorem Value.all_apply (hL : KeptByLeaves strict L) (hops : KeptByOps L) {v : Value P}
    (hv : v.All L) {op : TypeOp P} {stamp : EventStamp P} (hop : op.AllInserted L)
    (hok : strict → Succeeds (v.apply op stamp)) : (v.apply op stamp).1.All L := by
  by_cases hleaf : v.isLeaf = true
  · rw [all_leaf hleaf] at hv
    rw [all_leaf ((v.isLeaf_apply op stamp).trans hleaf)]
    exact hops v op stamp hleaf hv
  · cases v with
    | record fields => cases op <;> exact hv
    | list entries =>
      cases op with
      | list op =>
        rw [all_list] at hv
        rw [Value.apply, all_list]
        exact ListOp.all_apply hL hv hop fun hs => succeeds_apply_list.mp (hok hs)
      | _ => exact hv
    | _ => exact absurd rfl hleaf

/-- The values that can be made from empty ones by operations that go through; scalars have no
operations and are written as a whole. -/
inductive Built : Value P → Prop where
  | empty (tag : TypeTag) : Built tag.emptyValue
  | scalar (s : Scalar) : Built (.scalar s)
  | apply {v : Value P} {op : TypeOp P} {stamp : EventStamp P} (hv : Built v)
      (hop : ∀ after value, op = .list (.insert after value) → Built value)
      (hok : Succeeds (v.apply op stamp)) : Built (v.apply op stamp).1

omit [Inhabited P] in
theorem TypeOp.allInserted_of {op : TypeOp P}
    (h : ∀ after value, op = .list (.insert after value) → value.All L) : op.AllInserted L := by
  cases op with
  | list op =>
    cases op with
    | insert after value => exact h after value rfl
    | delete id => exact trivial
  | _ => exact trivial

omit [Inhabited P] in
theorem tidy_emptyValue (tag : TypeTag) : (tag.emptyValue : Value P).Tidy := by
  cases tag with
  | mvRegister => exact ⟨⟨WMap.nil, WMap.nil⟩, fun id hid => rfl⟩
  | counter => exact WMap.nil
  | orSet => exact WMap.nil
  | priorityQueue => exact WMap.nil
  | set => exact WMap.nil
  | text => exact WMap.nil
  | record => exact (all_record []).mpr WMap.nil
  | list => exact (all_list []).mpr WMap.nil
  | _ => exact trivial

theorem Built.tidy {v : Value P} (h : Built v) : v.Tidy := by
  induction h with
  | empty tag => exact tidy_emptyValue tag
  | scalar s => exact trivial
  | apply hv hop hok ih ihop =>
    exact Value.all_apply leafTidy_kept leafTidy_applied ih (TypeOp.allInserted_of ihop) fun _ => hok

end Applied

section Self

theorem clockCovers_self (c : Option S) : ClockCovers c c := by
  cases c <;> simp [ClockCovers]

section Leaves

variable [LinearOrder K]

theorem Counter.covers_self (c : Counter P) : c.Covers c :=
  CoversMap.refl fun _ _ _ => ⟨le_rfl, le_rfl⟩

theorem MvRegister.covers_self {r : MvRegister S V} (h : r.Clean) : r.Covers r :=
  ⟨CoversMap.refl fun _ _ _ => le_rfl, fun _ _ h => Or.inr h, h⟩

theorem OrSet.covers_self (o : OrSet K S) : o.Covers o :=
  CoversMap.refl fun _ _ _ => ⟨CoversMap.refl fun _ _ _ => trivial, CoversMap.refl fun _ _ _ => le_rfl⟩

theorem PqEntry.covers_self (e : PqEntry S V) : e.Covers e := ⟨fun _ h => h, clockCovers_self _⟩

theorem PriorityQueue.covers_self (q : PriorityQueue S V) : q.Covers q :=
  CoversMap.refl fun _ e _ => e.covers_self

theorem LwwSet.covers_self (s : LwwSet K S) : s.Covers s :=
  CoversMap.refl fun _ _ _ => ⟨le_rfl, le_rfl⟩

theorem TextEntry.covers_self (e : TextEntry S V) : e.Covers e :=
  ⟨fun _ h => h, clockCovers_self _, CoversMap.refl fun _ _ _ => le_rfl⟩

theorem Text.covers_self (t : Text S V) : t.Covers t := CoversMap.refl fun _ e _ => e.covers_self

end Leaves

theorem leafTidy_covers_self {v : Value P} (hleaf : v.isLeaf = true) (hv : v.LeafTidy) :
    v.Covers v := by
  cases v with
  | scalar s => simp [Value.Covers]
  | counter c => simpa [Value.Covers] using c.covers_self
  | mvRegister r => simpa [Value.Covers] using MvRegister.covers_self hv.2
  | orSet o => simpa [Value.Covers] using o.covers_self
  | priorityQueue q => simpa [Value.Covers] using q.covers_self
  | set s => simpa [Value.Covers] using s.covers_self
  | text t => simpa [Value.Covers] using t.covers_self
  | record fields => cases hleaf
  | list entries => cases hleaf

theorem Cell.covers_self_of {c : RowCell P} (h : ∀ v, c.value = some v → v.Covers v) : c.Covers c := by
  rw [Cell.covers_iff]
  refine ⟨le_rfl, fun rv hrv v hv _ => ?_⟩
  rw [hrv] at hv
  cases hv
  exact h rv hrv

/-- A tidy value holds everything of itself, so that a merge with it changes nothing. -/
theorem Value.Tidy.covers_self (v : Value P) : v.Tidy → v.Covers v := by
  induction v using Value.containerInduction with
  | leaf v hleaf =>
    intro hv
    exact leafTidy_covers_self hleaf ((all_leaf hleaf).mp hv)
  | record fields ih =>
    intro hv
    obtain ⟨hsorted, hall⟩ := (all_record fields).mp hv
    have h : coversFields fields fields := (coversFields_iff hsorted).mpr <|
      CoversMap.refl fun field c hc => Cell.covers_self_of fun v hv =>
        ih _ (mem_of_get hc) v hv ((Cell.all_iff c).mp (hall field c hc) v hv)
    simpa [Value.Covers] using h
  | list entries ih =>
    intro hv
    obtain ⟨hsorted, hall⟩ := (all_list entries).mp hv
    have h : coversEntries entries entries := (coversEntries_iff hsorted).mpr <|
      CoversMap.refl fun id e he => ⟨Or.inr rfl, Cell.covers_self_of fun v hv =>
        ih _ (mem_of_get he) v hv ((Cell.all_iff e.cell).mp (hall id e he) v hv)⟩
    simpa [Value.Covers] using h

theorem Cell.Tidy.covers_self {c : RowCell P} (hc : c.Tidy) : c.Covers c :=
  Cell.covers_self_of fun v hv => Value.Tidy.covers_self v ((Cell.all_iff c).mp hc v hv)

/-- A merge of a tidy cell into itself goes through and changes nothing. -/
theorem Cell.Tidy.join_self {c : RowCell P} (hc : c.Tidy) : c.join c = (c, .ok false) := by
  have htells := joinTells hc.wf hc.wf
  have hanswer := htells.1.mpr hc.covers_self
  exact Prod.ext ((htells.2 ⟨false, hanswer⟩).mpr hc.covers_self) hanswer

end Self

end ZenDB.Crdt
