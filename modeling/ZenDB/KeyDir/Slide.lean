import Mathlib.Data.Set.Lattice
import Mathlib.Order.CompletePartialOrder
import Mathlib.Order.Interval.Set.Defs
import ZenDB.Lib.FiniteMap
import ZenDB.KeyDir.Model

namespace ZenDB

variable {K : Type}

/-- The byte positions of a record. -/
def EntryMeta.range (m : EntryMeta) : Set Nat := Set.Ico m.offset (m.offset+m.recordSize)

/-- The bytes of a record. -/
def EntryMeta.bytes (b : Bytes) (m : EntryMeta) : Bytes := (b.drop m.offset).take m.recordSize

theorem EntryMeta.slice?_eq {b : Bytes} {m : EntryMeta} (h : m.offset+m.recordSize ≤ b.length) :
    slice? b m.offset m.recordSize = some (m.bytes b) := by
  rw [slice?, if_pos h, EntryMeta.bytes]

theorem EntryMeta.bytes_of_slice? {b xs : Bytes} {m : EntryMeta}
    (h : slice? b m.offset m.recordSize = some xs) : m.bytes b = xs := by
  rw [slice?] at h
  split_ifs at h
  exact Option.some.inj h

theorem EntryMeta.length_bytes {b : Bytes} {m : EntryMeta}
    (h : m.offset+m.recordSize ≤ b.length) : (m.bytes b).length = m.recordSize := by
  rw [EntryMeta.bytes, List.length_take, List.length_drop]
  omega

/-- Of two disjoint records the one in front ends before the other begins. -/
theorem EntryMeta.end_le_of_disjoint {m n : EntryMeta} (h : Disjoint m.range n.range)
    (hle : m.offset ≤ n.offset) (hn : 0 < n.recordSize) : m.offset+m.recordSize ≤ n.offset := by
  by_contra hlt
  have hm : n.offset ∈ m.range := ⟨hle, by omega⟩
  have hself : n.offset ∈ n.range := ⟨le_rfl, by omega⟩
  exact Set.disjoint_left.mp h hm hself

/-- The entries of the index laid end to end from `cursor` on. -/
def relocate : Nat → List (Sigma (fun _ : K => EntryMeta)) → List (Sigma (fun _ : K => EntryMeta))
  | _, [] => []
  | cursor, ⟨key, m⟩ :: es => ⟨key, ⟨cursor, m.recordSize⟩⟩ :: relocate (cursor+m.recordSize) es

theorem keys_relocate (cursor : Nat) (es : List (Sigma (fun _ : K => EntryMeta))) :
    (relocate cursor es).keys = es.keys := by
  induction es generalizing cursor with
  | nil => rfl
  | cons e es ih =>
    have h := ih (cursor+e.2.recordSize)
    simp only [List.keys, relocate, List.map_cons] at h ⊢
    rw [h]

/-- Bytes from `p.length` on are still those of `b`. -/
theorem slice?_behind (p b : Bytes) (off n : Nat) (hp : p.length ≤ off) (hb : p.length ≤ b.length) :
    slice? (p ++ b.drop p.length) off n = slice? b off n := by
  have hlen : (p ++ b.drop p.length).length = b.length := by
    rw [List.length_append, List.length_drop]; omega
  have hdrop : (p ++ b.drop p.length).drop off = b.drop off := by
    rw [List.drop_append, List.drop_of_length_le hp, List.nil_append, List.drop_drop]
    congr 1
    omega
  rw [slice?, slice?, hlen, hdrop]

theorem drop_of_slice? (b xs : Bytes) (off n : Nat) (h : slice? b off n = some xs) :
    b.drop off = xs ++ b.drop (off+n) := by
  rw [slice?] at h
  split_ifs at h with hle
  rw [← Option.some.inj h, ← List.drop_drop, List.take_append_drop]

namespace KeyDir

/-- One move of the sweep: the record slides down to the end of `p`. -/
theorem moveTo_spec (p b xs : Bytes) (m : EntryMeta) (hsrc : p.length ≤ m.offset)
    (h : slice? b m.offset m.recordSize = some xs) (hn : xs.length = m.recordSize) :
    moveTo (p ++ b.drop p.length) m p.length =
      some (p ++ xs ++ b.drop (p.length+m.recordSize)) := by
  have hle : m.offset+m.recordSize ≤ b.length := by
    by_contra hlt
    rw [slice?, if_neg hlt] at h
    cases h
  unfold moveTo
  split_ifs with hne
  · have hs : slice? (p ++ b.drop p.length) m.offset m.recordSize = some xs := by
      rw [slice?_behind p b _ _ hsrc (by omega), h]
    have hw := splice?_prefix p (b.drop p.length) xs p.length rfl
      (by rw [List.length_drop]; omega)
    rw [List.drop_drop, hn] at hw
    simp only [copyWithin?, hs, Option.bind_eq_bind, Option.bind_some, hw]
  · have heq : m.offset = p.length := by omega
    rw [heq] at h
    rw [drop_of_slice? b xs _ _ h, List.append_assoc]

/-- An empty record moves no byte, wherever it lies. -/
theorem moveTo_empty (mmap : Bytes) (m : EntryMeta) (cursor : Nat) (hm : m.recordSize = 0)
    (hsrc : m.offset ≤ mmap.length) (hdst : cursor ≤ mmap.length) :
    moveTo mmap m cursor = some mmap := by
  unfold moveTo
  split_ifs with hne
  · have hs : slice? mmap m.offset m.recordSize = some [] := by
      rw [hm, slice?, if_pos (by omega), List.take_zero]
    have hw : splice? mmap cursor [] = some mmap := by
      rw [splice?, if_pos (by simpa using hdst)]
      simp
    simp only [copyWithin?, hs, Option.bind_eq_bind, Option.bind_some, hw]
  · rfl

/-- What the sweep needs of the entries still to move: sorted by offset, disjoint, and inside the
first `limit` bytes; those that have bytes start at or behind the cursor. -/
structure Movable (limit cursor : Nat) (es : List (Sigma (fun _ : K => EntryMeta))) : Prop where
  sorted : es.Pairwise byOffset
  disjoint : es.Pairwise fun a b => Disjoint a.2.range b.2.range
  inside : ∀ e ∈ es, e.2.offset+e.2.recordSize ≤ limit
  ahead : ∀ e ∈ es, 0 < e.2.recordSize → cursor ≤ e.2.offset

theorem Movable.tail {limit cursor : Nat} {e : Sigma (fun _ : K => EntryMeta)}
    {es : List (Sigma (fun _ : K => EntryMeta))} (h : Movable limit cursor (e :: es)) :
    Movable limit (cursor+e.2.recordSize) es := by
  obtain ⟨hle, hsorted⟩ := List.pairwise_cons.mp h.sorted
  obtain ⟨hdis, hdisjoint⟩ := List.pairwise_cons.mp h.disjoint
  refine ⟨hsorted, hdisjoint, fun x hx => h.inside x (List.mem_cons_of_mem _ hx), ?_⟩
  intro x hx hpos
  rcases Nat.eq_zero_or_pos e.2.recordSize with hzero | he
  · rw [hzero]
    exact h.ahead x (List.mem_cons_of_mem _ hx) hpos
  · have hfront := h.ahead e (by simp) he
    have hend := EntryMeta.end_le_of_disjoint (hdis x hx) (hle x hx) hpos
    omega

theorem Movable.take {limit cursor : Nat} {done todo : List (Sigma (fun _ : K => EntryMeta))}
    (h : Movable limit cursor (done ++ todo)) : Movable limit cursor done :=
  ⟨(List.pairwise_append.mp h.sorted).1, (List.pairwise_append.mp h.disjoint).1,
    fun e he => h.inside e (List.mem_append_left _ he),
    fun e he => h.ahead e (List.mem_append_left _ he)⟩

/-- The entries in front of a record with bytes lie in front of its first byte. -/
theorem Movable.before {limit cursor : Nat} {done todo : List (Sigma (fun _ : K => EntryMeta))}
    (h : Movable limit cursor (done ++ todo)) {e : Sigma (fun _ : K => EntryMeta)} (he : e ∈ todo)
    (hpos : 0 < e.2.recordSize) : Movable e.2.offset cursor done := by
  refine {h.take with inside := ?_}
  intro d hd
  have hle := (List.pairwise_append.mp h.sorted).2.2 d hd e he
  have hdis := (List.pairwise_append.mp h.disjoint).2.2 d hd e he
  exact EntryMeta.end_le_of_disjoint hdis hle hpos

/-- The records of `es` as `b` stores them, one behind the other. -/
def records (b : Bytes) (es : List (Sigma (fun _ : K => EntryMeta))) : Bytes :=
  es.flatMap fun e => e.2.bytes b

/-- The sweep packs the records behind `p` and does not run past `limit`. -/
theorem sweep_spec (b : Bytes) (limit : Nat) (hlimit : limit ≤ b.length)
    (es : List (Sigma (fun _ : K => EntryMeta))) (p : Bytes) (h : Movable limit p.length es)
    (hp : p.length ≤ limit) :
    sweep (p ++ b.drop p.length) p.length es =
      some (p ++ records b es ++ b.drop (p.length+(records b es).length),
        p.length+(records b es).length, relocate p.length es) ∧
      p.length+(records b es).length ≤ limit := by
  induction es generalizing p with
  | nil => simp [sweep, records, relocate, hp]
  | cons e es ih =>
    obtain ⟨key, m⟩ := e
    have hin : m.offset+m.recordSize ≤ limit := h.inside ⟨key, m⟩ (by simp)
    have hlen : (m.bytes b).length = m.recordSize := EntryMeta.length_bytes (by omega)
    have hmove : moveTo (p ++ b.drop p.length) m p.length =
        some (p ++ m.bytes b ++ b.drop (p.length+m.recordSize)) := by
      rcases Nat.eq_zero_or_pos m.recordSize with hzero | hpos
      · have hnil : m.bytes b = [] := List.length_eq_zero_iff.mp (by omega)
        have hfile : (p ++ b.drop p.length).length = b.length := by
          rw [List.length_append, List.length_drop]; omega
        rw [moveTo_empty _ m _ hzero (by omega) (by omega), hnil, hzero, List.append_nil,
          Nat.add_zero]
      · exact moveTo_spec p b _ m (h.ahead ⟨key, m⟩ (by simp) hpos)
          (EntryMeta.slice?_eq (by omega)) hlen
    have hnext : (p ++ m.bytes b).length = p.length+m.recordSize := by
      rw [List.length_append, hlen]
    have hroom : p.length+m.recordSize ≤ limit := by
      rcases Nat.eq_zero_or_pos m.recordSize with hzero | hpos
      · omega
      · have hfront : p.length ≤ m.offset := h.ahead ⟨key, m⟩ (by simp) hpos
        omega
    have htail : Movable limit (p.length+m.recordSize) es := h.tail
    obtain ⟨hsweep, hle⟩ := ih (p ++ m.bytes b) (by rw [hnext]; exact htail)
      (by rw [hnext]; exact hroom)
    rw [hnext] at hsweep hle
    have hrecords : records b (⟨key, m⟩ :: es) = m.bytes b ++ records b es := rfl
    rw [hrecords, List.length_append, hlen, ← Nat.add_assoc]
    refine ⟨?_, hle⟩
    simp only [sweep, hmove, hsweep, Option.bind_eq_bind, Option.bind_some, relocate]
    rw [List.append_assoc p]
    rfl

theorem length_records (b : Bytes) (es : List (Sigma (fun _ : K => EntryMeta)))
    (h : ∀ e ∈ es, e.2.offset+e.2.recordSize ≤ b.length) :
    (records b es).length = (es.map fun e => e.2.recordSize).sum := by
  induction es with
  | nil => rfl
  | cons e es ih =>
    have hlen : (e.2.bytes b).length = e.2.recordSize := EntryMeta.length_bytes (h e (by simp))
    have hrecords : records b (e :: es) = e.2.bytes b ++ records b es := rfl
    rw [hrecords, List.length_append, hlen, ih fun x hx => h x (List.mem_cons_of_mem _ hx),
      List.map_cons, List.sum_cons]

theorem relocate_append (cursor : Nat) (done todo : List (Sigma (fun _ : K => EntryMeta))) :
    relocate cursor (done ++ todo) =
      relocate cursor done ++ relocate (cursor+(done.map fun e => e.2.recordSize).sum) todo := by
  induction done generalizing cursor with
  | nil => rfl
  | cons e done ih =>
    simp only [List.cons_append, relocate, ih, List.map_cons, List.sum_cons, Nat.add_assoc]

/-- While the sweep goes on, the records it has not come to are as they were. -/
theorem slice?_of_todo (b p : Bytes) (limit : Nat) (hlimit : limit ≤ b.length)
    {done todo : List (Sigma (fun _ : K => EntryMeta))} (h : Movable limit p.length (done ++ todo))
    {e : Sigma (fun _ : K => EntryMeta)} (he : e ∈ todo) (hp : p.length ≤ limit) :
    slice? (p ++ records b done ++ b.drop (p.length+(records b done).length)) e.2.offset
      e.2.recordSize = slice? b e.2.offset e.2.recordSize := by
  have hin := h.inside e (List.mem_append_right _ he)
  have hnext : (p ++ records b done).length = p.length+(records b done).length :=
    List.length_append
  rcases Nat.eq_zero_or_pos e.2.recordSize with hzero | hpos
  · obtain ⟨-, hend⟩ := sweep_spec b limit hlimit done p h.take hp
    have hfile : (p ++ records b done ++ b.drop (p.length+(records b done).length)).length =
        b.length := by
      rw [List.length_append, hnext, List.length_drop]; omega
    rw [slice?, slice?, hfile, hzero, List.take_zero, List.take_zero]
  · have hahead := h.ahead e (List.mem_append_right _ he) hpos
    obtain ⟨-, hend⟩ := sweep_spec b e.2.offset (by omega) done p (h.before he hpos) hahead
    rw [← hnext] at hend ⊢
    exact slice?_behind _ b _ _ hend (by omega)

/-- The entries of an index whose records are disjoint ranges between the header and the tail of
the log, in a file with room for the sentinel. -/
structure Laid [DecidableEq K] (kd : KeyDir K) : Prop where
  header : headerSize ≤ kd.stats.dataSize
  disjoint : ∀ k₁ k₂ m₁ m₂, kd.index.lookup k₁ = some m₁ → kd.index.lookup k₂ = some m₂ →
    k₁ ≠ k₂ → Disjoint m₁.range m₂.range
  inside : ∀ k m, kd.index.lookup k = some m →
    headerSize ≤ m.offset ∧ m.offset+m.recordSize ≤ kd.stats.dataSize
  room : kd.stats.dataSize+4 ≤ kd.mmap.length

/-- `kd'` holds exactly the records `es` of `kd`, packed behind the header. -/
structure Packed [DecidableEq K] (kd : KeyDir K) (es : List (Sigma (fun _ : K => EntryMeta)))
    (kd' : KeyDir K) : Prop where
  file : ∃ rest, kd'.mmap =
    kd.mmap.take headerSize ++ records kd.mmap es ++ leBytes 4 sentinel ++ rest
  dataSize : kd'.stats.dataSize = headerSize+(records kd.mmap es).length
  deadBytes : kd'.stats.deadBytes = 0
  length : kd'.mmap.length = max (kd'.stats.dataSize+4) kd.config.initialCapacity
  absent : ∀ key, kd.index.lookup key = none → kd'.index.lookup key = none
  moved : ∀ key m, kd.index.lookup key = some m → ∃ m', kd'.index.lookup key = some m' ∧
    m'.recordSize = m.recordSize ∧
    slice? kd'.mmap m'.offset m'.recordSize = some (m.bytes kd.mmap)

instance byOffset_total : Std.Total (byOffset (K := K)) := ⟨fun a b => Nat.le_total a.2.offset b.2.offset⟩
instance byOffset_trans : IsTrans (Sigma (fun _ : K => EntryMeta)) byOffset :=
  ⟨fun _ _ _ hab hbc => Nat.le_trans hab hbc⟩

variable [DecidableEq K] {kd : KeyDir K}

theorem Laid.movable (h : kd.Laid) :
    Movable kd.stats.dataSize headerSize (kd.index.entries.insertionSort byOffset) := by
  have hperm : (kd.index.entries.insertionSort byOffset).Perm kd.index.entries :=
    List.perm_insertionSort _ _
  have hlook : ∀ e ∈ kd.index.entries.insertionSort byOffset, kd.index.lookup e.1 = some e.2 :=
    fun e he => AList.mem_lookup_iff.mpr (hperm.mem_iff.mp he)
  have hnodup := (List.perm_nodupKeys hperm).mpr kd.index.nodupKeys
  refine ⟨List.pairwise_insertionSort _ _, ?_, ?_, ?_⟩
  · refine hnodup.pairwise_ne.imp_of_mem ?_
    intro a b ha hb hne
    exact h.disjoint _ _ _ _ (hlook a ha) (hlook b hb) hne
  · exact fun e he => (h.inside _ _ (hlook e he)).2
  · exact fun e he _ => (h.inside _ _ (hlook e he)).1

/-- The file without its header is what lies behind the header. -/
theorem Laid.header_append (h : kd.Laid) :
    (kd.mmap.take headerSize).length = headerSize ∧
      kd.mmap.take headerSize ++ kd.mmap.drop (kd.mmap.take headerSize).length = kd.mmap := by
  have hroom := h.room
  have hheader := h.header
  have hlen : (kd.mmap.take headerSize).length = headerSize := by
    rw [List.length_take]; omega
  exact ⟨hlen, by rw [hlen, List.take_append_drop]⟩

/-- The sweep over the first of the sorted entries, whichever of them it has reached. -/
theorem Laid.sweep_eq (h : kd.Laid) {done todo : List (Sigma (fun _ : K => EntryMeta))}
    (hes : kd.index.entries.insertionSort byOffset = done ++ todo) :
    sweep kd.mmap headerSize done =
      some (kd.mmap.take headerSize ++ records kd.mmap done ++
          kd.mmap.drop (headerSize+(records kd.mmap done).length),
        headerSize+(records kd.mmap done).length, relocate headerSize done) ∧
      headerSize+(records kd.mmap done).length ≤ kd.stats.dataSize := by
  have hroom := h.room
  have hmovable := h.movable
  rw [hes] at hmovable
  obtain ⟨hlen, happend⟩ := h.header_append
  have hspec := sweep_spec kd.mmap kd.stats.dataSize (by omega) done (kd.mmap.take headerSize)
    (by rw [hlen]; exact hmovable.take) (by rw [hlen]; exact h.header)
  rw [happend, hlen] at hspec
  exact hspec

/-- The index after the entries have been moved: each key at its place in the packed file. -/
theorem lookup_relocated (es : List (Sigma (fun _ : K => EntryMeta))) (hnodup : es.NodupKeys)
    (index : KeyDirIndex K) {done todo : List (Sigma (fun _ : K => EntryMeta))} {key : K}
    {m : EntryMeta} (hes : es = done ++ ⟨key, m⟩ :: todo) (cursor : Nat) :
    (insertAll index (relocate cursor es)).lookup key =
      some ⟨cursor+(done.map fun e => e.2.recordSize).sum, m.recordSize⟩ := by
  have hmoved : (relocate cursor es).NodupKeys := by
    rw [List.NodupKeys, keys_relocate]
    exact hnodup
  have hmem : (⟨key, ⟨cursor+(done.map fun e => e.2.recordSize).sum, m.recordSize⟩⟩ :
      Sigma (fun _ : K => EntryMeta)) ∈ relocate cursor es := by
    rw [hes, relocate_append]
    simp [relocate]
  have hlook := (List.mem_dlookup_iff hmoved).mpr hmem
  rw [lookup_insertAll _ hmoved, hlook]
  rfl

/-- What `compact` leaves in the file and the index. -/
theorem Laid.compact_eq (h : kd.Laid) {es : List (Sigma (fun _ : K => EntryMeta))}
    (hes : kd.index.entries.insertionSort byOffset = es) :
    ∃ rest, kd.compact = some { kd with
        index := insertAll kd.index (relocate headerSize es)
        mmap := kd.mmap.take headerSize ++ records kd.mmap es ++ leBytes 4 sentinel ++ rest
        stats := ⟨headerSize+(records kd.mmap es).length, 0⟩ } ∧
      (kd.mmap.take headerSize ++ records kd.mmap es ++ leBytes 4 sentinel ++ rest).length =
        max (headerSize+(records kd.mmap es).length+4) kd.config.initialCapacity := by
  have hroom := h.room
  obtain ⟨hsweep, hle⟩ := h.sweep_eq (hes.trans (List.append_nil _).symm)
  obtain ⟨hlen, -⟩ := h.header_append
  have hfront : (kd.mmap.take headerSize ++ records kd.mmap es).length =
      headerSize+(records kd.mmap es).length := by rw [List.length_append, hlen]
  obtain ⟨q, hsent, -⟩ := splice?_next (kd.mmap.take headerSize ++ records kd.mmap es)
    (kd.mmap.drop (headerSize+(records kd.mmap es).length)) (leBytes 4 sentinel)
    (headerSize+(records kd.mmap es).length) hfront.symm
    (by rw [length_leBytes, List.length_drop]; omega)
  obtain ⟨rest, hcap⟩ := setLen_prefix
    (kd.mmap.take headerSize ++ records kd.mmap es ++ leBytes 4 sentinel) q
    (max (headerSize+(records kd.mmap es).length+4) kd.config.initialCapacity)
    (by rw [List.length_append, hfront, length_leBytes]; omega)
  refine ⟨rest, ?_, by rw [← hcap, length_setLen]⟩
  simp only [compact, hes, hsweep, hsent, hcap, Option.bind_eq_bind, Option.bind_some]
  rfl

theorem Laid.packed (h : kd.Laid) : ∃ kd', kd.compact = some kd' ∧
    Packed kd (kd.index.entries.insertionSort byOffset) kd' := by
  have hroom := h.room
  obtain ⟨hlen, -⟩ := h.header_append
  obtain ⟨rest, hcompact, hcapacity⟩ := h.compact_eq rfl
  have hperm : (kd.index.entries.insertionSort byOffset).Perm kd.index.entries :=
    List.perm_insertionSort _ _
  have hinside : ∀ e ∈ kd.index.entries.insertionSort byOffset,
      e.2.offset+e.2.recordSize ≤ kd.mmap.length := by
    intro e he
    have hin := h.movable.inside e he
    omega
  refine ⟨_, hcompact, ?_⟩
  generalize kd.index.entries.insertionSort byOffset = es at hperm hinside hcapacity ⊢
  have hnodup : es.NodupKeys := (List.perm_nodupKeys hperm).mpr kd.index.nodupKeys
  refine ⟨⟨rest, rfl⟩, rfl, rfl, hcapacity, ?_, ?_⟩
  · intro key hkey
    have hmoved : (relocate headerSize es).NodupKeys := by
      rw [List.NodupKeys, keys_relocate]
      exact hnodup
    have hnone : (relocate headerSize es).dlookup key = none := by
      rw [List.dlookup_eq_none, keys_relocate]
      intro hmem
      exact AList.lookup_eq_none.mp hkey ((hperm.map Sigma.fst).mem_iff.mp hmem)
    exact (lookup_insertAll _ hmoved _ _).trans (by rw [hnone, hkey]; rfl)
  · intro key m hkey
    have hmem : (⟨key, m⟩ : Sigma (fun _ : K => EntryMeta)) ∈ es :=
      hperm.mem_iff.mpr (AList.mem_lookup_iff.mp hkey)
    obtain ⟨done, todo, hes⟩ := List.append_of_mem hmem
    refine ⟨_, lookup_relocated es hnodup kd.index hes headerSize, rfl, ?_⟩
    have hsize := length_records kd.mmap done fun e he => hinside e (by rw [hes]; simp [he])
    have hrecords : records kd.mmap es =
        records kd.mmap done ++ m.bytes kd.mmap ++ records kd.mmap todo := by
      rw [hes, records, List.flatMap_append, List.flatMap_cons, ← List.append_assoc]
      rfl
    have hbytes : (m.bytes kd.mmap).length = m.recordSize :=
      EntryMeta.length_bytes (hinside ⟨key, m⟩ hmem)
    dsimp only
    rw [hrecords, show kd.mmap.take headerSize ++
        (records kd.mmap done ++ m.bytes kd.mmap ++ records kd.mmap todo) ++ leBytes 4 sentinel ++
        rest = (kd.mmap.take headerSize ++ records kd.mmap done) ++ m.bytes kd.mmap ++
        (records kd.mmap todo ++ leBytes 4 sentinel ++ rest) by simp only [List.append_assoc]]
    exact slice?_append _ _ _ _ _ (by rw [List.length_append, hlen, hsize]) hbytes.symm

/-- Compaction in place moves every live record intact: each step leaves the records it has not
come to as they were, and the file ends up as the header, the records in their old order and the
sentinel. -/
theorem compact_slides (h : kd.Laid) :
    ∃ es kd', es.Perm kd.index.entries ∧ es.Pairwise byOffset ∧
      (∀ done todo, es = done ++ todo → ∃ mmap cursor moved,
        sweep kd.mmap headerSize done = some (mmap, cursor, moved) ∧
        ∀ e ∈ todo, slice? mmap e.2.offset e.2.recordSize =
          slice? kd.mmap e.2.offset e.2.recordSize) ∧
      kd.compact = some kd' ∧ Packed kd es kd' := by
  obtain ⟨kd', hcompact, hpacked⟩ := h.packed
  refine ⟨_, kd', List.perm_insertionSort _ _, List.pairwise_insertionSort _ _, ?_, hcompact,
    hpacked⟩
  intro done todo hes
  have hroom := h.room
  have hmovable := h.movable
  rw [hes] at hmovable
  obtain ⟨hsweep, -⟩ := h.sweep_eq hes
  obtain ⟨hlen, -⟩ := h.header_append
  refine ⟨_, _, _, hsweep, ?_⟩
  intro e he
  have hframe := slice?_of_todo kd.mmap (kd.mmap.take headerSize) kd.stats.dataSize (by omega)
    (by rw [hlen]; exact hmovable) he (by rw [hlen]; exact h.header)
  rw [hlen] at hframe
  exact hframe

/-- A dead record in front, a gap of two bytes behind it. -/
theorem compact_slides_gap :
    ∃ kd', KeyDir.compact (K := UInt8) ⟨((∅ : KeyDirIndex UInt8).insert 1 ⟨6, 2⟩).insert 2 ⟨10, 1⟩,
      [75, 73, 82, 68, 0, 0, 7, 8, 0, 0, 9, 254, 255, 255, 255], ⟨8, fun _ => true⟩, ⟨11, 4⟩⟩ =
        some kd' ∧ kd'.stats.deadBytes = 0 ∧ kd'.mmap.length = max (kd'.stats.dataSize+4) 8 := by
  have hlaid : KeyDir.Laid (K := UInt8)
      ⟨((∅ : KeyDirIndex UInt8).insert 1 ⟨6, 2⟩).insert 2 ⟨10, 1⟩,
      [75, 73, 82, 68, 0, 0, 7, 8, 0, 0, 9, 254, 255, 255, 255], ⟨8, fun _ => true⟩, ⟨11, 4⟩⟩ := by
    have hlook : ∀ k m, (((∅ : KeyDirIndex UInt8).insert 1 ⟨6, 2⟩).insert 2 ⟨10, 1⟩).lookup k =
        some m → (k = 2 ∧ m = ⟨10, 1⟩) ∨ (k = 1 ∧ m = ⟨6, 2⟩) := by
      intro k m hk
      rw [lookup_insert_ite, lookup_insert_ite] at hk
      split_ifs at hk with h₂ h₁
      · exact Or.inl ⟨h₂, (Option.some.inj hk).symm⟩
      · exact Or.inr ⟨h₁, (Option.some.inj hk).symm⟩
      · simp at hk
    refine ⟨by decide, ?_, ?_, by decide⟩
    · intro k₁ k₂ m₁ m₂ h₁ h₂ hne
      obtain ⟨rfl, rfl⟩ | ⟨rfl, rfl⟩ := hlook _ _ h₁ <;>
        obtain ⟨rfl, rfl⟩ | ⟨rfl, rfl⟩ := hlook _ _ h₂
      · exact absurd rfl hne
      · exact Set.disjoint_left.mpr fun i hi hj => by
          simp only [EntryMeta.range, Set.mem_Ico] at hi hj; omega
      · exact Set.disjoint_left.mpr fun i hi hj => by
          simp only [EntryMeta.range, Set.mem_Ico] at hi hj; omega
      · exact absurd rfl hne
    · intro k m hk
      obtain ⟨rfl, rfl⟩ | ⟨rfl, rfl⟩ := hlook _ _ hk <;> decide
  obtain ⟨es, kd', -, -, -, hcompact, hpacked⟩ := compact_slides hlaid
  exact ⟨kd', hcompact, hpacked.deadBytes, hpacked.length⟩

end KeyDir

end ZenDB
