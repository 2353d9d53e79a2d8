import ZenDB.KeyDir.Slide
import ZenDB.KeyDir.Writes

namespace ZenDB

variable {K V : Type} (kc : Codec K) (vc : Codec V)

/-- The log `compact` leaves: one live record for each binding. -/
def liveLog (kvs : List (Sigma (fun _ : K => V))) : List (LogRecord K V) :=
  kvs.map fun e => .live e.1 e.2

/-- An index entry and the binding its record holds. -/
def Bound (log : List (LogRecord K V)) (e : Sigma (fun _ : K => EntryMeta))
    (kv : Sigma (fun _ : K => V)) : Prop :=
  e.1 = kv.1 ∧ Located kc vc log kv.1 e.2 kv.2

theorem keys_of_bound {log : List (LogRecord K V)} {es : List (Sigma (fun _ : K => EntryMeta))}
    {kvs : List (Sigma (fun _ : K => V))} (h : List.Forall₂ (Bound kc vc log) es kvs) :
    es.keys = kvs.keys := by
  induction h with
  | nil => rfl
  | cons hb _ ih =>
    simp only [List.keys, List.map_cons] at ih ⊢
    rw [ih, hb.1]

/-- The records of a log file that are bound to `kvs` are the live records of `kvs`. -/
theorem records_logFile (log : List (LogRecord K V)) (rest : Bytes)
    {es : List (Sigma (fun _ : K => EntryMeta))} {kvs : List (Sigma (fun _ : K => V))}
    (hb : List.Forall₂ (Bound kc vc log) es kvs) :
    KeyDir.records (logFile kc vc log rest) es = encLog kc vc (liveLog kvs) := by
  induction hb with
  | nil => rfl
  | @cons e kv es kvs hbound _ ih =>
    have hbytes : e.2.bytes (logFile kc vc log rest) = (LogRecord.live kv.1 kv.2).encode kc vc :=
      EntryMeta.bytes_of_slice? (hbound.2.slice kc vc rest)
    have hlog : encLog kc vc (liveLog (kv :: kvs)) =
        (LogRecord.live kv.1 kv.2).encode kc vc ++ encLog kc vc (liveLog kvs) := rfl
    have hrecords : KeyDir.records (logFile kc vc log rest) (e :: es) =
        e.2.bytes (logFile kc vc log rest) ++ KeyDir.records (logFile kc vc log rest) es := rfl
    rw [hrecords, hbytes, ih, hlog]

variable [DecidableEq K]

/-- Replaying a log of live records of new keys only adds entries; nothing becomes dead. -/
theorem replayLog_liveLog (log : List (LogRecord K V)) (es : List (Sigma (fun _ : K => EntryMeta)))
    (kvs : List (Sigma (fun _ : K => V))) (hb : List.Forall₂ (Bound kc vc log) es kvs)
    (hnodup : es.NodupKeys) (r : Rebuild K) (hnew : ∀ k ∈ es.keys, r.index.lookup k = none) :
    (replayLog kc vc r (liveLog kvs)).index = insertAll r.index (relocate r.cursor es) ∧
      (replayLog kc vc r (liveLog kvs)).deadBytes = r.deadBytes := by
  induction hb generalizing r with
  | nil => exact ⟨rfl, rfl⟩
  | @cons e kv es kvs hbound htail ih =>
    obtain ⟨key, m⟩ := e
    obtain ⟨key', value⟩ := kv
    obtain ⟨rfl, hl⟩ := hbound
    obtain ⟨hne, hnodup⟩ := List.nodupKeys_cons.mp hnodup
    have hfit : (vc.enc value).length+(kc.enc key).length < 2^32-8 := hl.1
    have hsize : m.recordSize = 8+(vc.enc value).length+(kc.enc key).length := hl.recordSize kc vc
    have hmod : (8+(vc.enc value).length+(kc.enc key).length)%2^32 = m.recordSize := by
      rw [hsize]
      exact Nat.mod_eq_of_lt (by omega)
    have hr : (LogRecord.live key value).replay kc vc r =
        ⟨r.index.insert key ⟨r.cursor, m.recordSize⟩, r.deadBytes, r.cursor+m.recordSize⟩ := by
      have hnone : r.index.lookup key = none := hnew key (by simp [List.keys])
      simp only [LogRecord.replay, Rebuild.live, hnone, hmod, hsize]
    have h := ih hnodup ((LogRecord.live key value).replay kc vc r) (by
      intro k hk
      have hkey : k ≠ key := fun heq => hne (heq ▸ hk)
      rw [hr]
      rw [AList.lookup_insert_ne hkey]
      exact hnew k (List.mem_cons_of_mem _ hk))
    rw [hr] at h
    simp only [replayLog, liveLog, List.map_cons, List.foldl_cons, hr] at h ⊢
    exact h

theorem foldl_apply_liveLog (kvs : List (Sigma (fun _ : K => V))) (m : AList (fun _ : K => V)) :
    (liveLog kvs).foldl LogRecord.apply m = insertAll m kvs := by
  induction kvs generalizing m with
  | nil => rfl
  | cons kv kvs ih =>
    exact ih (m.insert kv.1 kv.2)

/-- The sorted snapshot of `compact`: every entry bound to its value, and no two overlapping. -/
structure KeyDir.Snapshot (kd : KeyDir K) (log : List (LogRecord K V)) (m : AList (fun _ : K => V))
    (es : List (Sigma (fun _ : K => EntryMeta))) (kvs : List (Sigma (fun _ : K => V))) : Prop where
  bound : List.Forall₂ (Bound kc vc log) es kvs
  values : ∀ kv ∈ kvs, m.lookup kv.1 = some kv.2
  nodupKeys : es.NodupKeys
  absent : ∀ k ∉ es.keys, kd.index.lookup k = none
  apart : es.Pairwise fun a b => a.2.offset+a.2.recordSize ≤ b.2.offset

variable {kc vc} {kd : KeyDir K} {log : List (LogRecord K V)} {m : AList (fun _ : K => V)}

theorem KeyDir.Backed.snapshot (h : kd.Backed kc vc log m) :
    ∃ kvs, kd.Snapshot kc vc log m (kd.index.entries.insertionSort byOffset) kvs := by
  have hperm : (kd.index.entries.insertionSort byOffset).Perm kd.index.entries :=
    List.perm_insertionSort _ _
  have hsorted : (kd.index.entries.insertionSort byOffset).Pairwise byOffset :=
    List.pairwise_insertionSort _ _
  generalize kd.index.entries.insertionSort byOffset = es at hperm hsorted
  have hnodup : es.NodupKeys := (List.perm_nodupKeys hperm).mpr kd.index.nodupKeys
  have hbound : ∀ e ∈ es, ∃ kv, Bound kc vc log e kv ∧ m.lookup kv.1 = some kv.2 := by
    intro e he
    have hlook : kd.index.lookup e.1 = some e.2 := AList.mem_lookup_iff.mpr (hperm.mem_iff.mp he)
    obtain ⟨v, hv, hl⟩ := h.lookup_some hlook
    exact ⟨⟨e.1, v⟩, ⟨rfl, hl⟩, hv⟩
  obtain ⟨kvs, hkvs⟩ := exists_forall₂ es hbound
  refine ⟨kvs, hkvs.imp fun _ _ hx => hx.1, ?_, hnodup, ?_, ?_⟩
  · intro kv hkv
    obtain ⟨e, -, -, hv⟩ := forall₂_of_mem_right hkvs hkv
    exact hv
  · intro k hk
    rw [AList.lookup_eq_none]
    intro hmem
    exact hk ((hperm.map Sigma.fst).mem_iff.mpr hmem)
  · refine (hsorted.and hnodup.pairwise_ne).imp_of_mem ?_
    intro a b ha hb hab
    obtain ⟨ka, ⟨hka, hla⟩, -⟩ := hbound a ha
    obtain ⟨kb, ⟨hkb, hlb⟩, -⟩ := hbound b hb
    exact hla.end_le_offset kc vc hlb (by rw [← hka, ← hkb]; exact hab.2) hab.1

theorem KeyDir.Backed.apart (h : kd.Backed kc vc log m) {k₁ k₂ : K} {m₁ m₂ : EntryMeta}
    (h₁ : kd.index.lookup k₁ = some m₁) (h₂ : kd.index.lookup k₂ = some m₂) (hne : k₁ ≠ k₂) :
    m₁.offset+m₁.recordSize ≤ m₂.offset ∨ m₂.offset+m₂.recordSize ≤ m₁.offset := by
  obtain ⟨v₁, -, hl₁⟩ := h.lookup_some h₁
  obtain ⟨v₂, -, hl₂⟩ := h.lookup_some h₂
  rcases Nat.le_total m₁.offset m₂.offset with hle | hle
  · exact Or.inl (hl₁.end_le_offset kc vc hl₂ hne hle)
  · exact Or.inr (hl₂.end_le_offset kc vc hl₁ (Ne.symm hne) hle)

theorem KeyDir.Backed.inside (h : kd.Backed kc vc log m) {k : K} {e : EntryMeta}
    (hk : kd.index.lookup k = some e) :
    headerSize ≤ e.offset ∧ e.offset+e.recordSize ≤ kd.stats.dataSize := by
  obtain ⟨v, -, hl⟩ := h.lookup_some hk
  rw [h.dataSize]
  exact hl.end_le kc vc

theorem KeyDir.Backed.laid (h : kd.Backed kc vc log m) : kd.Laid := by
  obtain ⟨rest, hfile⟩ := h.file
  refine ⟨by rw [h.dataSize]; omega, ?_, fun _ _ hk => h.inside hk, ?_⟩
  · intro k₁ k₂ m₁ m₂ h₁ h₂ hne
    refine Set.disjoint_left.mpr fun i hi hj => ?_
    simp only [EntryMeta.range, Set.mem_Ico] at hi hj
    have hend := h.apart h₁ h₂ hne
    omega
  · rw [hfile, length_logFile, h.dataSize, headerSize]
    omega

/-- `compact` leaves the log of the live records. -/
theorem KeyDir.Backed.compact_eq (h : kd.Backed kc vc log m)
    {kvs : List (Sigma (fun _ : K => V))}
    (hs : kd.Snapshot kc vc log m (kd.index.entries.insertionSort byOffset) kvs) :
    ∃ rest, kd.compact = some { kd with
      index := insertAll kd.index (relocate headerSize (kd.index.entries.insertionSort byOffset))
      mmap := logFile kc vc (liveLog kvs) rest
      stats := ⟨headerSize+(encLog kc vc (liveLog kvs)).length, 0⟩ } := by
  obtain ⟨rest, hfile⟩ := h.file
  obtain ⟨rest', hcompact, -⟩ := h.laid.compact_eq rfl
  have hrecords : records kd.mmap (kd.index.entries.insertionSort byOffset) =
      encLog kc vc (liveLog kvs) := by
    rw [hfile]
    exact records_logFile kc vc log rest hs.bound
  have hheader : kd.mmap.take headerSize = leBytes 4 keyDirMagic := by
    rw [hfile, logFile, List.append_assoc, List.append_assoc]
    exact List.take_left' (length_leBytes _ _)
  rw [hrecords, hheader] at hcompact
  exact ⟨rest', hcompact⟩

/-- The index is again what the log gives, even where it was not before. -/
theorem KeyDir.Backed.compact (h : kd.Backed kc vc log m) :
    ∃ kd', kd.compact = some kd' ∧ kd'.Refines kc vc m := by
  obtain ⟨kvs, hs⟩ := h.snapshot
  obtain ⟨rest, hcompact⟩ := h.compact_eq hs
  refine ⟨_, hcompact, liveLog kvs, ?_⟩
  generalize kd.index.entries.insertionSort byOffset = es at hs
  have hkeys : es.keys = kvs.keys := keys_of_bound kc vc hs.bound
  have hmoved : (relocate headerSize es).NodupKeys := by
    rw [List.NodupKeys, keys_relocate]
    exact hs.nodupKeys
  obtain ⟨hindex, hdead⟩ := replayLog_liveLog kc vc log es kvs hs.bound hs.nodupKeys freshRebuild
    (fun _ _ => rfl)
  refine ⟨⟨rest, rfl⟩, ?_, rfl, hdead.symm, ?_, ?_⟩
  · intro e he
    obtain ⟨kv, hkv, rfl⟩ := List.mem_map.mp he
    obtain ⟨e', -, -, hl⟩ := forall₂_of_mem_right hs.bound hkv
    exact hl.1
  · intro k
    rw [hindex, show freshRebuild.cursor = headerSize from rfl, lookup_insertAll _ hmoved,
      lookup_insertAll _ hmoved]
    cases hk : (relocate headerSize es).dlookup k with
    | some e => rfl
    | none =>
      rw [List.dlookup_eq_none, keys_relocate] at hk
      rw [hs.absent k hk]
      rfl
  · intro k
    have hnodup : kvs.NodupKeys := by
      rw [List.NodupKeys, ← hkeys]
      exact hs.nodupKeys
    rw [logMap, foldl_apply_liveLog, lookup_insertAll _ hnodup]
    cases hk : kvs.dlookup k with
    | some v => exact hs.values ⟨k, v⟩ (List.of_mem_dlookup hk)
    | none =>
      rw [List.dlookup_eq_none, ← hkeys] at hk
      exact h.lookup_none (hs.absent k hk)

theorem KeyDir.Refines.compact (h : kd.Refines kc vc m) :
    ∃ kd', kd.compact = some kd' ∧ kd'.Refines kc vc m := by
  obtain ⟨log, h⟩ := h
  exact h.backed.compact

end ZenDB
