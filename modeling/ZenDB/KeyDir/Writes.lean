import ZenDB.Lib.FiniteMap
import ZenDB.KeyDir.Refines

namespace ZenDB

variable {K V : Type} (kc : Codec K) (vc : Codec V)

theorem growFor_prefix (p q : Bytes) (tail : Nat) (h : p.length ≤ tail) :
    ∃ r, growFor (p ++ q) tail = p ++ r ∧ tail+4 ≤ p.length+r.length := by
  unfold growFor
  split_ifs with hlen
  · have hp : p.length ≤ max ((p ++ q).length*2) (tail+4) := by omega
    obtain ⟨r, hr⟩ := setLen_prefix p q (max ((p ++ q).length*2) (tail+4)) hp
    refine ⟨r, hr, ?_⟩
    have hl := congrArg List.length hr
    rw [length_setLen] at hl
    simp only [List.length_append] at hl
    omega
  · refine ⟨q, rfl, ?_⟩
    rw [List.length_append] at hlen
    omega

/-- Appending a live record to a log file gives the file of the longer log. -/
theorem writeEntryInto_logFile (log : List (LogRecord K V)) (rest : Bytes) (stats : KeyDirStats)
    (hs : stats.dataSize = headerSize+(encLog kc vc log).length) (key : K) (value : V)
    (hf : FitsRecord kc vc key value) :
    ∃ rest', writeEntryInto kc vc (logFile kc vc log rest) stats key value =
      some (logFile kc vc (log ++ [.live key value]) rest',
        {stats with dataSize := headerSize+(encLog kc vc (log ++ [.live key value])).length},
        ⟨headerSize+(encLog kc vc log).length,
          8+(vc.enc value).length+(kc.enc key).length⟩) := by
  have hb : (vc.enc value).length+(kc.enc key).length < 2^32-8 := hf
  have hmod : (8+(vc.enc value).length+(kc.enc key).length)%2^32 =
      8+(vc.enc value).length+(kc.enc key).length := Nat.mod_eq_of_lt (by omega)
  set p := leBytes 4 keyDirMagic ++ encLog kc vc log with hp
  have hpl : stats.dataSize = p.length := by rw [hs, hp]; simp [headerSize]
  have hfile : logFile kc vc log rest = p ++ (leBytes 4 sentinel ++ rest) := by
    rw [logFile, hp]; simp [List.append_assoc]
  set tail := stats.dataSize+(8+(vc.enc value).length+(kc.enc key).length) with htail
  obtain ⟨r, hgrow, hroom⟩ := growFor_prefix p (leBytes 4 sentinel ++ rest) tail (by omega)
  obtain ⟨q₁, h1, l1⟩ := splice?_next p r (leBytes 4 (vc.enc value).length) stats.dataSize hpl
    (by simp only [length_leBytes]; omega)
  obtain ⟨q₂, h2, l2⟩ := splice?_next _ q₁ (vc.enc value) (stats.dataSize+4)
    (show _ = (p ++ leBytes 4 (vc.enc value).length).length by simp [hpl])
    (by simp only [length_leBytes] at l1; omega)
  obtain ⟨q₃, h3, l3⟩ := splice?_next _ q₂ (leBytes 4 (kc.enc key).length)
    (stats.dataSize+4+(vc.enc value).length)
    (show _ = (p ++ leBytes 4 (vc.enc value).length ++ vc.enc value).length by
      simp only [List.length_append, length_leBytes]; omega)
    (by simp only [length_leBytes] at l1 ⊢; omega)
  obtain ⟨q₄, h4, l4⟩ := splice?_next _ q₃ (kc.enc key) (stats.dataSize+4+(vc.enc value).length+4)
    (show _ = (p ++ leBytes 4 (vc.enc value).length ++ vc.enc value ++
      leBytes 4 (kc.enc key).length).length by
      simp only [List.length_append, length_leBytes]; omega)
    (by simp only [length_leBytes] at l1 l3; omega)
  obtain ⟨q₅, h5, -⟩ := splice?_next _ q₄ (leBytes 4 sentinel) tail
    (show _ = (p ++ leBytes 4 (vc.enc value).length ++ vc.enc value ++
      leBytes 4 (kc.enc key).length ++ kc.enc key).length by
      simp only [List.length_append, length_leBytes]; omega)
    (by simp only [length_leBytes] at l1 l3 ⊢; omega)
  refine ⟨q₅, ?_⟩
  simp only [writeEntryInto, hfile, ← htail, hgrow, h1, h2, h3, h4, h5, Option.bind_eq_bind,
    Option.bind_some, hmod]
  have hout : ∀ q, p ++ leBytes 4 (vc.enc value).length ++ vc.enc value ++
      leBytes 4 (kc.enc key).length ++ kc.enc key ++ leBytes 4 sentinel ++ q =
      logFile kc vc (log ++ [.live key value]) q := by
    intro q
    simp [logFile, hp, encLog_append, LogRecord.encode, List.append_assoc]
  have hsize : tail = headerSize+(encLog kc vc (log ++ [.live key value])).length := by
    rw [encLog_append, encLog_cons, encLog_nil, List.append_nil, List.length_append,
      LogRecord.length_encode_live]
    omega
  rw [hout, hs, hsize]
  rfl

/-- The key bytes at the end of a located record. -/
theorem Located.keySlice {log : List (LogRecord K V)} {key : K} {m : EntryMeta} {value : V}
    (h : Located kc vc log key m value) :
    slice? (leBytes 4 keyDirMagic ++ encLog kc vc log) (m.offset+8+(vc.enc value).length)
      (kc.enc key).length = some (kc.enc key) := by
  obtain ⟨-, p, q, rfl, rfl⟩ := h
  rw [show leBytes 4 keyDirMagic ++ encLog kc vc (p ++ .live key value :: q) =
    (leBytes 4 keyDirMagic ++ encLog kc vc p ++ leBytes 4 (vc.enc value).length ++ vc.enc value ++
      leBytes 4 (kc.enc key).length) ++ kc.enc key ++ encLog kc vc q by
    simp [encLog_append, LogRecord.encode, List.append_assoc]]
  refine slice?_append _ _ _ _ _ ?_ rfl
  simp [headerSize]
  omega

/-- A tombstone is appended with the key bytes of the record it buries. -/
theorem writeTombstoneInto_logFile (log : List (LogRecord K V)) (rest : Bytes)
    (stats : KeyDirStats) (hs : stats.dataSize = headerSize+(encLog kc vc log).length) (key : K)
    (value : V) (old : EntryMeta) (hl : Located kc vc log key old value) :
    ∃ rest', writeTombstoneInto (logFile kc vc log rest) stats old =
      some (logFile kc vc (log ++ [.dead key]) rest',
        ⟨headerSize+(encLog kc vc (log ++ [.dead key])).length,
          stats.deadBytes+(8+(kc.enc key).length)⟩) := by
  have hsize := hl.readSize kc vc rest
  have hkeySize : old.recordSize-8-(vc.enc value).length = (kc.enc key).length := by
    rw [hl.recordSize kc vc]
    omega
  have hend := (hl.end_le kc vc).2
  have hrec := hl.recordSize kc vc
  have hkey := hl.keySlice kc vc
  set p := leBytes 4 keyDirMagic ++ encLog kc vc log with hp
  have hpl : stats.dataSize = p.length := by rw [hs, hp]; simp [headerSize]
  have hfile : logFile kc vc log rest = p ++ (leBytes 4 sentinel ++ rest) := by
    rw [logFile, hp]; simp [List.append_assoc]
  set tail := stats.dataSize+(8+(kc.enc key).length) with htail
  obtain ⟨r, hgrow, hroom⟩ := growFor_prefix p (leBytes 4 sentinel ++ rest) tail (by omega)
  obtain ⟨q₁, h1, l1⟩ := splice?_next p r (leBytes 4 tombstone) stats.dataSize hpl
    (by simp only [length_leBytes]; omega)
  obtain ⟨q₂, h2, l2⟩ := splice?_next _ q₁ (leBytes 4 (kc.enc key).length) (stats.dataSize+4)
    (show _ = (p ++ leBytes 4 tombstone).length by simp [hpl])
    (by simp only [length_leBytes] at l1 ⊢; omega)
  -- the source of the copy lies in the log, before the bytes just written
  have hcopy : slice? (p ++ leBytes 4 tombstone ++ leBytes 4 (kc.enc key).length ++ q₂)
      (old.offset+8+(vc.enc value).length) (kc.enc key).length = some (kc.enc key) := by
    rw [List.append_assoc, List.append_assoc, slice?_of_le _ _ _ _ (by omega)]
    exact hkey
  obtain ⟨q₃, h3, l3⟩ := splice?_next _ q₂ (kc.enc key) (stats.dataSize+8)
    (show _ = (p ++ leBytes 4 tombstone ++ leBytes 4 (kc.enc key).length).length by simp [hpl])
    (by simp only [length_leBytes] at l1 l2; omega)
  obtain ⟨q₄, h4, -⟩ := splice?_next _ q₃ (leBytes 4 sentinel) tail
    (show _ = (p ++ leBytes 4 tombstone ++ leBytes 4 (kc.enc key).length ++ kc.enc key).length by
      simp only [List.length_append, length_leBytes]; omega)
    (by simp only [length_leBytes] at l1 l2 ⊢; omega)
  refine ⟨q₄, ?_⟩
  rw [hfile] at hsize ⊢
  simp only [writeTombstoneInto, hsize, hkeySize, ← htail, hgrow, h1, h2, copyWithin?, hcopy, h3,
    h4, Option.bind_eq_bind, Option.bind_some]
  have hout : ∀ q, p ++ leBytes 4 tombstone ++ leBytes 4 (kc.enc key).length ++ kc.enc key ++
      leBytes 4 sentinel ++ q = logFile kc vc (log ++ [.dead key]) q := by
    intro q
    simp [logFile, hp, encLog_append, LogRecord.encode, List.append_assoc]
  have hnew : tail = headerSize+(encLog kc vc (log ++ [.dead key])).length := by
    rw [encLog_append, encLog_cons, encLog_nil, List.append_nil, List.length_append,
      LogRecord.length_encode_dead]
    omega
  rw [hout, hnew]
  rfl

/-- Any eight bytes can take the header and the sentinel of an empty log. -/
theorem splice_header (b : Bytes) (h : 8 ≤ b.length) :
    ∃ b' rest, splice? b 0 (leBytes 4 keyDirMagic) = some b' ∧
      splice? b' headerSize (leBytes 4 sentinel) =
        some (logFile kc vc ([] : List (LogRecord K V)) rest) := by
  obtain ⟨q₁, h1, l1⟩ := splice?_next [] b (leBytes 4 keyDirMagic) 0 rfl
    (by simp only [length_leBytes]; omega)
  obtain ⟨q₂, h2, -⟩ := splice?_next ([] ++ leBytes 4 keyDirMagic) q₁ (leBytes 4 sentinel)
    headerSize (by simp [headerSize]) (by simp only [length_leBytes] at l1 ⊢; omega)
  refine ⟨_, q₂, h1, ?_⟩
  rw [h2]
  simp [logFile, List.append_assoc]

variable [DecidableEq K] {kc vc}

namespace KeyDir

/-- The bytes that become dead when `key` is written again. -/
def oldSize (kd : KeyDir K) (key : K) : Nat :=
  match kd.index.lookup key with
  | some old => old.recordSize
  | none => 0

variable {kd : KeyDir K} {log : List (LogRecord K V)} {m : AList (fun _ : K => V)}

/-- `place` appends one live record and points the index at it. -/
theorem Backed.place_eq (h : kd.Backed kc vc log m) (key : K) (value : V)
    (hf : FitsRecord kc vc key value) (oldSize : Nat) :
    ∃ rest, kd.place kc vc key value oldSize = some { kd with
      index := kd.index.insert key ⟨headerSize+(encLog kc vc log).length,
        8+(vc.enc value).length+(kc.enc key).length⟩
      mmap := logFile kc vc (log ++ [.live key value]) rest
      stats := ⟨headerSize+(encLog kc vc (log ++ [.live key value])).length,
        kd.stats.deadBytes+oldSize⟩ } := by
  obtain ⟨rest, hfile⟩ := h.file
  obtain ⟨rest', hwrite⟩ := writeEntryInto_logFile kc vc log rest kd.stats h.dataSize key value hf
  rw [← hfile] at hwrite
  exact ⟨rest', by simp only [KeyDir.place, hwrite, Option.bind_eq_bind, Option.bind_some]; rfl⟩

/-- `bury` appends one tombstone and takes the key out of the index. -/
theorem Backed.bury_eq (h : kd.Backed kc vc log m) (key : K) {old : EntryMeta} {value : V}
    (hl : Located kc vc log key old value) :
    ∃ rest, kd.bury key old = some { kd with
      index := kd.index.erase key
      mmap := logFile kc vc (log ++ [.dead key]) rest
      stats := ⟨headerSize+(encLog kc vc (log ++ [.dead key])).length,
        kd.stats.deadBytes+old.recordSize+(8+(kc.enc key).length)⟩ } := by
  obtain ⟨rest, hfile⟩ := h.file
  obtain ⟨rest', hwrite⟩ := writeTombstoneInto_logFile kc vc log rest
    {kd.stats with deadBytes := kd.stats.deadBytes+old.recordSize} h.dataSize key value old hl
  rw [← hfile] at hwrite
  exact ⟨rest', by simp only [KeyDir.bury, hwrite, Option.bind_eq_bind, Option.bind_some]; rfl⟩

omit [DecidableEq K] in
theorem fits_concat {e : LogRecord K V} (hlog : ∀ x ∈ log, x.Fits kc vc) (he : e.Fits kc vc) :
    ∀ x ∈ log ++ [e], x.Fits kc vc := by
  intro x hx
  rcases List.mem_append.mp hx with hx | hx
  · exact hlog x hx
  · rw [List.mem_singleton.mp hx]
    exact he

omit [DecidableEq K] in
theorem fits_dead {key : K} {old : EntryMeta} {value : V} (hl : Located kc vc log key old value) :
    (LogRecord.dead key : LogRecord K V).Fits kc vc := by
  have hb : (vc.enc value).length+(kc.enc key).length < 2^32-8 := hl.1
  show (kc.enc key).length < 2^32-8
  omega

theorem rel_append (h : ∀ k, Option.Rel (Located kc vc log k) (kd.index.lookup k) (m.lookup k))
    (e : LogRecord K V) (k : K) :
    Option.Rel (Located kc vc (log ++ [e]) k) (kd.index.lookup k) (m.lookup k) := by
  have hrel := h k
  revert hrel
  generalize kd.index.lookup k = a
  generalize m.lookup k = b
  rintro (hl | _)
  · exact Option.Rel.some (hl.append kc vc [e])
  · exact Option.Rel.none

theorem Backed.place (h : kd.Backed kc vc log m) (key : K) (value : V)
    (hf : FitsRecord kc vc key value) (oldSize : Nat) :
    ∃ kd', kd.place kc vc key value oldSize = some kd' ∧
      kd'.Backed kc vc (log ++ [.live key value]) (m.insert key value) := by
  obtain ⟨rest, hplace⟩ := h.place_eq key value hf oldSize
  refine ⟨_, hplace, ⟨rest, rfl⟩, fits_concat h.fits hf, rfl, ?_⟩
  intro k
  by_cases hk : k = key
  · rw [hk, AList.lookup_insert, AList.lookup_insert]
    exact Option.Rel.some (located_snoc kc vc log key value hf)
  · rw [AList.lookup_insert_ne hk, AList.lookup_insert_ne hk]
    exact rel_append h.located _ k

theorem Backed.bury (h : kd.Backed kc vc log m) (key : K) (old : EntryMeta)
    (hold : kd.index.lookup key = some old) :
    ∃ kd', kd.bury key old = some kd' ∧ kd'.Backed kc vc (log ++ [.dead key]) (m.erase key) := by
  obtain ⟨value, -, hl⟩ := h.lookup_some hold
  obtain ⟨rest, hbury⟩ := h.bury_eq key hl
  refine ⟨_, hbury, ⟨rest, rfl⟩, fits_concat h.fits (fits_dead hl), rfl, ?_⟩
  intro k
  by_cases hk : k = key
  · rw [hk, AList.lookup_erase, AList.lookup_erase]
    exact Option.Rel.none
  · rw [AList.lookup_erase_ne hk, AList.lookup_erase_ne hk]
    exact rel_append h.located _ k

theorem Holds.place (h : kd.Holds kc vc log m) (key : K) (value : V)
    (hf : FitsRecord kc vc key value) :
    ∃ kd', kd.place kc vc key value (kd.oldSize key) = some kd' ∧
      kd'.Holds kc vc (log ++ [.live key value]) (m.insert key value) := by
  have hcur : (replayLog kc vc freshRebuild log).cursor = headerSize+(encLog kc vc log).length :=
    replayLog_cursor kc vc freshRebuild log
  have hmod : (8+(vc.enc value).length+(kc.enc key).length)%2^32 =
      8+(vc.enc value).length+(kc.enc key).length := by
    have hb : (vc.enc value).length+(kc.enc key).length < 2^32-8 := hf
    exact Nat.mod_eq_of_lt (by omega)
  obtain ⟨rest, hplace⟩ := h.backed.place_eq key value hf (kd.oldSize key)
  refine ⟨_, hplace, ⟨rest, rfl⟩, fits_concat h.fits hf, rfl, ?_, ?_, ?_⟩
  · rw [replayLog_snoc]
    simp only [LogRecord.replay, Rebuild.live, oldSize, h.deadBytes, ← h.index]
    cases kd.index.lookup key <;> rfl
  · intro k
    rw [replayLog_snoc]
    simp only [LogRecord.replay, Rebuild.live, hcur, hmod, lookup_insert_ite, h.index]
  · intro k
    rw [logMap_snoc, LogRecord.apply, lookup_insert_ite, lookup_insert_ite, h.map]

theorem Holds.bury (h : kd.Holds kc vc log m) (key : K) (old : EntryMeta)
    (hold : kd.index.lookup key = some old) :
    ∃ kd', kd.bury key old = some kd' ∧ kd'.Holds kc vc (log ++ [.dead key]) (m.erase key) := by
  obtain ⟨value, -, hl⟩ := h.backed.lookup_some hold
  obtain ⟨rest, hbury⟩ := h.backed.bury_eq key hl
  refine ⟨_, hbury, ⟨rest, rfl⟩, fits_concat h.fits (fits_dead hl), rfl, ?_, ?_, ?_⟩
  · rw [replayLog_snoc]
    simp only [LogRecord.replay, Rebuild.dead, h.deadBytes, ← h.index, hold]
  · intro k
    rw [replayLog_snoc]
    simp only [LogRecord.replay, Rebuild.dead, lookup_erase_ite, h.index]
  · intro k
    rw [logMap_snoc, LogRecord.apply, lookup_erase_ite, lookup_erase_ite, h.map]

theorem holds_empty (kd : KeyDir K) (rest : Bytes) (hindex : kd.index = ∅)
    (hfile : kd.mmap = logFile kc vc ([] : List (LogRecord K V)) rest)
    (hstats : kd.stats = ⟨headerSize, 0⟩) : kd.Holds kc vc [] ∅ := by
  refine ⟨⟨rest, hfile⟩, by simp, by simp [hstats], ?_, ?_, fun k => rfl⟩
  · rw [hstats]; rfl
  · intro k
    rw [hindex]; rfl

theorem create_refines (kc : Codec K) (vc : Codec V) (config : KeyDirConfig) (hcap : 8 ≤ config.initialCapacity) :
    ∃ kd : KeyDir K, KeyDir.create config = some kd ∧ kd.Refines kc vc ∅ := by
  obtain ⟨b, rest, h1, h2⟩ := splice_header kc vc
    (setLen [] config.initialCapacity) (by rw [length_setLen]; exact hcap)
  refine ⟨_, by simp only [KeyDir.create, h1, h2, Option.bind_eq_bind, Option.bind_some]; rfl, [], ?_⟩
  exact holds_empty _ rest rfl rfl rfl

theorem Backed.clear (h : kd.Backed kc vc log m) :
    ∃ kd', kd.clear = some kd' ∧ kd'.Refines kc vc (∅ : AList (fun _ : K => V)) := by
  obtain ⟨rest, hfile⟩ := h.file
  have hlen : 8 ≤ kd.mmap.length := by rw [hfile, length_logFile]; omega
  obtain ⟨b, rest', h1, h2⟩ := splice_header kc vc kd.mmap hlen
  refine ⟨_, by simp only [KeyDir.clear, h1, h2, Option.bind_eq_bind, Option.bind_some]; rfl, [], ?_⟩
  exact holds_empty _ rest' rfl rfl rfl

end KeyDir

end ZenDB
