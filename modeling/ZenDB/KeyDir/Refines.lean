import Mathlib.Data.List.Induction
import ZenDB.KeyDir.Log

namespace ZenDB

variable {K V : Type} (kc : Codec K) (vc : Codec V)

/-- Where the index must point for `key` to be bound to `value`: a live record of the log. -/
def Located (log : List (LogRecord K V)) (key : K) (m : EntryMeta) (value : V) : Prop :=
  FitsRecord kc vc key value ∧ ∃ p q, log = p ++ .live key value :: q ∧
    m = ⟨headerSize+(encLog kc vc p).length, 8+(vc.enc value).length+(kc.enc key).length⟩

theorem Located.append {log : List (LogRecord K V)} {key : K} {m : EntryMeta} {value : V}
    (h : Located kc vc log key m value) (tail : List (LogRecord K V)) :
    Located kc vc (log ++ tail) key m value := by
  obtain ⟨hf, p, q, rfl, hm⟩ := h
  exact ⟨hf, p, q ++ tail, by simp, hm⟩

theorem located_snoc (log : List (LogRecord K V)) (key : K) (value : V)
    (hf : FitsRecord kc vc key value) : Located kc vc (log ++ [.live key value]) key
      ⟨headerSize+(encLog kc vc log).length, 8+(vc.enc value).length+(kc.enc key).length⟩ value :=
  ⟨hf, log, [], rfl, rfl⟩

theorem Located.recordSize {log : List (LogRecord K V)} {key : K} {m : EntryMeta} {value : V}
    (h : Located kc vc log key m value) :
    m.recordSize = 8+(vc.enc value).length+(kc.enc key).length := by
  obtain ⟨-, _, _, -, rfl⟩ := h
  rfl

/-- The record a located entry points at, with the bytes around it. -/
theorem Located.file {log : List (LogRecord K V)} {key : K} {m : EntryMeta} {value : V}
    (h : Located kc vc log key m value) (rest : Bytes) :
    ∃ p q, logFile kc vc log rest = p ++ (LogRecord.live key value).encode kc vc ++ q ∧
      m.offset = p.length ∧ m.recordSize = ((LogRecord.live key value).encode kc vc).length := by
  obtain ⟨-, p, q, rfl, rfl⟩ := h
  refine ⟨leBytes 4 keyDirMagic ++ encLog kc vc p, encLog kc vc q ++ leBytes 4 sentinel ++ rest,
    ?_, ?_, ?_⟩
  · simp [logFile, encLog_append, List.append_assoc]
  · simp [headerSize]
  · rw [LogRecord.length_encode_live]

theorem Located.slice {log : List (LogRecord K V)} {key : K} {m : EntryMeta} {value : V}
    (h : Located kc vc log key m value) (rest : Bytes) :
    slice? (logFile kc vc log rest) m.offset m.recordSize =
      some ((LogRecord.live key value).encode kc vc) := by
  obtain ⟨p, q, hfile, ho, hs⟩ := h.file kc vc rest
  rw [hfile]
  exact slice?_append _ _ _ _ _ ho hs

theorem Located.readSize {log : List (LogRecord K V)} {key : K} {m : EntryMeta} {value : V}
    (h : Located kc vc log key m value) (rest : Bytes) :
    readU32Le (logFile kc vc log rest) m.offset = some (vc.enc value).length := by
  have hf : (vc.enc value).length+(kc.enc key).length < 2^32-8 := h.1
  obtain ⟨p, q, hfile, ho, -⟩ := h.file kc vc rest
  rw [hfile, LogRecord.encode, List.append_assoc, List.append_assoc, List.append_assoc,
    ← List.append_assoc p]
  exact readU32Le_append _ _ _ _ ho (by omega)

theorem Located.valueBytes {log : List (LogRecord K V)} {key : K} {m : EntryMeta} {value : V}
    (h : Located kc vc log key m value) (rest : Bytes) :
    valueBytesIn (logFile kc vc log rest) m = some (vc.enc value) := by
  obtain ⟨p, q, hfile, ho, -⟩ := h.file kc vc rest
  have hv : slice? (logFile kc vc log rest) (m.offset+4) (vc.enc value).length =
      some (vc.enc value) := by
    rw [hfile, show p ++ (LogRecord.live key value).encode kc vc ++ q =
      (p ++ leBytes 4 (vc.enc value).length) ++ vc.enc value ++
        (leBytes 4 (kc.enc key).length ++ kc.enc key ++ q) by
      simp [LogRecord.encode, List.append_assoc]]
    exact slice?_append _ _ _ _ _ (by simp [ho]) rfl
  simp only [valueBytesIn, h.readSize kc vc rest, Option.bind_eq_bind, Option.bind_some, hv]

theorem Located.end_le {log : List (LogRecord K V)} {key : K} {m : EntryMeta} {value : V}
    (h : Located kc vc log key m value) :
    headerSize ≤ m.offset ∧ m.offset+m.recordSize ≤ headerSize+(encLog kc vc log).length := by
  obtain ⟨-, p, q, rfl, rfl⟩ := h
  simp only [encLog_append, encLog_cons, List.length_append, LogRecord.length_encode_live]
  omega

/-- Live records of different keys do not overlap. -/
theorem Located.end_le_offset {log : List (LogRecord K V)} {k₁ k₂ : K} {m₁ m₂ : EntryMeta}
    {v₁ v₂ : V} (h₁ : Located kc vc log k₁ m₁ v₁) (h₂ : Located kc vc log k₂ m₂ v₂)
    (hk : k₁ ≠ k₂) (hle : m₁.offset ≤ m₂.offset) : m₁.offset+m₁.recordSize ≤ m₂.offset := by
  obtain ⟨-, p₁, q₁, hl₁, rfl⟩ := h₁
  obtain ⟨-, p₂, q₂, hl₂, rfl⟩ := h₂
  have hcmp : p₁ <+: p₂ ∨ p₂ <+: p₁ :=
    List.prefix_or_prefix_of_prefix ⟨_, hl₁.symm⟩ ⟨_, hl₂.symm⟩
  dsimp only at hle ⊢
  -- the record in front would have to be the one behind, or the offsets are the wrong way round
  rcases hcmp with ⟨t, rfl⟩ | ⟨t, rfl⟩
  · rw [hl₁, List.append_assoc] at hl₂
    have ht := List.append_cancel_left hl₂
    cases t with
    | nil => simp only [List.nil_append, List.cons.injEq, LogRecord.live.injEq] at ht; exact absurd ht.1.1 hk
    | cons a t =>
      obtain ⟨rfl, -⟩ := List.cons.inj ht
      simp only [encLog_append, encLog_cons, List.length_append, LogRecord.length_encode_live]
      omega
  · rw [hl₂, List.append_assoc] at hl₁
    have ht := List.append_cancel_left hl₁
    cases t with
    | nil => simp only [List.nil_append, List.cons.injEq, LogRecord.live.injEq] at ht; exact absurd ht.1.1.symm hk
    | cons a t =>
      have h8 := a.eight_le_length_encode kc vc
      simp only [encLog_append, encLog_cons, List.length_append] at hle
      omega

variable [DecidableEq K]

/-- What a log of updates means: the finite map it builds. -/
def LogRecord.apply (m : AList (fun _ : K => V)) : LogRecord K V → AList (fun _ : K => V)
  | .live key value => m.insert key value
  | .dead key => m.erase key

def logMap (log : List (LogRecord K V)) : AList (fun _ : K => V) := log.foldl LogRecord.apply ∅

theorem logMap_snoc (log : List (LogRecord K V)) (e : LogRecord K V) :
    logMap (log ++ [e]) = e.apply (logMap log) := by
  simp [logMap]

/-- Replay binds exactly the keys of the map, each to a record that holds its value. -/
theorem replayLog_located (log : List (LogRecord K V)) (hlog : ∀ e ∈ log, e.Fits kc vc) (key : K) :
    Option.Rel (Located kc vc log key) ((replayLog kc vc freshRebuild log).index.lookup key)
      ((logMap log).lookup key) := by
  induction log using List.reverseRecOn with
  | nil => exact Option.Rel.none
  | append_singleton log e ih =>
    have hrel := ih fun x hx => hlog x (List.mem_append_left _ hx)
    have hcur : (replayLog kc vc freshRebuild log).cursor = headerSize+(encLog kc vc log).length :=
      replayLog_cursor kc vc freshRebuild log
    have hmono : Option.Rel (Located kc vc (log ++ [e]) key)
        ((replayLog kc vc freshRebuild log).index.lookup key) ((logMap log).lookup key) := by
      revert hrel
      generalize (replayLog kc vc freshRebuild log).index.lookup key = a
      generalize (logMap log).lookup key = b
      rintro (h | _)
      · exact Option.Rel.some (h.append kc vc [e])
      · exact Option.Rel.none
    rw [logMap_snoc, replayLog_snoc]
    cases e with
    | live k v =>
      have hf : FitsRecord kc vc k v := hlog (.live k v) (by simp)
      have hmod : (8+(vc.enc v).length+(kc.enc k).length)%2^32 =
          8+(vc.enc v).length+(kc.enc k).length := by
        have hb : (vc.enc v).length+(kc.enc k).length < 2^32-8 := hf
        exact Nat.mod_eq_of_lt (by omega)
      simp only [LogRecord.replay, Rebuild.live, LogRecord.apply, hcur, hmod]
      by_cases hk : key = k
      · subst hk
        rw [AList.lookup_insert, AList.lookup_insert]
        exact Option.Rel.some (located_snoc kc vc log key v hf)
      · rw [AList.lookup_insert_ne hk, AList.lookup_insert_ne hk]
        exact hmono
    | dead k =>
      simp only [LogRecord.replay, Rebuild.dead, LogRecord.apply]
      by_cases hk : key = k
      · subst hk
        rw [AList.lookup_erase, AList.lookup_erase]
        exact Option.Rel.none
      · rw [AList.lookup_erase_ne hk, AList.lookup_erase_ne hk]
        exact hmono

/-- The file is the log `log`, and the index names records of the log that hold the values of `m`;
it need not name the last record of each key. -/
structure KeyDir.Backed (kd : KeyDir K) (log : List (LogRecord K V)) (m : AList (fun _ : K => V)) :
    Prop where
  file : ∃ rest, kd.mmap = logFile kc vc log rest
  fits : ∀ e ∈ log, e.Fits kc vc
  dataSize : kd.stats.dataSize = headerSize+(encLog kc vc log).length
  located : ∀ k, Option.Rel (Located kc vc log k) (kd.index.lookup k) (m.lookup k)

namespace KeyDir.Backed

variable {kc vc} {kd : KeyDir K} {log : List (LogRecord K V)} {m : AList (fun _ : K => V)}

theorem lookup_none (h : kd.Backed kc vc log m) {k : K} (hk : kd.index.lookup k = none) :
    m.lookup k = none := by
  have hrel := h.located k
  rw [hk] at hrel
  cases hm : m.lookup k with
  | none => rfl
  | some v => rw [hm] at hrel; cases hrel

theorem lookup_some (h : kd.Backed kc vc log m) {k : K} {e : EntryMeta}
    (hk : kd.index.lookup k = some e) : ∃ v, m.lookup k = some v ∧ Located kc vc log k e v := by
  have hrel := h.located k
  rw [hk] at hrel
  cases hm : m.lookup k with
  | none => rw [hm] at hrel; cases hrel
  | some v =>
    rw [hm] at hrel
    cases hrel with
    | some hl => exact ⟨v, rfl, hl⟩

theorem isSome_lookup (h : kd.Backed kc vc log m) (k : K) :
    (kd.index.lookup k).isSome = (m.lookup k).isSome := by
  cases hk : kd.index.lookup k with
  | none => rw [h.lookup_none hk]; rfl
  | some e =>
    obtain ⟨v, hv, -⟩ := h.lookup_some hk
    rw [hv]; rfl

theorem decodeValue (h : kd.Backed kc vc log m) {k : K} {e : EntryMeta} {v : V}
    (hl : Located kc vc log k e v) : (valueBytesIn kd.mmap e).bind vc.dec = some v := by
  obtain ⟨rest, hfile⟩ := h.file
  rw [hfile, hl.valueBytes kc vc rest, Option.bind_some, vc.dec_enc]

theorem get_eq (h : kd.Backed kc vc log m) (key : K) : kd.get vc key = some (m.lookup key) := by
  unfold KeyDir.get
  cases hk : kd.index.lookup key with
  | none => rw [h.lookup_none hk]
  | some e =>
    obtain ⟨v, hm, hl⟩ := h.lookup_some hk
    rw [hm]
    simp only [Option.bind_eq_bind, ← Option.bind_assoc, h.decodeValue hl, Option.bind_some]
    rfl

end KeyDir.Backed

/-- The store is the log `log`, and the log means the map `m`. -/
structure KeyDir.Holds (kd : KeyDir K) (log : List (LogRecord K V)) (m : AList (fun _ : K => V)) :
    Prop where
  file : ∃ rest, kd.mmap = logFile kc vc log rest
  fits : ∀ e ∈ log, e.Fits kc vc
  dataSize : kd.stats.dataSize = headerSize+(encLog kc vc log).length
  deadBytes : kd.stats.deadBytes = (replayLog kc vc freshRebuild log).deadBytes
  index : ∀ k, kd.index.lookup k = (replayLog kc vc freshRebuild log).index.lookup k
  map : ∀ k, m.lookup k = (logMap log).lookup k

def KeyDir.Refines (kd : KeyDir K) (m : AList (fun _ : K => V)) : Prop :=
  ∃ log, kd.Holds kc vc log m

namespace KeyDir.Holds

variable {kc vc} {kd : KeyDir K} {log : List (LogRecord K V)} {m : AList (fun _ : K => V)}

theorem backed (h : kd.Holds kc vc log m) : kd.Backed kc vc log m := by
  refine ⟨h.file, h.fits, h.dataSize, ?_⟩
  intro k
  rw [h.index, h.map]
  exact replayLog_located kc vc log h.fits k

end KeyDir.Holds

end ZenDB
