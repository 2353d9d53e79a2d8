import ZenDB.KeyDir.Compact

namespace ZenDB

variable {K V : Type} [DecidableEq K]

namespace KeyDir

inductive Op (K V : Type) where
  | put (key : K) (value : V)
  | putIfAbsent (key : K) (value : V)
  | replace (key : K) (value : V)
  | update (key : K) (f : Option V → Option V)
  | delete (key : K)
  | clear
  | compact

inductive Ret (V : Type) where
  | unit
  | flag (b : Bool)
  | value (v : Option V)
  deriving DecidableEq, Repr

section Spec

def setTo (m : AList (fun _ : K => V)) (key : K) : Option V → AList (fun _ : K => V)
  | some value => m.insert key value
  | none => m.erase key

/-- The finite map an operation is meant to be performed on. -/
def specStep (m : AList (fun _ : K => V)) : Op K V → AList (fun _ : K => V) × Ret V
  | .put key value => (m.insert key value, .unit)
  | .putIfAbsent key value =>
    match m.lookup key with
    | some _ => (m, .flag false)
    | none => (m.insert key value, .flag true)
  | .replace key value => (m.insert key value, .value (m.lookup key))
  | .update key f => (setTo m key (f (m.lookup key)), .unit)
  | .delete key => (m.erase key, .flag (m.lookup key).isSome)
  | .clear => (∅, .unit)
  | .compact => (m, .unit)

def specRun (m : AList (fun _ : K => V)) : List (Op K V) → AList (fun _ : K => V) × List (Ret V)
  | [] => (m, [])
  | op :: ops =>
    let (m', ret) := specStep m op
    let (m'', rets) := specRun m' ops
    (m'', ret :: rets)

end Spec

variable (kc : Codec K) (vc : Codec V)

/-- Every record the operation writes has sizes below the bound. -/
def Op.Fits (m : AList (fun _ : K => V)) : Op K V → Prop
  | .put key value => FitsRecord kc vc key value
  | .putIfAbsent key value => m.lookup key = none → FitsRecord kc vc key value
  | .replace key value => FitsRecord kc vc key value
  | .update key f => ∀ value, f (m.lookup key) = some value → FitsRecord kc vc key value
  | .delete _ => True
  | .clear => True
  | .compact => True

def RunFits (m : AList (fun _ : K => V)) : List (Op K V) → Prop
  | [] => True
  | op :: ops => op.Fits kc vc m ∧ RunFits (specStep m op).1 ops

def step (kd : KeyDir K) : Op K V → Option (KeyDir K × Ret V)
  | .put key value => (kd.put kc vc key value).map (·, .unit)
  | .putIfAbsent key value => (kd.putIfAbsent kc vc key value).map fun r => (r.1, .flag r.2)
  | .replace key value => (kd.replace kc vc key value).map fun r => (r.1, .value r.2)
  | .update key f => (kd.update kc vc key f).map (·, .unit)
  | .delete key => (kd.delete key).map fun r => (r.1, .flag r.2)
  | .clear => kd.clear.map (·, .unit)
  | .compact => kd.compact.map (·, .unit)

def run (kd : KeyDir K) : List (Op K V) → Option (KeyDir K × List (Ret V))
  | [] => some (kd, [])
  | op :: ops => do
    let (kd, ret) ← kd.step kc vc op
    let (kd, rets) ← kd.run ops
    return (kd, ret :: rets)

/-- A relation between stores and maps that every primitive change of a store keeps. -/
structure Simulation (R : KeyDir K → AList (fun _ : K => V) → Prop) : Prop where
  absent : ∀ {kd m key}, R kd m → kd.index.lookup key = none →
    m.lookup key = none ∧ R kd (m.erase key)
  present : ∀ {kd m key e}, R kd m → kd.index.lookup key = some e →
    ∃ v, m.lookup key = some v ∧ (valueBytesIn kd.mmap e).bind vc.dec = some v
  place : ∀ {kd m}, R kd m → ∀ key value, FitsRecord kc vc key value →
    ∃ kd', kd.place kc vc key value (kd.oldSize key) = some kd' ∧ R kd' (m.insert key value)
  bury : ∀ {kd m key old}, R kd m → kd.index.lookup key = some old →
    ∃ kd', kd.bury key old = some kd' ∧ R kd' (m.erase key)
  compact : ∀ {kd m}, R kd m → ∃ kd', kd.compact = some kd' ∧ R kd' m
  clear : ∀ {kd m}, R kd m → ∃ kd', kd.clear = some kd' ∧ R kd' ∅

variable {kc vc} {kd : KeyDir K} {m : AList (fun _ : K => V)}

namespace Simulation

variable {R : KeyDir K → AList (fun _ : K => V) → Prop} (hR : Simulation kc vc R)
include hR

theorem maybeCompact (h : R kd m) : ∃ kd', kd.maybeCompact = some kd' ∧ R kd' m := by
  unfold KeyDir.maybeCompact
  split_ifs with hdue
  · exact hR.compact h
  · exact ⟨kd, rfl, h⟩

/-- Writing a record and compacting when due, as all five write paths end. -/
theorem placeThenCompact (h : R kd m) (key : K) (value : V) (hf : FitsRecord kc vc key value) :
    ∃ kd₁ kd₂, kd.place kc vc key value (kd.oldSize key) = some kd₁ ∧
      kd₁.maybeCompact = some kd₂ ∧ R kd₂ (m.insert key value) := by
  obtain ⟨kd₁, hplace, h₁⟩ := hR.place h key value hf
  obtain ⟨kd₂, hcompact, h₂⟩ := hR.maybeCompact h₁
  exact ⟨kd₁, kd₂, hplace, hcompact, h₂⟩

theorem buryThenCompact (h : R kd m) (key : K) (old : EntryMeta)
    (hold : kd.index.lookup key = some old) :
    ∃ kd₁ kd₂, kd.bury key old = some kd₁ ∧
      kd₁.maybeCompact = some kd₂ ∧ R kd₂ (m.erase key) := by
  obtain ⟨kd₁, hbury, h₁⟩ := hR.bury h hold
  obtain ⟨kd₂, hcompact, h₂⟩ := hR.maybeCompact h₁
  exact ⟨kd₁, kd₂, hbury, hcompact, h₂⟩

theorem put (h : R kd m) (key : K) (value : V) (hf : FitsRecord kc vc key value) :
    ∃ kd', kd.put kc vc key value = some kd' ∧ R kd' (m.insert key value) := by
  obtain ⟨kd₁, kd₂, hplace, hcompact, hnew⟩ := hR.placeThenCompact h key value hf
  refine ⟨kd₂, ?_, hnew⟩
  unfold oldSize at hplace
  unfold KeyDir.put
  cases hk : kd.index.lookup key with
  | none =>
    simp only [hk] at hplace
    simp only [hplace, hcompact, Option.bind_eq_bind, Option.bind_some]
  | some old =>
    simp only [hk] at hplace
    simp only [hplace, hcompact, Option.bind_eq_bind, Option.bind_some]

theorem putIfAbsent (h : R kd m) (key : K) (value : V)
    (hf : m.lookup key = none → FitsRecord kc vc key value) :
    ∃ kd', kd.putIfAbsent kc vc key value = some (kd', (m.lookup key).isNone) ∧
      R kd' (if (m.lookup key).isNone then m.insert key value else m) := by
  unfold KeyDir.putIfAbsent
  cases hk : kd.index.lookup key with
  | none =>
    obtain ⟨hm, -⟩ := hR.absent h hk
    obtain ⟨kd₁, kd₂, hplace, hcompact, hnew⟩ := hR.placeThenCompact h key value (hf hm)
    simp only [oldSize, hk] at hplace
    refine ⟨kd₂, ?_, by rw [hm]; exact hnew⟩
    simp only [hplace, hcompact, hm, Option.bind_eq_bind, Option.bind_some]
    rfl
  | some old =>
    obtain ⟨v, hm, -⟩ := hR.present h hk
    rw [hm]
    exact ⟨kd, rfl, h⟩

theorem replace (h : R kd m) (key : K) (value : V) (hf : FitsRecord kc vc key value) :
    ∃ kd', kd.replace kc vc key value = some (kd', m.lookup key) ∧ R kd' (m.insert key value) := by
  obtain ⟨kd₁, kd₂, hplace, hcompact, hnew⟩ := hR.placeThenCompact h key value hf
  refine ⟨kd₂, ?_, hnew⟩
  unfold oldSize at hplace
  unfold KeyDir.replace
  cases hk : kd.index.lookup key with
  | none =>
    simp only [hk] at hplace
    rw [(hR.absent h hk).1]
    simp only [hplace, hcompact, Option.bind_eq_bind, Option.bind_some]
    rfl
  | some old =>
    obtain ⟨v, hm, hdec⟩ := hR.present h hk
    simp only [hk] at hplace
    rw [hm]
    simp only [Option.bind_eq_bind, ← Option.bind_assoc, hdec, Option.bind_some, hplace, hcompact]
    rfl

theorem delete (h : R kd m) (key : K) :
    ∃ kd', kd.delete key = some (kd', (m.lookup key).isSome) ∧ R kd' (m.erase key) := by
  unfold KeyDir.delete
  cases hk : kd.index.lookup key with
  | none =>
    obtain ⟨hm, hsame⟩ := hR.absent h hk
    exact ⟨kd, by rw [hm]; rfl, hsame⟩
  | some old =>
    obtain ⟨v, hm, -⟩ := hR.present h hk
    obtain ⟨kd₁, kd₂, hbury, hcompact, hnew⟩ := hR.buryThenCompact h key old hk
    refine ⟨kd₂, ?_, hnew⟩
    rw [hm]
    simp only [hbury, hcompact, Option.bind_eq_bind, Option.bind_some]
    rfl

theorem update (h : R kd m) (key : K) (f : Option V → Option V)
    (hf : ∀ value, f (m.lookup key) = some value → FitsRecord kc vc key value) :
    ∃ kd', kd.update kc vc key f = some kd' ∧ R kd' (setTo m key (f (m.lookup key))) := by
  unfold KeyDir.update
  cases hk : kd.index.lookup key with
  | none =>
    obtain ⟨hm, hsame⟩ := hR.absent h hk
    rw [hm] at hf ⊢
    cases hv : f none with
    | none => exact ⟨kd, rfl, hsame⟩
    | some value =>
      obtain ⟨kd₁, kd₂, hplace, hcompact, hnew⟩ := hR.placeThenCompact h key value (hf value hv)
      simp only [oldSize, hk] at hplace
      refine ⟨kd₂, ?_, hnew⟩
      simp only [hplace, hcompact, Option.bind_eq_bind, Option.bind_some]
  | some old =>
    obtain ⟨v, hm, hdec⟩ := hR.present h hk
    rw [hm] at hf ⊢
    simp only [Option.bind_eq_bind, ← Option.bind_assoc, hdec, Option.bind_some]
    cases hv : f (some v) with
    | none =>
      obtain ⟨kd₁, kd₂, hbury, hcompact, hnew⟩ := hR.buryThenCompact h key old hk
      exact ⟨kd₂, by simp only [hbury, hcompact, Option.bind_some], hnew⟩
    | some value =>
      obtain ⟨kd₁, kd₂, hplace, hcompact, hnew⟩ := hR.placeThenCompact h key value (hf value hv)
      simp only [oldSize, hk] at hplace
      exact ⟨kd₂, by simp only [hplace, hcompact, Option.bind_some], hnew⟩

/-- Every operation returns, with the answer and the effect it has on the map. -/
theorem step (h : R kd m) (op : Op K V) (hf : op.Fits kc vc m) :
    ∃ kd', kd.step kc vc op = some (kd', (specStep m op).2) ∧ R kd' (specStep m op).1 := by
  cases op with
  | put key value =>
    obtain ⟨kd', hop, hnew⟩ := hR.put h key value hf
    exact ⟨kd', by rw [KeyDir.step, hop]; rfl, hnew⟩
  | putIfAbsent key value =>
    obtain ⟨kd', hop, hnew⟩ := hR.putIfAbsent h key value hf
    refine ⟨kd', ?_, ?_⟩
    · rw [KeyDir.step, hop, specStep]
      cases m.lookup key <;> rfl
    · rw [specStep]
      revert hnew
      cases m.lookup key <;> exact id
  | replace key value =>
    obtain ⟨kd', hop, hnew⟩ := hR.replace h key value hf
    exact ⟨kd', by rw [KeyDir.step, hop]; rfl, hnew⟩
  | update key f =>
    obtain ⟨kd', hop, hnew⟩ := hR.update h key f hf
    exact ⟨kd', by rw [KeyDir.step, hop]; rfl, hnew⟩
  | delete key =>
    obtain ⟨kd', hop, hnew⟩ := hR.delete h key
    exact ⟨kd', by rw [KeyDir.step, hop]; rfl, hnew⟩
  | clear =>
    obtain ⟨kd', hop, hnew⟩ := hR.clear h
    exact ⟨kd', by rw [KeyDir.step, hop]; rfl, hnew⟩
  | compact =>
    obtain ⟨kd', hop, hnew⟩ := hR.compact h
    exact ⟨kd', by rw [KeyDir.step, hop]; rfl, hnew⟩

theorem run (ops : List (Op K V)) (h : R kd m) (hf : RunFits kc vc m ops) :
    ∃ kd', kd.run kc vc ops = some (kd', (specRun m ops).2) ∧ R kd' (specRun m ops).1 := by
  induction ops generalizing kd m with
  | nil => exact ⟨kd, rfl, h⟩
  | cons op ops ih =>
    obtain ⟨kd₁, hstep, h₁⟩ := hR.step h op hf.1
    obtain ⟨kd₂, hrun, h₂⟩ := ih h₁ hf.2
    refine ⟨kd₂, ?_, h₂⟩
    simp only [KeyDir.run, hstep, hrun, Option.bind_eq_bind, Option.bind_some]
    rfl

end Simulation

theorem refines_simulation : Simulation kc vc (KeyDir.Refines kc vc) where
  absent := by
    intro kd m key h hk
    obtain ⟨log, h⟩ := h
    have hm := h.backed.lookup_none hk
    refine ⟨hm, log, {h with map := ?_}⟩
    intro k
    rw [lookup_erase_ite]
    split_ifs with hkey
    · rw [hkey, ← h.map, hm]
    · exact h.map k
  present := by
    intro kd m key e h hk
    obtain ⟨log, h⟩ := h
    obtain ⟨v, hm, hl⟩ := h.backed.lookup_some hk
    exact ⟨v, hm, h.backed.decodeValue hl⟩
  place := by
    intro kd m h key value hf
    obtain ⟨log, h⟩ := h
    obtain ⟨kd', hplace, h'⟩ := h.place key value hf
    exact ⟨kd', hplace, _, h'⟩
  bury := by
    intro kd m key old h hold
    obtain ⟨log, h⟩ := h
    obtain ⟨kd', hbury, h'⟩ := h.bury key old hold
    exact ⟨kd', hbury, _, h'⟩
  compact := fun h => h.compact
  clear := by
    intro kd m h
    obtain ⟨log, h⟩ := h
    exact h.backed.clear

variable (kc vc)

/-- What a caller sees of the store is the map, and so is what a reopened file gives: `junk` stands
for whatever lies in the file behind the sentinel. -/
structure Agrees (kd : KeyDir K) (m : AList (fun _ : K => V)) : Prop where
  get : ∀ key, kd.get vc key = some (m.lookup key)
  contains : ∀ key, kd.contains key = (m.lookup key).isSome
  size : kd.size = m.entries.length
  rebuild : ∀ junk, ∃ index,
    rebuildIndex kc (kd.mmap.take (kd.stats.dataSize+4) ++ junk) = some (index, kd.stats) ∧
      ∀ key, KeyDir.get vc {kd with index := index, mmap := kd.mmap.take (kd.stats.dataSize+4) ++ junk}
        key = some (m.lookup key)

variable {kc vc}

/-- Cutting the file behind the sentinel and adding other bytes keeps the log. -/
theorem Holds.take_append {log : List (LogRecord K V)} (h : kd.Holds kc vc log m) (junk : Bytes) :
    kd.mmap.take (kd.stats.dataSize+4) ++ junk = logFile kc vc log junk := by
  obtain ⟨rest, hfile⟩ := h.file
  have hlen : (leBytes 4 keyDirMagic ++ encLog kc vc log ++ leBytes 4 sentinel).length =
      kd.stats.dataSize+4 := by
    rw [h.dataSize]
    simp only [List.length_append, length_leBytes, headerSize]
  rw [hfile, logFile, List.take_left' hlen]
  rfl

theorem Refines.agrees (h : kd.Refines kc vc m) : kd.Agrees kc vc m := by
  obtain ⟨log, h⟩ := h
  refine ⟨h.backed.get_eq, h.backed.isSome_lookup, length_entries_eq _ _ h.backed.isSome_lookup, ?_⟩
  intro junk
  rw [h.take_append junk]
  refine ⟨(replayLog kc vc freshRebuild log).index, ?_, ?_⟩
  · rw [rebuildIndex_logFile kc vc log h.fits junk, ← h.dataSize, ← h.deadBytes]
  · have h' : Holds kc vc {kd with
        index := (replayLog kc vc freshRebuild log).index
        mmap := logFile kc vc log junk} log m :=
      ⟨⟨junk, rfl⟩, h.fits, h.dataSize, h.deadBytes, fun _ => rfl, h.map⟩
    exact h'.backed.get_eq

/-- Opening a log file gives the store of its log, whatever lies behind the sentinel. -/
theorem openFile_logFile (log : List (LogRecord K V)) (hlog : ∀ e ∈ log, e.Fits kc vc)
    (rest : Bytes) (config : KeyDirConfig) :
    ∃ kd, KeyDir.openFile kc (logFile kc vc log rest) config = some kd ∧
      kd.Holds kc vc log (logMap log) ∧ kd.stats = ⟨headerSize+(encLog kc vc log).length,
        (replayLog kc vc freshRebuild log).deadBytes⟩ := by
  have hmagic : readU32Le (logFile kc vc log rest) 0 = some keyDirMagic := by
    rw [logFile, List.append_assoc, List.append_assoc]
    exact readU32Le_append [] _ keyDirMagic 0 rfl (by decide)
  have hrebuild := rebuildIndex_logFile kc vc log hlog rest
  refine ⟨⟨(replayLog kc vc freshRebuild log).index, logFile kc vc log rest, config, _⟩, ?_, ?_, rfl⟩
  · simp [KeyDir.openFile, hmagic, hrebuild]
  · exact ⟨⟨rest, rfl⟩, hlog, rfl, rfl, fun _ => rfl, fun _ => rfl⟩

/-- Closing and opening the file again gives a store for the same map, with the same counters. -/
theorem Refines.openFile (h : kd.Refines kc vc m) (config : KeyDirConfig) :
    ∃ kd', KeyDir.openFile kc kd.mmap config = some kd' ∧ kd'.Refines kc vc m ∧
      kd'.stats = kd.stats := by
  obtain ⟨log, h⟩ := h
  obtain ⟨rest, hfile⟩ := h.file
  obtain ⟨kd', hopen, h', hstats⟩ := openFile_logFile log h.fits rest config
  rw [← hfile] at hopen
  refine ⟨kd', hopen, ⟨log, {h' with map := h.map}⟩, ?_⟩
  rw [hstats, ← h.dataSize, ← h.deadBytes]

variable (kc vc)

/-- The store refines the finite map over every run, and at every point its file replays to it. -/
theorem keyDir_run_agrees (config : KeyDirConfig) (hcap : 8 ≤ config.initialCapacity)
    (ops : List (Op K V)) (hfit : RunFits kc vc ∅ ops) :
    ∃ kd₀ kd : KeyDir K, KeyDir.create config = some kd₀ ∧
      kd₀.run kc vc ops = some (kd, (specRun ∅ ops).2) ∧ kd.Agrees kc vc (specRun ∅ ops).1 := by
  obtain ⟨kd₀, hcreate, h₀⟩ := create_refines kc vc config hcap
  obtain ⟨kd, hrun, h⟩ := refines_simulation.run ops h₀ hfit
  exact ⟨kd₀, kd, hcreate, hrun, h.agrees⟩

end KeyDir

theorem KeyDir.keyDir_run_agrees_put_replace_delete :
    ∃ kd₀ kd : KeyDir UInt8, KeyDir.create ⟨8, fun _ => true⟩ = some kd₀ ∧
      kd₀.run byteCodec byteCodec [.put 1 2, .replace 1 3, .delete 1] =
        some (kd, [.unit, .value (some 2), .flag true]) ∧
      kd.Agrees byteCodec byteCodec (∅ : AList (fun _ : UInt8 => UInt8)) :=
  KeyDir.keyDir_run_agrees byteCodec byteCodec ⟨8, fun _ => true⟩ (by decide)
    [.put 1 2, .replace 1 3, .delete 1]
    ⟨by simp [Op.Fits, FitsRecord, byteCodec], by simp [Op.Fits, FitsRecord, byteCodec], trivial, trivial⟩

end ZenDB
