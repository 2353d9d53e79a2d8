import ZenDB.KeyDir.Run

namespace ZenDB

variable {K V : Type} [DecidableEq K]

/-- Bytes of the records the index names. -/
def KeyDirIndex.liveBytes (index : KeyDirIndex K) : Nat := total (fun e => e.2.recordSize) index

theorem liveBytes_insert (index : KeyDirIndex K) (key : K) (m : EntryMeta) :
    KeyDirIndex.liveBytes (index.insert key m)+((index.lookup key).elim 0 EntryMeta.recordSize) =
      index.liveBytes+m.recordSize :=
  total_insert_add (fun e : Sigma (fun _ : K => EntryMeta) => e.2.recordSize) index key m

theorem liveBytes_erase (index : KeyDirIndex K) (key : K) :
    KeyDirIndex.liveBytes (index.erase key)+((index.lookup key).elim 0 EntryMeta.recordSize) =
      index.liveBytes :=
  total_erase_add (fun e : Sigma (fun _ : K => EntryMeta) => e.2.recordSize) index key

/-- Every byte behind the header belongs to a live record or is counted as dead. -/
def Rebuild.Balanced (r : Rebuild K) : Prop :=
  r.cursor = headerSize+r.index.liveBytes+r.deadBytes

theorem Rebuild.Balanced.live {r : Rebuild K} (h : r.Balanced) (key : K)
    (valueSize keySize : Nat) (hfit : 8+valueSize+keySize < 2^32) :
    (r.live key valueSize keySize (r.cursor+(8+valueSize+keySize))).Balanced := by
  have hmod : (8+valueSize+keySize)%2^32 = 8+valueSize+keySize := Nat.mod_eq_of_lt hfit
  have hsum := liveBytes_insert r.index key ⟨r.cursor, 8+valueSize+keySize⟩
  simp only [Balanced, Rebuild.live, hmod] at h ⊢
  cases hk : r.index.lookup key with
  | none =>
    rw [hk, Option.elim_none] at hsum
    dsimp only at hsum ⊢
    omega
  | some old =>
    rw [hk, Option.elim_some] at hsum
    dsimp only at hsum ⊢
    omega

theorem Rebuild.Balanced.dead {r : Rebuild K} (h : r.Balanced) (key : K) (keySize : Nat) :
    (r.dead key keySize (r.cursor+(8+keySize))).Balanced := by
  have hsum := liveBytes_erase r.index key
  simp only [Balanced, Rebuild.dead] at h ⊢
  cases hk : r.index.lookup key with
  | none =>
    rw [hk, Option.elim_none] at hsum
    dsimp only
    omega
  | some old =>
    rw [hk, Option.elim_some] at hsum
    dsimp only
    omega

variable (kc : Codec K) (vc : Codec V)

theorem replayLog_balanced (log : List (LogRecord K V)) (hlog : ∀ e ∈ log, e.Fits kc vc)
    {r : Rebuild K} (h : r.Balanced) : (replayLog kc vc r log).Balanced := by
  induction log generalizing r with
  | nil => exact h
  | cons e log ih =>
    refine ih (fun x hx => hlog x (List.mem_cons_of_mem _ hx)) ?_
    have hfit := hlog e (by simp)
    cases e with
    | live key value =>
      have hb : (vc.enc value).length+(kc.enc key).length < 2^32-8 := hfit
      exact h.live key _ _ (by omega)
    | dead key => exact h.dead key _

namespace KeyDir

/-- The space accounts of the store: live records do not overlap and lie between header and tail,
the counters add up, and the sentinel stands at the tail inside the map. -/
structure Accounted (kd : KeyDir K) : Prop where
  apart : ∀ k₁ k₂ m₁ m₂, kd.index.lookup k₁ = some m₁ → kd.index.lookup k₂ = some m₂ → k₁ ≠ k₂ →
    m₁.offset+m₁.recordSize ≤ m₂.offset ∨ m₂.offset+m₂.recordSize ≤ m₁.offset
  inside : ∀ k m, kd.index.lookup k = some m →
    headerSize ≤ m.offset ∧ m.offset+m.recordSize ≤ kd.stats.dataSize
  balance : kd.stats.dataSize = headerSize+kd.index.liveBytes+kd.stats.deadBytes
  room : kd.stats.dataSize+4 ≤ kd.mmap.length
  terminated : readU32Le kd.mmap kd.stats.dataSize = some sentinel

variable {kc vc} {kd : KeyDir K} {m : AList (fun _ : K => V)}

theorem Holds.accounted {log : List (LogRecord K V)} (h : kd.Holds kc vc log m) :
    kd.Accounted := by
  obtain ⟨rest, hfile⟩ := h.file
  refine ⟨fun _ _ _ _ h₁ h₂ hne => h.backed.apart h₁ h₂ hne, fun _ _ hk => h.backed.inside hk, ?_,
    h.backed.laid.room, ?_⟩
  · have hbal : (replayLog kc vc freshRebuild log).Balanced :=
      replayLog_balanced kc vc log h.fits (by rfl)
    have hlive : kd.index.liveBytes =
        KeyDirIndex.liveBytes (replayLog kc vc freshRebuild log).index := total_congr _ h.index
    rw [h.dataSize, hlive, h.deadBytes, ← hbal, replayLog_cursor]
    rfl
  · rw [hfile, logFile]
    exact readU32Le_append _ _ _ _ (by rw [h.dataSize]; simp [headerSize]) (by decide)

variable (kc vc)

/-- Every record the operation writes in this state has sizes below the bound. -/
def Op.FitsAt (kd : KeyDir K) : Op K V → Prop
  | .put key value => FitsRecord kc vc key value
  | .putIfAbsent key value => kd.contains key = false → FitsRecord kc vc key value
  | .replace key value => FitsRecord kc vc key value
  | .update key f => ∀ current value, kd.get vc key = some current → f current = some value →
      FitsRecord kc vc key value
  | .delete _ => True
  | .clear => True
  | .compact => True

/-- The states of a store: created, changed by operations, closed and opened again. -/
inductive Reachable : KeyDir K → Prop
  | create {config : KeyDirConfig} {kd : KeyDir K} (h : KeyDir.create config = some kd) :
      Reachable kd
  | step {kd kd' : KeyDir K} {op : Op K V} {ret : Ret V} (h : Reachable kd)
      (hf : op.FitsAt kc vc kd) (hop : kd.step kc vc op = some (kd', ret)) : Reachable kd'
  | reopen {kd kd' : KeyDir K} {config : KeyDirConfig} (h : Reachable kd)
      (hopen : KeyDir.openFile kc kd.mmap config = some kd') : Reachable kd'

variable {kc vc}

theorem Backed.fitsAt {log : List (LogRecord K V)} (h : kd.Backed kc vc log m) {op : Op K V}
    (hf : op.FitsAt kc vc kd) : op.Fits kc vc m := by
  cases op with
  | put key value => exact hf
  | putIfAbsent key value =>
    intro hm
    exact hf (by rw [KeyDir.contains, h.isSome_lookup, hm]; rfl)
  | replace key value => exact hf
  | update key f => exact fun value hv => hf _ value (h.get_eq key) hv
  | delete key => trivial
  | clear => trivial
  | compact => trivial

theorem Refines.fitsAt (h : kd.Refines kc vc m) {op : Op K V} (hf : op.FitsAt kc vc kd) :
    op.Fits kc vc m := by
  obtain ⟨log, h⟩ := h
  exact h.backed.fitsAt hf

omit [DecidableEq K] in
theorem capacity_of_create {config : KeyDirConfig} (h : KeyDir.create config = some kd) :
    8 ≤ config.initialCapacity := by
  by_contra hlt
  obtain ⟨b, h₁, h₂⟩ := Option.bind_eq_some_iff.mp h
  obtain ⟨b', h₂, -⟩ := Option.bind_eq_some_iff.mp h₂
  have hlen := length_setLen [] config.initialCapacity
  unfold splice? at h₁ h₂
  split_ifs at h₁ with hle₁
  split_ifs at h₂ with hle₂
  obtain rfl := Option.some.inj h₁
  simp only [List.length_append, List.length_take, List.length_drop, length_leBytes,
    headerSize] at hle₁ hle₂
  omega

theorem Reachable.refines (h : kd.Reachable kc vc) : ∃ m, kd.Refines kc vc m := by
  induction h with
  | @create config kd hcreate =>
    obtain ⟨kd', hcreate', href⟩ := create_refines kc vc config (capacity_of_create hcreate)
    rw [hcreate] at hcreate'
    exact ⟨∅, Option.some.inj hcreate' ▸ href⟩
  | step _ hf hop ih =>
    obtain ⟨m, href⟩ := ih
    obtain ⟨kd₁, hstep, href₁⟩ := refines_simulation.step href _ (href.fitsAt hf)
    rw [hop] at hstep
    obtain ⟨rfl, -⟩ := Prod.mk.inj (Option.some.inj hstep)
    exact ⟨_, href₁⟩
  | @reopen kd kd' config _ hopen ih =>
    obtain ⟨m, href⟩ := ih
    obtain ⟨kd₁, hopen₁, href₁, -⟩ := href.openFile config
    rw [hopen] at hopen₁
    exact ⟨m, Option.some.inj hopen₁ ▸ href₁⟩

/-- The accounts are right in every state, so no read, write or replay leaves the map. -/
theorem reachable_accounted (h : kd.Reachable kc vc) :
    kd.Accounted ∧ (∀ op : Op K V, op.FitsAt kc vc kd → (kd.step kc vc op).isSome = true) ∧
      (∀ key, (kd.get vc key).isSome = true) ∧
      ∀ config, (KeyDir.openFile kc kd.mmap config).isSome = true := by
  obtain ⟨m, href⟩ := h.refines
  refine ⟨?_, ?_, ?_, ?_⟩
  · obtain ⟨log, hh⟩ := href
    exact hh.accounted
  · intro op hf
    obtain ⟨kd', hstep, -⟩ := refines_simulation.step href op (href.fitsAt hf)
    rw [hstep]
    rfl
  · intro key
    rw [href.agrees.get]
    rfl
  · intro config
    obtain ⟨kd', hopen, -⟩ := href.openFile config
    rw [hopen]
    rfl

theorem Reachable.run {ops : List (Op K V)} {kd' : KeyDir K} {rets : List (Ret V)}
    (h : kd.Reachable kc vc) (hf : ∀ op ∈ ops, ∀ kd : KeyDir K, op.FitsAt kc vc kd)
    (hrun : kd.run kc vc ops = some (kd', rets)) : kd'.Reachable kc vc := by
  induction ops generalizing kd rets with
  | nil =>
    cases hrun
    exact h
  | cons op ops ih =>
    obtain ⟨⟨kd₁, ret⟩, hstep, hrun⟩ := Option.bind_eq_some_iff.mp hrun
    obtain ⟨⟨kd₂, rets₂⟩, hrest, hrun⟩ := Option.bind_eq_some_iff.mp hrun
    cases hrun
    exact ih (.step h (hf op List.mem_cons_self kd) hstep)
      (fun op hop => hf op (List.mem_cons_of_mem _ hop)) hrest

/-- One key is overwritten and another one deleted: 29 of 43 bytes are dead. -/
theorem reachable_accounted_overwrite :
    ∃ (kd₀ kd : KeyDir UInt8) (rets : List (Ret UInt8)), KeyDir.create ⟨8, fun _ => false⟩ = some kd₀ ∧
      kd₀.run byteCodec byteCodec [.put 1 2, .put 3 4, .put 1 5, .delete 3] = some (kd, rets) ∧
      kd.stats = ⟨43, 29⟩ ∧ kd.Accounted ∧
      ∀ config, (KeyDir.openFile byteCodec kd.mmap config).isSome = true := by
  obtain ⟨kd₀, kd, rets, hcreate, hrun, hstats⟩ : ∃ (kd₀ kd : KeyDir UInt8) (rets : List (Ret UInt8)),
      KeyDir.create ⟨8, fun _ => false⟩ = some kd₀ ∧
      kd₀.run byteCodec byteCodec [.put 1 2, .put 3 4, .put 1 5, .delete 3] = some (kd, rets) ∧
      kd.stats = ⟨43, 29⟩ := ⟨_, _, _, rfl, rfl, rfl⟩
  have hreach : kd.Reachable byteCodec byteCodec :=
    Reachable.run (.create hcreate) (by simp [Op.FitsAt, FitsRecord, byteCodec]) hrun
  obtain ⟨haccounted, -, -, hopen⟩ := reachable_accounted hreach
  exact ⟨kd₀, kd, rets, hcreate, hrun, hstats, haccounted, hopen⟩

end KeyDir

end ZenDB
