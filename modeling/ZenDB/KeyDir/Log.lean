import ZenDB.KeyDir.Model

namespace ZenDB

variable {K V : Type} (kc : Codec K) (vc : Codec V)

/-- The records of the file, read as a log of map updates. -/
inductive LogRecord (K V : Type) where
  | live (key : K) (value : V)
  | dead (key : K)

/-- The bound under which the size fields of a record do not wrap around. -/
def FitsRecord (key : K) (value : V) : Prop :=
  (vc.enc value).length+(kc.enc key).length < 2^32-8

namespace LogRecord

def encode : LogRecord K V → Bytes
  | .live key value => leBytes 4 (vc.enc value).length ++ vc.enc value ++
      (leBytes 4 (kc.enc key).length ++ kc.enc key)
  | .dead key => leBytes 4 tombstone ++ (leBytes 4 (kc.enc key).length ++ kc.enc key)

def Fits : LogRecord K V → Prop
  | .live key value => FitsRecord kc vc key value
  | .dead key => (kc.enc key).length < 2^32-8

theorem length_encode_live (key : K) (value : V) :
    (encode kc vc (.live key value)).length = 8+(vc.enc value).length+(kc.enc key).length := by
  simp only [encode, List.length_append, length_leBytes]
  omega

theorem length_encode_dead (key : K) :
    (encode kc vc (.dead key)).length = 8+(kc.enc key).length := by
  simp only [encode, List.length_append, length_leBytes]
  omega

theorem eight_le_length_encode (e : LogRecord K V) : 8 ≤ (e.encode kc vc).length := by
  cases e with
  | live key value => rw [length_encode_live]; omega
  | dead key => rw [length_encode_dead]; omega

end LogRecord

def encLog (log : List (LogRecord K V)) : Bytes := log.flatMap (LogRecord.encode kc vc)

@[simp] theorem encLog_nil : encLog kc vc ([] : List (LogRecord K V)) = [] := rfl

@[simp] theorem encLog_cons (e : LogRecord K V) (log : List (LogRecord K V)) :
    encLog kc vc (e :: log) = e.encode kc vc ++ encLog kc vc log := rfl

theorem encLog_append (p q : List (LogRecord K V)) :
    encLog kc vc (p ++ q) = encLog kc vc p ++ encLog kc vc q := List.flatMap_append

theorem length_le_length_encLog (log : List (LogRecord K V)) :
    log.length ≤ (encLog kc vc log).length := by
  induction log with
  | nil => simp
  | cons e log ih =>
    have h := e.eight_le_length_encode kc vc
    simp only [encLog_cons, List.length_cons, List.length_append]
    omega

/-- A log file: header, records, sentinel, and whatever bytes were left behind it. -/
def logFile (log : List (LogRecord K V)) (rest : Bytes) : Bytes :=
  leBytes 4 keyDirMagic ++ encLog kc vc log ++ leBytes 4 sentinel ++ rest

theorem length_logFile (log : List (LogRecord K V)) (rest : Bytes) :
    (logFile kc vc log rest).length = 8+(encLog kc vc log).length+rest.length := by
  simp only [logFile, List.length_append, length_leBytes]
  omega

variable [DecidableEq K]

/-- What one turn of the replay loop does with a record. -/
def LogRecord.replay (r : Rebuild K) : LogRecord K V → Rebuild K
  | .live key value => r.live key (vc.enc value).length (kc.enc key).length
      (r.cursor+(8+(vc.enc value).length+(kc.enc key).length))
  | .dead key => r.dead key (kc.enc key).length (r.cursor+(8+(kc.enc key).length))

theorem LogRecord.replay_cursor (r : Rebuild K) (e : LogRecord K V) :
    (e.replay kc vc r).cursor = r.cursor+(e.encode kc vc).length := by
  cases e with
  | live key value => rw [length_encode_live]; rfl
  | dead key => rw [length_encode_dead]; rfl

def replayLog (r : Rebuild K) (log : List (LogRecord K V)) : Rebuild K :=
  log.foldl (LogRecord.replay kc vc) r

theorem replayLog_snoc (r : Rebuild K) (log : List (LogRecord K V)) (e : LogRecord K V) :
    replayLog kc vc r (log ++ [e]) = e.replay kc vc (replayLog kc vc r log) := by
  simp [replayLog]

theorem replayLog_cursor (r : Rebuild K) (log : List (LogRecord K V)) :
    (replayLog kc vc r log).cursor = r.cursor+(encLog kc vc log).length := by
  induction log generalizing r with
  | nil => rfl
  | cons e log ih =>
    have h := ih (e.replay kc vc r)
    rw [LogRecord.replay_cursor] at h
    rw [encLog_cons, List.length_append, ← Nat.add_assoc]
    exact h

def freshRebuild : Rebuild K := ⟨∅, 0, headerSize⟩

/-- The loop reads one record and goes on behind it. -/
theorem rebuildLoop_record (p q : Bytes) (e : LogRecord K V) (he : e.Fits kc vc) (fuel : Nat)
    (r : Rebuild K) (hr : r.cursor = p.length) :
    rebuildLoop kc (p ++ e.encode kc vc ++ q) (fuel+1) r =
      rebuildLoop kc (p ++ e.encode kc vc ++ q) fuel (e.replay kc vc r) := by
  cases e with
  | live key value =>
    have hfit : (vc.enc value).length+(kc.enc key).length < 2^32-8 := he
    have hsize : readU32Le (p ++ LogRecord.encode kc vc (.live key value) ++ q) r.cursor =
        some (vc.enc value).length := by
      rw [show p ++ LogRecord.encode kc vc (.live key value) ++ q =
        p ++ leBytes 4 (vc.enc value).length ++
          (vc.enc value ++ (leBytes 4 (kc.enc key).length ++ kc.enc key) ++ q) by
        simp [LogRecord.encode, List.append_assoc]]
      exact readU32Le_append _ _ _ _ hr (by omega)
    have hks : readU32Le (p ++ LogRecord.encode kc vc (.live key value) ++ q)
        (r.cursor+4+(vc.enc value).length) = some (kc.enc key).length := by
      rw [show p ++ LogRecord.encode kc vc (.live key value) ++ q =
        (p ++ leBytes 4 (vc.enc value).length ++ vc.enc value) ++
          leBytes 4 (kc.enc key).length ++ (kc.enc key ++ q) by
        simp [LogRecord.encode, List.append_assoc]]
      exact readU32Le_append _ _ _ _ (by simp [hr]; omega) (by omega)
    have hkey : slice? (p ++ LogRecord.encode kc vc (.live key value) ++ q)
        (r.cursor+4+(vc.enc value).length+4) (kc.enc key).length = some (kc.enc key) := by
      rw [show p ++ LogRecord.encode kc vc (.live key value) ++ q =
        (p ++ leBytes 4 (vc.enc value).length ++ vc.enc value ++
          leBytes 4 (kc.enc key).length) ++ kc.enc key ++ q by
        simp [LogRecord.encode, List.append_assoc]]
      exact slice?_append _ _ _ _ _ (by simp [hr]; omega) rfl
    have hs : ¬ (vc.enc value).length = sentinel := by unfold sentinel; omega
    have ht : ¬ (vc.enc value).length = tombstone := by unfold tombstone; omega
    have hend : r.cursor+4+(vc.enc value).length+4+(kc.enc key).length =
        r.cursor+(8+(vc.enc value).length+(kc.enc key).length) := by omega
    simp only [rebuildLoop, hsize, if_neg hs, if_neg ht, hks, hkey, Option.bind_eq_bind,
      Option.bind_some, kc.dec_enc, LogRecord.replay, hend]
  | dead key =>
    have hfit : (kc.enc key).length < 2^32-8 := he
    have hsize : readU32Le (p ++ LogRecord.encode kc vc (.dead key) ++ q) r.cursor =
        some tombstone := by
      rw [show p ++ LogRecord.encode kc vc (.dead key) ++ q =
        p ++ leBytes 4 tombstone ++ (leBytes 4 (kc.enc key).length ++ kc.enc key ++ q) by
        simp [LogRecord.encode, List.append_assoc]]
      exact readU32Le_append _ _ _ _ hr (by unfold tombstone; omega)
    have hks : readU32Le (p ++ LogRecord.encode kc vc (.dead key) ++ q) (r.cursor+4) =
        some (kc.enc key).length := by
      rw [show p ++ LogRecord.encode kc vc (.dead key) ++ q =
        (p ++ leBytes 4 tombstone) ++ leBytes 4 (kc.enc key).length ++ (kc.enc key ++ q) by
        simp [LogRecord.encode, List.append_assoc]]
      exact readU32Le_append _ _ _ _ (by simp [hr]) (by omega)
    have hkey : slice? (p ++ LogRecord.encode kc vc (.dead key) ++ q) (r.cursor+4+4)
        (kc.enc key).length = some (kc.enc key) := by
      rw [show p ++ LogRecord.encode kc vc (.dead key) ++ q =
        (p ++ leBytes 4 tombstone ++ leBytes 4 (kc.enc key).length) ++ kc.enc key ++ q by
        simp [LogRecord.encode, List.append_assoc]]
      exact slice?_append _ _ _ _ _ (by simp [hr]) rfl
    have hs : ¬ tombstone = sentinel := by decide
    have hend : r.cursor+4+4+(kc.enc key).length = r.cursor+(8+(kc.enc key).length) := by omega
    simp only [rebuildLoop, hsize, if_neg hs, if_true, hks, hkey, Option.bind_eq_bind,
      Option.bind_some, kc.dec_enc, LogRecord.replay, hend]

theorem rebuildLoop_log (log : List (LogRecord K V)) (hlog : ∀ e ∈ log, e.Fits kc vc)
    (p rest : Bytes) (fuel : Nat) (r : Rebuild K) (hr : r.cursor = p.length) :
    rebuildLoop kc (p ++ encLog kc vc log ++ (leBytes 4 sentinel ++ rest)) (fuel+log.length+1) r =
      some (replayLog kc vc r log) := by
  induction log generalizing p r with
  | nil =>
    have hs : readU32Le (p ++ leBytes 4 sentinel ++ rest) r.cursor = some sentinel :=
      readU32Le_append p rest sentinel r.cursor hr (by decide)
    have he : p ++ encLog kc vc ([] : List (LogRecord K V)) ++ (leBytes 4 sentinel ++ rest) =
        p ++ leBytes 4 sentinel ++ rest := by simp
    rw [he]
    simp only [rebuildLoop, hs, if_true, replayLog, List.foldl_nil]
  | cons e log ih =>
    have he : p ++ encLog kc vc (e :: log) ++ (leBytes 4 sentinel ++ rest) =
        p ++ e.encode kc vc ++ (encLog kc vc log ++ (leBytes 4 sentinel ++ rest)) := by
      simp [List.append_assoc]
    rw [he, List.length_cons, ← Nat.add_assoc,
      rebuildLoop_record kc vc p _ e (hlog e (by simp)) _ r hr]
    have hc : (e.replay kc vc r).cursor = (p ++ e.encode kc vc).length := by
      rw [LogRecord.replay_cursor, hr, List.length_append]
    have h := ih (fun x hx => hlog x (List.mem_cons_of_mem _ hx)) (p ++ e.encode kc vc)
      (e.replay kc vc r) hc
    rwa [List.append_assoc (p ++ e.encode kc vc)] at h

/-- Replaying a log file never reads behind its sentinel. -/
theorem rebuildIndex_logFile (log : List (LogRecord K V)) (hlog : ∀ e ∈ log, e.Fits kc vc)
    (rest : Bytes) :
    rebuildIndex kc (logFile kc vc log rest) =
      some ((replayLog kc vc freshRebuild log).index,
        ⟨headerSize+(encLog kc vc log).length, (replayLog kc vc freshRebuild log).deadBytes⟩) := by
  have hle := length_le_length_encLog kc vc log
  have hlen := length_logFile kc vc log rest
  have h := rebuildLoop_log kc vc log hlog (leBytes 4 keyDirMagic) rest
    ((logFile kc vc log rest).length-log.length) freshRebuild (by simp [freshRebuild, headerSize])
  rw [Nat.sub_add_cancel (by omega), ← List.append_assoc] at h
  have hcur := replayLog_cursor kc vc freshRebuild log
  rw [rebuildIndex, show (⟨∅, 0, headerSize⟩ : Rebuild K) = freshRebuild from rfl, logFile]
  rw [logFile] at h
  rw [h]
  simp only [Option.bind_eq_bind, Option.bind_some, hcur]
  rfl

end ZenDB
