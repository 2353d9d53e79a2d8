import ZenDB.Topic.Model

namespace ZenDB

/-- Records as the bytes they are; they may be no encoding of a value. -/
def rawCodec : Codec Bytes := ⟨id, some, fun _ => rfl⟩

variable {T : Type} (tc : Codec T)

/-- The records with offsets from `b` up to `e`. -/
def window (log : List T) (b e : Nat) : List T := (log.drop b).take (e-b)

theorem length_window (log : List T) (b e : Nat) (he : e ≤ log.length) :
    (window log b e).length = e-b := by
  rw [window, List.length_take, List.length_drop]
  omega

@[simp] theorem window_self (log : List T) (b : Nat) : window log b b = [] := by
  simp [window]

theorem window_split (log : List T) (b m e : Nat) (hbm : b ≤ m) (hme : m ≤ e) :
    window log b e = window log b m ++ window log m e := by
  have he : e-b = (m-b)+(e-m) := by omega
  have hd : (log.drop b).drop (m-b) = log.drop m := by
    rw [List.drop_drop]
    congr 1
    omega
  rw [window, window, window, he, List.take_add, hd]

theorem window_cons (log : List T) (m e : Nat) (hm : m < e) (he : e ≤ log.length) :
    ∃ v, log[m]? = some v ∧ window log m e = v :: window log (m+1) e := by
  have hlt : m < log.length := by omega
  refine ⟨log[m], List.getElem?_eq_getElem hlt, ?_⟩
  have hs : e-m = (e-(m+1))+1 := by omega
  rw [window, window, hs, List.drop_eq_getElem_cons hlt, List.take_succ_cons]

theorem window_append (log tail : List T) (b e : Nat) (he : e ≤ log.length) :
    window (log ++ tail) b e = window log b e := by
  rw [window, window, List.drop_append, List.take_append_of_le_length]
  rw [List.length_drop]
  omega

theorem window_snoc (log : List T) (v : T) (b : Nat) (hb : b ≤ log.length) :
    window (log ++ [v]) b (log.length+1) = window log b log.length ++ [v] := by
  rw [window_split _ b log.length _ hb (by omega), window_append _ _ _ _ (le_refl _)]
  simp [window]

def frames (recs : List T) : Bytes := recs.flatMap (frame tc)

@[simp] theorem frames_nil : frames tc [] = [] := rfl

@[simp] theorem frames_cons (v : T) (recs : List T) :
    frames tc (v :: recs) = frame tc v ++ frames tc recs := rfl

@[simp] theorem frames_append (p q : List T) : frames tc (p ++ q) = frames tc p ++ frames tc q :=
  List.flatMap_append

theorem length_frame (v : T) : (frame tc v).length = 4+(tc.enc v).length := by
  simp [frame]

/-- A segment file that holds the records `recs`. -/
def segmentFile (recs : List T) : Bytes := leBytes 4 topicMagic ++ frames tc recs

theorem length_segmentFile (recs : List T) :
    (segmentFile tc recs).length = segmentHeaderSize+(frames tc recs).length := by
  simp [segmentFile, segmentHeaderSize]

theorem segmentFile_snoc (recs : List T) (v : T) :
    segmentFile tc (recs ++ [v]) = segmentFile tc recs ++ frame tc v := by
  simp [segmentFile, List.append_assoc]

theorem readMagic_segmentFile (recs : List T) (rest : Bytes) :
    readU32Le (segmentFile tc recs ++ rest) 0 = some topicMagic := by
  rw [segmentFile, List.append_assoc]
  exact readU32Le_append [] _ topicMagic 0 rfl (by decide)

/-- The length field in front of a record, wherever its file goes on. -/
theorem readSize_frame (p q : Bytes) (v : T) (pos : Nat) (hp : pos = p.length)
    (hv : (tc.enc v).length < 2^32) :
    readU32Le (p ++ (frame tc v ++ q)) pos = some (tc.enc v).length := by
  rw [frame, List.append_assoc, ← List.append_assoc p]
  exact readU32Le_append p _ _ pos hp hv

theorem readRecord_frame (p q : Bytes) (v : T) (pos : Nat) (hp : pos = p.length)
    (hv : (tc.enc v).length < 2^32) :
    readRecord tc (p ++ (frame tc v ++ q)) pos = (pos+(frame tc v).length, some v) := by
  have hbody : slice? (p ++ (frame tc v ++ q)) (pos+4) (tc.enc v).length = some (tc.enc v) := by
    rw [show p ++ (frame tc v ++ q) = (p ++ leBytes 4 (tc.enc v).length) ++ tc.enc v ++ q by
      simp [frame, List.append_assoc]]
    exact slice?_append _ _ _ _ _ (by simp [hp]) rfl
  simp only [readRecord, readSize_frame tc p q v pos hp hv, hbody, tc.dec_enc, length_frame,
    Nat.add_assoc]

theorem skipRecords_frames (p : List T) (hp : ∀ v ∈ p, (tc.enc v).length < 2^32) (pre q : Bytes)
    (pos : Nat) (hpos : pos = pre.length) :
    skipRecords (pre ++ (frames tc p ++ q)) p.length pos = some (pos+(frames tc p).length) := by
  induction p generalizing pre pos with
  | nil => rfl
  | cons v p ih =>
    have hfile : pre ++ (frames tc (v :: p) ++ q) = pre ++ (frame tc v ++ (frames tc p ++ q)) := by
      simp [List.append_assoc]
    have hsize := readSize_frame tc pre (frames tc p ++ q) v pos hpos (hp v (by simp))
    have hnext := ih (fun x hx => hp x (List.mem_cons_of_mem _ hx)) (pre ++ frame tc v)
      (pos+(4+(tc.enc v).length)) (by rw [List.length_append, length_frame, hpos])
    rw [List.append_assoc] at hnext
    rw [hfile, List.length_cons, skipRecords, hsize]
    simp only [Option.bind_eq_bind, Option.bind_some, hnext, frames_cons, List.length_append,
      length_frame, Nat.add_assoc]

/-- A proper prefix of a framed record. -/
def Torn (tail : Bytes) : Prop :=
  ∃ r n, r.length < 2^32 ∧ n < (frame rawCodec r).length ∧ tail = (frame rawCodec r).take n

theorem torn_nil : Torn [] := ⟨[], 0, by decide, by decide, rfl⟩

theorem torn_frame {v : T} (hv : (tc.enc v).length < 2^32) {n : Nat} (hn : n < (frame tc v).length) :
    Torn ((frame tc v).take n) := ⟨tc.enc v, n, hv, hn, rfl⟩

/-- The scan stops at a torn record, where its length field or the record behind it is cut. -/
theorem scanLoop_torn {tail : Bytes} (htail : Torn tail) (pre : Bytes) (fuel records : Nat) :
    scanLoop (pre ++ tail) (fuel+1) records pre.length = some (records, pre.length) := by
  obtain ⟨r, n, hr, hn, rfl⟩ := htail
  rw [length_frame] at hn
  have hlen : (pre ++ (frame rawCodec r).take n).length = pre.length+n := by
    rw [List.length_append, List.length_take, length_frame]
    omega
  rw [scanLoop]
  split_ifs with hroom
  · have htake : (frame rawCodec r).take n = leBytes 4 r.length ++ r.take (n-4) := by
      rw [frame, List.take_append, length_leBytes, List.take_of_length_le]
      · rfl
      · rw [length_leBytes]
        omega
    have hsize : readU32Le (pre ++ (frame rawCodec r).take n) pre.length = some r.length := by
      rw [htake, ← List.append_assoc]
      exact readU32Le_append pre _ _ _ rfl hr
    have hstop : pre.length+4+r.length > (pre ++ (frame rawCodec r).take n).length := by
      have hraw : (rawCodec.enc r).length = r.length := rfl
      omega
    simp only [hsize, Option.bind_eq_bind, Option.bind_some, if_pos hstop]
  · rfl

theorem scanLoop_frames (recs : List T) (hrecs : ∀ v ∈ recs, (tc.enc v).length < 2^32)
    {tail : Bytes} (htail : Torn tail) (pre : Bytes) (fuel records cursor : Nat)
    (hcur : cursor = pre.length) :
    scanLoop (pre ++ (frames tc recs ++ tail)) (fuel+recs.length+1) records cursor =
      some (records+recs.length, cursor+(frames tc recs).length) := by
  induction recs generalizing pre records cursor with
  | nil =>
    rw [hcur]
    exact scanLoop_torn htail pre fuel records
  | cons v recs ih =>
    have hfile : pre ++ (frames tc (v :: recs) ++ tail) =
        pre ++ (frame tc v ++ (frames tc recs ++ tail)) := by
      rw [frames_cons, List.append_assoc]
    have hsize := readSize_frame tc pre (frames tc recs ++ tail) v cursor hcur (hrecs v (by simp))
    have hlen : (pre ++ (frame tc v ++ (frames tc recs ++ tail))).length =
        cursor+4+(tc.enc v).length+(frames tc recs ++ tail).length := by
      simp only [List.length_append, length_frame]
      omega
    have hroom : cursor+4 ≤ (pre ++ (frame tc v ++ (frames tc recs ++ tail))).length := by omega
    have hstop : ¬ cursor+4+(tc.enc v).length >
        (pre ++ (frame tc v ++ (frames tc recs ++ tail))).length := by omega
    have hnext := ih (fun x hx => hrecs x (List.mem_cons_of_mem _ hx)) (pre ++ frame tc v)
      (records+1) (cursor+4+(tc.enc v).length)
      (by rw [List.length_append, length_frame, hcur]; omega)
    rw [List.append_assoc] at hnext
    rw [hfile, List.length_cons, ← Nat.add_assoc, scanLoop, if_pos hroom, hsize]
    simp only [Option.bind_eq_bind, Option.bind_some, if_neg hstop, hnext]
    rw [frames_cons, List.length_append, length_frame]
    congr 2 <;> omega

theorem length_le_length_frames (recs : List T) : recs.length ≤ (frames tc recs).length := by
  induction recs with
  | nil => simp
  | cons v recs ih =>
    simp only [frames_cons, List.length_cons, List.length_append, length_frame]
    omega

/-- Opening a segment file counts the records in front of a torn tail. -/
theorem scanActiveSegment_segmentFile (recs : List T)
    (hrecs : ∀ v ∈ recs, (tc.enc v).length < 2^32) {tail : Bytes} (htail : Torn tail) (base : Nat) :
    scanActiveSegment (segmentFile tc recs ++ tail) base =
      some (base+recs.length, (segmentFile tc recs).length) := by
  have hle := length_le_length_frames tc recs
  have hlen := length_segmentFile tc recs
  have hfile : segmentFile tc recs ++ tail = leBytes 4 topicMagic ++ (frames tc recs ++ tail) :=
    List.append_assoc _ _ _
  have hmagic := readMagic_segmentFile tc recs tail
  have hscan := scanLoop_frames tc recs hrecs htail (leBytes 4 topicMagic)
    ((segmentFile tc recs ++ tail).length-recs.length) 0 segmentHeaderSize
    (by simp [segmentHeaderSize])
  rw [Nat.sub_add_cancel (by rw [List.length_append]; omega), ← hfile, ← hlen] at hscan
  simp [scanActiveSegment, hmagic, hscan, -List.length_append]

end ZenDB
