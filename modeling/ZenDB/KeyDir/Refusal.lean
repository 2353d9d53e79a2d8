import ZenDB.KeyDir.Growth

namespace ZenDB

variable {K V : Type} [DecidableEq K] (kc : Codec K) (vc : Codec V)

/-- Every operation keeps the index in step with some map, also when the index has lost keys that
the log still binds. -/
theorem KeyDir.backed_simulation :
    Simulation kc vc (fun kd (m : AList (fun _ : K => V)) => ∃ log, kd.Backed kc vc log m) where
  absent := by
    intro kd m key h hk
    obtain ⟨log, h⟩ := h
    have hm := h.lookup_none hk
    refine ⟨hm, log, {h with located := ?_}⟩
    intro k
    rw [lookup_erase_ite]
    split_ifs with hkey
    · rw [hkey, hk]
      exact Option.Rel.none
    · exact h.located k
  present := by
    intro kd m key e h hk
    obtain ⟨log, h⟩ := h
    obtain ⟨v, hm, hl⟩ := h.lookup_some hk
    exact ⟨v, hm, h.decodeValue hl⟩
  place := by
    intro kd m h key value hf
    obtain ⟨log, h⟩ := h
    obtain ⟨kd', hplace, h'⟩ := h.place key value hf (kd.oldSize key)
    exact ⟨kd', hplace, _, h'⟩
  bury := by
    intro kd m key old h hold
    obtain ⟨log, h⟩ := h
    obtain ⟨kd', hbury, h'⟩ := h.bury key old hold
    exact ⟨kd', hbury, _, h'⟩
  compact := by
    intro kd m h
    obtain ⟨log, h⟩ := h
    obtain ⟨kd', hcompact, log', h'⟩ := h.compact
    exact ⟨kd', hcompact, log', h'.backed⟩
  clear := by
    intro kd m h
    obtain ⟨log, h⟩ := h
    obtain ⟨kd', hclear, log', h'⟩ := h.clear
    exact ⟨kd', hclear, log', h'.backed⟩

namespace Store

/-- The states of a store whose growth may be refused at any operation. -/
inductive Reachable : Store K → Prop
  | create {config : KeyDirConfig} {kd : KeyDir K} (h : KeyDir.create config = some kd) :
      Reachable ⟨kd, 0⟩
  | step {s s' : Store K} {refusal : Option GrowthError} {op : KeyDir.Op K V}
      {res : Except GrowthError (KeyDir.Ret V)} (h : Reachable s) (hf : op.FitsAt kc vc s.dir)
      (hop : s.step kc vc refusal op = some (s', res)) : Reachable s'
  | reopen {s : Store K} {config : KeyDirConfig} {kd : KeyDir K} (h : Reachable s)
      (hopen : KeyDir.openFile kc s.file config = some kd) : Reachable ⟨kd, 0⟩

/-- What a key is bound to once the file has been closed and opened again. -/
def reopened (s : Store K) (config : KeyDirConfig) (key : K) : Option (Option V) := do
  let kd ← KeyDir.openFile kc s.file config
  kd.get vc key

/-- Neither a reader of the store nor a reader of its file sees a difference. -/
structure Unchanged (s s' : Store K) : Prop where
  get : ∀ key, s'.dir.get vc key = s.dir.get vc key
  reopened : ∀ config key, s'.reopened kc vc config key = s.reopened kc vc config key

variable {kc vc} {s s' : Store K} {log : List (LogRecord K V)} {m : AList (fun _ : K => V)}

omit [DecidableEq K] in
theorem file_logFile {rest : Bytes} (h : s.dir.mmap = logFile kc vc log rest) :
    s.file = logFile kc vc log (rest ++ List.replicate s.slack 0) := by
  rw [file, h, logFile, logFile]
  simp only [List.append_assoc]

theorem reopened_eq (h : s.dir.Backed kc vc log m) (config : KeyDirConfig) (key : K) :
    s.reopened kc vc config key = some ((logMap log).lookup key) := by
  obtain ⟨rest, hfile⟩ := h.file
  obtain ⟨kd, hopen, hkd, -⟩ := KeyDir.openFile_logFile log h.fits
    (rest ++ List.replicate s.slack 0) config
  rw [← file_logFile hfile] at hopen
  simp only [reopened, hopen, Option.bind_eq_bind, Option.bind_some]
  exact hkd.backed.get_eq key

/-- A refused operation keeps the log; a refused deletion loses its key from the index. -/
theorem LeftBy.backed {op : KeyDir.Op K V} (h : LeftBy op s.dir s'.dir)
    (hb : s.dir.Backed kc vc log m) : ∃ m', s'.dir.Backed kc vc log m' ∧
      (∀ key, op = .delete key → m' = m.erase key) ∧ ((∀ key, op ≠ .delete key) → m' = m) := by
  have hfile := hb.file
  have hsize := hb.dataSize
  rw [← h.mmap] at hfile
  rw [← h.dataSize] at hsize
  by_cases hop : ∃ key, op = .delete key
  · obtain ⟨key, rfl⟩ := hop
    refine ⟨m.erase key, ⟨hfile, hb.fits, hsize, ?_⟩, ?_, fun hne => absurd rfl (hne key)⟩
    · intro k
      rw [(h.deleted key rfl).2, lookup_erase_ite, lookup_erase_ite]
      split_ifs with hk
      · exact Option.Rel.none
      · exact hb.located k
    · intro key' hkey
      rw [KeyDir.Op.delete.inj hkey]
  · have hop' : ∀ key, op ≠ .delete key := fun key hkey => hop ⟨key, hkey⟩
    refine ⟨m, ⟨hfile, hb.fits, hsize, ?_⟩, fun key hkey => absurd hkey (hop' key), fun _ => rfl⟩
    intro k
    rw [h.kept hop']
    exact hb.located k

theorem Reachable.backed (h : s.Reachable kc vc) : ∃ log m, s.dir.Backed kc vc log m := by
  induction h with
  | @create config kd hcreate =>
    have hkd : kd.Reachable kc vc := .create hcreate
    obtain ⟨m, log, h⟩ := hkd.refines
    exact ⟨log, m, h.backed⟩
  | step _ hf hop ih =>
    obtain ⟨log, m, hb⟩ := ih
    obtain ⟨ret, -, hstep⟩ | ⟨e, -, hleft⟩ := step_inverts hop
    · obtain ⟨kd', hstep', log', hb'⟩ :=
        (KeyDir.backed_simulation kc vc).step ⟨log, hb⟩ _ (hb.fitsAt hf)
      rw [hstep] at hstep'
      obtain ⟨rfl, -⟩ := Prod.mk.inj (Option.some.inj hstep')
      exact ⟨log', _, hb'⟩
    · obtain ⟨m', hb', -⟩ := hleft.backed hb
      exact ⟨log, m', hb'⟩
  | @reopen s config kd _ hopen ih =>
    obtain ⟨log, m, hb⟩ := ih
    obtain ⟨rest, hfile⟩ := hb.file
    obtain ⟨kd', hopen', hkd, -⟩ := KeyDir.openFile_logFile log hb.fits
      (rest ++ List.replicate s.slack 0) config
    rw [← file_logFile hfile, hopen] at hopen'
    exact ⟨log, _, Option.some.inj hopen' ▸ hkd.backed⟩

/-- An operation that is refused its growth changes nothing, unless it is a deletion. -/
theorem refused_unchanged_iff (h : s.Reachable kc vc) {refusal : Option GrowthError}
    {op : KeyDir.Op K V} {e : GrowthError}
    (hop : s.step kc vc refusal op = some (s', .error e)) :
    Unchanged kc vc s s' ↔ ∀ key, op ≠ .delete key := by
  obtain ⟨log, m, hb⟩ := h.backed
  obtain ⟨ret, hok, -⟩ | ⟨e', -, hleft⟩ := step_inverts hop
  · cases hok
  · obtain ⟨m', hb', hdeleted, hkept⟩ := hleft.backed hb
    constructor
    · intro hsame key hkey
      have hget := hsame.get key
      rw [hb'.get_eq, hb.get_eq, hdeleted key hkey, AList.lookup_erase] at hget
      have hsome := (hleft.deleted key hkey).1
      rw [hb.isSome_lookup, ← Option.some.inj hget] at hsome
      cases hsome
    · intro hne
      refine ⟨?_, ?_⟩
      · intro key
        rw [hb'.get_eq, hb.get_eq, hkept hne]
      · intro config key
        rw [reopened_eq hb', reopened_eq hb]

/-- One key, stored in a file that has no room for another record. -/
def oneKey : Store UInt8 :=
  ⟨⟨(∅ : KeyDirIndex UInt8).insert 1 ⟨4, 10⟩,
    [75, 73, 82, 68, 1, 0, 0, 0, 2, 1, 0, 0, 0, 1, 254, 255, 255, 255],
    ⟨8, fun _ => false⟩, ⟨14, 0⟩⟩, 0⟩

theorem oneKey_reachable : oneKey.Reachable byteCodec byteCodec := by
  have hcreate : KeyDir.create (K := UInt8) ⟨8, fun _ => false⟩ =
      some ⟨∅, [75, 73, 82, 68, 254, 255, 255, 255], ⟨8, fun _ => false⟩, ⟨4, 0⟩⟩ := rfl
  have hfit : KeyDir.Op.FitsAt byteCodec byteCodec
      ⟨∅, [75, 73, 82, 68, 254, 255, 255, 255], ⟨8, fun _ => false⟩, ⟨4, 0⟩⟩ (.put 1 2) := by
    simp [KeyDir.Op.FitsAt, FitsRecord, byteCodec]
  have hput : Store.step byteCodec byteCodec
      ⟨⟨∅, [75, 73, 82, 68, 254, 255, 255, 255], ⟨8, fun _ => false⟩, ⟨4, 0⟩⟩, 0⟩ none (.put 1 2) =
        some (oneKey, .ok .unit) := rfl
  exact .step (.create hcreate) hfit hput

/-- A put that the system refuses. -/
theorem refused_unchanged_put :
    oneKey.step byteCodec byteCodec (some .remap) (.put 2 5) = some (⟨oneKey.dir, 18⟩, .error .remap) ∧
      Unchanged byteCodec byteCodec oneKey ⟨oneKey.dir, 18⟩ := by
  have hop : oneKey.step byteCodec byteCodec (some .remap) (.put 2 5) =
      some (⟨oneKey.dir, 18⟩, .error .remap) := rfl
  exact ⟨hop, (refused_unchanged_iff oneKey_reachable hop).mpr fun key hdelete => by cases hdelete⟩

/-- The key that could not be deleted is gone for readers and comes back with the next open. -/
theorem refused_delete_forgets :
    ∃ s' : Store UInt8, oneKey.Reachable byteCodec byteCodec ∧
      oneKey.step byteCodec byteCodec (some .setLen) (.delete 1) = some (s', .error .setLen) ∧
      oneKey.dir.get byteCodec 1 = some (some 2) ∧ s'.dir.get byteCodec 1 = some none ∧
      s'.reopened byteCodec byteCodec ⟨8, fun _ => false⟩ 1 = some (some 2) :=
  ⟨_, oneKey_reachable, rfl, rfl, rfl, rfl⟩

end Store

end ZenDB
