import ZenDB.KeyDir.Accounts

namespace ZenDB

variable {K V α β : Type}

/-- Which call of `grow_into` fails. -/
inductive GrowthError where
  | setLen
  | remap
  deriving DecidableEq, Repr

/-- A store whose map may be shorter than its file: a remap that fails leaves the file extended by
`slack` zero bytes. -/
structure Store (K : Type) where
  dir : KeyDir K
  slack : Nat

/-- What an operation leaves and returns; an `Option` around it stands for a panic. -/
abbrev Store.Outcome (K α : Type) := Store K × Except GrowthError α

namespace Store

def file (s : Store K) : Bytes := s.dir.mmap ++ List.replicate s.slack 0

/-- `grow_into`; `refusal` is what the operating system refuses, if anything. -/
def growInto (s : Store K) (refusal : Option GrowthError) (desired : Nat) :
    Outcome K Unit :=
  let newCapacity := max (s.dir.mmap.length*2) desired
  match refusal with
  | some .setLen => (s, .error .setLen)
  | some .remap => (⟨s.dir, newCapacity-s.dir.mmap.length⟩, .error .remap)
  | none => (⟨{s.dir with mmap := setLen s.file newCapacity}, 0⟩, .ok ())

/-- `if end + 4 > mmap.len() { grow_into(..)?; }` -/
def makeRoom (s : Store K) (refusal : Option GrowthError) (tail : Nat) :
    Outcome K Unit :=
  if tail+4 > s.dir.mmap.length then s.growInto refusal (tail+4) else (s, .ok ())

/-- The `?` operator: an error ends the operation with the store as it is. -/
def andThen : Option (Outcome K α) → (Store K → α → Option (Outcome K β)) → Option (Outcome K β)
  | none, _ => none
  | some (s, .error e), _ => some (s, .error e)
  | some (s, .ok a), f => f s a

variable (kc : Codec K) (vc : Codec V)

/-- `write_entry_into`: once there is room, `writeEntryInto` writes without growing again. -/
def writeEntry (s : Store K) (refusal : Option GrowthError) (key : K) (value : V) :
    Option (Outcome K EntryMeta) :=
  let tail := s.dir.stats.dataSize+(8+(vc.enc value).length+(kc.enc key).length)
  andThen (some (s.makeRoom refusal tail)) fun s _ => do
    let (mmap, stats, newMeta) ← writeEntryInto kc vc s.dir.mmap s.dir.stats key value
    return ({s with dir := {s.dir with mmap := mmap, stats := stats}}, .ok newMeta)

/-- `write_tombstone_into`, in the same way. -/
def writeTombstone (s : Store K) (refusal : Option GrowthError) (old : EntryMeta) :
    Option (Outcome K Unit) := do
  let valueSize ← readU32Le s.dir.mmap old.offset
  let keySize := old.recordSize-8-valueSize
  andThen (some (s.makeRoom refusal (s.dir.stats.dataSize+(8+keySize)))) fun s _ => do
    let (mmap, stats) ← writeTombstoneInto s.dir.mmap s.dir.stats old
    return ({s with dir := {s.dir with mmap := mmap, stats := stats}}, .ok ())

theorem andThen_eq_some {r : Option (Outcome K α)} {f : Store K → α → Option (Outcome K β)}
    {s' : Store K} {res : Except GrowthError β} (h : andThen r f = some (s', res)) :
    (∃ e, r = some (s', .error e) ∧ res = .error e) ∨
      ∃ s a, r = some (s, .ok a) ∧ f s a = some (s', res) := by
  match r with
  | none => cases h
  | some (s, .error e) =>
    obtain ⟨rfl, rfl⟩ := Prod.mk.inj (Option.some.inj h)
    exact Or.inl ⟨e, rfl, rfl⟩
  | some (s, .ok a) => exact Or.inr ⟨s, a, rfl, h⟩

theorem setLen_zeros (b : Bytes) (k n : Nat) :
    setLen (b ++ List.replicate k 0) n = setLen b n := by
  have hlen : min (n-b.length) k+(n-(b.length+k)) = n-b.length := by omega
  rw [setLen, setLen, List.take_append, List.take_replicate, List.append_assoc, List.length_append,
    List.length_replicate, ← List.replicate_add, hlen]

theorem makeRoom_cases {s s' : Store K} {refusal : Option GrowthError} {tail : Nat}
    {res : Except GrowthError Unit} (h : s.makeRoom refusal tail = (s', res)) :
    (∃ e, res = .error e ∧ s'.dir = s.dir) ∨
      (res = .ok () ∧ s'.dir = {s.dir with mmap := growFor s.dir.mmap tail}) := by
  unfold makeRoom at h
  split_ifs at h with hroom
  · cases refusal with
    | none =>
      obtain ⟨rfl, rfl⟩ := Prod.mk.inj h
      refine Or.inr ⟨rfl, ?_⟩
      rw [growFor, if_pos hroom, file, setLen_zeros]
      rfl
    | some e =>
      cases e with
      | setLen =>
        obtain ⟨rfl, rfl⟩ := Prod.mk.inj h
        exact Or.inl ⟨_, rfl, rfl⟩
      | remap =>
        obtain ⟨rfl, rfl⟩ := Prod.mk.inj h
        exact Or.inl ⟨_, rfl, rfl⟩
  · obtain ⟨rfl, rfl⟩ := Prod.mk.inj h
    refine Or.inr ⟨rfl, ?_⟩
    rw [growFor, if_neg hroom]

theorem growFor_growFor (mmap : Bytes) (tail : Nat) :
    growFor (growFor mmap tail) tail = growFor mmap tail := by
  unfold growFor
  split_ifs with hroom hmore
  · rw [ZenDB.growInto, length_setLen] at hmore
    omega
  · rfl
  · rfl

theorem readU32Le_growFor {mmap : Bytes} {tail pos n : Nat} (h : readU32Le mmap pos = some n) :
    readU32Le (growFor mmap tail) pos = some n := by
  unfold growFor
  split_ifs with hroom
  · obtain ⟨bs, hs, hn⟩ := Option.map_eq_some_iff.mp h
    have hpos : pos+4 ≤ mmap.length := by
      by_contra hlt
      rw [slice?, if_neg hlt] at hs
      cases hs
    have hgrow : ZenDB.growInto mmap (tail+4) =
        mmap ++ List.replicate (max (mmap.length*2) (tail+4)-mmap.length) 0 := by
      rw [ZenDB.growInto, setLen, List.take_of_length_le (by omega)]
    rw [readU32Le, hgrow, slice?_of_le _ _ _ _ hpos, hs, Option.map_some, hn]
  · exact h

/-- An entry is written as without refusals, or nothing happens to the map, index and counters. -/
theorem writeEntry_cases {s s' : Store K} {refusal : Option GrowthError} {key : K} {value : V}
    {res : Except GrowthError EntryMeta}
    (h : s.writeEntry kc vc refusal key value = some (s', res)) :
    (∃ e, res = .error e ∧ s'.dir = s.dir) ∨
      ∃ mmap stats newMeta, res = .ok newMeta ∧
        writeEntryInto kc vc s.dir.mmap s.dir.stats key value = some (mmap, stats, newMeta) ∧
        s'.dir = {s.dir with mmap := mmap, stats := stats} := by
  obtain ⟨e, hroom, rfl⟩ | ⟨s₁, a, hroom, h⟩ := andThen_eq_some h
  · obtain ⟨e', he, hdir⟩ | ⟨hok, -⟩ := makeRoom_cases (Option.some.inj hroom)
    · exact Or.inl ⟨e, rfl, hdir⟩
    · cases hok
  · obtain ⟨e', he, -⟩ | ⟨-, hdir⟩ := makeRoom_cases (Option.some.inj hroom)
    · cases he
    · obtain ⟨⟨mmap, stats, newMeta⟩, hwrite, h⟩ := Option.bind_eq_some_iff.mp h
      obtain ⟨rfl, rfl⟩ := Prod.mk.inj (Option.some.inj h)
      refine Or.inr ⟨mmap, stats, newMeta, rfl, ?_, by rw [hdir]⟩
      rw [hdir] at hwrite
      rw [← hwrite]
      simp only [writeEntryInto, growFor_growFor]

theorem writeTombstone_cases {s s' : Store K} {refusal : Option GrowthError} {old : EntryMeta}
    {res : Except GrowthError Unit} (h : s.writeTombstone refusal old = some (s', res)) :
    (∃ e, res = .error e ∧ s'.dir = s.dir) ∨
      ∃ mmap stats, res = .ok () ∧
        writeTombstoneInto s.dir.mmap s.dir.stats old = some (mmap, stats) ∧
        s'.dir = {s.dir with mmap := mmap, stats := stats} := by
  obtain ⟨valueSize, hsize, h⟩ := Option.bind_eq_some_iff.mp h
  obtain ⟨e, hroom, rfl⟩ | ⟨s₁, a, hroom, h⟩ := andThen_eq_some h
  · obtain ⟨e', he, hdir⟩ | ⟨hok, -⟩ := makeRoom_cases (Option.some.inj hroom)
    · exact Or.inl ⟨e, rfl, hdir⟩
    · cases hok
  · obtain ⟨e', he, -⟩ | ⟨-, hdir⟩ := makeRoom_cases (Option.some.inj hroom)
    · cases he
    · obtain ⟨⟨mmap, stats⟩, hwrite, h⟩ := Option.bind_eq_some_iff.mp h
      obtain ⟨rfl, rfl⟩ := Prod.mk.inj (Option.some.inj h)
      refine Or.inr ⟨mmap, stats, rfl, ?_, by rw [hdir]⟩
      rw [hdir] at hwrite
      rw [← hwrite]
      simp only [writeTombstoneInto, hsize, readU32Le_growFor hsize, growFor_growFor,
        Option.bind_eq_bind, Option.bind_some]

variable [DecidableEq K]

/-- `compact` cuts the file or extends it with zeros and maps all of it. -/
def compact (s : Store K) : Option (Store K) := do
  return ⟨← s.dir.compact, 0⟩

/-- `self.maybe_compact()?; Ok(ret)` -/
def finish (s : Store K) (ret : KeyDir.Ret V) : Option (Outcome K (KeyDir.Ret V)) :=
  if s.dir.config.compactionDue s.dir.stats then s.compact.map (·, .ok ret) else some (s, .ok ret)

def addDead (s : Store K) (n : Nat) : Store K :=
  {s with dir := {s.dir with stats := {s.dir.stats with deadBytes := s.dir.stats.deadBytes+n}}}

def point (s : Store K) (key : K) (m : EntryMeta) : Store K :=
  {s with dir := {s.dir with index := s.dir.index.insert key m}}

def unindex (s : Store K) (key : K) : Store K :=
  {s with dir := {s.dir with index := s.dir.index.erase key}}

def put (s : Store K) (refusal : Option GrowthError) (key : K) (value : V) :
    Option (Outcome K (KeyDir.Ret V)) :=
  andThen (s.writeEntry kc vc refusal key value) fun s newMeta =>
    match s.dir.index.lookup key with
    | some old => ((s.addDead old.recordSize).point key newMeta).finish .unit
    | none => (s.point key newMeta).finish .unit

/-- The key leaves the index before its tombstone is written. -/
def delete (s : Store K) (refusal : Option GrowthError) (key : K) :
    Option (Outcome K (KeyDir.Ret V)) :=
  match s.dir.index.lookup key with
  | none => some (s, .ok (.flag false))
  | some old =>
    andThen (((s.unindex key).addDead old.recordSize).writeTombstone refusal old) fun s _ =>
      s.finish (.flag true)

def putIfAbsent (s : Store K) (refusal : Option GrowthError) (key : K) (value : V) :
    Option (Outcome K (KeyDir.Ret V)) :=
  match s.dir.index.lookup key with
  | some _ => some (s, .ok (.flag false))
  | none =>
    andThen (s.writeEntry kc vc refusal key value) fun s newMeta =>
      (s.point key newMeta).finish (.flag true)

def replace (s : Store K) (refusal : Option GrowthError) (key : K) (value : V) :
    Option (Outcome K (KeyDir.Ret V)) :=
  match s.dir.index.lookup key with
  | some old => do
    let prev ← vc.dec (← valueBytesIn s.dir.mmap old)
    andThen (s.writeEntry kc vc refusal key value) fun s newMeta =>
      ((s.addDead old.recordSize).point key newMeta).finish (.value (some prev))
  | none =>
    andThen (s.writeEntry kc vc refusal key value) fun s newMeta =>
      (s.point key newMeta).finish (.value none)

/-- Unlike `delete`, the key stays in the index until its tombstone is written. -/
def update (s : Store K) (refusal : Option GrowthError) (key : K) (f : Option V → Option V) :
    Option (Outcome K (KeyDir.Ret V)) :=
  match s.dir.index.lookup key with
  | some old => do
    let current ← vc.dec (← valueBytesIn s.dir.mmap old)
    match f (some current) with
    | some newV =>
      andThen (s.writeEntry kc vc refusal key newV) fun s newMeta =>
        ((s.addDead old.recordSize).point key newMeta).finish .unit
    | none =>
      andThen ((s.addDead old.recordSize).writeTombstone refusal old) fun s _ =>
        (s.unindex key).finish .unit
  | none =>
    match f none with
    | some newV =>
      andThen (s.writeEntry kc vc refusal key newV) fun s newMeta =>
        (s.point key newMeta).finish .unit
    | none => some (s, .ok .unit)

def step (s : Store K) (refusal : Option GrowthError) :
    KeyDir.Op K V → Option (Outcome K (KeyDir.Ret V))
  | .put key value => s.put kc vc refusal key value
  | .putIfAbsent key value => s.putIfAbsent kc vc refusal key value
  | .replace key value => s.replace kc vc refusal key value
  | .update key f => s.update kc vc refusal key f
  | .delete key => s.delete refusal key
  | .clear => s.dir.clear.map fun dir => ({s with dir := dir}, .ok .unit)
  | .compact => s.compact.map (·, .ok .unit)

theorem finish_eq_some {s s' : Store K} {ret : KeyDir.Ret V}
    {res : Except GrowthError (KeyDir.Ret V)} (h : s.finish ret = some (s', res)) :
    res = .ok ret ∧ s.dir.maybeCompact = some s'.dir := by
  unfold finish at h
  unfold KeyDir.maybeCompact
  split_ifs at h ⊢ with hdue
  · obtain ⟨s₁, hcompact, h⟩ := Option.map_eq_some_iff.mp h
    obtain ⟨dir, hdir, hs₁⟩ := Option.bind_eq_some_iff.mp hcompact
    obtain ⟨rfl, rfl⟩ := Prod.mk.inj h
    obtain rfl := Option.some.inj hs₁
    exact ⟨rfl, hdir⟩
  · obtain ⟨rfl, rfl⟩ := Prod.mk.inj (Option.some.inj h)
    exact ⟨rfl, rfl⟩

/-- The end of every operation that writes a record: the index is pointed at it. -/
theorem entry_cases (oldSize : Nat) {s s' : Store K} {refusal : Option GrowthError} {key : K}
    {value : V} {ret : KeyDir.Ret V} {res : Except GrowthError (KeyDir.Ret V)}
    (h : andThen (s.writeEntry kc vc refusal key value) (fun s newMeta =>
      ((s.addDead oldSize).point key newMeta).finish ret) = some (s', res)) :
    (∃ e, res = .error e ∧ s'.dir = s.dir) ∨
      (res = .ok ret ∧ ∃ kd, s.dir.place kc vc key value oldSize = some kd ∧
        kd.maybeCompact = some s'.dir) := by
  obtain ⟨e, hwrite, rfl⟩ | ⟨s₁, newMeta, hwrite, h⟩ := andThen_eq_some h
  · obtain ⟨e', -, hdir⟩ | ⟨_, _, _, hok, -⟩ := writeEntry_cases kc vc hwrite
    · exact Or.inl ⟨e, rfl, hdir⟩
    · cases hok
  · obtain ⟨e', he, -⟩ | ⟨mmap, stats, m, hok, hinto, hdir⟩ := writeEntry_cases kc vc hwrite
    · cases he
    · obtain rfl := Except.ok.inj hok
      obtain ⟨hres, hcompact⟩ := finish_eq_some h
      refine Or.inr ⟨hres, _, by simp only [KeyDir.place, hinto]; rfl, ?_⟩
      rw [← hcompact]
      simp only [point, addDead, hdir]

/-- What an operation that was refused its growth leaves of the store. -/
structure LeftBy (op : KeyDir.Op K V) (dir dir' : KeyDir K) : Prop where
  mmap : dir'.mmap = dir.mmap
  dataSize : dir'.stats.dataSize = dir.stats.dataSize
  deleted : ∀ key, op = .delete key →
    (dir.index.lookup key).isSome = true ∧ dir'.index = dir.index.erase key
  kept : (∀ key, op ≠ .delete key) → dir'.index = dir.index

theorem leftBy_of_eq {op : KeyDir.Op K V} {dir dir' : KeyDir K} (hop : ∀ key, op ≠ .delete key)
    (h : dir' = dir) : LeftBy op dir dir' := by
  subst h
  exact ⟨rfl, rfl, fun key hkey => absurd hkey (hop key), fun _ => rfl⟩

/-- The operation does what it does in the store that always grows, or leaves the file alone. -/
def Inverts (op : KeyDir.Op K V) (s s' : Store K) (res : Except GrowthError (KeyDir.Ret V)) :
    Prop :=
  (∃ ret, res = .ok ret ∧ s.dir.step kc vc op = some (s'.dir, ret)) ∨
    ∃ e, res = .error e ∧ LeftBy op s.dir s'.dir

variable {kc vc} {s s' : Store K} {refusal : Option GrowthError} {key : K}
  {res : Except GrowthError (KeyDir.Ret V)}

theorem inverts_of_entry {op : KeyDir.Op K V} (hop : ∀ key, op ≠ .delete key) (oldSize : Nat)
    {value : V} {ret : KeyDir.Ret V}
    (h : andThen (s.writeEntry kc vc refusal key value) (fun s newMeta =>
      ((s.addDead oldSize).point key newMeta).finish ret) = some (s', res))
    (hstep : ∀ kd, s.dir.place kc vc key value oldSize = some kd →
      kd.maybeCompact = some s'.dir → s.dir.step kc vc op = some (s'.dir, ret)) :
    Inverts kc vc op s s' res := by
  obtain ⟨e, rfl, hdir⟩ | ⟨rfl, kd, hplace, hcompact⟩ := entry_cases kc vc oldSize h
  · exact Or.inr ⟨e, rfl, leftBy_of_eq hop hdir⟩
  · exact Or.inl ⟨ret, rfl, hstep kd hplace hcompact⟩

theorem inverts_of_same {op : KeyDir.Op K V} {ret : KeyDir.Ret V}
    (h : some (s, Except.ok ret) = some (s', res))
    (hstep : s.dir.step kc vc op = some (s.dir, ret)) : Inverts kc vc op s s' res := by
  obtain ⟨rfl, rfl⟩ := Prod.mk.inj (Option.some.inj h)
  exact Or.inl ⟨ret, rfl, hstep⟩

theorem put_inverts {value : V} (h : s.put kc vc refusal key value = some (s', res)) :
    Inverts kc vc (.put key value) s s' res := by
  have hindex : ∀ s₁ newMeta, s.writeEntry kc vc refusal key value = some (s₁, .ok newMeta) →
      s₁.dir.index = s.dir.index := by
    intro s₁ newMeta hwrite
    obtain ⟨e, he, -⟩ | ⟨_, _, _, -, -, hdir⟩ := writeEntry_cases kc vc hwrite
    · cases he
    · rw [hdir]
  have hsame : andThen (s.writeEntry kc vc refusal key value) (fun s₁ newMeta =>
      ((s₁.addDead (s.dir.oldSize key)).point key newMeta).finish .unit) = some (s', res) := by
    rw [← h, put]
    match hw : s.writeEntry kc vc refusal key value with
    | none => rfl
    | some (_, .error _) => rfl
    | some (s₁, .ok newMeta) =>
      simp only [andThen, hindex s₁ newMeta hw, KeyDir.oldSize]
      cases s.dir.index.lookup key <;> rfl
  refine inverts_of_entry (by simp) _ hsame ?_
  intro kd hplace hcompact
  rw [KeyDir.step, KeyDir.put]
  unfold KeyDir.oldSize at hplace
  cases hk : s.dir.index.lookup key with
  | none =>
    simp only [hk] at hplace
    simp only [hplace, hcompact, Option.bind_eq_bind, Option.bind_some, Option.map_some]
  | some old =>
    simp only [hk] at hplace
    simp only [hplace, hcompact, Option.bind_eq_bind, Option.bind_some, Option.map_some]

theorem putIfAbsent_inverts {value : V}
    (h : s.putIfAbsent kc vc refusal key value = some (s', res)) :
    Inverts kc vc (.putIfAbsent key value) s s' res := by
  unfold putIfAbsent at h
  cases hk : s.dir.index.lookup key with
  | some old =>
    simp only [hk] at h
    exact inverts_of_same h (by rw [KeyDir.step, KeyDir.putIfAbsent, hk]; rfl)
  | none =>
    simp only [hk] at h
    refine inverts_of_entry (by simp) 0 h ?_
    intro kd hplace hcompact
    rw [KeyDir.step, KeyDir.putIfAbsent, hk]
    simp only [hplace, hcompact, Option.bind_eq_bind, Option.bind_some]
    rfl

theorem replace_inverts {value : V} (h : s.replace kc vc refusal key value = some (s', res)) :
    Inverts kc vc (.replace key value) s s' res := by
  unfold replace at h
  cases hk : s.dir.index.lookup key with
  | some old =>
    simp only [hk] at h
    obtain ⟨bytes, hbytes, h⟩ := Option.bind_eq_some_iff.mp h
    obtain ⟨prev, hprev, h⟩ := Option.bind_eq_some_iff.mp h
    refine inverts_of_entry (by simp) old.recordSize h ?_
    intro kd hplace hcompact
    rw [KeyDir.step, KeyDir.replace, hk]
    simp only [hbytes, hprev, hplace, hcompact, Option.bind_eq_bind, Option.bind_some]
    rfl
  | none =>
    simp only [hk] at h
    refine inverts_of_entry (by simp) 0 h ?_
    intro kd hplace hcompact
    rw [KeyDir.step, KeyDir.replace, hk]
    simp only [hplace, hcompact, Option.bind_eq_bind, Option.bind_some]
    rfl

/-- The key is out of the index when the tombstone is refused. -/
theorem delete_inverts (h : s.delete refusal key = some (s', res)) :
    Inverts kc vc (.delete key) s s' res := by
  unfold delete at h
  cases hk : s.dir.index.lookup key with
  | none =>
    simp only [hk] at h
    exact inverts_of_same h (by rw [KeyDir.step, KeyDir.delete, hk]; rfl)
  | some old =>
    simp only [hk] at h
    obtain ⟨e, hwrite, rfl⟩ | ⟨s₁, a, hwrite, h⟩ := andThen_eq_some h
    · obtain ⟨e', -, hdir⟩ | ⟨_, _, hok, -⟩ := writeTombstone_cases hwrite
      · refine Or.inr ⟨e, rfl, by rw [hdir]; rfl, by rw [hdir]; rfl, ?_, ?_⟩
        · intro key' hkey
          obtain rfl := KeyDir.Op.delete.inj hkey
          exact ⟨by rw [hk]; rfl, by rw [hdir]; rfl⟩
        · exact fun hne => absurd rfl (hne key)
      · cases hok
    · obtain ⟨e', he, -⟩ | ⟨mmap, stats, -, hinto, hdir⟩ := writeTombstone_cases hwrite
      · cases he
      · obtain ⟨rfl, hcompact⟩ := finish_eq_some h
        refine Or.inl ⟨_, rfl, ?_⟩
        rw [KeyDir.step, KeyDir.delete, hk]
        rw [hdir] at hcompact
        simp only [unindex, addDead] at hinto hcompact
        simp only [KeyDir.bury, hinto, hcompact, Option.bind_eq_bind, Option.bind_some,
          Option.pure_def]
        rfl

theorem update_inverts {f : Option V → Option V}
    (h : s.update kc vc refusal key f = some (s', res)) :
    Inverts kc vc (.update key f) s s' res := by
  unfold update at h
  cases hk : s.dir.index.lookup key with
  | none =>
    simp only [hk] at h
    cases hf : f none with
    | none =>
      simp only [hf] at h
      exact inverts_of_same h (by rw [KeyDir.step, KeyDir.update, hk]; simp only [hf]; rfl)
    | some newV =>
      simp only [hf] at h
      refine inverts_of_entry (by simp) 0 h ?_
      intro kd hplace hcompact
      rw [KeyDir.step, KeyDir.update, hk]
      simp only [hf, hplace, hcompact, Option.bind_eq_bind, Option.bind_some]
      rfl
  | some old =>
    simp only [hk] at h
    obtain ⟨bytes, hbytes, h⟩ := Option.bind_eq_some_iff.mp h
    obtain ⟨current, hcurrent, h⟩ := Option.bind_eq_some_iff.mp h
    cases hf : f (some current) with
    | some newV =>
      simp only [hf] at h
      refine inverts_of_entry (by simp) old.recordSize h ?_
      intro kd hplace hcompact
      rw [KeyDir.step, KeyDir.update, hk]
      simp only [hbytes, hcurrent, hf, hplace, hcompact, Option.bind_eq_bind, Option.bind_some]
      rfl
    | none =>
      simp only [hf] at h
      obtain ⟨e, hwrite, rfl⟩ | ⟨s₁, a, hwrite, h⟩ := andThen_eq_some h
      · obtain ⟨e', -, hdir⟩ | ⟨_, _, hok, -⟩ := writeTombstone_cases hwrite
        · exact Or.inr ⟨e, rfl, by rw [hdir]; rfl, by rw [hdir]; rfl, by simp,
            fun _ => by rw [hdir]; rfl⟩
        · cases hok
      · obtain ⟨e', he, -⟩ | ⟨mmap, stats, -, hinto, hdir⟩ := writeTombstone_cases hwrite
        · cases he
        · obtain ⟨rfl, hcompact⟩ := finish_eq_some h
          refine Or.inl ⟨_, rfl, ?_⟩
          rw [KeyDir.step, KeyDir.update, hk]
          simp only [unindex, addDead, hdir] at hinto hcompact
          simp only [hbytes, hcurrent, hf, KeyDir.bury, hinto, hcompact, Option.bind_eq_bind,
            Option.bind_some, Option.pure_def]
          rfl

/-- Every operation does what it does when the file always grows, or leaves the file alone. -/
theorem step_inverts {op : KeyDir.Op K V} (h : s.step kc vc refusal op = some (s', res)) :
    Inverts kc vc op s s' res := by
  cases op with
  | put key value => exact put_inverts h
  | putIfAbsent key value => exact putIfAbsent_inverts h
  | replace key value => exact replace_inverts h
  | update key f => exact update_inverts h
  | delete key => exact delete_inverts h
  | clear =>
    obtain ⟨dir, hclear, h⟩ := Option.map_eq_some_iff.mp h
    obtain ⟨rfl, rfl⟩ := Prod.mk.inj h
    exact Or.inl ⟨_, rfl, by rw [KeyDir.step, hclear]; rfl⟩
  | compact =>
    obtain ⟨s₁, hcompact, h⟩ := Option.map_eq_some_iff.mp h
    obtain ⟨dir, hdir, hs₁⟩ := Option.bind_eq_some_iff.mp hcompact
    obtain ⟨rfl, rfl⟩ := Prod.mk.inj h
    obtain rfl := Option.some.inj hs₁
    exact Or.inl ⟨_, rfl, by rw [KeyDir.step, hdir]; rfl⟩

end Store

end ZenDB
