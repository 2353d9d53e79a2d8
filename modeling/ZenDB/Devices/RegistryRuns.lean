import ZenDB.Devices.Registry

namespace ZenDB

open Crdt SortedMap

/-! Any interleaving of `upsert` calls: when the registry cache agrees with the table. -/

theorem Devices.observe_localPeerId {P : Type} [LinearOrder P] (d : Devices P) (stamp : EventStamp P)
    (wall : Option Nat) : (d.observe stamp wall).1.localPeerId = d.localPeerId := by
  have hadvance : ∀ (d : Devices P) wall, (d.advanceClock stamp wall).localPeerId = d.localPeerId := by
    intro d wall
    rw [advanceClock]
    cases d.localState.clock <;> rfl
  unfold observe
  cases wall with
  | none => rfl
  | some wall =>
    dsimp only
    split_ifs
    · rfl
    · split
      · rfl
      · exact hadvance _ _
    · split
      · rfl
      · exact hadvance _ _

namespace RegistrySystem

variable {P : Type} [LinearOrder P] {codec : Codec DeviceRecord} {s s' : RegistrySystem P}

/-- What holds between any two steps: a device whose cached record is not that of its row has a
pending listener for the event in the row. -/
structure Consistent (codec : Codec DeviceRecord) (s : RegistrySystem P) : Prop where
  rows : Sorted (· < ·) s.rows
  entries : Sorted (· < ·) s.cache.entries
  good : GoodRows codec s.rows
  localRole : ∃ record, get s.cache.entries s.devices.localPeerId = some record ∧
    s.cache.localRole = record.role
  agrees : ∀ peer, RecordOf codec s.rows peer (get s.cache.entries peer) ∨
    ∃ index record cell, s.Pending index peer record cell.stamp ∧
      get s.rows (.peerId peer) = some cell
  pending : ∀ index peer record stamp, s.Pending index peer record stamp →
    ∃ cell, get s.rows (.peerId peer) = some cell ∧ stamp ≤ cell.stamp ∧
      (cell.stamp = stamp → cell.value = some (.scalar (.blob (codec.enc record))))

/-- A step that leaves the table and the cache alone. -/
theorem Consistent.quiet (h : s.Consistent codec) (hrows : s'.rows = s.rows)
    (hcache : s'.cache = s.cache) (hlocal : s'.devices.localPeerId = s.devices.localPeerId)
    (hcalls : ∀ index : Nat, s'.calls[index]?.bind UpsertCall.pending =
      s.calls[index]?.bind UpsertCall.pending) : s'.Consistent codec := by
  have hpending : ∀ index peer record stamp,
      s'.Pending index peer record stamp ↔ s.Pending index peer record stamp := by
    intro index peer record stamp
    rw [Pending, Pending, hcalls]
  refine ⟨?_, ?_, ?_, ?_, ?_, ?_⟩
  · rw [hrows]
    exact h.rows
  · rw [hcache]
    exact h.entries
  · rw [hrows]
    exact h.good
  · rw [hcache, hlocal]
    exact h.localRole
  · simp only [hrows, hcache, hpending]
    exact h.agrees
  · simp only [hrows, hpending]
    exact h.pending

omit [LinearOrder P] in
theorem pending_set {calls : List (UpsertCall P)} {index : Nat} {call call' : UpsertCall P}
    (hcall : calls[index]? = some call) (other : Nat) :
    (calls.set index call')[other]?.bind UpsertCall.pending =
      if other = index then call'.pending else calls[other]?.bind UpsertCall.pending := by
  have hlt : index < calls.length := (List.getElem?_eq_some_iff.mp hcall).1
  rw [List.getElem?_set]
  split_ifs with hindex hother hother
  · simp
  · exact absurd hindex.symm hother
  · exact absurd hother.symm hindex
  · rfl

/-- A call goes on to a step with the same pending event. -/
theorem Consistent.advance (h : s.Consistent codec) {index : Nat} {call : UpsertCall P}
    (hcall : s.calls[index]? = some call) (call' : UpsertCall P)
    (hsame : call'.pending = call.pending) {devices : Devices P} (hlocal : devices.localPeerId = s.devices.localPeerId) :
    ({s with devices := devices, calls := s.calls.set index call'} : RegistrySystem P).Consistent codec := by
  refine h.quiet rfl rfl hlocal fun other => ?_
  rw [pending_set hcall]
  split_ifs with hother
  · rw [hother, hcall, hsame]
    rfl
  · rfl

theorem apply_upsert [Inhabited P] (codec : Codec DeviceRecord) (row : Option (RowCell P)) (peer : P)
    (record : DeviceRecord) (stamp : EventStamp P) :
    rowOps.apply row (upsertEvent codec peer record stamp) =
      if stamp ≤ (row.getD (Cell.dummy none)).stamp then .unchanged
      else .changed ⟨some (.scalar (.blob (codec.enc record))), stamp⟩ :=
  rowOps_apply_upsert row _ _ stamp

omit [LinearOrder P] in
theorem readRow_written (codec : Codec DeviceRecord) (peer : P) (record : DeviceRecord)
    (stamp : EventStamp P) :
    readRow codec peer ⟨some (.scalar (.blob (codec.enc record))), stamp⟩ = .ok (some record) := by
  simp [readRow, codec.dec_enc]

/-- The insert of a later event. -/
theorem Consistent.inserted (h : s.Consistent codec) {index : Nat} {peer : P} {record : DeviceRecord}
    {stamp : EventStamp P} (hcall : s.calls[index]? = some (.insert peer record stamp))
    (hlater : ∀ cell, get s.rows (.peerId peer) = some cell → cell.stamp < stamp) :
    ({s with
      rows := SortedMap.insert s.rows (.peerId peer) ⟨some (.scalar (.blob (codec.enc record))), stamp⟩
      calls := s.calls.set index (.receipts peer record stamp)} : RegistrySystem P).Consistent codec := by
  have hget : ∀ q, get (SortedMap.insert s.rows (.peerId peer)
      (⟨some (.scalar (.blob (codec.enc record))), stamp⟩ : RowCell P)) (.peerId q) =
      if q = peer then some ⟨some (.scalar (.blob (codec.enc record))), stamp⟩
      else get s.rows (.peerId q) := by
    intro q
    rw [get_insert]
    simp only [PrimaryKey.peerId.injEq]
  have hpending : ∀ other, (s.calls.set index (.receipts peer record stamp))[other]?.bind
      UpsertCall.pending = if other = index then some (peer, record, stamp)
      else s.calls[other]?.bind UpsertCall.pending := pending_set hcall
  have hother : ∀ other q r t, s.Pending other q r t → other ≠ index := by
    rintro other q r t hpend rfl
    rw [Pending, hcall] at hpend
    cases hpend
  refine ⟨sorted_insert h.rows _ _, h.entries, ?_, h.localRole, ?_, ?_⟩
  · intro key cell hcell
    rw [get_insert] at hcell
    split_ifs at hcell with hkey
    · cases hcell
      exact ⟨peer, some record, hkey, readRow_written codec peer record stamp⟩
    · exact h.good key cell hcell
  · intro q
    by_cases hq : q = peer
    · right
      refine ⟨index, record, ⟨some (.scalar (.blob (codec.enc record))), stamp⟩, ?_, ?_⟩
      · rw [Pending, hpending, if_pos rfl, hq]
      · rw [hget, if_pos hq]
    · rcases h.agrees q with hrecord | ⟨other, r, cell, hpend, hcell⟩
      · left
        rw [RecordOf, hget, if_neg hq]
        exact hrecord
      · right
        refine ⟨other, r, cell, ?_, ?_⟩
        · rw [Pending, hpending, if_neg (hother other q r _ hpend)]
          exact hpend
        · rw [hget, if_neg hq]
          exact hcell
  · intro other q r t hpend
    rw [Pending, hpending] at hpend
    split_ifs at hpend with hindex
    · cases hpend
      exact ⟨_, by rw [hget, if_pos rfl], le_rfl, fun _ => rfl⟩
    · obtain ⟨cell, hcell, hle, hvalue⟩ := h.pending other q r t hpend
      by_cases hq : q = peer
      · have hlt : t < stamp := hle.trans_lt (hlater cell (hq ▸ hcell))
        exact ⟨_, by rw [hget, if_pos hq], hlt.le, fun heq => absurd heq hlt.ne'⟩
      · exact ⟨cell, by rw [hget, if_neg hq]; exact hcell, hle, hvalue⟩

theorem onChange_upsert (codec : Codec DeviceRecord) (cache : RegistryCache P) (localPeer peer : P)
    (record : DeviceRecord) (stamp : EventStamp P) :
    cache.onChange codec localPeer (upsertEvent codec peer record stamp) =
      ⟨SortedMap.insert cache.entries peer record,
        if peer = localPeer then record.role else cache.localRole⟩ := by
  simp [RegistryCache.onChange, upsertEvent, codec.dec_enc]

/-- The registry listener, when it runs in order. -/
theorem Consistent.heard (h : s.Consistent codec) {index : Nat} {peer : P} {record : DeviceRecord}
    {stamp : EventStamp P} (hcall : s.calls[index]? = some (.registry peer record stamp))
    (horder : ∀ cell, get s.rows (.peerId peer) = some cell →
      cell.stamp = stamp ∨ ∃ other record', other ≠ index ∧ s.Pending other peer record' cell.stamp) :
    ({s with
      cache := s.cache.onChange codec s.devices.localPeerId (upsertEvent codec peer record stamp)
      calls := s.calls.set index (.returned (.ok true))} : RegistrySystem P).Consistent codec := by
  have hpending : ∀ other, (s.calls.set index (.returned (.ok true)))[other]?.bind
      UpsertCall.pending = if other = index then none
      else s.calls[other]?.bind UpsertCall.pending := pending_set hcall
  have hhere : s.Pending index peer record stamp := by
    rw [Pending, hcall]
    rfl
  obtain ⟨cell, hcell, hle, hvalue⟩ := h.pending index peer record stamp hhere
  rw [onChange_upsert]
  refine ⟨h.rows, sorted_insert h.entries _ _, h.good, ?_, ?_, ?_⟩
  · dsimp only
    by_cases hlocal : peer = s.devices.localPeerId
    · refine ⟨record, ?_, if_pos hlocal⟩
      rw [get_insert, if_pos hlocal.symm]
    · obtain ⟨r, hr, hrole⟩ := h.localRole
      refine ⟨r, ?_, ?_⟩
      · rw [get_insert, if_neg (Ne.symm hlocal)]
        exact hr
      · rw [if_neg hlocal]
        exact hrole
  · intro q
    dsimp only
    rw [get_insert]
    by_cases hq : q = peer
    · subst hq
      rw [if_pos rfl]
      rcases horder cell hcell with hstamp | ⟨other, record', hother, hpend⟩
      · left
        refine Or.inr ⟨cell, hcell, ?_⟩
        obtain ⟨value, t⟩ := cell
        obtain rfl : value = _ := hvalue hstamp
        exact readRow_written codec q record t
      · right
        refine ⟨other, record', cell, ?_, hcell⟩
        rw [Pending, hpending, if_neg hother]
        exact hpend
    · rw [if_neg hq]
      rcases h.agrees q with hrecord | ⟨other, r, cell', hpend, hcell'⟩
      · exact Or.inl hrecord
      · right
        refine ⟨other, r, cell', ?_, hcell'⟩
        have hother : other ≠ index := by
          rintro rfl
          rw [Pending] at hhere hpend
          rw [hhere] at hpend
          cases hpend
          exact hq rfl
        rw [Pending, hpending, if_neg hother]
        exact hpend
  · intro other q r t hpend
    rw [Pending, hpending] at hpend
    split_ifs at hpend
    exact h.pending other q r t hpend

variable [Inhabited P]

theorem Consistent.step (h : s.Consistent codec) (a : RegistryAction P) (horder : s.InOrder a) :
    (s.step codec a).Consistent codec := by
  cases a with
  | call peer record =>
    refine h.quiet rfl rfl rfl fun index => ?_
    rw [RegistrySystem.step, List.getElem?_append]
    split_ifs with hlt
    · rfl
    · rw [List.getElem?_eq_none (not_lt.mp hlt), List.getElem?_singleton]
      split_ifs <;> rfl
  | step index wall =>
    rw [RegistrySystem.step]
    cases hcall : s.calls[index]? with
    | none => exact h
    | some call =>
      dsimp only
      cases call with
      | access peer record =>
        rw [stepCall]
        split_ifs
        · exact h.advance hcall (.compare peer record) rfl rfl
        · exact h.advance hcall (.returned _) rfl rfl
      | compare peer record =>
        rw [stepCall]
        split_ifs
        · exact h.advance hcall (.returned _) rfl rfl
        · exact h.advance hcall (.mint peer record) rfl rfl
      | mint peer record =>
        rw [stepCall]
        cases hmint : s.devices.mint wall with
        | none => exact h.advance hcall (.returned _) rfl rfl
        | some r =>
          obtain ⟨devices, stamp⟩ := r
          obtain ⟨c, -, -, -, -, hlocal, -⟩ := Devices.mint_spec hmint
          exact h.advance hcall (.authorize peer record stamp) rfl hlocal
      | authorize peer record stamp =>
        rw [stepCall]
        split_ifs
        · exact h.advance hcall (.insert peer record stamp) rfl rfl
        · exact h.advance hcall (.returned _) rfl rfl
      | insert peer record stamp =>
        rw [stepCall, apply_upsert]
        split_ifs with hstamp
        · exact h.advance hcall (.returned _) rfl rfl
        · refine h.inserted hcall fun cell hcell => ?_
          rw [hcell] at hstamp
          exact not_le.mp hstamp
      | receipts peer record stamp =>
        exact h.advance hcall (.registry peer record stamp) rfl
          (s.devices.observe_localPeerId stamp wall)
      | registry peer record stamp =>
        exact h.heard hcall fun cell hcell => horder peer record stamp cell hcall hcell
      | returned result => exact h.advance hcall (.returned result) rfl rfl

theorem Consistent.run (h : s.Consistent codec) (actions : List (RegistryAction P))
    (horder : s.RunInOrder codec actions) : (s.run codec actions).Consistent codec := by
  induction actions generalizing s with
  | nil => exact h
  | cons a actions ih => exact ih (h.step a horder.1) horder.2

/-- The cache of a registry that was loaded agrees with the table again whenever all calls have
returned, if every registry listener ran in order. -/
theorem registry_cache_agrees (codec : Codec DeviceRecord) (s : RegistrySystem P)
    (hrows : Sorted (· < ·) s.rows) (hidle : s.calls = [])
    (hload : loadRegistry codec s.devices.localPeerId s.rows = .ok s.cache)
    (actions : List (RegistryAction P)) (horder : s.RunInOrder codec actions)
    (hreturned : ∀ call ∈ (s.run codec actions).calls, ∃ result, call = .returned result) :
    loadRegistry codec (s.run codec actions).devices.localPeerId (s.run codec actions).rows =
      .ok (s.run codec actions).cache := by
  obtain ⟨hsorted, hgood, hrecord, hlocal⟩ := (loadRegistry_eq_ok hrows).mp hload
  have hstart : s.Consistent codec := by
    refine ⟨hrows, hsorted, hgood, hlocal, fun peer => Or.inl (hrecord peer), ?_⟩
    intro index peer record stamp hpend
    rw [Pending, hidle] at hpend
    cases hpend
  have hend := hstart.run actions horder
  refine (loadRegistry_eq_ok hend.rows).mpr ⟨hend.entries, hend.good, fun peer => ?_, hend.localRole⟩
  rcases hend.agrees peer with hagrees | ⟨index, record, cell, hpend, -⟩
  · exact hagrees
  · obtain ⟨call, hcall, hpending⟩ := Option.bind_eq_some_iff.mp hpend
    obtain ⟨result, rfl⟩ := hreturned call (List.mem_of_getElem? hcall)
    cases hpending

section Decide

omit [Inhabited P]

/-- Some call has a pending event of the device with this stamp. -/
def awaits (s : RegistrySystem P) (index : Nat) (peer : P) (stamp : EventStamp P) : Bool :=
  (List.range s.calls.length).any fun other =>
    decide (other ≠ index) && (s.calls[other]?.bind UpsertCall.pending).any fun e =>
      decide (e.1 = peer ∧ e.2.2 = stamp)

theorem awaits_iff {index : Nat} {peer : P} {stamp : EventStamp P} :
    s.awaits index peer stamp = true ↔
      ∃ other record, other ≠ index ∧ s.Pending other peer record stamp := by
  rw [awaits, List.any_eq_true]
  constructor
  · rintro ⟨other, -, h⟩
    rw [Bool.and_eq_true, decide_eq_true_eq] at h
    obtain ⟨hother, hany⟩ := h
    cases hpend : s.calls[other]?.bind UpsertCall.pending with
    | none =>
      rw [hpend] at hany
      cases hany
    | some e =>
      rw [hpend] at hany
      obtain ⟨hpeer, hstamp⟩ := of_decide_eq_true hany
      exact ⟨other, e.2.1, hother, by rw [Pending, hpend, ← hpeer, ← hstamp]⟩
  · rintro ⟨other, record, hother, hpend⟩
    rw [Pending] at hpend
    obtain ⟨call, hcall, -⟩ := Option.bind_eq_some_iff.mp hpend
    refine ⟨other, List.mem_range.mpr (List.getElem?_eq_some_iff.mp hcall).1, ?_⟩
    rw [hpend]
    simp [hother]

/-- The condition of a step, computed in the state before it. -/
def inOrder (s : RegistrySystem P) : RegistryAction P → Bool
  | .call _ _ => true
  | .step index _ =>
    match s.calls[index]? with
    | some (.registry peer _ stamp) => (get s.rows (.peerId peer)).all fun cell =>
      decide (cell.stamp = stamp) || s.awaits index peer cell.stamp
    | _ => true

theorem inOrder_iff (a : RegistryAction P) : s.inOrder a = true ↔ s.InOrder a := by
  cases a with
  | call peer record => exact iff_of_true rfl trivial
  | step index wall =>
    rw [inOrder, InOrder]
    cases hcall : s.calls[index]? with
    | none => simp
    | some call =>
      cases call with
      | registry peer record stamp =>
        constructor
        · intro h p r t cell hp hcell
          cases hp
          dsimp only at h
          rw [hcell] at h
          rw [← awaits_iff]
          simpa using h
        · intro h
          cases hcell : get s.rows (.peerId peer) with
          | none => simp [hcell]
          | some cell =>
            have hcond := h peer record stamp cell rfl hcell
            rw [← awaits_iff] at hcond
            simpa [hcell] using hcond
      | _ => simp

instance decidableInOrder (s : RegistrySystem P) (a : RegistryAction P) : Decidable (s.InOrder a) :=
  decidable_of_iff _ (inOrder_iff a)

end Decide

instance decidableRunInOrder (codec : Codec DeviceRecord) (s : RegistrySystem P)
    (actions : List (RegistryAction P)) : Decidable (s.RunInOrder codec actions) :=
  match actions with
  | [] => .isTrue trivial
  | a :: actions =>
    have := decidableRunInOrder codec (s.step codec a) actions
    inferInstanceAs (Decidable (s.InOrder a ∧ (s.step codec a).RunInOrder codec actions))

end RegistrySystem

/-- A codec of device records to run the system with: a byte for the role, and the characters of
the name in four bytes each. -/
def decodeName : Bytes → List Char
  | a :: b :: c :: d :: rest => Char.ofNat (leNat [a, b, c, d]) :: decodeName rest
  | _ => []

theorem decodeName_encoded (name : List Char) :
    decodeName (name.flatMap fun c => leBytes 4 c.toNat) = name := by
  induction name with
  | nil => rfl
  | cons c name ih =>
    have hlt : c.toNat < 256^4 := c.val.toNat_lt
    have hchar : leNat (leBytes 4 c.toNat) = c.toNat := leNat_leBytes_of_lt 4 _ hlt
    rw [List.flatMap_cons]
    change Char.ofNat (leNat (leBytes 4 c.toNat)) :: decodeName (name.flatMap _) = _
    rw [hchar, ih, Char.ofNat_toNat]

def encodeRole : Option Role → UInt8
  | none => 0
  | some .contributor => 1
  | some .operator => 2
  | some .admin => 3

def decodeRole (b : UInt8) : Option Role :=
  if b = 1 then some .contributor else if b = 2 then some .operator
  else if b = 3 then some .admin else none

def recordCodec : Codec DeviceRecord where
  enc record := encodeRole record.role :: record.displayName.toList.flatMap fun c => leBytes 4 c.toNat
  dec
    | [] => none
    | role :: name => some ⟨String.ofList (decodeName name), decodeRole role⟩
  dec_enc record := by
    obtain ⟨name, role⟩ := record
    have hrole : decodeRole (encodeRole role) = role := by
      rcases role with _ | (_ | _ | _) <;> rfl
    simp [decodeName_encoded, hrole]

namespace RegistrySystem

/-- Two calls about device 2: each goes on to the end of its insert in its turn. -/
def twoInserts : List (RegistryAction Nat) :=
  [.call 2 ⟨"tablet", some .admin⟩, .call 2 ⟨"tablet", none⟩] ++
    List.replicate 5 (.step 0 (some 100)) ++ List.replicate 5 (.step 1 (some 100))

/-- The listeners of the first call run, then those of the second. -/
def listenersInOrder : List (RegistryAction Nat) :=
  twoInserts ++ List.replicate 2 (.step 0 (some 100)) ++ List.replicate 2 (.step 1 (some 100))

/-- The listeners of the second call overtake those of the first. -/
def listenersOvertake : List (RegistryAction Nat) :=
  twoInserts ++ List.replicate 2 (.step 1 (some 100)) ++ List.replicate 2 (.step 0 (some 100))

theorem registry_cache_agrees_two_calls :
    loadRegistry recordCodec 1 ((create recordCodec 1 "laptop" 50).run recordCodec listenersInOrder).rows =
      .ok ((create recordCodec 1 "laptop" 50).run recordCodec listenersInOrder).cache := by
  have hreturned : ((create recordCodec 1 "laptop" 50).run recordCodec listenersInOrder).calls =
      [.returned (.ok true), .returned (.ok true)] := by decide +kernel
  have hpeer : ((create recordCodec 1 "laptop" 50).run recordCodec listenersInOrder).devices.localPeerId =
      1 := by decide +kernel
  have hagrees := registry_cache_agrees recordCodec (create recordCodec 1 "laptop" 50)
    (by simp [create, Sorted]) rfl (by decide +kernel) listenersInOrder (by decide +kernel)
    (fun call hcall => ⟨.ok true, by rw [hreturned] at hcall; simpa using hcall⟩)
  rwa [hpeer] at hagrees

/-- The access that a device lost stays in the cache when all calls have returned. -/
theorem revoked_role_stays_cached :
    ((create recordCodec 1 "laptop" 50).run recordCodec listenersOvertake).calls =
      [.returned (.ok true), .returned (.ok true)] ∧
    loadRegistry recordCodec 1
        ((create recordCodec 1 "laptop" 50).run recordCodec listenersOvertake).rows =
      .ok ⟨[(1, ⟨"laptop", some .admin⟩), (2, ⟨"tablet", none⟩)], some .admin⟩ ∧
    ((create recordCodec 1 "laptop" 50).run recordCodec listenersOvertake).cache =
      ⟨[(1, ⟨"laptop", some .admin⟩), (2, ⟨"tablet", some .admin⟩)], some .admin⟩ ∧
    ((create recordCodec 1 "laptop" 50).run recordCodec listenersOvertake).cache.hasAccess 1 2 .admin =
      true := by
  decide +kernel

end RegistrySystem

end ZenDB
