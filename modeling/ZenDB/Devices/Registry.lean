import ZenDB.Crdt.Row
import ZenDB.Devices.Identity

namespace ZenDB

open Crdt SortedMap

/-! The device registry: the `_devices` table, the cache of its records that every access check
reads, and concurrent calls of `upsert`. -/

inductive Role where
  | contributor
  | operator
  | admin
  deriving DecidableEq, Repr

def Role.hasAtLeast (self : Role) : Role → Bool
  | .contributor => true
  | .operator => self = .operator || self = .admin
  | .admin => self = .admin

structure DeviceRecord where
  displayName : String
  role : Option Role
  deriving DecidableEq, Repr

structure RegistryCache (P : Type) where
  entries : List (P × DeviceRecord)
  localRole : Option Role
  deriving DecidableEq

/-- Why `open` refuses a registry. -/
inductive RegistryError (P : Type) where
  | nonPeerKey
  | notBlob (peer : P)
  | cannotDecode (peer : P)
  | deviceNotRegistered (peer : P)
  deriving DecidableEq

inductive UpsertError where
  | permissionDenied
  | clockExhausted
  | table
  deriving DecidableEq

section Cache

variable {P : Type} [LinearOrder P] (codec : Codec DeviceRecord)

/-- What a row of the registry says of its device; `none` when it is deleted. -/
def readRow (peer : P) (cell : RowCell P) : Except (RegistryError P) (Option DeviceRecord) :=
  match cell.value with
  | some (.scalar (.blob blob)) =>
    match codec.dec blob with
    | some record => .ok (some record)
    | none => .error (.cannotDecode peer)
  | none => .ok none
  | some _ => .error (.notBlob peer)

/-- The loop of `open` over the rows. -/
def loadRow (entries : List (P × DeviceRecord)) :
    PrimaryKey P × RowCell P → Except (RegistryError P) (List (P × DeviceRecord))
  | (.peerId peer, cell) => do
    match ← readRow codec peer cell with
    | none => return entries
    | some record => return SortedMap.insert entries peer record
  | _ => .error .nonPeerKey

def loadEntries (rows : List (PrimaryKey P × RowCell P)) :
    Except (RegistryError P) (List (P × DeviceRecord)) :=
  rows.foldlM (loadRow codec) []

/-- What `open` makes of the registry. -/
def loadRegistry (localPeer : P) (rows : List (PrimaryKey P × RowCell P)) :
    Except (RegistryError P) (RegistryCache P) :=
  match loadEntries codec rows with
  | .error e => .error e
  | .ok entries =>
    match get entries localPeer with
    | some record => .ok ⟨entries, record.role⟩
    | none => .error (.deviceNotRegistered localPeer)

def RegistryCache.hasAccess (cache : RegistryCache P) (localPeer peer : P) (required : Role) : Bool :=
  let role := if peer = localPeer then cache.localRole else (get cache.entries peer).bind (·.role)
  role.any (·.hasAtLeast required)

/-- `DeviceRegistryListener::on_change`. -/
def RegistryCache.onChange (cache : RegistryCache P) (localPeer : P) (event : Event P) :
    RegistryCache P :=
  match event.primaryKey with
  | .peerId peer =>
    match event.op with
    | .upsert (.scalar (.blob blob)) =>
      match codec.dec blob with
      | some record =>
        ⟨SortedMap.insert cache.entries peer record,
          if peer = localPeer then record.role else cache.localRole⟩
      | none => cache
    | .delete =>
      ⟨erase cache.entries peer, if peer = localPeer then none else cache.localRole⟩
    | _ => cache
  | _ => cache

end Cache

/-- Where a call of `upsert` is: the access check, the look at the cache, the mint, the second check
in `insert_internal`, the insert under the lock of the table, and its two listeners. -/
inductive UpsertCall (P : Type) where
  | access (peer : P) (record : DeviceRecord)
  | compare (peer : P) (record : DeviceRecord)
  | mint (peer : P) (record : DeviceRecord)
  | authorize (peer : P) (record : DeviceRecord) (stamp : EventStamp P)
  | insert (peer : P) (record : DeviceRecord) (stamp : EventStamp P)
  | receipts (peer : P) (record : DeviceRecord) (stamp : EventStamp P)
  | registry (peer : P) (record : DeviceRecord) (stamp : EventStamp P)
  | returned (result : Except UpsertError Bool)
  deriving DecidableEq

/-- The event of a call that is in the table, and not yet in the cache. -/
def UpsertCall.pending {P : Type} : UpsertCall P → Option (P × DeviceRecord × EventStamp P)
  | .receipts peer record stamp => some (peer, record, stamp)
  | .registry peer record stamp => some (peer, record, stamp)
  | _ => none

/-- What the threads of a process share, and where each call is. -/
structure RegistrySystem (P : Type) where
  devices : Devices P
  rows : List (PrimaryKey P × RowCell P)
  cache : RegistryCache P
  calls : List (UpsertCall P)

/-- A new call begins, or one goes on by its next step. -/
inductive RegistryAction (P : Type) where
  | call (peer : P) (record : DeviceRecord)
  | step (index : Nat) (wall : Option Nat)

/-- The event of `upsert`. -/
def upsertEvent {P : Type} (codec : Codec DeviceRecord) (peer : P) (record : DeviceRecord)
    (stamp : EventStamp P) : Event P :=
  ⟨.peerId peer, [], .upsert (.scalar (.blob (codec.enc record))), stamp⟩

namespace RegistrySystem

variable {P : Type} [LinearOrder P] [Inhabited P] (codec : Codec DeviceRecord)

/-- One step of a call, each under one lock. -/
def stepCall (s : RegistrySystem P) (wall : Option Nat) :
    UpsertCall P → RegistrySystem P × UpsertCall P
  | .access peer record =>
    if s.cache.hasAccess s.devices.localPeerId s.devices.localPeerId .admin then
      (s, .compare peer record)
    else (s, .returned (.error .permissionDenied))
  | .compare peer record =>
    if get s.cache.entries peer = some record then (s, .returned (.ok false))
    else (s, .mint peer record)
  | .mint peer record =>
    match s.devices.mint wall with
    | none => (s, .returned (.error .clockExhausted))
    | some (devices, stamp) => ({s with devices := devices}, .authorize peer record stamp)
  | .authorize peer record stamp =>
    if s.cache.hasAccess s.devices.localPeerId stamp.id.peerId .admin then
      (s, .insert peer record stamp)
    else (s, .returned (.error .permissionDenied))
  | .insert peer record stamp =>
    match rowOps.apply (get s.rows (.peerId peer)) (upsertEvent codec peer record stamp) with
    | .error => (s, .returned (.error .table))
    | .unchanged => (s, .returned (.ok true))
    | .changed cell =>
      ({s with rows := SortedMap.insert s.rows (.peerId peer) cell}, .receipts peer record stamp)
  | .receipts peer record stamp =>
    ({s with devices := (s.devices.observe stamp wall).1}, .registry peer record stamp)
  | .registry peer record stamp =>
    let cache := s.cache.onChange codec s.devices.localPeerId (upsertEvent codec peer record stamp)
    ({s with cache := cache}, .returned (.ok true))
  | .returned result => (s, .returned result)

def step (s : RegistrySystem P) : RegistryAction P → RegistrySystem P
  | .call peer record => {s with calls := s.calls ++ [.access peer record]}
  | .step index wall =>
    match s.calls[index]? with
    | none => s
    | some call =>
      let r := s.stepCall codec wall call
      {r.1 with calls := s.calls.set index r.2}

def run (s : RegistrySystem P) : List (RegistryAction P) → RegistrySystem P
  | [] => s
  | a :: as => (s.step codec a).run as

/-- `Devices::create`: the local device is the first admin. -/
def create (peer : P) (displayName : String) (wall : Nat) : RegistrySystem P :=
  let record : DeviceRecord := ⟨displayName, some .admin⟩
  let r := Devices.create peer wall
  { devices := r.1
    rows := [(.peerId peer, ⟨some (.scalar (.blob (codec.enc record))), r.2⟩)]
    cache := ⟨[(peer, record)], some .admin⟩
    calls := [] }

/-- The call at `index` has inserted its event, and the registry listener has not run for it. -/
def Pending (s : RegistrySystem P) (index : Nat) (peer : P) (record : DeviceRecord)
    (stamp : EventStamp P) : Prop :=
  s.calls[index]?.bind UpsertCall.pending = some (peer, record, stamp)

/-- The registry listener runs for the event that is in the row, or before the listener of that
event does. -/
def InOrder (s : RegistrySystem P) : RegistryAction P → Prop
  | .call _ _ => True
  | .step index _ =>
    ∀ peer record stamp cell, s.calls[index]? = some (.registry peer record stamp) →
      get s.rows (.peerId peer) = some cell →
      cell.stamp = stamp ∨ ∃ other record', other ≠ index ∧ s.Pending other peer record' cell.stamp

def RunInOrder (s : RegistrySystem P) : List (RegistryAction P) → Prop
  | [] => True
  | a :: as => s.InOrder a ∧ (s.step codec a).RunInOrder as

end RegistrySystem

section Load

variable {P : Type} [LinearOrder P] {codec : Codec DeviceRecord}
  {rows : List (PrimaryKey P × RowCell P)}

/-- Rows that `open` accepts. -/
def GoodRows (codec : Codec DeviceRecord) (rows : List (PrimaryKey P × RowCell P)) : Prop :=
  ∀ key cell, get rows key = some cell →
    ∃ peer record, key = .peerId peer ∧ readRow codec peer cell = .ok record

/-- The record of a device in the registry. -/
def RecordOf (codec : Codec DeviceRecord) (rows : List (PrimaryKey P × RowCell P)) (peer : P)
    (record : Option DeviceRecord) : Prop :=
  (get rows (.peerId peer) = none ∧ record = none) ∨
    ∃ cell, get rows (.peerId peer) = some cell ∧ readRow codec peer cell = .ok record

theorem RecordOf.unique {peer : P} {record record' : Option DeviceRecord}
    (h : RecordOf codec rows peer record) (h' : RecordOf codec rows peer record') :
    record = record' := by
  rcases h with ⟨hnone, hrecord⟩ | ⟨cell, hcell, hread⟩
  · rcases h' with ⟨-, hrecord'⟩ | ⟨cell', hcell', -⟩
    · rw [hrecord, hrecord']
    · rw [hnone] at hcell'
      cases hcell'
  · rcases h' with ⟨hnone, -⟩ | ⟨cell', hcell', hread'⟩
    · rw [hnone] at hcell
      cases hcell
    · rw [hcell] at hcell'
      cases hcell'
      rw [hread] at hread'
      exact Except.ok.inj hread'

theorem loadRow_eq_ok {row : PrimaryKey P × RowCell P} {entries entries' : List (P × DeviceRecord)} :
    loadRow codec entries row = .ok entries' ↔
      ∃ peer record, row.1 = .peerId peer ∧ readRow codec peer row.2 = .ok record ∧
        entries' = record.elim entries (SortedMap.insert entries peer) := by
  obtain ⟨key, cell⟩ := row
  cases key with
  | peerId peer =>
    rw [loadRow]
    rcases hrow : readRow codec peer cell with e | _ | record
    · simp [hrow, bind, Except.bind]
    · simp [hrow, bind, Except.bind, pure, Except.pure, eq_comm]
    · simp [hrow, bind, Except.bind, pure, Except.pure, eq_comm]
  | _ => simp [loadRow]

/-- A loop that goes through has read every row, and the last word on a device is its row. -/
theorem foldlM_loadRow (hrows : Sorted (· < ·) rows) {entries entries' : List (P × DeviceRecord)}
    (hentries : Sorted (· < ·) entries)
    (hnew : ∀ peer cell, get rows (.peerId peer) = some cell → get entries peer = none)
    (h : rows.foldlM (loadRow codec) entries = .ok entries') :
    Sorted (· < ·) entries' ∧ GoodRows codec rows ∧ ∀ peer,
      get entries' peer = get entries peer ∧ get rows (.peerId peer) = none ∨
        ∃ cell, get rows (.peerId peer) = some cell ∧ readRow codec peer cell = .ok (get entries' peer) := by
  induction rows generalizing entries with
  | nil =>
    cases h
    refine ⟨hentries, ?_, fun peer => Or.inl ⟨rfl, rfl⟩⟩
    intro key cell hget
    cases hget
  | cons row rows ih =>
    obtain ⟨hlt, hrest⟩ := List.pairwise_cons.mp hrows
    rw [List.foldlM_cons] at h
    cases hrow : loadRow codec entries row with
    | error e =>
      rw [hrow] at h
      cases h
    | ok middle =>
      rw [hrow] at h
      obtain ⟨peer, record, hkey, hread, hmiddle⟩ := loadRow_eq_ok.mp hrow
      obtain ⟨key, cell⟩ := row
      obtain rfl : key = .peerId peer := hkey
      have hnone : get rows (.peerId peer) = none :=
        get_eq_none_of_forall_ne fun e he => (hlt e he).ne'
      have hget : ∀ q, get middle q = if q = peer then record else get entries q := by
        intro q
        have hold := hnew peer cell (by rw [SortedMap.get, if_pos rfl])
        rw [hmiddle]
        cases record with
        | none =>
          split_ifs with hq
          · rw [hq]
            exact hold
          · rfl
        | some record => rw [Option.elim_some, get_insert]
      have hmiddle' : Sorted (· < ·) middle := by
        rw [hmiddle]
        cases record with
        | none => exact hentries
        | some record => exact sorted_insert hentries peer record
      have hnew' : ∀ q c, get rows (.peerId q) = some c → get middle q = none := by
        intro q c hc
        have hne : q ≠ peer := by
          rintro rfl
          rw [hnone] at hc
          cases hc
        rw [hget, if_neg hne]
        refine hnew q c ?_
        rw [SortedMap.get, if_neg (by simpa using hne), hc]
      obtain ⟨hsorted, hgood, hlast⟩ := ih hrest hmiddle' hnew' h
      refine ⟨hsorted, ?_, ?_⟩
      · intro k c hc
        rw [SortedMap.get] at hc
        split_ifs at hc with hk
        · cases hc
          exact ⟨peer, record, hk, hread⟩
        · exact hgood k c hc
      · intro q
        by_cases hq : q = peer
        · subst hq
          right
          refine ⟨cell, by rw [SortedMap.get, if_pos rfl], ?_⟩
          rcases hlast q with ⟨heq, -⟩ | ⟨c, hc, -⟩
          · rw [heq, hget, if_pos rfl, hread]
          · rw [hnone] at hc
            cases hc
        · have hkey : get ((.peerId peer, cell) :: rows) (.peerId q) = get rows (.peerId q) := by
            rw [SortedMap.get, if_neg (by simpa using hq)]
          rw [hkey]
          rcases hlast q with ⟨heq, hc⟩ | hc
          · exact Or.inl ⟨by rw [heq, hget, if_neg hq], hc⟩
          · exact Or.inr hc

theorem foldlM_loadRow_ok (hrows : Sorted (· < ·) rows) (hgood : GoodRows codec rows)
    (entries : List (P × DeviceRecord)) :
    ∃ entries', rows.foldlM (loadRow codec) entries = .ok entries' := by
  induction rows generalizing entries with
  | nil => exact ⟨entries, rfl⟩
  | cons row rows ih =>
    obtain ⟨hlt, hrows⟩ := List.pairwise_cons.mp hrows
    obtain ⟨peer, record, hkey, hread⟩ := hgood row.1 row.2 (by rw [SortedMap.get, if_pos rfl])
    have hrow : loadRow codec entries row = .ok _ :=
      loadRow_eq_ok.mpr ⟨peer, record, hkey, hread, rfl⟩
    rw [List.foldlM_cons, hrow]
    refine ih hrows ?_ _
    intro key cell hcell
    refine hgood key cell ?_
    rw [SortedMap.get, if_neg, hcell]
    rintro rfl
    exact (hlt _ (mem_of_get hcell)).ne rfl

/-- The load says of every device what its row says. -/
theorem loadEntries_eq_ok (hrows : Sorted (· < ·) rows) {entries : List (P × DeviceRecord)} :
    loadEntries codec rows = .ok entries ↔
      Sorted (· < ·) entries ∧ GoodRows codec rows ∧
        ∀ peer, RecordOf codec rows peer (get entries peer) := by
  have hspec : ∀ entries', loadEntries codec rows = .ok entries' → Sorted (· < ·) entries' ∧
      GoodRows codec rows ∧ ∀ peer, RecordOf codec rows peer (get entries' peer) := by
    intro entries' h
    obtain ⟨hsorted, hgood, hlast⟩ :=
      foldlM_loadRow hrows List.Pairwise.nil (fun _ _ _ => rfl) h
    exact ⟨hsorted, hgood, fun peer => (hlast peer).imp And.symm id⟩
  refine ⟨hspec entries, ?_⟩
  rintro ⟨hsorted, hgood, hrecord⟩
  obtain ⟨entries', h⟩ := foldlM_loadRow_ok hrows hgood []
  obtain ⟨hsorted', -, hrecord'⟩ := hspec entries' h
  have heq : entries' = entries := ext hsorted' hsorted fun peer => (hrecord' peer).unique (hrecord peer)
  rw [← heq]
  exact h

/-- A cache is the one that `open` loads. -/
theorem loadRegistry_eq_ok (hrows : Sorted (· < ·) rows) {localPeer : P} {cache : RegistryCache P} :
    loadRegistry codec localPeer rows = .ok cache ↔
      Sorted (· < ·) cache.entries ∧ GoodRows codec rows ∧
        (∀ peer, RecordOf codec rows peer (get cache.entries peer)) ∧
        ∃ record, get cache.entries localPeer = some record ∧ cache.localRole = record.role := by
  obtain ⟨entries, role⟩ := cache
  constructor
  · intro h
    rw [loadRegistry] at h
    cases hload : loadEntries codec rows with
    | error e =>
      rw [hload] at h
      cases h
    | ok loaded =>
      rw [hload] at h
      dsimp only at h
      cases hlocal : get loaded localPeer with
      | none =>
        rw [hlocal] at h
        cases h
      | some record =>
        rw [hlocal] at h
        cases h
        obtain ⟨hsorted, hgood, hrecord⟩ := (loadEntries_eq_ok hrows).mp hload
        exact ⟨hsorted, hgood, hrecord, record, hlocal, rfl⟩
  · rintro ⟨hsorted, hgood, hrecord, record, hlocal, hrole⟩
    have hload := (loadEntries_eq_ok hrows).mpr ⟨hsorted, hgood, hrecord⟩
    have hrole' : role = record.role := hrole
    rw [loadRegistry, hload, hrole']
    dsimp only at hlocal ⊢
    rw [hlocal]

end Load

end ZenDB
