import ZenDB.Workspace.TablesOpen

namespace ZenDB.Workspace

open Crdt SortedMap

/-! Runs of calls and restarts: when the catalog, the handles and the directories agree. -/

namespace Tables

variable {P : Type} [LinearOrder P] [Inhabited P] {codec : Codec TableConfig}
  {records : Codec DeviceRecord} {enc : PrimaryKey P → Bytes} {s : Tables P}

/-- The registry and its cache: the local device is the only one, and an admin. -/
structure Enrolled (records : Codec DeviceRecord) (s : Tables P) : Prop where
  settled : s.registry.Settled rowOps
  kind : s.registry.state.kind = .unordered
  device : ∃ record stamp, record.role = some .admin ∧
    s.cache = ⟨[(s.devices.localPeerId, record)], some .admin⟩ ∧
    ∀ key, s.registry.get key = if key = .peerId s.devices.localPeerId then
      some ⟨some (.scalar (.blob (records.enc record))), stamp⟩ else none

/-- The system tables can be written, and opened again. -/
structure Ready (records : Codec DeviceRecord) (s : Tables P) : Prop where
  enrolled : s.Enrolled records
  settled : s.catalog.Settled rowOps
  kind : s.catalog.state.kind = .unordered
  buffer : 0 < s.catalog.maxBuffered

/-- What holds between two steps. -/
structure Coherent (codec : Codec TableConfig) (records : Codec DeviceRecord) (s : Tables P) : Prop
    extends Ready records s where
  names : ∀ key cell, s.catalog.get key = some cell → ∃ name, key = .string name
  agrees : ∀ name, s.declared codec name = .ok (s.running name)
  sorted : Sorted (· < ·) s.tables
  kept : ∀ name t, get s.tables name = some t → isSystemTable name = false ∧ t.Kept
  gone : ∀ name, s.running name = none → s.files name = none

theorem Enrolled.hasAccess (h : s.Enrolled records) (required : Role) :
    s.cache.hasAccess s.devices.localPeerId s.devices.localPeerId required = true := by
  obtain ⟨record, stamp, -, hcache, -⟩ := h.device
  rw [RegistryCache.hasAccess, hcache]
  cases required <;> simp [Role.hasAtLeast]

theorem Enrolled.devices (h : s.Enrolled records) {s' : Tables P} (hregistry : s'.registry = s.registry)
    (hcache : s'.cache = s.cache) (hlocal : s'.devices.localPeerId = s.devices.localPeerId) :
    s'.Enrolled records := by
  obtain ⟨hsettled, hkind, record, stamp, hrole, hc, hget⟩ := h
  refine ⟨?_, ?_, record, stamp, hrole, ?_, ?_⟩
  · rw [hregistry]
    exact hsettled
  · rw [hregistry]
    exact hkind
  · rw [hcache, hlocal]
    exact hc
  · rw [hregistry, hlocal]
    exact hget

/-- The clock of the device may move. -/
theorem Coherent.devices (h : s.Coherent codec records) {devices : Devices P}
    (hlocal : devices.localPeerId = s.devices.localPeerId) :
    ({s with devices := devices} : Tables P).Coherent codec records :=
  ⟨⟨h.enrolled.devices rfl rfl hlocal, h.settled, h.kind, h.buffer⟩, h.names, h.agrees, h.sorted, h.kept,
    h.gone⟩

/-- What an insert into the catalog does: nothing that can be read, or its event and the listeners. -/
theorem insertInternal_cases (codec : Codec TableConfig) (h : s.Ready records) {event : Event P} (env : Surroundings P)
    (hpeer : event.stamp.id.peerId = s.devices.localPeerId) :
    (∃ catalog : Table (PrimaryKey P) (RowCell P) (Event P), (∀ key, catalog.get key = s.catalog.get key) ∧
      (s.insertInternal codec event env).1 = {s with catalog := catalog} ∧
      ((s.insertInternal codec event env).2 = .ok () →
        rowOps.apply (s.catalog.get event.primaryKey) event = .unchanged) ∧
      catalog.Settled rowOps ∧ catalog.state.kind = .unordered ∧ 0 < catalog.maxBuffered) ∨
    ∃ catalog devices current, devices.localPeerId = s.devices.localPeerId ∧
      catalog.Settled rowOps ∧ catalog.state.kind = .unordered ∧ 0 < catalog.maxBuffered ∧
      rowOps.apply (s.catalog.get event.primaryKey) event = .changed current ∧
      (∀ key, catalog.get key = if key = event.primaryKey then some current else s.catalog.get key) ∧
      (s.insertInternal codec event env).1 =
        (({s with catalog := catalog, devices := devices} : Tables P).onChange codec event env.files).getD
          {s with catalog := catalog, devices := devices} := by
  have hsettled := h.settled.insert h.buffer event
  obtain ⟨hmax, hkind⟩ := Table.insert_config rowOps s.catalog event
  have hget := Table.insert_get rowOps s.catalog event
  have haccess : s.cache.hasAccess s.devices.localPeerId event.stamp.id.peerId .admin = true := by
    rw [hpeer]
    exact h.enrolled.hasAccess .admin
  rw [insertInternal, if_pos haccess]
  rcases hinsert : s.catalog.insert rowOps event with ⟨catalog, outcome⟩
  rw [hinsert] at hsettled hmax hkind hget
  have hbuffer : 0 < catalog.maxBuffered := hmax ▸ h.buffer
  cases outcome with
  | ignored =>
    exact Or.inl ⟨catalog, hget.2, rfl, fun _ => hget.1, hsettled, hkind.trans h.kind, hbuffer⟩
  | error =>
    exact Or.inl ⟨catalog, hget, rfl, (fun herror => by cases herror), hsettled, hkind.trans h.kind, hbuffer⟩
  | applied change =>
    obtain ⟨current, happly, hevent, hget⟩ := hget
    refine Or.inr ⟨catalog, (s.devices.observe event.stamp env.observed).1, current,
      Devices.observe_localPeerId _ _ _, hsettled, hkind.trans h.kind, hbuffer, happly,
      fun key => by convert hget key; rfl, ?_⟩
    dsimp only
    rw [hevent]
    cases ({s with catalog := catalog,
                   devices := (s.devices.observe event.stamp env.observed).1} : Tables P).onChange codec
      event env.files <;> rfl

/-- A write to the catalog that keeps the rows together with what the listener does. -/
theorem Coherent.published (h : s.Coherent codec records) {event : EventStamp P → Event P}
    (env : Surroundings P) (hstamp : ∀ stamp, (event stamp).stamp = stamp)
    (happlied : ∀ catalog devices stamp current, devices.localPeerId = s.devices.localPeerId →
      catalog.Settled rowOps → catalog.state.kind = .unordered → 0 < catalog.maxBuffered →
      rowOps.apply (s.catalog.get (event stamp).primaryKey) (event stamp) = .changed current →
      (∀ key, catalog.get key =
        if key = (event stamp).primaryKey then some current else s.catalog.get key) →
      ((({s with catalog := catalog, devices := devices} : Tables P).onChange codec (event stamp)
        env.files).getD {s with catalog := catalog, devices := devices}).Coherent codec records) :
    (s.publish codec event env).1.Coherent codec records := by
  rw [publish]
  cases hmint : s.devices.mint env.minted with
  | none => exact h
  | some r =>
    obtain ⟨devices, stamp⟩ := r
    obtain ⟨c, -, hid, -, -, hlocal, -⟩ := Devices.mint_spec hmint
    have hminted := h.devices hlocal
    have hpeer : (event stamp).stamp.id.peerId = devices.localPeerId := by
      rw [hstamp, hid, hlocal]
    have hcoherent : (({s with devices := devices} : Tables P).insertInternal codec (event stamp) env).1.Coherent
        codec records := by
      rcases insertInternal_cases codec hminted.toReady env hpeer with
        ⟨catalog, hget, heq, -, hsettled, hkind, hbuffer⟩ |
        ⟨catalog, devices', current, hlocal', hsettled, hkind, hbuffer, happly, hget, heq⟩
      · rw [heq]
        refine ⟨⟨hminted.enrolled.devices rfl rfl rfl, hsettled, hkind, hbuffer⟩, ?_, ?_, h.sorted,
          h.kept, h.gone⟩
        · intro key cell hcell
          exact h.names key cell ((hget key).symm.trans hcell)
        · intro name
          have hsame := h.agrees name
          rw [declared] at hsame ⊢
          rw [hget]
          exact hsame
      · rw [heq]
        exact happlied catalog devices' stamp current (hlocal'.trans hlocal) hsettled hkind hbuffer happly
          hget
    dsimp only
    rcases hresult : ({s with devices := devices} : Tables P).insertInternal codec (event stamp) env with
      ⟨s', e | ⟨⟩⟩
    · rw [hresult] at hcoherent
      exact hcoherent
    · rw [hresult] at hcoherent
      exact hcoherent

omit [Inhabited P] in
/-- The declarations after a write. -/
theorem declared_of_get {s' : Tables P} {name : String} {current : RowCell P}
    {config : Option TableConfig} (hread : readDeclaration codec name current = .ok config)
    (hget : ∀ key, s'.catalog.get key = if key = .string name then some current else s.catalog.get key)
    (other : String) :
    s'.declared codec other = if other = name then .ok config else s.declared codec other := by
  rw [declared, declared, hget]
  by_cases hother : other = name
  · rw [if_pos (by rw [hother]), if_pos hother, hother]
    exact hread
  · rw [if_neg (by simpa using hother), if_neg hother]

/-- What an applied event and its listener leave of an invariant state. -/
theorem Coherent.written (h : s.Coherent codec records) {s' : Tables P} {name : String}
    {current : RowCell P} {config : Option TableConfig}
    (hregistry : s'.registry = s.registry) (hcache : s'.cache = s.cache)
    (hlocal : s'.devices.localPeerId = s.devices.localPeerId)
    (hsettled : s'.catalog.Settled rowOps) (hkind : s'.catalog.state.kind = .unordered)
    (hbuffer : 0 < s'.catalog.maxBuffered)
    (hread : readDeclaration codec name current = .ok config)
    (hget : ∀ key, s'.catalog.get key = if key = .string name then some current else s.catalog.get key)
    (hrunning : ∀ other, s'.running other = if other = name then config else s.running other)
    (hsorted : Sorted (· < ·) s'.tables)
    (hkept : ∀ name t, get s'.tables name = some t → isSystemTable name = false ∧ t.Kept)
    (hgone : ∀ name, s'.running name = none → s'.files name = none) : s'.Coherent codec records := by
  refine ⟨⟨h.enrolled.devices hregistry hcache hlocal, hsettled, hkind, hbuffer⟩, ?_, ?_, hsorted, hkept,
    hgone⟩
  · intro key cell hcell
    rw [hget] at hcell
    split_ifs at hcell with hkey
    · exact ⟨name, hkey⟩
    · exact h.names key cell hcell
  · intro other
    rw [declared_of_get hread hget, hrunning]
    split_ifs
    · rfl
    · exact h.agrees other

theorem entryEvent_applied {row : Option (RowCell P)} {name : String} {config : TableConfig}
    {stamp : EventStamp P} {current : RowCell P}
    (h : rowOps.apply row (entryEvent codec name config stamp) = .changed current) :
    current = ⟨some (.scalar (.blob (codec.enc config))), stamp⟩ := by
  rw [entryEvent, rowOps_apply_upsert] at h
  split_ifs at h
  exact (Applied.changed.inj h).symm

theorem deleteEvent_applied {row : Option (RowCell P)} {name : String} {stamp : EventStamp P}
    {current : RowCell P} (h : rowOps.apply row (deleteEvent name stamp) = .changed current) :
    current = ⟨none, stamp⟩ := by
  rw [deleteEvent, rowOps_apply_delete] at h
  split_ifs at h
  exact (Applied.changed.inj h).symm

omit [LinearOrder P] [Inhabited P] in
theorem running_of_get (s s' : Tables P) {name : String} (hname : isSystemTable name = false)
    (t : Option (OpenTable P))
    (hget : ∀ other, get s'.tables other = if other = name then t else get s.tables other)
    (other : String) : s'.running other = if other = name then t.map (·.config) else s.running other := by
  rw [running, running, hget]
  by_cases hother : other = name
  · rw [if_pos hother, if_pos hother, hother, hname]
    rfl
  · rw [if_neg hother, if_neg hother]

theorem Coherent.upsert (h : s.Coherent codec records) {name : String} {config : TableConfig}
    {env : Surroundings P} (hmeets : s.Meets (.upsert name config env)) :
    (s.upsert codec name config env).1.Coherent codec records := by
  rw [Tables.upsert]
  cases hsystem : isSystemTable name with
  | true => exact h
  | false =>
    rw [if_neg (by simp), if_pos (h.enrolled.hasAccess .admin), h.agrees]
    dsimp only
    obtain ⟨-, hmeets⟩ := hmeets
    split_ifs with hsame
    · exact h
    refine h.published env (fun _ => rfl) ?_
    intro catalog devices stamp current hlocal hsettled hkind hbuffer happly hget
    have hcell := entryEvent_applied happly
    have hread : readDeclaration codec name current = .ok (some config) := by
      rw [hcell]
      exact readDeclaration_written codec name config stamp
    have hchange : ({s with catalog := catalog, devices := devices} : Tables P).onChange codec
        (entryEvent codec name config stamp) env.files =
        ({s with catalog := catalog, devices := devices} : Tables P).onUpsert codec name (codec.enc config)
          env.files := rfl
    have hsame' : ({s with catalog := catalog, devices := devices} : Tables P).running = s.running := rfl
    rw [hchange, onUpsert, hsame', codec.dec_enc]
    cases hrunning : s.running name with
    | some old =>
      -- an open table: the listener does nothing, and the row keeps the config
      rw [hrunning] at hmeets hsame
      obtain hmeets | rfl : old.same config = true ∨ old = config := hmeets
      · exact absurd hmeets hsame
      refine h.written rfl rfl hlocal hsettled hkind hbuffer hread hget ?_ h.sorted h.kept h.gone
      intro other
      by_cases hother : other = name
      · rw [if_pos hother, hother]
        exact hrunning
      · rw [if_neg hother]
        rfl
    | none =>
      -- a new table in a fresh directory
      rw [hrunning] at hmeets
      obtain ⟨hfits, hdone⟩ := hmeets
      dsimp only
      rw [h.gone name hrunning, if_neg (by simp), if_pos hfits, hdone]
      have htables : ∀ other, get (SortedMap.insert s.tables name (createTable config)) other =
          if other = name then some (createTable config) else get s.tables other :=
        get_insert s.tables name (createTable config)
      have hrun : ∀ other, ({s with
          catalog := catalog, devices := devices,
          tables := SortedMap.insert s.tables name (createTable config)} : Tables P).running other =
          if other = name then some config else s.running other :=
        running_of_get s _ hsystem (some (createTable config)) htables
      refine h.written rfl rfl hlocal hsettled hkind hbuffer hread hget hrun
        (sorted_insert h.sorted _ _) ?_ ?_
      · intro other t ht
        have ht' : get (SortedMap.insert s.tables name (createTable config)) other = some t := ht
        rw [htables] at ht'
        split_ifs at ht' with hother
        · cases ht'
          exact ⟨hother ▸ hsystem, kept_createTable config⟩
        · exact h.kept other t ht'
      · intro other hnone
        refine h.gone other ?_
        have hnone' := (hrun other).symm.trans hnone
        split_ifs at hnone'
        exact hnone'

theorem Coherent.delete (h : s.Coherent codec records) {name : String} {held : Bool}
    {env : Surroundings P} (hdone : env.files = .done) :
    (s.delete codec name held env).1.Coherent codec records := by
  rw [Tables.delete]
  cases hsystem : isSystemTable name with
  | true => exact h
  | false =>
    rw [if_neg (by simp), if_pos (h.enrolled.hasAccess .admin)]
    cases htable : get s.tables name with
    | none => exact h
    | some t =>
      dsimp only
      split_ifs
      · exact h
      refine h.published env (fun _ => rfl) ?_
      intro catalog devices stamp current hlocal hsettled hkind hbuffer happly hget
      have hcell := deleteEvent_applied happly
      have hread : readDeclaration codec name current = .ok none := by
        rw [hcell]
        rfl
      have hchange : ({s with catalog := catalog, devices := devices} : Tables P).onChange codec
          (deleteEvent name stamp) env.files =
          some (({s with catalog := catalog, devices := devices} : Tables P).onDelete name env.files) := rfl
      rw [hchange, Option.getD_some, onDelete.eq_def]
      dsimp only
      rw [htable, hdone]
      have htables : ∀ other, get (erase s.tables name) other =
          if other = name then none else get s.tables other := get_erase h.sorted name
      have hrun : ∀ other, (({s with
          catalog := catalog, devices := devices, tables := erase s.tables name} : Tables P).leave name
            none).running other = if other = name then none else s.running other :=
        running_of_get s _ hsystem none htables
      refine h.written rfl rfl hlocal hsettled hkind hbuffer hread hget hrun (sorted_erase h.sorted _) ?_ ?_
      · intro other t' ht'
        have ht : get (erase s.tables name) other = some t' := ht'
        rw [htables] at ht
        split_ifs at ht
        exact h.kept other t' ht
      · intro other hnone
        show Function.update s.files name none other = none
        by_cases hother : other = name
        · rw [hother, Function.update_self]
        · rw [Function.update_of_ne hother]
          refine h.gone other ?_
          have hnone' := (hrun other).symm.trans hnone
          rwa [if_neg hother] at hnone'

/-- A call on an open table leaves the other tables and the catalog alone. -/
theorem Coherent.setTable (h : s.Coherent codec records) {name : String} {t : OpenTable P}
    (ht : get s.tables name = some t) {devices : Devices P}
    (hlocal : devices.localPeerId = s.devices.localPeerId)
    {table : Table (PrimaryKey P) (RowCell P) (Event P)} (hkept : (⟨t.config, table⟩ : OpenTable P).Kept) :
    ({s with
      devices := devices
      tables := SortedMap.insert s.tables name {t with table := table}} : Tables P).Coherent codec records := by
  obtain ⟨hsystem, -⟩ := h.kept name t ht
  have hrun : ∀ other, ({s with
      devices := devices
      tables := SortedMap.insert s.tables name {t with table := table}} : Tables P).running other =
      s.running other := by
    intro other
    rw [running_of_get s _ hsystem (some {t with table := table}) (get_insert s.tables name _)]
    split_ifs with hother
    · rw [hother, running, hsystem, ht]
      rfl
    · rfl
  refine ⟨⟨h.enrolled.devices rfl rfl hlocal, h.settled, h.kind, h.buffer⟩, h.names, ?_,
    sorted_insert h.sorted _ _, ?_, ?_⟩
  · intro other
    rw [hrun]
    exact h.agrees other
  · intro other t' ht'
    have hget : get (SortedMap.insert s.tables name {t with table := table}) other = some t' := ht'
    rw [get_insert] at hget
    split_ifs at hget with hother
    · cases hget
      exact ⟨hother ▸ hsystem, hkept⟩
    · exact h.kept other t' hget
  · intro other hnone
    exact h.gone other ((hrun other).symm.trans hnone)

theorem Coherent.insertRow (h : s.Coherent codec records) {name : String} {key : PrimaryKey P}
    {path : List (Crdt.Segment P)} {op : Op P} {env : Surroundings P}
    (hmeets : s.Meets (.insert name key path op env)) :
    (s.insertRow name key path op env).1.Coherent codec records := by
  rw [Tables.insertRow]
  cases htable : get s.tables name with
  | none => exact h
  | some t =>
    obtain ⟨hdisk, hpos⟩ := hmeets t htable
    obtain ⟨-, hkind, hbuffer, hrows⟩ := h.kept name t htable
    dsimp only
    rw [if_pos (h.enrolled.hasAccess .contributor)]
    cases hmint : s.devices.mint env.minted with
    | none => exact h
    | some r =>
      obtain ⟨devices, stamp⟩ := r
      obtain ⟨c, -, -, -, -, hlocal, -⟩ := Devices.mint_spec hmint
      have hsettled : t.table.Settled rowOps := by
        rcases hrows with hsettled | hblank
        · exact hsettled
        · rw [hblank.memory] at hdisk
          cases hdisk
      have hafter := hsettled.insert (hbuffer ▸ hpos) ⟨key, path, op, stamp⟩
      obtain ⟨hmax, hkind'⟩ := Table.insert_config rowOps t.table ⟨key, path, op, stamp⟩
      dsimp only
      rcases hinsert : t.table.insert rowOps ⟨key, path, op, stamp⟩ with ⟨table, outcome⟩
      rw [hinsert] at hafter hmax hkind'
      have hkept : (⟨t.config, table⟩ : OpenTable P).Kept :=
        ⟨hkind'.trans hkind, hmax.trans hbuffer, Or.inl hafter⟩
      cases outcome with
      | error => exact h.setTable htable hlocal hkept
      | ignored => exact h.setTable htable hlocal hkept
      | applied change =>
        exact h.setTable htable ((Devices.observe_localPeerId _ _ _).trans hlocal) hkept

theorem Coherent.flush (h : s.Coherent codec records) : s.flush.Coherent codec records := by
  obtain ⟨hsettled, hget⟩ := h.settled.flush
  obtain ⟨hmax, hkind⟩ := Table.exec_config s.catalog s.catalog.flush
  let flushed (t : OpenTable P) : OpenTable P := ⟨t.config, (t.table.exec t.table.flush).1⟩
  have htables : ∀ name, get s.flush.tables name = (get s.tables name).map flushed :=
    get_map flushed s.tables
  have hrun : ∀ name, s.flush.running name = s.running name := by
    intro name
    rw [running, running, htables, Option.map_map]
    rfl
  refine ⟨⟨?_, hsettled, hkind.trans h.kind, hmax ▸ h.buffer⟩, ?_, ?_, sorted_map flushed h.sorted, ?_, ?_⟩
  · obtain ⟨hregistry, hregistry'⟩ := h.enrolled.settled.flush
    obtain ⟨record, stamp, hrole, hcache, hdevice⟩ := h.enrolled.device
    exact ⟨hregistry, (Table.exec_config s.registry s.registry.flush).2.trans h.enrolled.kind, record, stamp,
      hrole, hcache, fun key => (hregistry' key).trans (hdevice key)⟩
  · intro key cell hcell
    exact h.names key cell ((hget key).symm.trans hcell)
  · intro name
    have hcell : s.flush.catalog.get (.string name) = s.catalog.get (.string name) := hget _
    rw [hrun, ← h.agrees, declared, declared, hcell]
  · intro name t ht
    rw [htables] at ht
    obtain ⟨t', ht', rfl⟩ := Option.map_eq_some_iff.mp ht
    obtain ⟨hsystem, hkept⟩ := h.kept name t' ht'
    exact ⟨hsystem, hkept.flush⟩
  · intro name hnone
    exact h.gone name ((hrun name).symm.trans hnone)

omit [LinearOrder P] [Inhabited P] in
theorem openFrom_localPeerId [DecidableEq P] {peer : P} {peers : AList (fun _ : P => PeerState)}
    {wall : Option Nat} {devices : Devices P} (h : Devices.openFrom peer peers wall = some devices) :
    devices.localPeerId = peer := by
  rw [Devices.openFrom] at h
  split at h
  · split_ifs at h
    cases h
    rfl
  · obtain ⟨w, -, h⟩ := Option.bind_eq_some_iff.mp h
    cases h
    rfl

/-- The registry of the local device loads as it was cached. -/
theorem Enrolled.load (h : s.Enrolled records) (enc : PrimaryKey P → Bytes)
    {registry : Table (PrimaryKey P) (RowCell P) (Event P)} (hkind : registry.state.kind = .unordered)
    (hget : ∀ key, registry.get key = s.registry.get key) :
    loadRegistry records s.devices.localPeerId (registry.entries enc) = .ok s.cache := by
  obtain ⟨record, stamp, hrole, hcache, hdevice⟩ := h.device
  have hrow : ∀ row, row ∈ registry.entries enc ↔
      row = (.peerId s.devices.localPeerId, ⟨some (.scalar (.blob (records.enc record))), stamp⟩) := by
    rintro ⟨key, cell⟩
    rw [Table.mem_entries_unordered enc hkind, hget, hdevice]
    split_ifs with hkey
    · obtain rfl : key = .peerId s.devices.localPeerId := hkey
      simp [eq_comm]
    · simp [hkey]
  have hnodup : (registry.entries enc).Nodup := (Table.nodup_entries_unordered enc hkind).of_map
  have hperm : (registry.entries enc).Perm
      [(.peerId s.devices.localPeerId, ⟨some (.scalar (.blob (records.enc record))), stamp⟩)] := by
    rw [List.perm_ext_iff_of_nodup hnodup (List.nodup_singleton _)]
    intro row
    rw [hrow, List.mem_singleton]
  rw [List.perm_singleton.mp hperm, hcache, ← hrole]
  simp [loadRegistry, loadEntries, loadRow, readRow, records.dec_enc, SortedMap.insert, SortedMap.get,
    bind, Except.bind, pure, Except.pure]

/-- `Tables::open` goes through on the directory, with the same handles and rows. -/
theorem Coherent.reopen (h : s.Coherent codec records) (enc : PrimaryKey P → Bytes)
    {peers : AList (fun _ : P => PeerState)} {wall : Option Nat}
    (hclock : (Devices.openFrom s.devices.localPeerId peers wall).isSome) :
    ∃ s', openTables codec records enc s.directory s.devices.localPeerId peers wall = .ok s' ∧
      s'.Coherent codec records ∧ (∀ name, s'.running name = s.running name) ∧
      (∀ key, s'.catalog.get key = s.catalog.get key) ∧
      ∀ name t, get s.tables name = some t →
        ∃ t', get s'.tables name = some t' ∧ ∀ key, t'.table.get key = t.table.get key := by
  obtain ⟨devices, hdevices⟩ := Option.isSome_iff_exists.mp hclock
  have hlocal := openFrom_localPeerId hdevices
  obtain ⟨registry, hregistry, hrsettled, hrkind, -, hrget⟩ :=
    reopen_system h.enrolled.settled h.enrolled.kind
  obtain ⟨catalog, hcatalog, hcsettled, hckind, hcbuffer, hcget⟩ := reopen_system h.settled h.kind
  have hload := h.enrolled.load enc hrkind hrget
  have hread : ∀ row ∈ catalog.entries enc, ∃ name, row.1 = .string name ∧
      readDeclaration codec name row.2 = .ok (s.running name) := by
    rintro ⟨key, cell⟩ hrow
    rw [Table.mem_entries_unordered enc hckind, hcget] at hrow
    obtain ⟨name, rfl⟩ := h.names key cell hrow
    have hagrees := h.agrees name
    rw [declared, hrow] at hagrees
    exact ⟨name, rfl, hagrees⟩
  obtain ⟨decls, hdecls, hnodup, hmem⟩ :=
    catalogRows_eq_ok (Table.nodup_entries_unordered enc hckind) s.running hread
  have hlive : ∀ name config, (name, config) ∈ decls ↔ s.running name = some config := by
    intro name config
    rw [hmem, and_iff_left_iff_imp]
    intro hrunning
    have hagrees := h.agrees name
    rw [hrunning, declared] at hagrees
    cases hcell : s.catalog.get (.string name) with
    | none =>
      rw [hcell] at hagrees
      cases hagrees
    | some cell =>
      refine List.mem_map.mpr ⟨(.string name, cell), ?_, rfl⟩
      rw [Table.mem_entries_unordered enc hckind, hcget]
      exact hcell
  -- a handle opens from its own files
  have hhandle : ∀ name t, get s.tables name = some t → ∃ t' : OpenTable P,
      (s.directory.tables name).bind (openTable · t.config) = some t' ∧ t'.Kept ∧ t'.config = t.config ∧
        ∀ key, t'.table.get key = t.table.get key := by
    intro name t ht
    obtain ⟨t', hopen, hrest⟩ := (h.kept name t ht).2.reopen
    refine ⟨t', ?_, hrest⟩
    have hfiles : s.directory.tables name = some (filesOf t.table) := by
      simp only [directory, ht]
    rw [hfiles, Option.bind_some]
    exact hopen
  have htable : ∀ name config, isSystemTable name = false → s.running name = some config →
      ∃ t, get s.tables name = some t ∧ t.config = config := by
    intro name config hsystem hrunning
    rw [running, hsystem] at hrunning
    exact Option.map_eq_some_iff.mp hrunning
  obtain ⟨tables, hfold, hsorted, hopened, hother⟩ :=
    foldlM_openDeclared s.directory.tables hnodup [] List.Pairwise.nil (by
      intro name config hdecl hsystem
      obtain ⟨t, ht, rfl⟩ := htable name config hsystem ((hlive name config).mp hdecl)
      obtain ⟨t', hopen, -⟩ := hhandle name t ht
      rw [hopen]
      rfl)
  have hkept : ∀ name t, get s.tables name = some t → ∃ t', get tables name = some t' ∧ t'.Kept ∧
      t'.config = t.config ∧ ∀ key, t'.table.get key = t.table.get key := by
    intro name t ht
    obtain ⟨t', hopen, hrest⟩ := hhandle name t ht
    have hsystem := (h.kept name t ht).1
    have hrunning : s.running name = some t.config := by
      rw [running, hsystem, ht]
      rfl
    exact ⟨t', (hopened name t.config ((hlive _ _).mpr hrunning) hsystem).trans hopen, hrest⟩
  have hnone : ∀ name, get s.tables name = none → get tables name = none := by
    intro name hget
    apply hother
    cases hsystem : isSystemTable name with
    | true => exact Or.inl rfl
    | false =>
      right
      intro config hdecl
      obtain ⟨t, ht, -⟩ := htable name config hsystem ((hlive name config).mp hdecl)
      rw [hget] at ht
      cases ht
  have hrunning : ∀ name, (⟨devices, registry, s.cache, catalog, tables, s.directory.tables⟩ :
      Tables P).running name = s.running name := by
    intro name
    rw [running, running]
    cases hget : get s.tables name with
    | none =>
      have hget' := hnone name hget
      dsimp only
      rw [hget']
    | some t =>
      obtain ⟨t', ht', -, hconfig, -⟩ := hkept name t hget
      dsimp only
      rw [ht', Option.map_some, Option.map_some, hconfig]
  refine ⟨⟨devices, registry, s.cache, catalog, tables, s.directory.tables⟩, ?_, ?_, hrunning, hcget, ?_⟩
  · have hregistry' : openTable s.directory.devices systemTableConfig =
        some ⟨systemTableConfig, registry⟩ := hregistry
    have hcatalog' : openTable s.directory.catalog systemTableConfig =
        some ⟨systemTableConfig, catalog⟩ := hcatalog
    simp only [openTables, hregistry', hload, hdevices, hcatalog', hdecls, hfold]
  · refine ⟨⟨⟨hrsettled, hrkind, ?_⟩, hcsettled, hckind, hcbuffer⟩, ?_, ?_, hsorted, ?_, ?_⟩
    · obtain ⟨record, stamp, hrole, hcache, hdevice⟩ := h.enrolled.device
      refine ⟨record, stamp, hrole, ?_, ?_⟩
      · rw [hlocal]
        exact hcache
      · intro key
        rw [hlocal]
        exact (hrget key).trans (hdevice key)
    · intro key cell hcell
      exact h.names key cell ((hcget key).symm.trans hcell)
    · intro name
      rw [hrunning, ← h.agrees, declared, declared]
      dsimp only
      rw [hcget]
    · intro name t' ht'
      cases hget : get s.tables name with
      | none =>
        rw [hnone name hget] at ht'
        cases ht'
      | some t =>
        obtain ⟨t'', ht'', hk, -⟩ := hkept name t hget
        rw [ht''] at ht'
        cases ht'
        exact ⟨(h.kept name t hget).1, hk⟩
    · intro name hgone
      rw [hrunning] at hgone
      have hget : get s.tables name = none := by
        rw [running] at hgone
        split_ifs at hgone
        exact Option.map_eq_none_iff.mp hgone
      have hfiles : s.directory.tables name = s.files name := by simp only [directory, hget]
      exact hfiles.trans (h.gone name hgone)
  · intro name t ht
    obtain ⟨t', ht', -, -, hrows⟩ := hkept name t ht
    exact ⟨t', ht', hrows⟩

theorem Coherent.step (h : s.Coherent codec records) {a : TablesAction P} (hmeets : s.Meets a) :
    (s.step codec records enc a).Coherent codec records := by
  cases a with
  | upsert name config env => exact h.upsert hmeets
  | delete name held env => exact h.delete hmeets
  | insert name key path op env => exact h.insertRow hmeets
  | flush => exact h.flush
  | reopen peers wall =>
    obtain ⟨s', hopen, hs', -⟩ := h.reopen enc hmeets
    rw [Tables.step, hopen]
    exact hs'

theorem Coherent.run (h : s.Coherent codec records) (actions : List (TablesAction P))
    (hmeets : s.RunMeets codec records enc actions) :
    (s.run codec records enc actions).Coherent codec records := by
  induction actions generalizing s with
  | nil => exact h
  | cons a actions ih => exact ih (h.step hmeets.1) hmeets.2

/-- A new row of a system table: the minted stamp is above the default one. -/
theorem Ready.publish_entry (h : s.Ready records) {name : String} (hsystem : isSystemTable name = true)
    (hnone : s.catalog.get (.string name) = none) {env : Surroundings P} {s' : Tables P} {changed : Bool}
    (hok : s.publish codec (entryEvent codec name systemTableConfig) env = (s', .ok changed)) :
    s'.Ready records ∧ s'.tables = s.tables ∧ s'.files = s.files ∧ ∃ stamp, ∀ key, s'.catalog.get key =
      if key = .string name then some ⟨some (.scalar (.blob (codec.enc systemTableConfig))), stamp⟩
      else s.catalog.get key := by
  rw [publish] at hok
  cases hmint : s.devices.mint env.minted with
  | none =>
    rw [hmint] at hok
    cases hok
  | some r =>
    obtain ⟨devices, stamp⟩ := r
    obtain ⟨c, -, hid, htime, -, hlocal, -⟩ := Devices.mint_spec hmint
    rw [hmint] at hok
    dsimp only at hok
    have hready : ({s with devices := devices} : Tables P).Ready records :=
      ⟨h.enrolled.devices rfl rfl hlocal, h.settled, h.kind, h.buffer⟩
    have hpeer : (entryEvent codec name systemTableConfig stamp).stamp.id.peerId = devices.localPeerId := by
      show stamp.id.peerId = _
      rw [hid, hlocal]
    have hlater : ¬ stamp ≤ default := by
      rw [not_le]
      refine EventStamp.lt_of_time_lt (lt_of_le_of_lt ?_ htime)
      rw [EventTime.le_def]
      rcases Nat.eq_zero_or_pos c.lastTime.physicalMs with hzero | hpos
      · exact Or.inr ⟨hzero.symm, Nat.zero_le _⟩
      · exact Or.inl hpos
    have hresult := insertInternal_cases codec hready env hpeer
    rcases hinsert : ({s with devices := devices} : Tables P).insertInternal codec
      (entryEvent codec name systemTableConfig stamp) env with ⟨s₁, e | ⟨⟩⟩
    · rw [hinsert] at hok
      cases hok
    rw [hinsert] at hok hresult
    cases hok
    rcases hresult with ⟨catalog, -, -, hunchanged, -⟩ |
      ⟨catalog, devices', current, hlocal', hsettled, hkind, hbuffer, happly, hget, heq⟩
    · have happly := hunchanged rfl
      rw [entryEvent, rowOps_apply_upsert] at happly
      dsimp only at happly
      rw [hnone] at happly
      split_ifs at happly with hle
      exact absurd hle hlater
    · have hcell := entryEvent_applied happly
      have hrunning : (({s with catalog := catalog, devices := devices'} : Tables P).running name).isSome := by
        rw [running, hsystem]
        rfl
      have hchange : ({s with catalog := catalog, devices := devices'} : Tables P).onChange codec
          (entryEvent codec name systemTableConfig stamp) env.files =
          some {s with catalog := catalog, devices := devices'} := by
        show onUpsert codec _ name (codec.enc systemTableConfig) env.files = _
        rw [onUpsert, if_pos hrunning]
      have heq' : s' = {s with catalog := catalog, devices := devices'} := by
        rw [hchange] at heq
        exact heq
      rw [heq']
      refine ⟨⟨h.enrolled.devices rfl rfl (hlocal'.trans hlocal), hsettled, hkind, hbuffer⟩, rfl, rfl, stamp,
        ?_⟩
      intro key
      rw [hget, hcell]
      rfl

theorem ready_bootstrap (records : Codec DeviceRecord) (peer : P) (displayName : String) {wall : Nat}
    (hwall : 0 < wall) : (bootstrap records peer displayName wall).Ready records := by
  have hcreate : ((createTable systemTableConfig).table : Table (PrimaryKey P) (RowCell P)
      (Event P)).Settled rowOps := Table.settled_create rowOps _ (Or.inr rfl) _
  have hlater : ¬ (⟨⟨peer, 1⟩, ⟨wall, 0⟩⟩ : EventStamp P) ≤ default := by
    rw [not_le]
    exact EventStamp.lt_of_time_lt (by rw [EventTime.lt_def]; exact Or.inl hwall)
  have hbuffer : 0 < systemTableConfig.maxBufferedRecords.toNat := by decide
  refine ⟨⟨?_, ?_, ⟨displayName, some .admin⟩, ⟨⟨peer, 1⟩, ⟨wall, 0⟩⟩, rfl, rfl, ?_⟩, hcreate, rfl, hbuffer⟩
  · exact hcreate.insert hbuffer _
  · exact (Table.insert_config rowOps (createTable systemTableConfig).table _).2
  · let fresh : Table (PrimaryKey P) (RowCell P) (Event P) := (createTable systemTableConfig).table
    let event := upsertEvent records peer ⟨displayName, some .admin⟩ ⟨⟨peer, 1⟩, ⟨wall, 0⟩⟩
    have happly : rowOps.apply (fresh.get (rowOps.key event)) event =
        .changed ⟨some (.scalar (.blob (records.enc ⟨displayName, some .admin⟩))), ⟨⟨peer, 1⟩, ⟨wall, 0⟩⟩⟩ :=
      (rowOps_apply_upsert none _ _ _).trans (if_neg hlater)
    obtain ⟨t, change, hinsert⟩ : ∃ t change, fresh.insert rowOps event = (t, .applied change) := by
      rw [Table.insert, happly]
      exact ⟨_, _, rfl⟩
    have hget := Table.insert_get rowOps fresh event
    rw [hinsert] at hget
    obtain ⟨current, hcurrent, -, hrows⟩ := hget
    rw [happly] at hcurrent
    have hregistry : (bootstrap records peer displayName wall).registry = t := congrArg Prod.fst hinsert
    intro key
    rw [hregistry, hrows, ← Applied.changed.inj hcurrent]
    by_cases hkey : key = .peerId peer
    · rw [if_pos (show key = rowOps.key event from hkey)]
      exact (if_pos hkey).symm
    · rw [if_neg (show ¬ key = rowOps.key event from hkey)]
      exact (if_neg hkey).symm

theorem coherent_create {peer : P} {displayName : String} {wall : Nat} (hwall : 0 < wall)
    {catalogEnv devicesEnv : Surroundings P}
    (h : create codec records peer displayName wall catalogEnv devicesEnv = some s) :
    s.Coherent codec records := by
  have hboot := ready_bootstrap records peer displayName hwall
  rw [create] at h
  rcases hfirst : (bootstrap records peer displayName wall).publish codec
    (entryEvent codec tableCatalogName systemTableConfig) catalogEnv with ⟨s₁, e | first⟩
  · rw [hfirst] at h
    cases h
  rw [hfirst] at h
  dsimp only at h
  obtain ⟨hready₁, htables₁, hfiles₁, stamp₁, hget₁⟩ := hboot.publish_entry rfl rfl hfirst
  rcases hsecond : s₁.publish codec (entryEvent codec devicesTableName systemTableConfig) devicesEnv with
    ⟨s₂, e | second⟩
  · rw [hsecond] at h
    cases h
  rw [hsecond] at h
  cases h
  have hnone : s₁.catalog.get (.string devicesTableName) = none := by
    rw [hget₁, if_neg (by simp [devicesTableName, tableCatalogName])]
    rfl
  obtain ⟨hready, htables, hfiles, stamp₂, hget⟩ := hready₁.publish_entry rfl hnone hsecond
  have hempty : s.tables = [] := htables.trans htables₁
  refine ⟨hready, ?_, ?_, ?_, ?_, ?_⟩
  · intro key cell hcell
    rw [hget] at hcell
    split_ifs at hcell with hdevices
    · exact ⟨devicesTableName, hdevices⟩
    · rw [hget₁] at hcell
      split_ifs at hcell with hcatalog
      · exact ⟨tableCatalogName, hcatalog⟩
      · cases hcell
  · intro name
    rw [declared_of_get (readDeclaration_written codec _ _ stamp₂) hget,
      declared_of_get (readDeclaration_written codec _ _ stamp₁) hget₁, running, hempty]
    by_cases hdevices : name = devicesTableName
    · simp [isSystemTable, hdevices]
    · by_cases hcatalog : name = tableCatalogName
      · simp [isSystemTable, hcatalog]
      · rw [if_neg hdevices, if_neg hcatalog]
        simp [isSystemTable, hdevices, hcatalog, declared, bootstrap, createTable]
        rfl
  · rw [hempty]
    exact List.Pairwise.nil
  · intro name t ht
    rw [hempty] at ht
    cases ht
  · intro name _
    rw [hfiles, hfiles₁]
    rfl

/-- In every run whose steps keep to the configs that the open tables run, and whose system calls go
through, catalog rows and handles name the same tables with the same configs, and the workspace
opens again with these tables and their rows. -/
theorem catalog_handles_disk_agree (codec : Codec TableConfig) (records : Codec DeviceRecord)
    (enc : PrimaryKey P → Bytes) (peer : P) (displayName : String) (wall : Nat) (hwall : 0 < wall)
    (catalogEnv devicesEnv : Surroundings P) (s₀ : Tables P)
    (hcreate : create codec records peer displayName wall catalogEnv devicesEnv = some s₀)
    (actions : List (TablesAction P)) (hmeets : s₀.RunMeets codec records enc actions) :
    let s := s₀.run codec records enc actions
    (∀ name, s.declared codec name = .ok (s.running name)) ∧
      ∀ peers wall', (Devices.openFrom s.devices.localPeerId peers wall').isSome →
        ∃ s', openTables codec records enc s.directory s.devices.localPeerId peers wall' = .ok s' ∧
          (∀ name, s'.running name = s.running name) ∧
          (∀ key, s'.catalog.get key = s.catalog.get key) ∧
          ∀ name t, get s.tables name = some t →
            ∃ t', get s'.tables name = some t' ∧ ∀ key, t'.table.get key = t.table.get key := by
  intro s
  have h : s.Coherent codec records := (coherent_create hwall hcreate).run actions hmeets
  refine ⟨h.agrees, ?_⟩
  intro peers wall' hclock
  obtain ⟨s', hopen, -, hrest⟩ := h.reopen enc hclock
  exact ⟨s', hopen, hrest⟩

section Decide

instance decidableDone (io : FileOutcome P) : Decidable (io = .done) :=
  match io with
  | .done => isTrue rfl
  | .failed _ => isFalse (fun h => by cases h)

instance decidableMeets (s : Tables P) (a : TablesAction P) : Decidable (s.Meets a) :=
  match a with
  | .upsert name config env =>
    match hrunning : s.running name with
    | some current =>
      decidable_of_iff (isPathComponent name = true ∧ (current.same config = true ∨ current = config))
        (by simp [Meets, hrunning])
    | none =>
      decidable_of_iff (isPathComponent name = true ∧ config.fits = true ∧ env.files = .done)
        (by simp [Meets, hrunning])
  | .delete _ _ env => inferInstanceAs (Decidable (env.files = .done))
  | .insert name _ _ _ _ =>
    match hget : get s.tables name with
    | none => isTrue (fun t ht => by rw [hget] at ht; cases ht)
    | some t =>
      decidable_of_iff (t.table.state.isInMemory = false ∧ 0 < t.config.maxBufferedRecords.toNat)
        (by simp [Meets, hget])
  | .flush => isTrue trivial
  | .reopen peers wall =>
    inferInstanceAs (Decidable ((Devices.openFrom s.devices.localPeerId peers wall).isSome = true))

instance decidableRunMeets (codec : Codec TableConfig) (records : Codec DeviceRecord)
    (enc : PrimaryKey P → Bytes) (s : Tables P) (actions : List (TablesAction P)) :
    Decidable (s.RunMeets codec records enc actions) :=
  match actions with
  | [] => isTrue trivial
  | a :: as =>
    have := decidableRunMeets codec records enc (s.step codec records enc a) as
    inferInstanceAs (Decidable (s.Meets a ∧ (s.step codec records enc a).RunMeets codec records enc as))

end Decide

end Tables

/-- Words of eight bytes, least significant byte first. -/
def decodeWords : Bytes → List UInt64
  | a :: b :: c :: d :: e :: f :: g :: h :: rest =>
    UInt64.ofNat (leNat [a, b, c, d, e, f, g, h]) :: decodeWords rest
  | _ => []

theorem decodeWords_encoded (words : List UInt64) :
    decodeWords (words.flatMap fun w => leBytes 8 w.toNat) = words := by
  induction words with
  | nil => rfl
  | cons w words ih =>
    have hword : leNat (leBytes 8 w.toNat) = w.toNat :=
      leNat_leBytes_of_lt 8 _ (lt_of_lt_of_le w.toNat_lt (by decide))
    have hstep : decodeWords (leBytes 8 w.toNat ++ words.flatMap fun w => leBytes 8 w.toNat) =
        UInt64.ofNat (leNat (leBytes 8 w.toNat)) ::
          decodeWords (words.flatMap fun w => leBytes 8 w.toNat) := rfl
    rw [List.flatMap_cons, hstep, hword, ih, UInt64.ofNat_toNat]

def stateWords : StateConfig → List UInt64
  | .ordered c => [0, c.initialCapacityPages, c.compactionRatio.bits]
  | .unordered c => [1, c.initialCapacity, c.compactionRatio.bits]
  | .inMemory ⟨.unbounded⟩ => [2]
  | .inMemory ⟨.bounded maxEntries⟩ => [3, maxEntries]

def stateOfWords : List UInt64 → Option StateConfig
  | [0, pages, ratio] => some (.ordered ⟨pages, ⟨ratio⟩⟩)
  | [1, capacity, ratio] => some (.unordered ⟨capacity, ⟨ratio⟩⟩)
  | [2] => some (.inMemory ⟨.unbounded⟩)
  | [3, maxEntries] => some (.inMemory ⟨.bounded maxEntries⟩)
  | _ => none

theorem stateOfWords_stateWords (c : StateConfig) : stateOfWords (stateWords c) = some c := by
  rcases c with c | c | ⟨_ | maxEntries⟩ <;> rfl

/-- A codec of configs to run the system with: the fields as words. -/
def tableConfigCodec : Codec TableConfig where
  enc c := ([c.maxBufferedRecords, c.topic.maxSegmentBytes, c.topic.offsets.initialCapacity,
    c.topic.offsets.compactionRatio.bits] ++ stateWords c.state).flatMap fun w => leBytes 8 w.toNat
  dec bytes :=
    match decodeWords bytes with
    | buffered :: segment :: capacity :: ratio :: state =>
      (stateOfWords state).map fun c => ⟨c, buffered, ⟨segment, ⟨capacity, ⟨ratio⟩⟩⟩⟩
    | _ => none
  dec_enc c := by
    rw [decodeWords_encoded]
    simp [stateOfWords_stateWords]

/-- The bytes of a key: four of the variant, then its field. Peers are numbers here. -/
def keyBytes : PrimaryKey Nat → Bytes
  | .peerId p => leBytes 4 0 ++ leBytes 8 p
  | .bool b => leBytes 4 1 ++ [if b then 1 else 0]
  | .int i => leBytes 4 2 ++ leBytes 8 (i%2^64).toNat
  | .string s =>
    let chars := s.toList.flatMap String.utf8EncodeChar
    leBytes 4 3 ++ leBytes 8 chars.length ++ chars
  | .timestamp ms => leBytes 4 4 ++ leBytes 8 ms
  | .blob b => leBytes 4 5 ++ leBytes 8 b.length ++ b

namespace Tables

/-- The clock stands at 100, and the disk works. -/
def calm : Surroundings Nat := ⟨some 100, some 100, .done⟩

def orderedConfig : TableConfig := ⟨.ordered ⟨4096, defaultCompactionRatio⟩, 1024, defaultTopicConfig⟩

/-- The workspace of device 1. -/
def laptop : Tables Nat :=
  (create tableConfigCodec recordCodec 1 "laptop" 50 calm calm).get (by decide +kernel)

/-- A table that is declared, written, and declared again after a restart. -/
def declareRestart : List (TablesAction Nat) :=
  [.upsert "notes" orderedConfig calm, .insert "notes" (.int 7) [] (.upsert (.scalar (.bool true))) calm,
    .reopen ∅ (some 200), .upsert "notes" orderedConfig calm]

/-- A table that is declared again with another kind of state while it is open. -/
def declareOther : List (TablesAction Nat) :=
  [.upsert "notes" orderedConfig calm, .upsert "notes" systemTableConfig calm]

theorem catalog_handles_disk_agree_restart :
    let s := laptop.run tableConfigCodec recordCodec keyBytes declareRestart
    s.declared tableConfigCodec "notes" = .ok (some orderedConfig) ∧
      ∃ s', openTables tableConfigCodec recordCodec keyBytes s.directory 1 ∅ (some 300) = .ok s' ∧
        s'.running "notes" = some orderedConfig ∧
        ∃ t, get s'.tables "notes" = some t ∧ (t.table.get (.int 7)).isSome := by
  have hcreate : create tableConfigCodec recordCodec 1 "laptop" 50 calm calm = some laptop :=
    (Option.some_get _).symm
  obtain ⟨hagrees, hopen⟩ := catalog_handles_disk_agree tableConfigCodec recordCodec keyBytes 1 "laptop" 50
    (by decide) calm calm laptop hcreate declareRestart (by decide +kernel)
  have hrunning : (laptop.run tableConfigCodec recordCodec keyBytes declareRestart).running "notes" =
      some orderedConfig := by decide +kernel
  have hlocal : (laptop.run tableConfigCodec recordCodec keyBytes declareRestart).devices.localPeerId =
      1 := by decide +kernel
  have hrow : ((get (laptop.run tableConfigCodec recordCodec keyBytes declareRestart).tables "notes").bind
      fun t => t.table.get (.int 7)).isSome := by decide +kernel
  obtain ⟨cell, hcell⟩ := Option.isSome_iff_exists.mp hrow
  obtain ⟨t, ht, hkey⟩ := Option.bind_eq_some_iff.mp hcell
  rw [hlocal] at hopen
  obtain ⟨s', hs', hsame, -, htables⟩ := hopen ∅ (some 300) (by decide +kernel)
  obtain ⟨t', ht', hget⟩ := htables "notes" t ht
  refine ⟨(hagrees "notes").trans (congrArg _ hrunning), s', hs', (hsame "notes").trans hrunning, t', ht', ?_⟩
  rw [hget, hkey]
  rfl

/-- Both calls return `Ok(true)`; the open table keeps its config, and the workspace with the new row
does not open. -/
theorem redeclared_table_does_not_open :
    (laptop.upsert tableConfigCodec "notes" orderedConfig calm).2 = .ok true ∧
    ((laptop.upsert tableConfigCodec "notes" orderedConfig calm).1.upsert tableConfigCodec "notes"
      systemTableConfig calm).2 = .ok true ∧
    let s := laptop.run tableConfigCodec recordCodec keyBytes declareOther
    s.declared tableConfigCodec "notes" = .ok (some systemTableConfig) ∧
      s.running "notes" = some orderedConfig ∧
      (openTables tableConfigCodec recordCodec keyBytes s.directory 1 ∅ (some 300)).toOption.isNone := by
  decide +kernel

end Tables

end ZenDB.Workspace
