import ZenDB.Devices.RegistryRuns
import ZenDB.Table.Reads
import ZenDB.Workspace.Config

namespace ZenDB.Workspace

open Crdt SortedMap

/-! The tables of a workspace: the `_catalog` table with the declarations, the map of open handles,
and the directories. -/

def tableCatalogName : String := "_catalog"

def devicesTableName : String := "_devices"

def isSystemTable (name : String) : Bool := name = tableCatalogName || name = devicesTableName

/-- The directory of a table: `state` is a file with the magic of its backend, `topic` a complete
topic. -/
structure TableFiles (P : Type) where
  state : Option (State (PrimaryKey P) (RowCell P))
  topic : Option (TopicSpec String (Change (Event P) (RowCell P)))

structure OpenTable (P : Type) where
  config : TableConfig
  table : Table (PrimaryKey P) (RowCell P) (Event P)

/-- A system call goes through, or it fails and leaves something else at the path. -/
inductive FileOutcome (P : Type) where
  | done
  | failed (left : Option (TableFiles P))

/-- What a call reads off the wall clock, for `mint` and for the receipts, and how its system calls
end. -/
structure Surroundings (P : Type) where
  minted : Option Nat
  observed : Option Nat
  files : FileOutcome P

inductive CatalogError where
  | keyNotString
  | notBlob (name : String)
  | cannotDecode (name : String)
  deriving DecidableEq

/-- `panicked` stands for a call that does not return. -/
inductive TablesError where
  | systemTableReadOnly (name : String)
  | resourceBusy (name : String)
  | notFound (name : String)
  | permissionDenied
  | clockExhausted
  | corruptCatalog (error : CatalogError)
  | storage
  | panicked
  deriving DecidableEq

/-- Why a workspace does not open. -/
inductive OpenError (P : Type) where
  | devices
  | registry (error : RegistryError P)
  | clock
  | catalog
  | corruptCatalog (error : CatalogError)
  | table (name : String)
  deriving DecidableEq

/-- `tables` are the handles of application tables, `files` the directories of names without one; the
registry and the catalog are always open. -/
structure Tables (P : Type) where
  devices : Devices P
  registry : Table (PrimaryKey P) (RowCell P) (Event P)
  cache : RegistryCache P
  catalog : Table (PrimaryKey P) (RowCell P) (Event P)
  tables : List (String × OpenTable P)
  files : String → Option (TableFiles P)

/-- The directory of a workspace. -/
structure TablesDir (P : Type) where
  devices : TableFiles P
  catalog : TableFiles P
  tables : String → Option (TableFiles P)

section Files

variable {P : Type} [LinearOrder P] [Inhabited P]

/-- `State::open`: the file must have the magic of the backend; a skip list has no file. -/
def openState {K V : Type} (file : Option (State K V)) (config : StateConfig) : Option (State K V) :=
  match config with
  | .inMemory _ => some ⟨config.kind, ∅⟩
  | _ => file.filter fun s => s.kind = config.kind

/-- `Table::create` in a fresh directory. -/
def createTable (config : TableConfig) : OpenTable P :=
  ⟨config, Table.create config.state.kind config.maxBufferedRecords.toNat⟩

/-- `Table::open`. -/
def openTable (files : TableFiles P) (config : TableConfig) : Option (OpenTable P) := do
  let state ← openState files.state config.state
  let topic ← files.topic
  let loaded : Table (PrimaryKey P) (RowCell P) (Event P) :=
    ⟨state, ∅, config.maxBufferedRecords.toNat, 0, topic⟩
  match loaded.openTable rowOps config.maxBufferedRecords.toNat with
  | (table, true) => some ⟨config, table⟩
  | (_, false) => none

/-- What a table has on disk. -/
def filesOf (t : Table (PrimaryKey P) (RowCell P) (Event P)) : TableFiles P :=
  ⟨if t.state.isInMemory then none else some t.state, some t.topic⟩

variable (codec : Codec TableConfig)

/-- What a row of the catalog declares; `none` when it is deleted. -/
def readDeclaration (name : String) (cell : RowCell P) : Except CatalogError (Option TableConfig) :=
  match cell.value with
  | some (.scalar (.blob blob)) =>
    match codec.dec blob with
    | some config => .ok (some config)
    | none => .error (.cannotDecode name)
  | none => .ok none
  | some _ => .error (.notBlob name)

def decodeCatalogRow : PrimaryKey P × RowCell P → Except CatalogError (Option (String × TableConfig))
  | (.string name, cell) => (readDeclaration codec name cell).map fun config => config.map (name, ·)
  | _ => .error .keyNotString

/-- The event of `write_entry`. -/
def entryEvent (name : String) (config : TableConfig) (stamp : EventStamp P) : Event P :=
  ⟨.string name, [], .upsert (.scalar (.blob (codec.enc config))), stamp⟩

def deleteEvent (name : String) (stamp : EventStamp P) : Event P := ⟨.string name, [], .delete, stamp⟩

end Files

namespace Tables

variable {P : Type} [LinearOrder P] [Inhabited P] (codec : Codec TableConfig)

/-- The config that the handle of a name runs. -/
def running (s : Tables P) (name : String) : Option TableConfig :=
  if isSystemTable name then some systemTableConfig else (get s.tables name).map (·.config)

/-- The config in the live catalog row of a name. -/
def declared (s : Tables P) (name : String) : Except CatalogError (Option TableConfig) :=
  match s.catalog.get (.string name) with
  | none => .ok none
  | some cell => readDeclaration codec name cell

/-- What system calls leave at a path. -/
def leave (s : Tables P) (name : String) (left : Option (TableFiles P)) : Tables P :=
  {s with files := Function.update s.files name left}

/-- The catalog listener at an upsert; `none` where it panics. -/
def onUpsert (s : Tables P) (name : String) (blob : Bytes) (io : FileOutcome P) : Option (Tables P) :=
  -- a table that is open keeps its config
  if (s.running name).isSome then some s
  else
    match codec.dec blob with
    | none => some s
    | some config =>
      match s.files name with
      | some files =>
        match io with
        | .failed left => some (s.leave name left)
        | .done =>
          match openTable files config with
          | none => some s
          | some t => some {s with tables := SortedMap.insert s.tables name t}
      | none =>
        if config.fits then
          match io with
          | .failed left => some (s.leave name left)
          | .done => some {s with tables := SortedMap.insert s.tables name (createTable config)}
        else none

/-- The catalog listener at a delete. -/
def onDelete (s : Tables P) (name : String) (io : FileOutcome P) : Tables P :=
  match get s.tables name with
  | none => s
  | some _ =>
    {s with tables := erase s.tables name}.leave name
      (match io with
      | .done => none
      | .failed left => left)

/-- `TableCatalogListener::on_change`. -/
def onChange (s : Tables P) (event : Event P) (io : FileOutcome P) : Option (Tables P) :=
  match event.primaryKey, event.op with
  | .string name, .upsert (.scalar (.blob blob)) => s.onUpsert codec name blob io
  | .string name, .delete => some (s.onDelete name io)
  | _, _ => some s

/-- `insert_internal` on the catalog: the receipts listener runs before the catalog listener. -/
def insertInternal (s : Tables P) (event : Event P) (env : Surroundings P) :
    Tables P × Except TablesError Unit :=
  if s.cache.hasAccess s.devices.localPeerId event.stamp.id.peerId .admin then
    match s.catalog.insert rowOps event with
    | (catalog, .error) => ({s with catalog := catalog}, .error .storage)
    | (catalog, .ignored) => ({s with catalog := catalog}, .ok ())
    | (catalog, .applied change) =>
      let s := {s with catalog := catalog, devices := (s.devices.observe event.stamp env.observed).1}
      match s.onChange codec change.event env.files with
      | some s => (s, .ok ())
      | none => (s, .error .panicked)
  else (s, .error .permissionDenied)

/-- The end of `upsert` and `delete`: a stamp for the event, and the event for the catalog. -/
def publish (s : Tables P) (event : EventStamp P → Event P) (env : Surroundings P) :
    Tables P × Except TablesError Bool :=
  match s.devices.mint env.minted with
  | none => (s, .error .clockExhausted)
  | some (devices, stamp) =>
    match {s with devices := devices}.insertInternal codec (event stamp) env with
    | (s, .ok ()) => (s, .ok true)
    | (s, .error e) => (s, .error e)

def upsert (s : Tables P) (name : String) (config : TableConfig) (env : Surroundings P) :
    Tables P × Except TablesError Bool :=
  if isSystemTable name then (s, .error (.systemTableReadOnly name))
  else if s.cache.hasAccess s.devices.localPeerId s.devices.localPeerId .admin then
    match s.declared codec name with
    | .error e => (s, .error (.corruptCatalog e))
    | .ok current =>
      if current.any fun c => c.same config then (s, .ok false)
      else s.publish codec (entryEvent codec name config) env
  else (s, .error .permissionDenied)

/-- `held` tells whether someone else holds the handle. -/
def delete (s : Tables P) (name : String) (held : Bool) (env : Surroundings P) :
    Tables P × Except TablesError Bool :=
  if isSystemTable name then (s, .error (.resourceBusy name))
  else if s.cache.hasAccess s.devices.localPeerId s.devices.localPeerId .admin then
    match get s.tables name with
    | none => (s, .ok false)
    | some _ =>
      if held then (s, .error (.resourceBusy name))
      else s.publish codec (deleteEvent name) env
  else (s, .error .permissionDenied)

/-- `TableHandle::insert` through the handle of an application table; `insert_internal` repeats the
access check for the same peer. -/
def insertRow (s : Tables P) (name : String) (key : PrimaryKey P) (path : List (Crdt.Segment P)) (op : Op P)
    (env : Surroundings P) : Tables P × Except TablesError Bool :=
  match get s.tables name with
  | none => (s, .error (.notFound name))
  | some t =>
    if s.cache.hasAccess s.devices.localPeerId s.devices.localPeerId .contributor then
      match s.devices.mint env.minted with
      | none => (s, .error .clockExhausted)
      | some (devices, stamp) =>
        match t.table.insert rowOps ⟨key, path, op, stamp⟩ with
        | (table, .error) =>
          ({s with devices := devices, tables := SortedMap.insert s.tables name {t with table := table}},
            .error .storage)
        | (table, .ignored) =>
          ({s with devices := devices, tables := SortedMap.insert s.tables name {t with table := table}},
            .ok false)
        | (table, .applied _) =>
          ({s with
            devices := (devices.observe stamp env.observed).1
            tables := SortedMap.insert s.tables name {t with table := table}}, .ok true)
    else (s, .error .permissionDenied)

/-- `Tables::flush`; dropping the handles does the same. -/
def flush (s : Tables P) : Tables P :=
  {s with
    registry := (s.registry.exec s.registry.flush).1
    catalog := (s.catalog.exec s.catalog.flush).1
    tables := s.tables.map fun e => (e.1, {e.2 with table := (e.2.table.exec e.2.table.flush).1})}

def directory (s : Tables P) : TablesDir P :=
  { devices := filesOf s.registry
    catalog := filesOf s.catalog
    tables := fun name =>
      match get s.tables name with
      | some t => some (filesOf t.table)
      | none => s.files name }

end Tables

section Open

variable {P : Type} [LinearOrder P] [Inhabited P] (codec : Codec TableConfig)
  (records : Codec DeviceRecord) (enc : PrimaryKey P → Bytes)

/-- The loop of `open` over the declarations. -/
def openDeclared (files : String → Option (TableFiles P)) (tables : List (String × OpenTable P))
    (row : String × TableConfig) : Except (OpenError P) (List (String × OpenTable P)) :=
  if isSystemTable row.1 then .ok tables
  else
    match (files row.1).bind (openTable · row.2) with
    | none => .error (.table row.1)
    | some t => .ok (SortedMap.insert tables row.1 t)

/-- The declarations in the rows of the catalog. -/
def catalogRows (rows : List (PrimaryKey P × RowCell P)) :
    Except CatalogError (List (String × TableConfig)) :=
  (rows.mapM (decodeCatalogRow codec)).map fun decoded => decoded.filterMap id

/-- `Tables::open`; `peers` are the states in `_peers`. A directory without a row is not looked at. -/
def openTables (dir : TablesDir P) (peer : P) (peers : AList (fun _ : P => PeerState))
    (wall : Option Nat) : Except (OpenError P) (Tables P) :=
  match openTable dir.devices systemTableConfig with
  | none => .error .devices
  | some registry =>
    match loadRegistry records peer (registry.table.entries enc) with
    | .error e => .error (.registry e)
    | .ok cache =>
      match Devices.openFrom peer peers wall with
      | none => .error .clock
      | some devices =>
        match openTable dir.catalog systemTableConfig with
        | none => .error .catalog
        | some catalog =>
          match catalogRows codec (catalog.table.entries enc) with
          | .error e => .error (.corruptCatalog e)
          | .ok rows =>
            match rows.foldlM (openDeclared dir.tables) [] with
            | .error e => .error e
            | .ok tables => .ok ⟨devices, registry.table, cache, catalog.table, tables, dir.tables⟩

end Open

/-- A call on the tables, a flush, or a restart. -/
inductive TablesAction (P : Type) where
  | upsert (name : String) (config : TableConfig) (env : Surroundings P)
  | delete (name : String) (held : Bool) (env : Surroundings P)
  | insert (name : String) (key : PrimaryKey P) (path : List (Crdt.Segment P)) (op : Op P)
    (env : Surroundings P)
  | flush
  | reopen (peers : AList (fun _ : P => PeerState)) (wall : Option Nat)

namespace Tables

variable {P : Type} [LinearOrder P] [Inhabited P] (codec : Codec TableConfig)
  (records : Codec DeviceRecord) (enc : PrimaryKey P → Bytes)

/-- A step; a restart that fails leaves the directory as it was. -/
def step (s : Tables P) : TablesAction P → Tables P
  | .upsert name config env => (s.upsert codec name config env).1
  | .delete name held env => (s.delete codec name held env).1
  | .insert name key path op env => (s.insertRow name key path op env).1
  | .flush => s.flush
  | .reopen peers wall =>
    match openTables codec records enc s.directory s.devices.localPeerId peers wall with
    | .ok s' => s'
    | .error _ => s

def run (s : Tables P) : List (TablesAction P) → Tables P
  | [] => s
  | a :: as => (s.step codec records enc a).run as

/-- The workspace before the catalog lists its own tables. -/
def bootstrap (peer : P) (displayName : String) (wall : Nat) : Tables P :=
  let record : DeviceRecord := ⟨displayName, some .admin⟩
  let created := Devices.create peer wall
  { devices := created.1
    registry := ((createTable systemTableConfig).table.insert rowOps
      (upsertEvent records peer record created.2)).1
    cache := ⟨[(peer, record)], some .admin⟩
    catalog := (createTable systemTableConfig).table
    tables := []
    files := fun _ => none }

/-- `Tables::create`: the two rows of the system tables are published one after the other, each with
its own readings of the clock. -/
def create (peer : P) (displayName : String) (wall : Nat) (catalogEnv devicesEnv : Surroundings P) :
    Option (Tables P) :=
  match (bootstrap records peer displayName wall).publish codec
      (entryEvent codec tableCatalogName systemTableConfig) catalogEnv with
  | (s, .ok _) =>
    match s.publish codec (entryEvent codec devicesTableName systemTableConfig) devicesEnv with
    | (s, .ok _) => some s
    | (_, .error _) => none
  | (_, .error _) => none

/-- A step that keeps catalog, handles and directories together: a table that is open is declared
again with the config it runs only, and the system calls go through. -/
def Meets (s : Tables P) : TablesAction P → Prop
  | .upsert name config env =>
    isPathComponent name ∧
      match s.running name with
      | some current => current.same config ∨ current = config
      | none => config.fits ∧ env.files = .done
  | .delete _ _ env => env.files = .done
  | .insert name _ _ _ _ =>
    ∀ t, get s.tables name = some t →
      t.table.state.isInMemory = false ∧ 0 < t.config.maxBufferedRecords.toNat
  | .flush => True
  | .reopen peers wall => (Devices.openFrom s.devices.localPeerId peers wall).isSome

def RunMeets (s : Tables P) : List (TablesAction P) → Prop
  | [] => True
  | a :: as => s.Meets a ∧ (s.step codec records enc a).RunMeets as

end Tables

end ZenDB.Workspace
