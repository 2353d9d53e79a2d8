import Mathlib.Data.String.Basic
import ZenDB.Lib.SortedMap
import ZenDB.Workspace.Config

namespace ZenDB.Workspace

open SortedMap

/-! The states of a workspace: the declarations in `_catalog`, the map of open handles, and the files.
`T` stands for the pairs of a key type and a value type. -/

def stateCatalogName : String := "_catalog"

def peersStateName : String := "_peers"

def isSystemState (name : String) : Bool := name = stateCatalogName || name = peersStateName

/-- The records of a backend, by the bytes of their keys and values; a tombstone has no value. -/
abbrev Records := List (Bytes × Option Bytes)

/-- The backend that a file belongs to, by its magic. -/
inductive Magic where
  | bPlusTree
  | keyDir
  deriving DecidableEq, Repr

structure StateFile where
  magic : Magic
  records : Records
  deriving DecidableEq

/-- An open `StateHandle<K, V>`. -/
structure OpenState (T : Type) where
  types : T
  config : StateConfig
  records : Records
  deriving DecidableEq

/-- A system call goes through, or it fails and leaves something else at the path. -/
inductive StateOutcome where
  | done
  | failed (left : Option StateFile)
  deriving DecidableEq

/-- `panicked` stands for a call that does not return. -/
inductive StatesError where
  | systemStateReadOnly (name : String)
  | resourceBusy (name : String)
  | typeMismatch (name : String)
  | notFound (name : String)
  | storage
  | panicked
  deriving DecidableEq

/-- What a call returns: a flag, or a handle with what it reads. -/
inductive StatesAnswer where
  | flag (changed : Bool)
  | handle (records : Records)
  deriving DecidableEq

/-- A file without a magic counts as none. -/
structure States (T : Type) where
  catalog : List (String × StateConfig)
  handles : List (String × OpenState T)
  files : String → Option StateFile

/-- A call on the states, or a write through a handle. `held` tells whether someone else holds the
handle. -/
inductive StatesAction (T : Type) where
  | upsert (name : String) (config : StateConfig) (io : StateOutcome)
  | get (name : String) (types : T) (io : StateOutcome)
  | write (name : String) (records : Records)
  | close (name : String) (held : Bool)
  | delete (name : String) (held : Bool)

/-- The magic that files of a backend start with; an in-memory state has no file. -/
def StateConfig.magic : StateConfig → Option Magic
  | .ordered _ => some .bPlusTree
  | .unordered _ => some .keyDir
  | .inMemory _ => none

/-- What a creation that panics leaves at the path: a key directory has its magic by then if the file has
the four bytes for it. -/
def StateConfig.leftByPanic : StateConfig → Option StateFile
  | .unordered c => if 4 ≤ c.initialCapacity.toNat then some ⟨.keyDir, []⟩ else none
  | _ => none

section

variable {T : Type} (decodes : T → Bytes → Bool)

/-- A key directory decodes the keys of all its records when it is opened. -/
def readsKeys (config : StateConfig) (types : T) (records : Records) : Bool :=
  match config with
  | .unordered _ => records.all fun r => decodes types r.1
  | _ => true

/-- `State::<K, V>::open`. -/
def openStateFile (types : T) (file : Option StateFile) (config : StateConfig) : Option Records :=
  match config.magic with
  | none => some []
  | some magic =>
    match file with
    | none => none
    | some file =>
      if file.magic = magic ∧ readsKeys decodes config types file.records then some file.records
      else none

end

namespace States

variable {T : Type} [DecidableEq T] (decodes : T → Bytes → Bool)

def create : States T :=
  { catalog := [(stateCatalogName, systemStateConfig), (peersStateName, systemStateConfig)]
    handles := []
    files := fun name => if isSystemState name then some ⟨.keyDir, []⟩ else none }

def upsert (s : States T) (name : String) (config : StateConfig) (io : StateOutcome) :
    States T × Except StatesError StatesAnswer :=
  if isSystemState name then (s, .error (.systemStateReadOnly name))
  else
    match SortedMap.get s.catalog name with
    | some existing =>
      if existing.same config then (s, .ok (.flag false))
      else ({s with catalog := SortedMap.insert s.catalog name config}, .ok (.flag true))
    | none =>
      -- the declaration comes first, and stays when the creation fails
      let s := {s with catalog := SortedMap.insert s.catalog name config}
      match config.magic with
      | none => (s, .ok (.flag true))
      | some magic =>
        match io with
        | .failed left => ({s with files := Function.update s.files name left}, .error .storage)
        | .done =>
          if config.fits then
            ({s with files := Function.update s.files name (some ⟨magic, []⟩)}, .ok (.flag true))
          else ({s with files := Function.update s.files name config.leftByPanic}, .error .panicked)

def get (s : States T) (name : String) (types : T) (io : StateOutcome) :
    States T × Except StatesError StatesAnswer :=
  match SortedMap.get s.handles name with
  | some handle =>
    if handle.types = types then (s, .ok (.handle handle.records)) else (s, .error (.typeMismatch name))
  | none =>
    match SortedMap.get s.catalog name with
    | none => (s, .error (.notFound name))
    | some saved =>
      match io with
      | .failed _ => (s, .error .storage)
      | .done =>
        match openStateFile decodes types (s.files name) saved with
        | none => (s, .error .storage)
        | some records =>
          ({s with handles := SortedMap.insert s.handles name ⟨types, saved, records⟩},
            .ok (.handle records))

/-- Writes through an open handle: every new key is an encoding of its key type. The file of a durable
backend is mapped into memory, so that it changes at once. -/
def write (s : States T) (name : String) (records : Records) :
    States T × Except StatesError StatesAnswer :=
  match SortedMap.get s.handles name with
  | none => (s, .error (.notFound name))
  | some handle =>
    if records.all fun r => decodes handle.types r.1 || handle.records.any fun old => old.1 = r.1 then
      let s := {s with handles := SortedMap.insert s.handles name {handle with records := records}}
      match handle.config.magic with
      | none => (s, .ok (.flag true))
      | some magic =>
        ({s with files := Function.update s.files name (some ⟨magic, records⟩)}, .ok (.flag true))
    else (s, .error .storage)

def close (s : States T) (name : String) (held : Bool) : States T × Except StatesError StatesAnswer :=
  match SortedMap.get s.handles name with
  | none => (s, .ok (.flag false))
  | some _ =>
    if held then (s, .ok (.flag false))
    else ({s with handles := erase s.handles name}, .ok (.flag true))

/-- `remove_dir_all` refuses the file of a state, and a path that does not exist. -/
def delete (s : States T) (name : String) (held : Bool) : States T × Except StatesError StatesAnswer :=
  if isSystemState name then (s, .error (.systemStateReadOnly name))
  else if (SortedMap.get s.handles name).isSome && held then (s, .error (.resourceBusy name))
  else
    let s := {s with handles := erase s.handles name}
    if (SortedMap.get s.catalog name).isSome then
      ({s with catalog := erase s.catalog name}, .error .storage)
    else (s, .ok (.flag false))

def step (s : States T) : StatesAction T → States T × Except StatesError StatesAnswer
  | .upsert name config io => s.upsert name config io
  | .get name types io => s.get decodes name types io
  | .write name records => s.write decodes name records
  | .close name held => s.close name held
  | .delete name held => s.delete name held

end States

end ZenDB.Workspace
