import ZenDB.Workspace.States

namespace ZenDB.Workspace

open SortedMap

/-! Runs of calls on the states: when every declared state opens with what was last written to it. -/

/-- What the users of the states know: the types a state was last used with, and the records last
written to it. -/
abbrev Uses (T : Type) := String → Option (T × Records)

/-- The data last written; a state that was never used is empty. -/
def Uses.records {T : Type} (uses : Uses T) (name : String) : Records := ((uses name).map Prod.snd).getD []

namespace States

variable {T : Type} [DecidableEq T] (decodes : T → Bytes → Bool)

/-- What a call adds to the knowledge of the users. -/
def note (s : States T) (uses : Uses T) (a : StatesAction T) : Uses T :=
  match a, (s.step decodes a).2 with
  | .get name types _, .ok (.handle _) => Function.update uses name (some (types, uses.records name))
  | .write name records, .ok _ =>
    Function.update uses name ((SortedMap.get s.handles name).map fun h => (h.types, records))
  | _, _ => uses

def run (s : States T) (uses : Uses T) : List (StatesAction T) → States T × Uses T
  | [] => (s, uses)
  | a :: as => (s.step decodes a).1.run (s.note decodes uses a) as

/-- A call that keeps declarations and data together: a state is declared again with the same kind of
backend only, its creation goes through, no in-memory state with data is closed, and no state is
deleted that is declared and not held. -/
def meets (s : States T) : StatesAction T → Bool
  | .upsert name config io =>
    isSystemState name || (isPathComponent name &&
      match SortedMap.get s.catalog name with
      | some existing => existing.magic = config.magic
      | none => config.magic = none || (config.fits && io = .done))
  | .get name _ _ => !isSystemState name
  | .write name _ => !isSystemState name
  | .close name held =>
    !isSystemState name && (SortedMap.get s.handles name).all fun h =>
      held || h.config.magic.isSome || h.records.isEmpty
  | .delete name held =>
    isSystemState name || (SortedMap.get s.catalog name).isNone ||
      ((SortedMap.get s.handles name).isSome && held)

def runMeets (s : States T) : List (StatesAction T) → Bool
  | [] => true
  | a :: as => s.meets a && (s.step decodes a).1.runMeets as

/-- What holds between two calls. -/
structure Lives (s : States T) (uses : Uses T) : Prop where
  sorted : Sorted (· < ·) s.handles
  opened : ∀ name h, SortedMap.get s.handles name = some h → uses name = some (h.types, h.records) ∧
    ∃ config, SortedMap.get s.catalog name = some config ∧ config.magic = h.config.magic
  stored : ∀ name config magic, isSystemState name = false → SortedMap.get s.catalog name = some config →
    config.magic = some magic → s.files name = some ⟨magic, uses.records name⟩ ∧
      ∀ use, uses name = some use → readsKeys decodes config use.1 use.2
  memory : ∀ name config, SortedMap.get s.catalog name = some config → config.magic = none →
    SortedMap.get s.handles name = none → uses.records name = []
  unused : ∀ name, SortedMap.get s.catalog name = none → uses name = none

end States

section

variable {T : Type} {decodes : T → Bytes → Bool}

theorem readsKeys_congr {a b : StateConfig} (h : a.magic = b.magic) (types : T) (records : Records) :
    readsKeys decodes a types records = readsKeys decodes b types records := by
  cases a <;> cases b <;> simp_all [StateConfig.magic, readsKeys]

theorem records_update (uses : Uses T) (name other : String) (use : Option (T × Records)) :
    Uses.records (Function.update uses name use) other =
      if other = name then (use.map Prod.snd).getD [] else uses.records other := by
  rw [Uses.records, Uses.records, Function.update_apply]
  split_ifs <;> rfl

theorem openStateFile_some {types : T} {file : Option StateFile} {config : StateConfig} {records : Records}
    (h : openStateFile decodes types file config = some records) :
    (config.magic = none ∧ records = []) ∨
      ∃ magic, config.magic = some magic ∧ file = some ⟨magic, records⟩ ∧
        readsKeys decodes config types records = true := by
  rw [openStateFile] at h
  cases hmagic : config.magic with
  | none =>
    rw [hmagic] at h
    cases h
    exact Or.inl ⟨rfl, rfl⟩
  | some magic =>
    rw [hmagic] at h
    cases file with
    | none => cases h
    | some file =>
      dsimp only at h
      split_ifs at h with hfile
      cases h
      exact Or.inr ⟨magic, rfl, by rw [← hfile.1], hfile.2⟩

end

namespace States

variable {T : Type} [DecidableEq T] {decodes : T → Bytes → Bool} {s : States T} {uses : Uses T}

omit [DecidableEq T] in
theorem Lives.unused_of_insert (h : s.Lives decodes uses) {name : String} {config : StateConfig}
    (other : String) (hnone : SortedMap.get (SortedMap.insert s.catalog name config) other = none) :
    uses other = none := by
  rw [get_insert] at hnone
  split_ifs at hnone
  exact h.unused other hnone

omit [DecidableEq T] in
/-- A declaration is written; the files and the handles of other states stay. -/
theorem Lives.declare (h : s.Lives decodes uses) {name : String} {existing config : StateConfig}
    (hexisting : SortedMap.get s.catalog name = some existing) (hmagic : existing.magic = config.magic) :
    ({s with catalog := SortedMap.insert s.catalog name config} : States T).Lives decodes uses := by
  refine ⟨h.sorted, ?_, ?_, ?_, ?_⟩
  · intro other handle hhandle
    obtain ⟨huses, old, hold, hkind⟩ := h.opened other handle hhandle
    refine ⟨huses, ?_⟩
    dsimp only
    rw [get_insert]
    split_ifs with hother
    · subst hother
      rw [hexisting] at hold
      cases hold
      exact ⟨config, rfl, hmagic.symm.trans hkind⟩
    · exact ⟨old, hold, hkind⟩
  · intro other config' magic hsystem hconfig hmagic'
    dsimp only at hconfig
    rw [get_insert] at hconfig
    split_ifs at hconfig with hother
    · subst hother
      cases hconfig
      obtain ⟨hfile, hkeys⟩ := h.stored other existing magic hsystem hexisting (hmagic.trans hmagic')
      refine ⟨hfile, fun use huse => ?_⟩
      rw [← readsKeys_congr hmagic]
      exact hkeys use huse
    · exact h.stored other config' magic hsystem hconfig hmagic'
  · intro other config' hconfig hnone hclosed
    dsimp only at hconfig
    rw [get_insert] at hconfig
    split_ifs at hconfig with hother
    · subst hother
      cases hconfig
      exact h.memory other existing hexisting (hmagic.trans hnone) hclosed
    · exact h.memory other config' hconfig hnone hclosed
  · exact fun other => h.unused_of_insert other

omit [DecidableEq T] in
/-- A new declaration, with an empty file unless the state lives in memory. -/
theorem Lives.createState (h : s.Lives decodes uses) {name : String} {config : StateConfig}
    (hnew : SortedMap.get s.catalog name = none) {files : String → Option StateFile}
    (hothers : ∀ other, other ≠ name → files other = s.files other)
    (hfile : ∀ magic, config.magic = some magic → files name = some ⟨magic, []⟩) :
    ({s with catalog := SortedMap.insert s.catalog name config, files := files} : States T).Lives decodes
      uses := by
  have hrecords : uses.records name = [] := by rw [Uses.records, h.unused name hnew]; rfl
  refine ⟨h.sorted, ?_, ?_, ?_, fun other => h.unused_of_insert other⟩
  · intro other handle hhandle
    obtain ⟨huses, old, hold, hkind⟩ := h.opened other handle hhandle
    have hother : other ≠ name := by
      rintro rfl
      rw [hnew] at hold
      cases hold
    refine ⟨huses, old, ?_, hkind⟩
    dsimp only
    rw [get_insert, if_neg hother]
    exact hold
  · intro other config' magic hsystem hconfig hmagic
    dsimp only at hconfig ⊢
    rw [get_insert] at hconfig
    split_ifs at hconfig with hother
    · subst hother
      cases hconfig
      rw [hrecords]
      refine ⟨hfile magic hmagic, fun use huse => ?_⟩
      rw [h.unused other hnew] at huse
      cases huse
    · rw [hothers other hother]
      exact h.stored other config' magic hsystem hconfig hmagic
  · intro other config' hconfig hnone hhandle
    dsimp only at hconfig
    rw [get_insert] at hconfig
    split_ifs at hconfig with hother
    · subst hother
      exact hrecords
    · exact h.memory other config' hconfig hnone hhandle

omit [DecidableEq T] in
/-- A handle comes to hold records, and the file of a durable backend holds them too. -/
theorem Lives.handle (h : s.Lives decodes uses) {name : String} {config : StateConfig} (handle : OpenState T)
    (hconfig : SortedMap.get s.catalog name = some config) (hkind : config.magic = handle.config.magic)
    {files : String → Option StateFile} (hothers : ∀ other, other ≠ name → files other = s.files other)
    (hfile : ∀ magic, config.magic = some magic → files name = some ⟨magic, handle.records⟩ ∧
      readsKeys decodes config handle.types handle.records = true) :
    ({s with handles := SortedMap.insert s.handles name handle, files := files} : States T).Lives decodes
      (Function.update uses name (some (handle.types, handle.records))) := by
  refine ⟨sorted_insert h.sorted _ _, ?_, ?_, ?_, ?_⟩
  · intro other handle' hhandle
    dsimp only at hhandle
    rw [get_insert] at hhandle
    split_ifs at hhandle with hother
    · subst hother
      cases hhandle
      exact ⟨Function.update_self _ _ _, config, hconfig, hkind⟩
    · rw [Function.update_of_ne hother]
      exact h.opened other handle' hhandle
  · intro other config' magic hsystem hconfig' hmagic
    dsimp only at hconfig' ⊢
    rw [records_update]
    split_ifs with hother
    · subst hother
      rw [hconfig] at hconfig'
      cases hconfig'
      obtain ⟨hrecords, hkeys⟩ := hfile magic hmagic
      refine ⟨hrecords, fun use huse => ?_⟩
      rw [Function.update_self] at huse
      cases huse
      exact hkeys
    · rw [hothers other hother, Function.update_of_ne hother]
      exact h.stored other config' magic hsystem hconfig' hmagic
  · intro other config' hconfig' hnone hclosed
    dsimp only at hclosed
    rw [get_insert] at hclosed
    split_ifs at hclosed with hother
    rw [records_update, if_neg hother]
    exact h.memory other config' hconfig' hnone hclosed
  · intro other hnone
    have hother : other ≠ name := by
      rintro rfl
      rw [hconfig] at hnone
      cases hnone
    rw [Function.update_of_ne hother]
    exact h.unused other hnone

omit [DecidableEq T] in
/-- A handle is closed that has a file or no records. -/
theorem Lives.closed (h : s.Lives decodes uses) {name : String} {handle : OpenState T}
    (hhandle : SortedMap.get s.handles name = some handle)
    (hkept : handle.config.magic = none → handle.records = []) :
    ({s with handles := erase s.handles name} : States T).Lives decodes uses := by
  obtain ⟨huses, config, hconfig, hkind⟩ := h.opened name handle hhandle
  have hget : ∀ other, SortedMap.get (erase s.handles name) other =
      if other = name then none else SortedMap.get s.handles other := get_erase h.sorted name
  refine ⟨sorted_erase h.sorted name, ?_, h.stored, ?_, h.unused⟩
  · intro other handle' hother
    dsimp only at hother
    rw [hget] at hother
    split_ifs at hother
    exact h.opened other handle' hother
  · intro other config' hconfig' hnone hclosed
    dsimp only at hclosed hconfig'
    rw [hget] at hclosed
    by_cases hother : other = name
    · subst hother
      rw [hconfig] at hconfig'
      cases hconfig'
      rw [Uses.records, huses]
      exact hkept (hkind.symm.trans hnone)
    · rw [if_neg hother] at hclosed
      exact h.memory other config' hconfig' hnone hclosed

omit [DecidableEq T] in
/-- What a call of `upsert` does that meets the condition. -/
theorem upsert_cases {name : String} {config : StateConfig} {io : StateOutcome}
    (hmeets : s.meets (.upsert name config io) = true) :
    s.upsert name config io = (s, .error (.systemStateReadOnly name)) ∨
    s.upsert name config io = (s, .ok (.flag false)) ∨
    (∃ existing, SortedMap.get s.catalog name = some existing ∧ existing.magic = config.magic ∧
      s.upsert name config io =
        ({s with catalog := SortedMap.insert s.catalog name config}, .ok (.flag true))) ∨
    SortedMap.get s.catalog name = none ∧ ∃ files : String → Option StateFile,
      (∀ other, other ≠ name → files other = s.files other) ∧
      (∀ magic, config.magic = some magic → files name = some ⟨magic, []⟩) ∧
      s.upsert name config io =
        ({s with catalog := SortedMap.insert s.catalog name config, files := files}, .ok (.flag true)) := by
  rw [meets] at hmeets
  rw [States.upsert]
  cases hsystem : isSystemState name with
  | true => exact Or.inl rfl
  | false =>
    rw [hsystem, Bool.false_or, Bool.and_eq_true] at hmeets
    obtain ⟨-, hmeets⟩ := hmeets
    rw [if_neg (by simp)]
    right
    cases hcatalog : SortedMap.get s.catalog name with
    | some existing =>
      rw [hcatalog] at hmeets
      have hmagic : existing.magic = config.magic := by simpa using hmeets
      dsimp only
      split_ifs
      · exact Or.inl rfl
      · exact Or.inr (Or.inl ⟨existing, rfl, hmagic, rfl⟩)
    | none =>
      rw [hcatalog] at hmeets
      refine Or.inr (Or.inr ⟨rfl, ?_⟩)
      dsimp only
      cases hmagic : config.magic with
      | none => exact ⟨s.files, fun _ _ => rfl, (fun magic hm => by cases hm), rfl⟩
      | some magic =>
        rw [hmagic] at hmeets
        obtain ⟨hfits, rfl⟩ : config.fits = true ∧ io = .done := by simpa using hmeets
        refine ⟨Function.update s.files name (some ⟨magic, []⟩),
          fun other hother => Function.update_of_ne hother _ _, ?_, ?_⟩
        · intro magic' hmagic'
          cases hmagic'
          exact Function.update_self _ _ _
        · simp [hfits]

theorem Lives.upsert (h : s.Lives decodes uses) {name : String} {config : StateConfig} {io : StateOutcome}
    (hmeets : s.meets (.upsert name config io) = true) :
    (s.step decodes (.upsert name config io)).1.Lives decodes
      (s.note decodes uses (.upsert name config io)) := by
  rcases upsert_cases hmeets with heq | heq | ⟨existing, hexisting, hmagic, heq⟩ |
    ⟨hnone, files, hothers, hfile, heq⟩
  · simpa only [note, step, heq] using h
  · simpa only [note, step, heq] using h
  · simpa only [note, step, heq] using h.declare hexisting hmagic
  · simpa only [note, step, heq] using h.createState hnone hothers hfile

/-- What a call of `get` does. -/
theorem get_cases (decodes : T → Bytes → Bool) (s : States T) (name : String) (types : T)
    (io : StateOutcome) :
    (∃ e, s.get decodes name types io = (s, .error e)) ∨
    (∃ handle, SortedMap.get s.handles name = some handle ∧ handle.types = types ∧
      s.get decodes name types io = (s, .ok (.handle handle.records))) ∨
    ∃ saved records, SortedMap.get s.handles name = none ∧ SortedMap.get s.catalog name = some saved ∧
      openStateFile decodes types (s.files name) saved = some records ∧
      s.get decodes name types io =
        ({s with handles := SortedMap.insert s.handles name ⟨types, saved, records⟩},
          .ok (.handle records)) := by
  rw [States.get]
  cases hhandle : SortedMap.get s.handles name with
  | some handle =>
    dsimp only
    split_ifs with htypes
    · exact Or.inr (Or.inl ⟨handle, rfl, htypes, rfl⟩)
    · exact Or.inl ⟨_, rfl⟩
  | none =>
    cases hcatalog : SortedMap.get s.catalog name with
    | none => exact Or.inl ⟨_, rfl⟩
    | some saved =>
      cases io with
      | failed left => exact Or.inl ⟨_, rfl⟩
      | done =>
        dsimp only
        cases hopen : openStateFile decodes types (s.files name) saved with
        | none => exact Or.inl ⟨_, rfl⟩
        | some records => exact Or.inr (Or.inr ⟨saved, records, rfl, rfl, hopen, rfl⟩)

theorem Lives.get (h : s.Lives decodes uses) {name : String} (hsystem : isSystemState name = false)
    (types : T) (io : StateOutcome) :
    (s.step decodes (.get name types io)).1.Lives decodes (s.note decodes uses (.get name types io)) := by
  rcases get_cases decodes s name types io with ⟨e, heq⟩ | ⟨handle, hhandle, htypes, heq⟩ |
    ⟨saved, records, hclosed, hsaved, hopen, heq⟩
  · simpa only [note, step, heq] using h
  · -- the handle is open: nothing changes, and nothing new is known
    have huses := (h.opened name handle hhandle).1
    have hrecords : uses.records name = handle.records := by rw [Uses.records, huses]; rfl
    have hsame : Function.update uses name (some (types, uses.records name)) = uses := by
      rw [hrecords, ← htypes, ← huses, Function.update_eq_self]
    simpa only [note, step, heq, hsame] using h
  · have hrecords : uses.records name = records := by
      rcases openStateFile_some hopen with ⟨hnone, rfl⟩ | ⟨magic, hmagic, hfile, -⟩
      · exact h.memory name saved hsaved hnone hclosed
      · have hstored := (h.stored name saved magic hsystem hsaved hmagic).1
        rw [hfile] at hstored
        cases hstored
        rfl
    have hlives := h.handle ⟨types, saved, records⟩ hsaved rfl (fun other _ => rfl) (by
      intro magic hmagic
      rcases openStateFile_some hopen with ⟨hnone, -⟩ | ⟨magic', hmagic', hfile, hkeys⟩
      · rw [hnone] at hmagic
        cases hmagic
      · rw [hmagic'] at hmagic
        cases hmagic
        exact ⟨hfile, hkeys⟩)
    simpa only [note, step, heq, hrecords] using hlives

omit [DecidableEq T] in
/-- What a write through a handle does. -/
theorem write_cases (decodes : T → Bytes → Bool) (s : States T) (name : String) (records : Records) :
    (∃ e, s.write decodes name records = (s, .error e)) ∨
    ∃ handle, SortedMap.get s.handles name = some handle ∧
      (∀ r ∈ records, decodes handle.types r.1 = true ∨ ∃ old ∈ handle.records, old.1 = r.1) ∧
      ∃ files : String → Option StateFile, (∀ other, other ≠ name → files other = s.files other) ∧
        (∀ magic, handle.config.magic = some magic → files name = some ⟨magic, records⟩) ∧
        s.write decodes name records =
          ({s with
            handles := SortedMap.insert s.handles name {handle with records := records}
            files := files}, .ok (.flag true)) := by
  rw [States.write]
  cases hhandle : SortedMap.get s.handles name with
  | none => exact Or.inl ⟨_, rfl⟩
  | some handle =>
    dsimp only
    split_ifs with hkeys
    · refine Or.inr ⟨handle, rfl, ?_, ?_⟩
      · intro r hr
        have hkey := List.all_eq_true.mp hkeys r hr
        simpa using hkey
      · cases hmagic : handle.config.magic with
        | none => exact ⟨s.files, fun _ _ => rfl, (fun magic hm => by cases hm), rfl⟩
        | some magic =>
          refine ⟨Function.update s.files name (some ⟨magic, records⟩),
            fun other hother => Function.update_of_ne hother _ _, ?_, rfl⟩
          intro magic' hmagic'
          cases hmagic'
          exact Function.update_self _ _ _
    · exact Or.inl ⟨_, rfl⟩

theorem Lives.write (h : s.Lives decodes uses) {name : String} (hsystem : isSystemState name = false)
    (records : Records) :
    (s.step decodes (.write name records)).1.Lives decodes (s.note decodes uses (.write name records)) := by
  rcases write_cases decodes s name records with ⟨e, heq⟩ |
    ⟨handle, hhandle, hkeys, files, hothers, hfile, heq⟩
  · simpa only [note, step, heq] using h
  · obtain ⟨huses, config, hconfig, hkind⟩ := h.opened name handle hhandle
    have hlives := h.handle {handle with records := records} hconfig hkind hothers (by
      intro magic hmagic
      refine ⟨hfile magic (hkind.symm.trans hmagic), ?_⟩
      cases config with
      | unordered c =>
        -- the old keys were decoded when the key directory was opened
        have hold := (h.stored name _ magic hsystem hconfig hmagic).2 _ huses
        rw [readsKeys, List.all_eq_true] at hold ⊢
        intro r hr
        rcases hkeys r hr with hnew | ⟨old, hmem, hsame⟩
        · exact hnew
        · rw [← hsame]
          exact hold old hmem
      | ordered c => rfl
      | inMemory c => rfl)
    simpa only [note, step, heq, hhandle, Option.map_some] using hlives

theorem Lives.close (h : s.Lives decodes uses) {name : String} {held : Bool}
    (hmeets : s.meets (.close name held) = true) :
    (s.step decodes (.close name held)).1.Lives decodes (s.note decodes uses (.close name held)) := by
  cases hhandle : SortedMap.get s.handles name with
  | none => simpa only [note, step, States.close, hhandle] using h
  | some handle =>
    cases held with
    | true => simpa [note, step, States.close, hhandle] using h
    | false =>
      have hkept : handle.config.magic = none → handle.records = [] := by
        intro hnone
        rw [meets, hhandle, Bool.and_eq_true] at hmeets
        simpa [hnone] using hmeets.2
      simpa [note, step, States.close, hhandle] using h.closed hhandle hkept

omit [DecidableEq T] in
/-- What a call of `delete` does that meets the condition. -/
theorem Lives.delete_cases (h : s.Lives decodes uses) {name : String} {held : Bool}
    (hmeets : s.meets (.delete name held) = true) :
    (∃ e, s.delete name held = (s, .error e)) ∨
    SortedMap.get s.catalog name = none ∧ SortedMap.get s.handles name = none ∧
      s.delete name held = ({s with handles := erase s.handles name}, .ok (.flag false)) := by
  rw [meets, Bool.or_eq_true, Bool.or_eq_true] at hmeets
  rw [States.delete]
  split_ifs with hsystem hbusy
  · exact Or.inl ⟨_, rfl⟩
  · exact Or.inl ⟨_, rfl⟩
  · have hnone : SortedMap.get s.catalog name = none := by
      rcases hmeets with (hsys | hnone) | hheld
      · exact absurd hsys hsystem
      · exact Option.isNone_iff_eq_none.mp hnone
      · exact absurd hheld hbusy
    refine Or.inr ⟨hnone, ?_, by simp [hnone]⟩
    cases hhandle : SortedMap.get s.handles name with
    | none => rfl
    | some handle =>
      obtain ⟨-, config, hconfig, -⟩ := h.opened name handle hhandle
      rw [hnone] at hconfig
      cases hconfig

theorem Lives.delete (h : s.Lives decodes uses) {name : String} {held : Bool}
    (hmeets : s.meets (.delete name held) = true) :
    (s.step decodes (.delete name held)).1.Lives decodes (s.note decodes uses (.delete name held)) := by
  rcases h.delete_cases hmeets with ⟨e, heq⟩ | ⟨hnone, hclosed, heq⟩
  · simpa only [note, step, heq] using h
  · have hget : ∀ other, SortedMap.get (erase s.handles name) other = SortedMap.get s.handles other := by
      intro other
      rw [get_erase h.sorted]
      split_ifs with hother
      · rw [hother, hclosed]
      · rfl
    simp only [note, step, heq]
    refine ⟨sorted_erase h.sorted name, ?_, h.stored, ?_, h.unused⟩
    · intro other handle hhandle
      exact h.opened other handle ((hget other).symm.trans hhandle)
    · intro other config hconfig hmemory hhandle
      exact h.memory other config hconfig hmemory ((hget other).symm.trans hhandle)

theorem Lives.step (h : s.Lives decodes uses) {a : StatesAction T} (hmeets : s.meets a = true) :
    (s.step decodes a).1.Lives decodes (s.note decodes uses a) := by
  cases a with
  | upsert name config io => exact h.upsert hmeets
  | get name types io => exact h.get (by simpa [meets] using hmeets) types io
  | write name records => exact h.write (by simpa [meets] using hmeets) records
  | close name held => exact h.close hmeets
  | delete name held => exact h.delete hmeets

theorem Lives.run (h : s.Lives decodes uses) (actions : List (StatesAction T))
    (hmeets : s.runMeets decodes actions = true) :
    (s.run decodes uses actions).1.Lives decodes (s.run decodes uses actions).2 := by
  induction actions generalizing s uses with
  | nil => exact h
  | cons a actions ih =>
    obtain ⟨hstep, hrest⟩ := (Bool.and_eq_true _ _).mp hmeets
    exact ih (h.step hstep) hrest

/-- What was written to an in-memory state is gone once its handle is closed. -/
theorem close_forgets (h : s.Lives decodes uses) {name : String} {handle : OpenState T}
    (hhandle : SortedMap.get s.handles name = some handle) (hmemory : handle.config.magic = none)
    (types : T) :
    ((s.close name false).1.get decodes name types .done).2 = .ok (.handle []) := by
  obtain ⟨-, config, hconfig, hkind⟩ := h.opened name handle hhandle
  have hclosed : SortedMap.get (erase s.handles name) name = none := by
    rw [get_erase h.sorted, if_pos rfl]
  have hopen : openStateFile decodes types (s.files name) config = some [] := by
    rw [openStateFile, hkind, hmemory]
  simp [States.close, hhandle, States.get, hclosed, hconfig, hopen]

end States

end ZenDB.Workspace
