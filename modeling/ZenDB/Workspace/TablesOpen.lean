import ZenDB.Table.Settled
import ZenDB.Workspace.Tables

namespace ZenDB.Workspace

open Crdt SortedMap

/-! What `Table::open` and `Tables::open` make of the files that open tables and their catalog have. -/

section Files

variable {P : Type} [LinearOrder P] [Inhabited P]

/-- An open table runs its config, and a restart would find what it reads. -/
structure OpenTable.Kept (t : OpenTable P) : Prop where
  kind : t.table.state.kind = t.config.state.kind
  buffer : t.table.maxBuffered = t.config.maxBufferedRecords.toNat
  rows : t.table.Settled rowOps ∨ t.table.Blank

theorem kept_createTable (config : TableConfig) : (createTable config : OpenTable P).Kept := by
  refine ⟨rfl, rfl, ?_⟩
  obtain ⟨state, buffer, topic⟩ := config
  cases state with
  | ordered c => exact Or.inl (Table.settled_create rowOps _ (Or.inl rfl) _)
  | unordered c => exact Or.inl (Table.settled_create rowOps _ (Or.inr rfl) _)
  | inMemory c => exact Or.inr (Table.blank_create _ _)

theorem isInMemory_iff {K V : Type} {s : State K V} {config : StateConfig} (h : s.kind = config.kind) :
    s.isInMemory = true ↔ ∃ c, config = .inMemory c := by
  rw [State.isInMemory, h]
  cases config <;> simp [StateConfig.kind]

omit [LinearOrder P] [Inhabited P] in
/-- The state file of a table opens with the config that the table runs. -/
theorem openState_filesOf {t : Table (PrimaryKey P) (RowCell P) (Event P)} {config : StateConfig}
    (hkind : t.state.kind = config.kind) :
    openState (filesOf t).state config = some (if t.state.isInMemory then ⟨t.state.kind, ∅⟩ else t.state) := by
  cases config with
  | inMemory c =>
    have hmemory : t.state.isInMemory = true := (isInMemory_iff hkind).mpr ⟨c, rfl⟩
    rw [openState, if_pos hmemory, hkind]
  | ordered c =>
    have hdisk : t.state.isInMemory = false := by
      rw [State.isInMemory, hkind]
      rfl
    simp [openState, filesOf, hdisk, hkind]
  | unordered c =>
    have hdisk : t.state.isInMemory = false := by
      rw [State.isInMemory, hkind]
      rfl
    simp [openState, filesOf, hdisk, hkind]

/-- The files of a table open as the table after a restart. -/
theorem openTable_filesOf {t t' : Table (PrimaryKey P) (RowCell P) (Event P)} {config : TableConfig}
    (hkind : t.state.kind = config.state.kind)
    (hopen : t.openTable rowOps config.maxBufferedRecords.toNat = (t', true)) :
    openTable (filesOf t) config = some ⟨config, t'⟩ := by
  have hload : ∀ buffer, (⟨if t.state.isInMemory then ⟨t.state.kind, ∅⟩ else t.state, ∅, buffer, 0, t.topic⟩ :
      Table (PrimaryKey P) (RowCell P) (Event P)).openTable rowOps buffer = t.openTable rowOps buffer := by
    intro buffer
    have hstate : (if t.state.isInMemory then ⟨t.state.kind, ∅⟩ else t.state :
        State (PrimaryKey P) (RowCell P)).reopen = t.state.reopen := by
      split_ifs with hmemory
      · rw [State.reopen, State.reopen, if_pos hmemory]
        split_ifs <;> rfl
      · rfl
    simp only [Table.openTable, Table.load, hstate]
  have htopic : (filesOf t).topic = some t.topic := rfl
  rw [openTable, openState_filesOf hkind, htopic]
  simp only [Option.bind_eq_bind, Option.bind_some, hload, hopen]

/-- A table that is kept opens again with the same rows. -/
theorem OpenTable.Kept.reopen {t : OpenTable P} (h : t.Kept) :
    ∃ t', openTable (filesOf t.table) t.config = some t' ∧ t'.Kept ∧ t'.config = t.config ∧
      ∀ key, t'.table.get key = t.table.get key := by
  rcases h.rows with hrows | hblank
  · obtain ⟨t', hopen, hsettled, hmax, hkind, hget⟩ :=
      hrows.openTable t.config.maxBufferedRecords.toNat
    exact ⟨⟨t.config, t'⟩, openTable_filesOf h.kind hopen,
      ⟨hkind.trans h.kind, hmax, Or.inl hsettled⟩, rfl, hget⟩
  · obtain ⟨t', hopen, hblank', hmax, hkind⟩ :=
      hblank.openTable rowOps t.config.maxBufferedRecords.toNat
    refine ⟨⟨t.config, t'⟩, openTable_filesOf h.kind hopen,
      ⟨hkind.trans h.kind, hmax, Or.inr hblank'⟩, rfl, fun key => ?_⟩
    rw [hblank.get, hblank'.get]

theorem OpenTable.Kept.flush {t : OpenTable P} (h : t.Kept) :
    ({t with table := (t.table.exec t.table.flush).1} : OpenTable P).Kept := by
  obtain ⟨hmax, hkind⟩ := Table.exec_config t.table t.table.flush
  refine ⟨hkind.trans h.kind, hmax.trans h.buffer, ?_⟩
  rcases h.rows with hsettled | hblank
  · exact Or.inl hsettled.flush.1
  · right
    dsimp only
    rw [hblank.flush]
    exact hblank

/-- A system table opens again with the same rows. -/
theorem reopen_system {t : Table (PrimaryKey P) (RowCell P) (Event P)} (h : t.Settled rowOps)
    (hkind : t.state.kind = .unordered) :
    ∃ t', openTable (filesOf t) systemTableConfig = some ⟨systemTableConfig, t'⟩ ∧ t'.Settled rowOps ∧
      t'.state.kind = .unordered ∧ 0 < t'.maxBuffered ∧ ∀ key, t'.get key = t.get key := by
  obtain ⟨t', hopen, hsettled, hmax, hkind', hget⟩ :=
    h.openTable systemTableConfig.maxBufferedRecords.toNat
  exact ⟨t', openTable_filesOf hkind hopen, hsettled, hkind'.trans hkind, hmax ▸ by decide, hget⟩

end Files

section Catalog

variable {P : Type} [LinearOrder P] [Inhabited P] {codec : Codec TableConfig}

omit [LinearOrder P] in
omit [Inhabited P] in
theorem readDeclaration_written (codec : Codec TableConfig) (name : String) (config : TableConfig)
    (stamp : EventStamp P) :
    readDeclaration codec name (⟨some (.scalar (.blob (codec.enc config))), stamp⟩ : RowCell P) =
      .ok (some config) := by
  simp [readDeclaration, codec.dec_enc]

omit [LinearOrder P] [Inhabited P] in
theorem decodeCatalogRow_string (codec : Codec TableConfig) {name : String} {cell : RowCell P}
    {config : Option TableConfig} (h : readDeclaration codec name cell = .ok config) :
    decodeCatalogRow codec (.string name, cell) = .ok (config.map (name, ·)) := by
  rw [decodeCatalogRow, h]
  rfl

omit [LinearOrder P] [Inhabited P] in
theorem catalogRows_cons {row : PrimaryKey P × RowCell P} {rows : List (PrimaryKey P × RowCell P)}
    {decl : Option (String × TableConfig)} {decls : List (String × TableConfig)}
    (hrow : decodeCatalogRow codec row = .ok decl) (hrows : catalogRows codec rows = .ok decls) :
    catalogRows codec (row :: rows) = .ok (decl.toList ++ decls) := by
  rw [catalogRows] at hrows ⊢
  cases hmap : rows.mapM (decodeCatalogRow codec) with
  | error e =>
    rw [hmap] at hrows
    cases hrows
  | ok decoded =>
    rw [hmap] at hrows
    cases hrows
    rw [List.mapM_cons, hrow, hmap]
    cases decl <;> rfl

omit [LinearOrder P] [Inhabited P] in
/-- Rows that all can be read give the declarations of the live ones. -/
theorem catalogRows_eq_ok {rows : List (PrimaryKey P × RowCell P)} (hnodup : (rows.map Prod.fst).Nodup)
    (declared : String → Option TableConfig)
    (hread : ∀ row ∈ rows, ∃ name, row.1 = .string name ∧
      readDeclaration codec name row.2 = .ok (declared name)) :
    ∃ decls, catalogRows codec rows = .ok decls ∧ (decls.map Prod.fst).Nodup ∧
      ∀ name config, (name, config) ∈ decls ↔
        declared name = some config ∧ PrimaryKey.string name ∈ rows.map Prod.fst := by
  induction rows with
  | nil => exact ⟨[], rfl, List.nodup_nil, by simp⟩
  | cons row rows ih =>
    obtain ⟨hnew, hnodup⟩ := List.nodup_cons.mp hnodup
    obtain ⟨decls, hdecls, hnames, hmem⟩ :=
      ih hnodup fun row hrow => hread row (List.mem_cons_of_mem _ hrow)
    obtain ⟨name, hkey, hcell⟩ := hread row (by simp)
    obtain ⟨key, cell⟩ := row
    obtain rfl : key = .string name := hkey
    have hrow := catalogRows_cons (decodeCatalogRow_string codec hcell) hdecls
    refine ⟨_, hrow, ?_, ?_⟩
    · cases declared name with
      | none => exact hnames
      | some config =>
        refine List.nodup_cons.mpr ⟨?_, hnames⟩
        intro hname
        obtain ⟨decl, hdecl, rfl⟩ : ∃ decl ∈ decls, decl.1 = name := List.mem_map.mp hname
        exact hnew ((hmem decl.1 decl.2).mp hdecl).2
    · intro other config
      rw [List.mem_append, hmem, List.map_cons, List.mem_cons, PrimaryKey.string.injEq]
      have hhead : (other, config) ∈ ((declared name).map (name, ·)).toList ↔
          declared other = some config ∧ other = name := by
        rw [Option.mem_toList, Option.map_eq_some_iff]
        constructor
        · rintro ⟨config', hconfig, heq⟩
          cases heq
          exact ⟨hconfig, rfl⟩
        · rintro ⟨hconfig, rfl⟩
          exact ⟨config, hconfig, rfl⟩
      rw [hhead, ← and_or_left]

/-- The loop opens every application table that is declared. -/
theorem foldlM_openDeclared (files : String → Option (TableFiles P)) {decls : List (String × TableConfig)}
    (hnodup : (decls.map Prod.fst).Nodup) (tables : List (String × OpenTable P))
    (hsorted : Sorted (· < ·) tables)
    (hopen : ∀ name config, (name, config) ∈ decls → isSystemTable name = false →
      ((files name).bind (openTable · config)).isSome) :
    ∃ tables', decls.foldlM (openDeclared files) tables = .ok tables' ∧ Sorted (· < ·) tables' ∧
      (∀ name config, (name, config) ∈ decls → isSystemTable name = false →
        get tables' name = (files name).bind (openTable · config)) ∧
      ∀ name, (isSystemTable name = true ∨ ∀ config, (name, config) ∉ decls) →
        get tables' name = get tables name := by
  induction decls generalizing tables with
  | nil => exact ⟨tables, rfl, hsorted, by simp, fun _ _ => rfl⟩
  | cons row decls ih =>
    obtain ⟨name, config⟩ := row
    obtain ⟨hnew, hnodup⟩ := List.nodup_cons.mp hnodup
    have hrest : ∀ name config, (name, config) ∈ decls → isSystemTable name = false →
        ((files name).bind (openTable · config)).isSome :=
      fun name config hmem => hopen name config (List.mem_cons_of_mem _ hmem)
    have hfresh : ∀ config, (name, config) ∉ decls := by
      intro config hmem
      exact hnew (List.mem_map.mpr ⟨_, hmem, rfl⟩)
    rw [List.foldlM_cons]
    cases hsystem : isSystemTable name with
    | true =>
      obtain ⟨tables', hfold, hsorted', hopened, hother⟩ := ih hnodup tables hsorted hrest
      refine ⟨tables', ?_, hsorted', ?_, ?_⟩
      · rw [openDeclared, if_pos hsystem]
        exact hfold
      · intro other config' hmem hsys
        rcases List.mem_cons.mp hmem with heq | hmem
        · cases heq
          rw [hsystem] at hsys
          cases hsys
        · exact hopened other config' hmem hsys
      · intro other hout
        apply hother
        exact hout.imp id fun hnot config' hmem => hnot config' (List.mem_cons_of_mem _ hmem)
    | false =>
      obtain ⟨t, ht⟩ := Option.isSome_iff_exists.mp (hopen name config (by simp) hsystem)
      have hstep : openDeclared files tables (name, config) = .ok (SortedMap.insert tables name t) := by
        rw [openDeclared, if_neg (by rw [hsystem]; simp)]
        dsimp only
        rw [ht]
      obtain ⟨tables', hfold, hsorted', hopened, hother⟩ :=
        ih hnodup (SortedMap.insert tables name t) (sorted_insert hsorted name t) hrest
      refine ⟨tables', ?_, hsorted', ?_, ?_⟩
      · rw [hstep]
        exact hfold
      · intro other config' hmem hsys
        rcases List.mem_cons.mp hmem with heq | hmem
        · cases heq
          rw [hother name (Or.inr hfresh), get_insert, if_pos rfl, ht]
        · exact hopened other config' hmem hsys
      · intro other hout
        have hne : other ≠ name := by
          rintro rfl
          rcases hout with hsys | hnot
          · rw [hsystem] at hsys
            cases hsys
          · exact hnot config (by simp)
        rw [hother other (hout.imp id fun hnot config' hmem => hnot config' (List.mem_cons_of_mem _ hmem)),
          get_insert, if_neg hne]

end Catalog

end ZenDB.Workspace
