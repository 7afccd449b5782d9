import SquidDB.Engine.TableStartup
import SquidDB.Storage.SchemaRewriting

/-!
# A table over several runs of the program

The schema file is all that is left of a table when the program ends.  Over any
number of restarts and calls, calls that throw included, the file stands for
the columns that were last written, and a new table that is initialized gets
them back.
-/

namespace SquidDB.Engine

open Checked SquidDB.Core SquidDB.Storage

/-- A call, or the end of the program: the next table over the same directory
is a new one, with a new file manager. -/
inductive SessionEvent where
  | setup (call : SetupCall)
  | restart (maxNodeHeight : ℕ)

/-- The name is one that a schema file can hold, if the call adds a column. -/
def SetupCall.Plain : SetupCall → Prop
  | .addColumn name .. | .addIndex name .. => PlainName name
  | .finalizeSchema .. | .initializeTable .. => True

def SessionEvent.Plain : SessionEvent → Prop
  | .setup call => call.Plain
  | .restart _ => True

namespace StoredTable

/-- The table of the next run of the program. -/
def restart (s : StoredTable) (maxNodeHeight : ℕ) : StoredTable :=
  new maxNodeHeight s.table.dataPath s.table.name
    (.new s.fileManager.dataPath s.fileManager.tableName) s.schemaFile

/-- The machine whose events are calls and restarts. -/
def sessionStep (ndebug : Bool) (s : StoredTable) :
    SessionEvent → Option StoredTable
  | .setup call => s.step ndebug call
  | .restart maxNodeHeight => some (s.restart maxNodeHeight)

end StoredTable

/-! ## The catalog -/

/-- What a table should be: the columns it has, whether they are final, and the
columns that outlive the program. -/
structure Catalog where
  columns : List Column
  finalized : Bool
  recorded : Option (List Column)

namespace Catalog

/-- Columns are added while they are not final. -/
def add (catalog : Catalog) (column : Column) : Catalog :=
  if catalog.finalized then catalog
  else { catalog with columns := catalog.columns ++ [column] }

def setup (catalog : Catalog) : SetupCall → Catalog
  | .addColumn name size columnType =>
      catalog.add ⟨name, size.toNat, castColumnType columnType, .none⟩
  | .addIndex name size columnType primary =>
      catalog.add ⟨name, size.toNat, castColumnType columnType,
        if primary then .primary else .secondary⟩
  | .finalizeSchema schemaWritable =>
      if schemaWritable then
        { catalog with finalized := true, recorded := some catalog.columns }
      else catalog
  | .initializeTable schemaReadable .. =>
      match catalog.recorded with
      | none => catalog
      | some columns =>
          if schemaReadable then
            { catalog with
              columns := catalog.columns ++ columns
              finalized := true }
          else catalog

/-- Only what is recorded outlives the program. -/
def next (catalog : Catalog) : SessionEvent → Catalog
  | .setup call => catalog.setup call
  | .restart _ => ⟨[], false, catalog.recorded⟩

end Catalog

/-- The table is the one in the catalog. -/
structure StoredTable.Reflects (s : StoredTable) (catalog : Catalog) :
    Prop where
  schema : s.table.schema = Schema.ofColumns catalog.columns
  finalized : s.table.schemaFinalized = catalog.finalized
  recordable : ∀ c ∈ catalog.columns, c.Recordable
  file : Option.Rel (fun content columns => Schema.Holds content columns ∧
    ∀ c ∈ columns, c.Recordable) s.schemaFile catalog.recorded

/-! ## Building the indexes -/

namespace Table

variable (ndebug : Bool) (table : Table)

theorem createIndex_keeps (column : Column) :
    ∃ o primary, createIndex ndebug table column = .ok o ∧
      o.state = { table with primary := primary } := by
  by_cases hkey : column.keyType = .primary
  · by_cases hprimary : table.primary = none
    · by_cases hgood : 0 < table.maxNodeHeight ∧ column.columnType = .int32
      · exact ⟨_, _,
          createIndex_int32 ndebug hprimary hgood.1 hkey hgood.2, rfl⟩
      · obtain ⟨message, hthrown⟩ :=
          createIndex_throws ndebug hprimary hkey hgood
        exact ⟨_, table.primary, hthrown, rfl⟩
    · have hsome := Option.isSome_iff_ne_none.mpr hprimary
      exact ⟨_, table.primary,
        by rw [createIndex, if_neg (not_not.mpr hkey), if_pos hsome], rfl⟩
  · exact ⟨_, table.primary, by rw [createIndex, if_pos hkey], rfl⟩

theorem createIndexesFrom_keeps (columns : List Column) :
    ∃ o primary, createIndexesFrom ndebug columns table = .ok o ∧
      o.state = { table with primary := primary } := by
  induction columns generalizing table with
  | nil => exact ⟨_, table.primary, rfl, rfl⟩
  | cons column columns ih =>
      obtain ⟨o, primary, hcreate, hstate⟩ :=
        createIndex_keeps ndebug table column
      rw [createIndexesFrom, hcreate, ok_bind]
      cases o with
      | thrown message table' => exact ⟨_, primary, rfl, hstate⟩
      | returned _ table' =>
          rw [Outcome.state_returned] at hstate
          obtain ⟨o, primary', hrest, hstate'⟩ := ih table'
          exact ⟨o, primary', hrest, by rw [hstate', hstate]⟩

theorem createIndexes_keeps :
    ∃ o primary, table.createIndexes ndebug = .ok o ∧
      o.state = { table with primary := primary } := by
  rw [createIndexes]
  split
  · exact ⟨_, table.primary, rfl, rfl⟩
  obtain ⟨o, primary, hfrom, hstate⟩ :=
    createIndexesFrom_keeps ndebug table table.schema.getColumns
  rw [hfrom, ok_bind]
  cases o with
  | thrown message table' => exact ⟨_, primary, rfl, hstate⟩
  | returned _ table' =>
      dsimp only
      split
      · exact ⟨_, primary, rfl, hstate⟩
      · exact ⟨_, primary, rfl, hstate⟩

end Table

namespace StoredTable

variable (ndebug : Bool) {s : StoredTable} {catalog : Catalog}

/-- Only the schema, the mark and the schema file matter. -/
theorem Reflects.congr {s' : StoredTable} (h : s.Reflects catalog)
    (hschema : s'.table.schema = s.table.schema)
    (hfinalized : s'.table.schemaFinalized = s.table.schemaFinalized)
    (hfile : s'.schemaFile = s.schemaFile) : s'.Reflects catalog where
  schema := hschema.trans h.schema
  finalized := hfinalized.trans h.finalized
  recordable := h.recordable
  file := hfile ▸ h.file

/-- Building the indexes, whether it throws or not. -/
theorem Reflects.createIndexes (h : s.Reflects catalog) :
    ∃ o, s.createIndexes ndebug = .ok o ∧ o.state.Reflects catalog := by
  obtain ⟨o, primary, hcreate, hstate⟩ :=
    Table.createIndexes_keeps ndebug s.table
  refine ⟨s.liftTable o, by rw [StoredTable.createIndexes, hcreate]; rfl, ?_⟩
  rw [state_liftTable, hstate]
  exact h.congr rfl rfl rfl

theorem Reflects.openFiles (h : s.Reflects catalog) (std : StdSort)
    (canOpen : Text → Bool)
    (lsListing vsListing : Option (List DirectoryEntry)) :
    ∃ o, s.openFiles ndebug std canOpen lsListing vsListing = .ok o ∧
      o.state.Reflects catalog := by
  rw [StoredTable.openFiles]
  cases s.fileManager.initializeFiles std canOpen lsListing vsListing with
  | thrown message fileManager =>
      exact ⟨_, rfl, h.congr rfl rfl rfl⟩
  | returned _ fileManager =>
      exact Reflects.createIndexes ndebug
        (s := { s with fileManager := fileManager }) (h.congr rfl rfl rfl)

/-! ## One call -/

theorem Reflects.append (h : s.Reflects catalog) {columns : List Column}
    (hcolumns : ∀ c ∈ columns, c.Recordable) :
    (s.withColumns columns).Reflects
      { catalog with columns := catalog.columns ++ columns } where
  schema := by
    rw [withColumns, Schema.ofColumns_append, ← h.schema]
  finalized := h.finalized
  recordable := fun c hc => (List.mem_append.mp hc).elim (h.recordable c)
    (hcolumns c)
  file := h.file

/-- `addColumn` and `addIndex`. -/
theorem Reflects.add (h : s.Reflects catalog) (column : Column)
    (hcolumn : column.Recordable) {o : Outcome Table Unit}
    (ho : o.state = if s.table.schemaFinalized then s.table
      else { s.table with schema := s.table.schema.addColumn column }) :
    (s.liftTable o).state.Reflects (catalog.add column) := by
  rw [state_liftTable, ho, Catalog.add, h.finalized]
  split
  · exact h
  · exact h.append (List.forall_mem_singleton.mpr hcolumn)

theorem Reflects.finalizeSchema (h : s.Reflects catalog)
    (schemaWritable : Bool) :
    ∃ o, s.finalizeSchema ndebug schemaWritable = .ok o ∧
      o.state.Reflects (catalog.setup (.finalizeSchema schemaWritable)) := by
  cases schemaWritable with
  | false => exact ⟨_, rfl, h⟩
  | true =>
      have hwrite : s.table.schema.write s.table.schemaFilePath true =
          .ok (Schema.printed catalog.columns) := by
        rw [h.schema]
        exact Schema.write_ofColumns _ _
      rw [StoredTable.finalizeSchema, hwrite]
      apply Reflects.createIndexes ndebug
      exact ⟨h.schema, rfl, h.recordable,
        .some ⟨Schema.holds_printed h.recordable, h.recordable⟩⟩

theorem readSchema_of_holds {content : Text} {columns : List Column}
    (hfile : s.schemaFile = some content)
    (hholds : Schema.Holds content columns) :
    s.readSchema true = .ok (.returned () (s.withColumns columns).marked) := by
  obtain ⟨table, fileManager, schemaFile⟩ := s
  obtain rfl : schemaFile = some content := hfile
  simp only [StoredTable.readSchema, if_true,
    hholds table.schema table.schemaFilePath, ok_bind]
  rfl

theorem Reflects.readSchema (h : s.Reflects catalog) (schemaReadable : Bool)
    (std : StdSort) (canOpen : Text → Bool)
    (lsListing vsListing : Option (List DirectoryEntry)) :
    ∃ o, s.readSchema schemaReadable = .ok o ∧
      o.state.Reflects (catalog.setup
        (.initializeTable schemaReadable std canOpen lsListing vsListing)) := by
  obtain ⟨table, fileManager, schemaFile⟩ := s
  obtain ⟨current, finalized, recorded⟩ := catalog
  obtain ⟨hschema, hfinalized, hrecordable, hfile⟩ := h
  cases hfile with
  | none => exact ⟨_, rfl, hschema, hfinalized, hrecordable, .none⟩
  | @some content columns hholds =>
      cases schemaReadable with
      | false =>
          exact ⟨_, rfl, hschema, hfinalized, hrecordable, .some hholds⟩
      | true =>
          rw [readSchema_of_holds rfl hholds.1]
          refine ⟨_, rfl, ?_, rfl, ?_, .some hholds⟩
          · rw [Outcome.state_returned, Catalog.setup]
            simp only [if_true]
            rw [Schema.ofColumns_append, ← show table.schema = _ from hschema]
            rfl
          · exact fun c hc => (List.mem_append.mp hc).elim (hrecordable c)
              (hholds.2 c)

theorem Reflects.initializeTable (h : s.Reflects catalog)
    (schemaReadable : Bool) (std : StdSort) (canOpen : Text → Bool)
    (lsListing vsListing : Option (List DirectoryEntry)) :
    ∃ o, s.initializeTable ndebug schemaReadable std canOpen lsListing vsListing =
        .ok o ∧
      o.state.Reflects (catalog.setup
        (.initializeTable schemaReadable std canOpen lsListing vsListing)) := by
  obtain ⟨o, hread, ho⟩ :=
    h.readSchema schemaReadable std canOpen lsListing vsListing
  rw [StoredTable.initializeTable, hread, ok_bind]
  cases o with
  | thrown message s' => exact ⟨_, rfl, ho⟩
  | returned _ s' => exact Reflects.openFiles ndebug ho std canOpen lsListing vsListing

/-- No call faults, and the catalog follows it. -/
theorem Reflects.call (h : s.Reflects catalog) {call : SetupCall}
    (hplain : call.Plain) :
    ∃ o, s.call ndebug call = .ok o ∧
      o.state.Reflects (catalog.setup call) := by
  cases call with
  | addColumn name size columnType =>
      refine ⟨_, rfl, h.add
        ⟨name, size.toNat, castColumnType columnType, .none⟩
        ⟨hplain, UInt16.toNat_lt size⟩ ?_⟩
      rw [Table.addColumn]
      split <;> rfl
  | addIndex name size columnType primary =>
      refine ⟨_, rfl, h.add ⟨name, size.toNat, castColumnType columnType,
        if primary then .primary else .secondary⟩
        ⟨hplain, UInt16.toNat_lt size⟩ ?_⟩
      rw [Table.addIndex]
      split <;> rfl
  | finalizeSchema schemaWritable => exact h.finalizeSchema ndebug schemaWritable
  | initializeTable schemaReadable std canOpen lsListing vsListing =>
      exact h.initializeTable ndebug schemaReadable std canOpen lsListing vsListing

theorem Reflects.sessionStep (h : s.Reflects catalog) {event : SessionEvent}
    (hplain : event.Plain) :
    ∃ s', s.sessionStep ndebug event = some s' ∧
      s'.Reflects (catalog.next event) := by
  cases event with
  | setup call =>
      obtain ⟨o, hcall, ho⟩ := h.call ndebug hplain
      refine ⟨o.state, ?_, ho⟩
      rw [StoredTable.sessionStep, StoredTable.step, hcall]
      rfl
  | restart maxNodeHeight =>
      exact ⟨_, rfl, rfl, rfl, by simp [Catalog.next], h.file⟩

/-! ## Runs -/

/-- The columns of the schema file before the first run. -/
def recordedIn (schemaFile : Option Text) : Option (List Column) :=
  schemaFile.map fun content => Schema.columnsOf (Text.lines content)

/-- The schema file, if there is one, is accepted by `Schema::read`. -/
def Accepted (schemaFile : Option Text) : Prop :=
  ∀ content, schemaFile = some content → ∃ schema,
    Schema.new.read [] (some content) = .ok (.returned () schema)

theorem new_reflects (maxNodeHeight : ℕ) (dataPath name : Text)
    (fileManager : FileManager) {schemaFile : Option Text}
    (haccepted : Accepted schemaFile) :
    (new maxNodeHeight dataPath name fileManager schemaFile).Reflects
      ⟨[], false, recordedIn schemaFile⟩ := by
  refine ⟨rfl, rfl, by simp, ?_⟩
  cases schemaFile with
  | none => exact .none
  | some content =>
      obtain ⟨schema, hread⟩ := haccepted content rfl
      obtain ⟨hholds, hcolumns, -⟩ := Schema.holds_of_read hread
      exact .some ⟨hholds, hcolumns⟩

/-- The catalog follows a run, and no call of it faults. -/
theorem Reflects.exists_run (h : s.Reflects catalog)
    {events : List SessionEvent} (hplain : ∀ event ∈ events, event.Plain) :
    ∃ s', Machine.run (StoredTable.sessionStep ndebug) s events = some s' ∧
      s'.Reflects (events.foldl Catalog.next catalog) := by
  have hstep : ∀ (s : StoredTable) (catalog : Catalog) (event : SessionEvent),
      event.Plain → s.Reflects catalog →
        ∃ s', s.sessionStep ndebug event = some s' ∧
          s'.Reflects (catalog.next event) :=
    fun s catalog event hplain h => h.sessionStep ndebug hplain
  exact Machine.exists_run_of_simulation hstep h hplain

/-- In every run of calls and restarts with names that a schema file can hold,
whichever calls throw and whichever files can be opened, no call faults, and
the table and its schema file are those of the catalog. -/
theorem sessions_reflect_catalog (ndebug : Bool) (maxNodeHeight : ℕ)
    (dataPath name : Text) (fileManager : FileManager)
    {schemaFile : Option Text} (haccepted : Accepted schemaFile)
    {events : List SessionEvent} (hplain : ∀ event ∈ events, event.Plain) :
    ∃ s, Machine.run (sessionStep ndebug)
        (new maxNodeHeight dataPath name fileManager schemaFile) events =
          some s ∧
      s.Reflects
        (events.foldl Catalog.next ⟨[], false, recordedIn schemaFile⟩) :=
  (new_reflects maxNodeHeight dataPath name fileManager haccepted).exists_run
    ndebug hplain

/-- A second table over the same directory, which is initialized twice, gets
the columns twice. -/
theorem sessions_reflect_catalog_twice :
    ∃ s, Machine.run (sessionStep false) newKeys
        [.setup (.addIndex "key".toList 4 0 true),
          .setup (.finalizeSchema true), .restart 1,
          .setup (.initializeTable true .stable (fun _ => true) none none),
          .setup (.initializeTable true .stable (fun _ => true) none none)] = some s ∧
      s.Reflects ⟨[⟨"key".toList, 4, .int32, .primary⟩,
          ⟨"key".toList, 4, .int32, .primary⟩], true,
        some [⟨"key".toList, 4, .int32, .primary⟩]⟩ := by
  refine sessions_reflect_catalog false 1 "data/".toList "keys".toList _
    (by rintro _ ⟨⟩) ?_
  simp only [List.forall_mem_cons, List.not_mem_nil, false_imp_iff,
    implies_true, and_true]
  exact ⟨⟨by decide, by decide, by decide, by decide⟩, trivial, trivial,
    trivial, trivial⟩

/-! ## Opening a table again -/

theorem Reflects.exists_content (h : s.Reflects catalog)
    {columns : List Column} (hrecorded : catalog.recorded = some columns) :
    ∃ content, s.schemaFile = some content ∧
      Schema.Holds content columns := by
  have hfile := h.file
  rw [hrecorded] at hfile
  generalize s.schemaFile = schemaFile at hfile ⊢
  cases hfile with
  | some hholds => exact ⟨_, rfl, hholds.1⟩

theorem Reflects.exists_columns (h : s.Reflects catalog) {content : Text}
    (hfile : s.schemaFile = some content) :
    ∃ columns, catalog.recorded = some columns ∧
      Schema.Holds content columns := by
  have hrel := h.file
  rw [hfile] at hrel
  generalize catalog.recorded = recorded at hrel ⊢
  cases hrel with
  | some hholds => exact ⟨_, rfl, hholds.1⟩

/-- The columns have a single primary key, a 32-bit integer. -/
def HasInt32Key (columns : List Column) : Prop :=
  ∃ before column, OnlyPrimary columns before column ∧
    column.columnType = .int32

/-- With a readable schema file and loadable data files the next run of the
program gets the columns of the catalog, and an index exactly when there can be
one. -/
theorem Reflects.reopen (h : s.Reflects catalog) {columns : List Column}
    (hrecorded : catalog.recorded = some columns) (maxNodeHeight : ℕ)
    {std : StdSort} {canOpen : Text → Bool}
    {lsListing vsListing : Option (List DirectoryEntry)}
    {fileManager : FileManager}
    (hfiles : (s.restart maxNodeHeight).fileManager.initializeFiles std canOpen
      lsListing vsListing = .returned () fileManager) :
    ∃ o, (s.restart maxNodeHeight).initializeTable ndebug true std canOpen
        lsListing vsListing = .ok o ∧
      o.state.table.schema = Schema.ofColumns columns ∧
      o.state.table.schemaFinalized = true ∧
      (o.result = .ok () ↔ 0 < maxNodeHeight ∧ HasInt32Key columns) ∧
      (o.result = .ok () → o.state.table.HasIndex ndebug) := by
  have hplain : (SessionEvent.restart maxNodeHeight).Plain := trivial
  obtain ⟨s', hnext, hreflects⟩ := h.sessionStep ndebug hplain
  obtain rfl : s.restart maxNodeHeight = s' := Option.some.inj hnext
  obtain ⟨o, hcall, ho⟩ := hreflects.initializeTable ndebug true
    std canOpen lsListing vsListing
  simp only [Catalog.next, Catalog.setup, hrecorded, if_true,
    List.nil_append] at ho
  refine ⟨o, hcall, ho.schema, ho.finalized, ?_⟩
  obtain ⟨content, hcontent, hholds⟩ := h.exists_content hrecorded
  have hread := readSchema_of_holds (s := s.restart maxNodeHeight) hcontent
    hholds
  rw [StoredTable.initializeTable, hread, ok_bind] at hcall
  set t := ((s.restart maxNodeHeight).withColumns columns).marked
  have hcolumns : t.table.schema.getColumns = columns :=
    Schema.column_ofColumns columns
  by_cases hgood : 0 < maxNodeHeight ∧ HasInt32Key columns
  · have hindexable : t.table.Indexable := by
      refine ⟨hgood.1, ?_⟩
      rw [hcolumns]
      exact hgood.2
    have hopened := openFiles_of_indexable ndebug (s := t) rfl rfl hindexable
      hfiles
    obtain rfl := Except.ok.inj (hopened.symm.trans hcall)
    refine ⟨iff_of_true rfl hgood, fun _ => hindexable.hasIndex ndebug ?_⟩
    exact congrArg Schema.ofColumns hcolumns.symm
  · have hbad : ¬(t.table.Indexable ∧ ∃ fileManager,
        t.fileManager.initializeFiles std canOpen lsListing vsListing =
          .returned () fileManager) := by
      rintro ⟨⟨hmax, hkey⟩, -⟩
      exact hgood ⟨hmax, hcolumns ▸ hkey⟩
    obtain ⟨message, s', hthrown, -⟩ :=
      openFiles_throws ndebug (s := t) rfl rfl hbad
    obtain rfl := Except.ok.inj (hthrown.symm.trans hcall)
    exact ⟨iff_of_false (by simp) hgood, by simp⟩

/-- After any calls and restarts, the next run of the program gets the columns
that were last written, in all parts of the schema, and its index exactly when
they have a single 32-bit primary key.  Data files that load are all it
needs. -/
theorem reopened_as_recorded (ndebug : Bool) (maxNodeHeight : ℕ)
    (dataPath name : Text) (fileManager : FileManager)
    {schemaFile : Option Text} (haccepted : Accepted schemaFile)
    {events : List SessionEvent} (hplain : ∀ event ∈ events, event.Plain)
    {s : StoredTable} (hrun : Machine.run (sessionStep ndebug)
      (new maxNodeHeight dataPath name fileManager schemaFile) events = some s)
    {columns : List Column}
    (hrecorded : (events.foldl Catalog.next
      ⟨[], false, recordedIn schemaFile⟩).recorded = some columns)
    (nextHeight : ℕ) {std : StdSort} {canOpen : Text → Bool}
    {lsListing vsListing : Option (List DirectoryEntry)}
    {fileManager' : FileManager}
    (hfiles : (s.restart nextHeight).fileManager.initializeFiles std canOpen
      lsListing vsListing = .returned () fileManager') :
    ∃ o, (s.restart nextHeight).initializeTable ndebug true std canOpen
        lsListing vsListing = .ok o ∧
      o.state.table.schema = Schema.ofColumns columns ∧
      o.state.table.schemaFinalized = true ∧
      (o.result = .ok () ↔ 0 < nextHeight ∧ HasInt32Key columns) ∧
      (o.result = .ok () → o.state.table.HasIndex ndebug) := by
  have hnew := new_reflects maxNodeHeight dataPath name fileManager haccepted
  obtain ⟨s', hrun', h⟩ := hnew.exists_run ndebug hplain
  obtain rfl := Option.some.inj (hrun'.symm.trans hrun)
  exact h.reopen ndebug hrecorded nextHeight hfiles

theorem reopened_as_recorded_one_key :
    ∃ s o, Machine.run (sessionStep false) newKeys
        [.setup (.addIndex "key".toList 4 0 true),
          .setup (.finalizeSchema true)] = some s ∧
      (s.restart 1).initializeTable false true .stable (fun _ => true)
        (some []) (some []) = .ok o ∧
      o.state.table.schema =
        Schema.ofColumns [⟨"key".toList, 4, .int32, .primary⟩] ∧
      o.state.table.HasIndex false := by
  obtain ⟨s, hrun, hfiles⟩ : ∃ s, Machine.run (sessionStep false) newKeys
      [.setup (.addIndex "key".toList 4 0 true),
        .setup (.finalizeSchema true)] = some s ∧
      (s.restart 1).fileManager.initializeFiles .stable (fun _ => true)
        (some []) (some []) = .returned () (s.restart 1).fileManager := ⟨_, rfl, rfl⟩
  have hplain : ∀ event ∈ [SessionEvent.setup
      (.addIndex "key".toList 4 0 true), .setup (.finalizeSchema true)],
      event.Plain := by
    simp only [List.forall_mem_cons, List.not_mem_nil, false_imp_iff,
      implies_true, and_true]
    exact ⟨⟨by decide, by decide, by decide, by decide⟩, trivial⟩
  obtain ⟨o, hcall, hschema, -, hreturns, hindex⟩ :=
    reopened_as_recorded false 1 "data/".toList "keys".toList _
      (by rintro _ ⟨⟩) hplain hrun rfl 1 hfiles
  refine ⟨s, o, hrun, hcall, hschema, hindex (hreturns.mpr ⟨by decide, ?_⟩)⟩
  exact ⟨[], ⟨"key".toList, 4, .int32, .primary⟩,
    ⟨rfl, [], rfl, by simp⟩, rfl⟩

/-! ## Orderly runs -/

/-- A schema is declared and written once; in each later run of the program it
is read once, before anything else. -/
def Orderly (s : StoredTable) : SessionEvent → Prop
  | .setup (.initializeTable ..) => s.schemaFile = none ∨
      s.table.schemaFinalized = false ∧ s.table.schema.column = []
  | .setup call => call.Plain ∧
      (s.schemaFile = none ∨ s.table.schemaFinalized = true)
  | .restart _ => True

theorem Orderly.plain {event : SessionEvent} (h : s.Orderly event) :
    event.Plain := by
  rcases event with ⟨_ | _ | _ | _⟩ | _
  · exact h.1
  · exact h.1
  · exact h.1
  · trivial
  · trivial

theorem Reflects.recorded_eq_none_iff (h : s.Reflects catalog) :
    s.schemaFile = none ↔ catalog.recorded = none := by
  have hfile := h.file
  generalize s.schemaFile = schemaFile, catalog.recorded = recorded at hfile ⊢
  cases hfile <;> simp

theorem Reflects.column_eq (h : s.Reflects catalog) :
    s.table.schema.column = catalog.columns := by
  rw [h.schema, Schema.column_ofColumns]

end StoredTable

/-- Once columns are recorded, a table has these and no others, as soon as its
schema is final. -/
def Catalog.Settled (catalog : Catalog) : Prop :=
  ∀ columns, catalog.recorded = some columns →
    catalog.columns = if catalog.finalized then columns else []

/-- Recorded columns are not changed. -/
def Catalog.Follows (catalog catalog' : Catalog) : Prop :=
  ∀ columns, catalog.recorded = some columns →
    catalog'.recorded = some columns

namespace StoredTable

variable (ndebug : Bool) {s : StoredTable} {catalog : Catalog}

/-- An event in an orderly run. -/
theorem Reflects.settled (h : s.Reflects catalog) (hsettled : catalog.Settled)
    {event : SessionEvent} (horderly : s.Orderly event) :
    (catalog.next event).Settled ∧ catalog.Follows (catalog.next event) := by
  have hadd : ∀ column,
      s.schemaFile = none ∨ s.table.schemaFinalized = true →
      (catalog.add column).Settled ∧
        catalog.Follows (catalog.add column) := by
    intro column hfile
    rw [Catalog.add]
    split
    · exact ⟨hsettled, fun _ => id⟩
    · next hopen =>
      have hnone := hfile.resolve_right (h.finalized ▸ hopen)
      rw [h.recorded_eq_none_iff] at hnone
      constructor
      · intro columns hrecorded
        cases hnone.symm.trans hrecorded
      · exact fun _ => id
  rcases event with ⟨call⟩ | maxNodeHeight
  · cases call with
    | addColumn name size columnType => exact hadd _ horderly.2
    | addIndex name size columnType primary => exact hadd _ horderly.2
    | finalizeSchema schemaWritable =>
        cases schemaWritable with
        | false => exact ⟨hsettled, fun _ => id⟩
        | true =>
            refine ⟨?_, ?_⟩
            · intro columns hrecorded
              exact Option.some.inj hrecorded
            · intro columns hrecorded
              rcases horderly.2 with hnone | hfinalized
              · rw [h.recorded_eq_none_iff, hrecorded] at hnone
                cases hnone
              · have hcolumns := hsettled columns hrecorded
                rw [← h.finalized, hfinalized, if_pos rfl] at hcolumns
                exact congrArg some hcolumns
    | initializeTable schemaReadable std canOpen lsListing vsListing =>
        rw [Catalog.next, Catalog.setup]
        split
        · exact ⟨hsettled, fun _ => id⟩
        · next columns hrecorded =>
          cases schemaReadable with
          | false => exact ⟨hsettled, fun _ => id⟩
          | true =>
              refine ⟨?_, fun _ => id⟩
              rcases horderly with hnone | ⟨-, hempty⟩
              · rw [h.recorded_eq_none_iff, hrecorded] at hnone
                cases hnone
              · intro columns' hrecorded'
                obtain rfl :=
                  Option.some.inj (hrecorded.symm.trans hrecorded')
                rw [h.column_eq] at hempty
                simp [hempty]
  · exact ⟨fun columns _ => rfl, fun _ => id⟩

theorem Reflects.orderlyStep (h : s.Reflects catalog)
    (hsettled : catalog.Settled) {event : SessionEvent}
    (horderly : s.Orderly event) {s' : StoredTable}
    (hstep : s.sessionStep ndebug event = some s') :
    ∃ catalog', s'.Reflects catalog' ∧ catalog'.Settled ∧
      catalog.Follows catalog' := by
  obtain ⟨t, hnext, ht⟩ := h.sessionStep ndebug horderly.plain
  obtain rfl := Option.some.inj (hnext.symm.trans hstep)
  exact ⟨_, ht, h.settled hsettled horderly⟩

theorem Reflects.orderlyRun (h : s.Reflects catalog)
    (hsettled : catalog.Settled) {events : List SessionEvent}
    (horderly : Machine.Guarded (StoredTable.sessionStep ndebug) Orderly s
      events)
    {s' : StoredTable}
    (hrun : Machine.run (StoredTable.sessionStep ndebug) s events = some s') :
    ∃ catalog', s'.Reflects catalog' ∧ catalog'.Settled ∧
      catalog.Follows catalog' := by
  have hstep : ∀ (t : StoredTable) (event : SessionEvent) (t' : StoredTable),
      (∃ catalog', t.Reflects catalog' ∧ catalog'.Settled ∧
        catalog.Follows catalog') →
      t.Orderly event → t.sessionStep ndebug event = some t' →
        ∃ catalog', t'.Reflects catalog' ∧ catalog'.Settled ∧
          catalog.Follows catalog' := by
    rintro t event t' ⟨catalog₁, h₁, hsettled₁, hfollows₁⟩ horderly hstep
    obtain ⟨catalog₂, h₂, hsettled₂, hfollows₂⟩ :=
      h₁.orderlyStep ndebug hsettled₁ horderly hstep
    exact ⟨catalog₂, h₂, hsettled₂,
      fun columns hrecorded => hfollows₂ columns (hfollows₁ columns hrecorded)⟩
  exact Machine.run_invariant_of_guarded hstep
    ⟨catalog, h, hsettled, fun _ => id⟩ horderly hrun

/-- In orderly runs the columns of the first schema file are those of every
later one, and of every table whose schema is final, however often the program
is started again and whichever calls throw. -/
theorem recorded_stays (ndebug : Bool) (maxNodeHeight : ℕ)
    (dataPath name : Text) (fileManager : FileManager)
    {schemaFile : Option Text} (haccepted : Accepted schemaFile)
    {events later : List SessionEvent} {s s' : StoredTable}
    (hrun : Machine.run (sessionStep ndebug)
      (new maxNodeHeight dataPath name fileManager schemaFile) events = some s)
    (horderly : Machine.Guarded (sessionStep ndebug) Orderly
      (new maxNodeHeight dataPath name fileManager schemaFile) events)
    (hlater : Machine.run (sessionStep ndebug) s later = some s')
    (horderly' : Machine.Guarded (sessionStep ndebug) Orderly s later)
    {content : Text} (hfile : s.schemaFile = some content) :
    ∃ columns content', Schema.Holds content columns ∧
      s'.schemaFile = some content' ∧ Schema.Holds content' columns ∧
      (s'.table.schemaFinalized = true →
        s'.table.schema = Schema.ofColumns columns) := by
  have hnew := new_reflects maxNodeHeight dataPath name fileManager haccepted
  obtain ⟨catalog, h, hsettled, -⟩ :=
    hnew.orderlyRun ndebug (fun _ _ => rfl) horderly hrun
  obtain ⟨columns, hrecorded, hholds⟩ := h.exists_columns hfile
  obtain ⟨catalog', h', hsettled', hfollows⟩ :=
    h.orderlyRun ndebug hsettled horderly' hlater
  have hrecorded' := hfollows columns hrecorded
  obtain ⟨content', hfile', hholds'⟩ := h'.exists_content hrecorded'
  refine ⟨columns, content', hholds, hfile', hholds', fun hfinalized => ?_⟩
  have hcolumns := hsettled' columns hrecorded'
  rw [← h'.finalized, hfinalized, if_pos rfl] at hcolumns
  rw [h'.schema, hcolumns]

/-- A table is declared, finalized, and initialized in the next run. -/
theorem recorded_stays_restarted :
    ∃ s s' columns content, Machine.run (sessionStep false) newKeys
        [.setup (.addIndex "key".toList 4 0 true),
          .setup (.finalizeSchema true)] = some s ∧
      Machine.run (sessionStep false) s
        [.restart 1,
          .setup (.initializeTable true .stable (fun _ => true) (some [])
            (some []))] = some s' ∧
      s'.schemaFile = some content ∧ Schema.Holds content columns ∧
      s'.table.schemaFinalized = true ∧
      s'.table.schema = Schema.ofColumns columns := by
  obtain ⟨s, hrun, hfile⟩ : ∃ s, Machine.run (sessionStep false) newKeys
      [.setup (.addIndex "key".toList 4 0 true),
        .setup (.finalizeSchema true)] = some s ∧
      s.schemaFile = some "key:4:INT32:PRIMARY\n".toList := ⟨_, rfl, rfl⟩
  have horderly : Machine.Guarded (sessionStep false) Orderly newKeys
      [.setup (.addIndex "key".toList 4 0 true),
        .setup (.finalizeSchema true)] := by
    refine ⟨⟨⟨by decide, by decide, by decide, by decide⟩, .inl rfl⟩,
      fun s₁ h₁ => ?_⟩
    obtain rfl := Option.some.inj h₁
    exact ⟨⟨trivial, .inl rfl⟩, fun _ _ => trivial⟩
  have horderly' : Machine.Guarded (sessionStep false) Orderly s
      [.restart 1,
        .setup (.initializeTable true .stable (fun _ => true) (some [])
          (some []))] := by
    refine ⟨trivial, fun s₁ h₁ => ?_⟩
    obtain rfl := Option.some.inj h₁
    exact ⟨.inr ⟨rfl, rfl⟩, fun _ _ => trivial⟩
  obtain ⟨s', hlater, hfinalized⟩ : ∃ s', Machine.run (sessionStep false) s
      [.restart 1,
        .setup (.initializeTable true .stable (fun _ => true) (some [])
          (some []))] = some s' ∧ s'.table.schemaFinalized = true := by
    obtain rfl := Option.some.inj hrun
    exact ⟨_, rfl, rfl⟩
  obtain ⟨columns, content, -, hfile', hholds, hschema⟩ :=
    recorded_stays false 1 "data/".toList "keys".toList _
      (by rintro _ ⟨⟩) hrun horderly hlater horderly' hfile
  exact ⟨s, s', columns, content, hrun, hlater, hfile', hholds, hfinalized,
    hschema hfinalized⟩

end StoredTable

end SquidDB.Engine
