import SquidDB.Engine.TableCalls
import SquidDB.Storage.FileManager
import SquidDB.Storage.SchemaFile

/-!
# Finalizing the schema of a table

A table together with its data files and its schema file.  `finalizeSchema` and
`initialize` mark the schema as finalized before they build the primary index,
and every later throw leaves the mark.
-/

namespace SquidDB.Engine

open Checked SquidDB.Core SquidDB.Storage

/-- A table with its file manager; `schemaFile` is what the schema file holds,
if it exists. -/
structure StoredTable where
  table : Table
  fileManager : FileManager
  schemaFile : Option Text

/-- The cast to `Column::ColumnType`.  Numbers from 5 on have no enumerator; the
code treats them like `Unknown`, and they are identified with it here. -/
def castColumnType (columnType : UInt8) : ColumnType :=
  match columnType.toNat with
  | 0 => .int32
  | 1 => .int64
  | 2 => .float
  | 3 => .string
  | _ => .unknown

/-- The calls that set up a table.  Whether files can be opened and what the
directory lists are arguments. -/
inductive SetupCall where
  | addColumn (name : Text) (size : UInt16) (columnType : UInt8)
  | addIndex (name : Text) (size : UInt16) (columnType : UInt8)
      (primary : Bool)
  | finalizeSchema (schemaWritable : Bool)
  | initializeTable (schemaReadable : Bool) (std : StdSort)
      (canOpen : Text → Bool)
      (lsListing vsListing : Option (List DirectoryEntry))

/-- The call makes the schema final. -/
def SetupCall.finalizes : SetupCall → Bool
  | .addColumn .. | .addIndex .. => false
  | .finalizeSchema .. | .initializeTable .. => true

namespace StoredTable

/-- A new table, with any file manager and any schema file in place. -/
def new (maxNodeHeight : ℕ) (dataPath name : Text)
    (fileManager : FileManager) (schemaFile : Option Text) : StoredTable where
  table := .new maxNodeHeight dataPath name
  fileManager := fileManager
  schemaFile := schemaFile

/-- A call that only uses the table itself. -/
def liftTable (s : StoredTable) : Outcome Table Unit → Outcome StoredTable Unit
  | .returned () table => .returned () { s with table := table }
  | .thrown message table => .thrown message { s with table := table }

def createIndexes (s : StoredTable) (ndebug : Bool) :
    Checked (Outcome StoredTable Unit) := do
  let o ← s.table.createIndexes ndebug
  pure (s.liftTable o)

def finalizeSchema (s : StoredTable) (ndebug schemaWritable : Bool) :
    Checked (Outcome StoredTable Unit) :=
  match s.table.schema.write s.table.schemaFilePath schemaWritable with
  | .error message => .ok (.thrown message s)
  | .ok content =>
      createIndexes { s with
        table := { s.table with schemaFinalized := true }
        schemaFile := some content } ndebug

/-- The beginning of `initialize`: the schema file, if it exists. -/
def readSchema (s : StoredTable) (schemaReadable : Bool) :
    Checked (Outcome StoredTable Unit) :=
  match s.schemaFile with
  | none => .ok (.returned () s)
  | some content => do
      match ← s.table.schema.read s.table.schemaFilePath
          (if schemaReadable then some content else none) with
      | .thrown message schema =>
          pure (.thrown message
            { s with table := { s.table with schema := schema } })
      | .returned () schema =>
          pure (.returned () { s with
            table := { s.table with
              schema := schema
              schemaFinalized := true } })

/-- The end of `initialize`: the data files and the indexes. -/
def openFiles (s : StoredTable) (ndebug : Bool) (std : StdSort)
    (canOpen : Text → Bool)
    (lsListing vsListing : Option (List DirectoryEntry)) :
    Checked (Outcome StoredTable Unit) :=
  match s.fileManager.initializeFiles std canOpen lsListing vsListing with
  | .thrown message fileManager =>
      .ok (.thrown message { s with fileManager := fileManager })
  | .returned () fileManager =>
      createIndexes { s with fileManager := fileManager } ndebug

/-- `Table::initialize`. -/
def initializeTable (s : StoredTable) (ndebug schemaReadable : Bool)
    (std : StdSort) (canOpen : Text → Bool)
    (lsListing vsListing : Option (List DirectoryEntry)) :
    Checked (Outcome StoredTable Unit) := do
  match ← s.readSchema schemaReadable with
  | .thrown message s => pure (.thrown message s)
  | .returned () s => s.openFiles ndebug std canOpen lsListing vsListing

/-- Perform a call. -/
def call (s : StoredTable) (ndebug : Bool) :
    SetupCall → Checked (Outcome StoredTable Unit)
  | .addColumn name size columnType =>
      .ok (s.liftTable (s.table.addColumn name size.toNat
        (castColumnType columnType)))
  | .addIndex name size columnType primary =>
      .ok (s.liftTable (s.table.addIndex name size.toNat
        (castColumnType columnType) primary))
  | .finalizeSchema schemaWritable => s.finalizeSchema ndebug schemaWritable
  | .initializeTable schemaReadable std canOpen lsListing vsListing =>
      s.initializeTable ndebug schemaReadable std canOpen lsListing vsListing

/-- The machine whose events are calls; it stops at a fault. -/
def step (ndebug : Bool) (s : StoredTable) (call : SetupCall) :
    Option StoredTable :=
  (s.call ndebug call).toOption.map Outcome.state

theorem exists_of_step {ndebug : Bool} {s s' : StoredTable} {call : SetupCall}
    (hstep : s.step ndebug call = some s') :
    ∃ o, s.call ndebug call = .ok o ∧ o.state = s' := by
  rw [step] at hstep
  cases ho : s.call ndebug call with
  | error fault =>
      rw [ho] at hstep
      cases hstep
  | ok o =>
      rw [ho] at hstep
      exact ⟨o, rfl, Option.some.inj hstep⟩

/-- `finalizeSchema` does to the table what it does without the files. -/
theorem finalizeSchema_table (s : StoredTable)
    (ndebug schemaWritable : Bool) :
    (s.finalizeSchema ndebug schemaWritable).map
        (fun o => (o.result, o.state.table)) =
      (s.table.finalizeSchema ndebug schemaWritable).map
        fun o => (o.result, o.state) := by
  rw [finalizeSchema, Table.finalizeSchema, Schema.write]
  cases schemaWritable with
  | false => rfl
  | true =>
      simp only [Bool.true_eq_false, if_false, createIndexes]
      cases Table.createIndexes { s.table with schemaFinalized := true }
          ndebug with
      | error fault => rfl
      | ok o => cases o <;> rfl

end StoredTable

/-! ## The primary column -/

/-- The column is the only one that is a primary key, and `before` are the
columns in front of it. -/
def OnlyPrimary (columns before : List Column) (column : Column) : Prop :=
  column.keyType = .primary ∧ ∃ after, columns = before ++ column :: after ∧
    ∀ c ∈ before ++ after, c.keyType ≠ .primary

/-- The columns have a single primary key, a 32-bit integer, and nodes have a
height. -/
def Table.Indexable (table : Table) : Prop :=
  0 < table.maxNodeHeight ∧ ∃ before column,
    OnlyPrimary table.schema.getColumns before column ∧
      column.columnType = .int32

/-- The table has a primary index, as it was built for the only primary column,
and this is the column at the primary offset. -/
def Table.HasIndex (ndebug : Bool) (table : Table) : Prop :=
  ∃ (sl : PrimaryIndex) (before : List Column) (column : Column),
    table.primary = some sl ∧
    (SkipList.new true table.maxNodeHeight).initializeList ndebug =
      .ok (.returned () sl) ∧
    OnlyPrimary table.schema.getColumns before column ∧
    column.columnType = .int32 ∧
    table.schema.getPrimaryOffset = Schema.sizeSum before % 2 ^ 16

theorem OnlyPrimary.mem {columns before : List Column} {column : Column}
    (h : OnlyPrimary columns before column) : column ∈ columns := by
  obtain ⟨-, after, rfl, -⟩ := h
  simp

/-- The offset of the only primary column. -/
theorem OnlyPrimary.offset {columns before : List Column} {column : Column}
    (h : OnlyPrimary columns before column) :
    (Schema.ofColumns columns).getPrimaryOffset =
      Schema.sizeSum before % 2 ^ 16 := by
  obtain ⟨hkey, after, rfl, hothers⟩ := h
  apply Schema.primaryOffset_ofColumns hkey
  intro c hc
  exact hothers c (List.mem_append_right _ hc)

namespace Table

variable (ndebug : Bool) {table : Table}

theorem createIndexesFrom_append {before after : List Column}
    (hbefore : ∀ c ∈ before, c.keyType ≠ .primary) :
    createIndexesFrom ndebug (before ++ after) table =
      createIndexesFrom ndebug after table := by
  induction before with
  | nil => rfl
  | cons c before ih =>
      obtain ⟨hc, hbefore⟩ := List.forall_mem_cons.mp hbefore
      have hskip : createIndex ndebug table c = .ok (.returned () table) := by
        rw [createIndex, if_pos hc]
      rw [List.cons_append, createIndexesFrom, hskip, ok_bind]
      exact ih hbefore

theorem createIndexesFrom_noPrimary {columns : List Column}
    (hcolumns : ∀ c ∈ columns, c.keyType ≠ .primary) :
    createIndexesFrom ndebug columns table = .ok (.returned () table) := by
  rw [← List.append_nil columns, createIndexesFrom_append ndebug hcolumns]
  rfl

theorem exists_firstPrimary (columns : List Column) :
    (∀ c ∈ columns, c.keyType ≠ .primary) ∨
      ∃ (before : List Column) (column : Column) (after : List Column),
        columns = before ++ column :: after ∧ column.keyType = .primary ∧
        ∀ c ∈ before, c.keyType ≠ .primary := by
  induction columns with
  | nil => exact .inl (by simp)
  | cons c columns ih =>
      by_cases hc : c.keyType = .primary
      · exact .inr ⟨[], c, columns, rfl, hc, by simp⟩
      · rcases ih with hnone | ⟨before, column, after, rfl, hkey, hbefore⟩
        · exact .inl (List.forall_mem_cons.mpr ⟨hc, hnone⟩)
        · exact .inr ⟨c :: before, column, after, rfl, hkey,
            List.forall_mem_cons.mpr ⟨hc, hbefore⟩⟩

theorem createIndexesFrom_indexed {columns : List Column} {column : Column}
    (hprimary : table.primary.isSome) (hmem : column ∈ columns)
    (hkey : column.keyType = .primary) :
    ∃ message, createIndexesFrom ndebug columns table =
      .ok (.thrown message table) := by
  rcases exists_firstPrimary columns with
    hnone | ⟨before, first, after, rfl, hfirst, hbefore⟩
  · exact absurd hkey (hnone column hmem)
  · refine ⟨"Table::createIndexes found multiple primary for " ++
      String.ofList table.name, ?_⟩
    rw [createIndexesFrom_append ndebug hbefore, createIndexesFrom, createIndex,
      if_neg (not_not.mpr hfirst), if_pos hprimary]
    rfl

/-- The table with the index that was just built. -/
def indexed (table : Table) : Table :=
  { table with primary := some (initialList true table.maxNodeHeight) }

theorem isSome_indexed (table : Table) : table.indexed.primary.isSome := rfl

theorem createIndex_int32 {column : Column} (hprimary : table.primary = none)
    (hmax : 0 < table.maxNodeHeight) (hkey : column.keyType = .primary)
    (htype : column.columnType = .int32) :
    createIndex ndebug table column = .ok (.returned () table.indexed) := by
  have hinit : (SkipList.new true table.maxNodeHeight :
      PrimaryIndex).initializeList ndebug =
        .ok (.returned () (initialList true table.maxNodeHeight)) :=
    initializeList_spec ndebug true hmax
  simp only [createIndex, hkey, hprimary, htype, hinit, ok_bind]
  rfl

theorem createIndex_throws {column : Column} (hprimary : table.primary = none)
    (hkey : column.keyType = .primary)
    (hbad : ¬(0 < table.maxNodeHeight ∧ column.columnType = .int32)) :
    ∃ message, createIndex ndebug table column =
      .ok (.thrown message table) := by
  rw [createIndex, if_neg (not_not.mpr hkey), hprimary]
  by_cases htype : column.columnType = .int32
  · have hzero : table.maxNodeHeight = 0 := by
      by_contra hne
      exact hbad ⟨by omega, htype⟩
    refine ⟨"SkipList<K>::initialize maxNodeHeight 0", ?_⟩
    simp [htype, SkipList.initializeList, SkipList.new, hzero]
  · simp [htype]

theorem createIndexes_of_indexable (hfinal : table.schemaFinalized = true)
    (hprimary : table.primary = none) (h : table.Indexable) :
    table.createIndexes ndebug = .ok (.returned () table.indexed) := by
  obtain ⟨hmax, before, column, ⟨hkey, after, hcolumns, hothers⟩, htype⟩ := h
  have hbefore : ∀ c ∈ before, c.keyType ≠ .primary :=
    fun c hc => hothers c (List.mem_append_left _ hc)
  have hafter : ∀ c ∈ after, c.keyType ≠ .primary :=
    fun c hc => hothers c (List.mem_append_right _ hc)
  have hfrom : createIndexesFrom ndebug table.schema.getColumns table =
      .ok (.returned () table.indexed) := by
    rw [hcolumns, createIndexesFrom_append ndebug hbefore, createIndexesFrom,
      createIndex_int32 ndebug hprimary hmax hkey htype, ok_bind]
    exact createIndexesFrom_noPrimary ndebug hafter
  rw [createIndexes, if_neg (by simp [hfinal]), hfrom]
  rfl

/-- With other columns `createIndexes` throws, and the schema stays
finalized. -/
theorem createIndexes_throws (hfinal : table.schemaFinalized = true)
    (hprimary : table.primary = none) (h : ¬table.Indexable) :
    ∃ message table', table.createIndexes ndebug =
      .ok (.thrown message table') ∧ table'.schemaFinalized = true := by
  suffices hfrom : (∃ message table', createIndexesFrom ndebug
      table.schema.getColumns table = .ok (.thrown message table') ∧
        table'.schemaFinalized = true) ∨
      createIndexesFrom ndebug table.schema.getColumns table =
        .ok (.returned () table) by
    rw [createIndexes, if_neg (by simp [hfinal])]
    rcases hfrom with ⟨message, table', hthrown, hfinal'⟩ | hreturned
    · exact ⟨message, table', by rw [hthrown]; rfl, hfinal'⟩
    · refine ⟨"Table::createIndexes did not find primary index for " ++
        String.ofList table.name, table, ?_, hfinal⟩
      simp [hreturned, hprimary]
  rcases exists_firstPrimary table.schema.getColumns with
    hnone | ⟨before, column, after, hcolumns, hkey, hbefore⟩
  · exact .inr (createIndexesFrom_noPrimary ndebug hnone)
  rw [hcolumns, createIndexesFrom_append ndebug hbefore, createIndexesFrom]
  apply Or.inl
  by_cases hgood : 0 < table.maxNodeHeight ∧ column.columnType = .int32
  · rw [createIndex_int32 ndebug hprimary hgood.1 hkey hgood.2, ok_bind]
    rcases exists_firstPrimary after with
      hafter | ⟨between, second, rest, hrest, hsecond, -⟩
    · refine absurd ⟨hgood.1, before, column, ⟨hkey, after, hcolumns, ?_⟩,
        hgood.2⟩ h
      intro c hc
      rcases List.mem_append.mp hc with hc | hc
      · exact hbefore c hc
      · exact hafter c hc
    · obtain ⟨message, hthrown⟩ :=
        createIndexesFrom_indexed ndebug (table.isSome_indexed)
          (hrest ▸ List.mem_append_right between List.mem_cons_self)
          hsecond
      exact ⟨message, table.indexed, hthrown, hfinal⟩
  · obtain ⟨message, hthrown⟩ :=
      createIndex_throws ndebug hprimary hkey hgood
    exact ⟨message, table, by rw [hthrown]; rfl, hfinal⟩

theorem createIndexes_indexed (hfinal : table.schemaFinalized = true)
    (hprimary : table.primary.isSome) {column : Column}
    (hmem : column ∈ table.schema.getColumns)
    (hkey : column.keyType = .primary) :
    ∃ message, table.createIndexes ndebug = .ok (.thrown message table) := by
  obtain ⟨message, hthrown⟩ :=
    createIndexesFrom_indexed ndebug hprimary hmem hkey
  refine ⟨message, ?_⟩
  rw [createIndexes, if_neg (by simp [hfinal]), hthrown]
  rfl

end Table

/-! ## What the calls keep -/

theorem Table.Indexable.hasIndex {table : Table} (h : table.Indexable)
    (ndebug : Bool)
    (hschema : table.schema = Schema.ofColumns table.schema.column) :
    table.indexed.HasIndex ndebug := by
  obtain ⟨hmax, before, column, honly, htype⟩ := h
  refine ⟨initialList true table.maxNodeHeight, before, column, rfl,
    initializeList_spec ndebug true hmax, honly, htype, ?_⟩
  have hoffset := honly.offset
  rwa [Schema.getColumns, ← hschema] at hoffset

namespace StoredTable

/-- A finalized table has its primary index, and a call that finalizes the
schema does not leave it finalized when it throws. -/
def Keeps (ndebug : Bool) (s : StoredTable) (call : SetupCall) : Prop :=
  ∀ o, s.call ndebug call = .ok o →
    (o.state.table.schemaFinalized = true →
      o.state.table.HasIndex ndebug) ∧
    (call.finalizes = true → ∀ message s', o = .thrown message s' →
      s'.table.schemaFinalized = false)

/-- The schema is not finalized yet and, if the call goes on to finalize it,
its columns have a single primary key, a 32-bit integer, and the data files can
be loaded. -/
def Safe (s : StoredTable) : SetupCall → Prop
  | .addColumn .. | .addIndex .. => True
  | .finalizeSchema schemaWritable =>
      s.table.schemaFinalized = false ∧
        (schemaWritable = true → s.table.Indexable)
  | .initializeTable schemaReadable std canOpen lsListing vsListing =>
      s.table.schemaFinalized = false ∧ ∀ content schema,
        s.schemaFile = some content → schemaReadable = true →
        s.table.schema.read s.table.schemaFilePath (some content) =
          .ok (.returned () schema) →
        Table.Indexable { s.table with schema := schema } ∧
          ∃ fileManager, s.fileManager.initializeFiles std canOpen lsListing
            vsListing = .returned () fileManager

/-- What safe calls preserve. -/
structure Consistent (ndebug : Bool) (s : StoredTable) : Prop where
  schema : s.table.schema = Schema.ofColumns s.table.schema.column
  unindexed : s.table.schemaFinalized = false → s.table.primary = none
  hasIndex : s.table.schemaFinalized = true → s.table.HasIndex ndebug

theorem new_consistent (ndebug : Bool) (maxNodeHeight : ℕ)
    (dataPath name : Text) (fileManager : FileManager)
    (schemaFile : Option Text) : Consistent ndebug
      (new maxNodeHeight dataPath name fileManager schemaFile) where
  schema := rfl
  unindexed _ := rfl
  hasIndex hfinal := by cases hfinal

variable {ndebug : Bool} {s : StoredTable} {o : Outcome StoredTable Unit}

/-- Only the table matters. -/
theorem Consistent.congr {s' : StoredTable} (hs : s.Consistent ndebug)
    (htable : s'.table = s.table) : s'.Consistent ndebug := by
  constructor
  · rw [htable]
    exact hs.schema
  · rw [htable]
    exact hs.unindexed
  · rw [htable]
    exact hs.hasIndex

/-- The table with more columns. -/
def withColumns (s : StoredTable) (columns : List Column) : StoredTable :=
  { s with table := { s.table with
      schema := columns.foldl Schema.addColumn s.table.schema } }

/-- The table with its schema marked as finalized. -/
def marked (s : StoredTable) : StoredTable :=
  { s with table := { s.table with schemaFinalized := true } }

theorem Consistent.withColumns (hs : s.Consistent ndebug)
    (hopen : s.table.schemaFinalized = false) (columns : List Column) :
    (s.withColumns columns).Consistent ndebug := by
  refine ⟨?_, hs.unindexed, ?_⟩
  · have hfold : columns.foldl Schema.addColumn s.table.schema =
        Schema.ofColumns (s.table.schema.column ++ columns) := by
      rw [Schema.ofColumns_append, ← hs.schema]
    simp only [StoredTable.withColumns, hfold, Schema.column_ofColumns]
  · intro hfinal
    exact absurd (hopen.symm.trans hfinal) (by simp)

/-- An open table that is marked as finalized and gets its index. -/
theorem Consistent.indexed (hs : s.Consistent ndebug)
    (hgood : s.marked.table.Indexable) :
    Consistent ndebug { s.marked with table := s.marked.table.indexed } where
  schema := hs.schema
  unindexed hopen := by cases hopen
  hasIndex _ := hgood.hasIndex ndebug hs.schema

/-! ### Building the indexes -/

theorem createIndexes_of_indexable (ndebug : Bool)
    (hfinal : s.table.schemaFinalized = true)
    (hprimary : s.table.primary = none) (h : s.table.Indexable) :
    s.createIndexes ndebug =
      .ok (.returned () { s with table := s.table.indexed }) := by
  rw [createIndexes, Table.createIndexes_of_indexable ndebug hfinal hprimary h]
  rfl

theorem createIndexes_throws (ndebug : Bool)
    (hfinal : s.table.schemaFinalized = true)
    (hprimary : s.table.primary = none) (h : ¬s.table.Indexable) :
    ∃ message s', s.createIndexes ndebug = .ok (.thrown message s') ∧
      s'.table.schemaFinalized = true := by
  obtain ⟨message, table', hthrown, hfinal'⟩ :=
    Table.createIndexes_throws ndebug hfinal hprimary h
  exact ⟨message, { s with table := table' },
    by rw [createIndexes, hthrown]; rfl, hfinal'⟩

theorem createIndexes_indexed (ndebug : Bool)
    (hfinal : s.table.schemaFinalized = true)
    (hprimary : s.table.primary.isSome) {column : Column}
    (hmem : column ∈ s.table.schema.getColumns)
    (hkey : column.keyType = .primary) :
    ∃ message, s.createIndexes ndebug = .ok (.thrown message s) := by
  obtain ⟨message, hthrown⟩ :=
    Table.createIndexes_indexed ndebug hfinal hprimary hmem hkey
  exact ⟨message, by rw [createIndexes, hthrown]; rfl⟩

/-! ### The beginning and the end of `initialize` -/

section Initialize

variable {std : StdSort} {canOpen : Text → Bool}
  {lsListing vsListing : Option (List DirectoryEntry)}

theorem openFiles_open (ndebug : Bool)
    (hopen : s.table.schemaFinalized = false) :
    ∃ message s', s.openFiles ndebug std canOpen lsListing vsListing =
      .ok (.thrown message s') ∧ s'.table = s.table := by
  rw [openFiles]
  cases s.fileManager.initializeFiles std canOpen lsListing vsListing with
  | thrown message fileManager =>
      exact ⟨message, { s with fileManager := fileManager }, rfl, rfl⟩
  | returned _ fileManager =>
      refine ⟨"Table::createIndexes schema not finalized",
        { s with fileManager := fileManager }, ?_, rfl⟩
      simp [createIndexes, Table.createIndexes, hopen, liftTable]

theorem openFiles_of_indexable (ndebug : Bool)
    (hfinal : s.table.schemaFinalized = true)
    (hprimary : s.table.primary = none) (h : s.table.Indexable)
    {fileManager : FileManager}
    (hfiles : s.fileManager.initializeFiles std canOpen lsListing vsListing =
      .returned () fileManager) :
    s.openFiles ndebug std canOpen lsListing vsListing =
      .ok (.returned ()
        ⟨s.table.indexed, fileManager, s.schemaFile⟩) := by
  rw [openFiles, hfiles]
  exact createIndexes_of_indexable ndebug hfinal hprimary h

theorem openFiles_throws (ndebug : Bool)
    (hfinal : s.table.schemaFinalized = true)
    (hprimary : s.table.primary = none)
    (h : ¬(s.table.Indexable ∧ ∃ fileManager,
      s.fileManager.initializeFiles std canOpen lsListing vsListing =
        .returned () fileManager)) :
    ∃ message s', s.openFiles ndebug std canOpen lsListing vsListing =
      .ok (.thrown message s') ∧ s'.table.schemaFinalized = true := by
  rw [openFiles]
  cases hfiles : s.fileManager.initializeFiles std canOpen lsListing vsListing with
  | thrown message fileManager =>
      exact ⟨message, { s with fileManager := fileManager }, rfl, hfinal⟩
  | returned _ fileManager =>
      have hbad : ¬s.table.Indexable := fun hgood =>
        h ⟨hgood, fileManager, hfiles⟩
      apply createIndexes_throws ndebug
        (s := { s with fileManager := fileManager })
      · exact hfinal
      · exact hprimary
      · exact hbad

theorem openFiles_indexed (ndebug : Bool)
    (hfinal : s.table.schemaFinalized = true)
    (hprimary : s.table.primary.isSome) {column : Column}
    (hmem : column ∈ s.table.schema.getColumns)
    (hkey : column.keyType = .primary) :
    ∃ message s', s.openFiles ndebug std canOpen lsListing vsListing =
      .ok (.thrown message s') ∧ s'.table.schemaFinalized = true := by
  rw [openFiles]
  cases s.fileManager.initializeFiles std canOpen lsListing vsListing with
  | thrown message fileManager =>
      exact ⟨message, { s with fileManager := fileManager }, rfl, hfinal⟩
  | returned _ fileManager =>
      obtain ⟨message, hthrown⟩ : ∃ message,
          createIndexes { s with fileManager := fileManager } ndebug =
            .ok (.thrown message { s with fileManager := fileManager }) :=
        createIndexes_indexed ndebug hfinal hprimary hmem hkey
      exact ⟨message, _, hthrown, hfinal⟩

/-- Reading the schema file adds columns; it finalizes the schema when it
returns. -/
theorem readSchema_spec {schemaReadable : Bool}
    (hread : s.readSchema schemaReadable = .ok o) :
    (s.schemaFile = none ∧ o = .returned () s) ∨
    ∃ (content : Text) (columns : List Column),
      s.schemaFile = some content ∧
      (((∃ message, o = .thrown message (s.withColumns columns)) ∧
          ∀ schema, schemaReadable = true →
            s.table.schema.read s.table.schemaFilePath (some content) ≠
              .ok (.returned () schema)) ∨
        (schemaReadable = true ∧
          s.table.schema.read s.table.schemaFilePath (some content) =
            .ok (.returned () (s.withColumns columns).table.schema) ∧
          o = .returned () (s.withColumns columns).marked)) := by
  obtain ⟨table, fileManager, schemaFile⟩ := s
  cases schemaFile with
  | none => exact .inl ⟨rfl, (Except.ok.inj hread).symm⟩
  | some content =>
      obtain ⟨o', ho', hread⟩ := bind_eq_ok.mp hread
      obtain ⟨columns, -, hstate⟩ := read_adds ho'
      refine .inr ⟨content, columns, rfl, ?_⟩
      cases o' with
      | thrown message schema =>
          obtain rfl := Except.ok.inj hread
          rw [Outcome.state_thrown] at hstate
          refine .inl ⟨⟨message, by rw [hstate]; rfl⟩, ?_⟩
          rintro schema' rfl hreturned
          rw [if_pos rfl, hreturned] at ho'
          cases Except.ok.inj ho'
      | returned _ schema =>
          obtain rfl := Except.ok.inj hread
          rw [Outcome.state_returned] at hstate
          cases schemaReadable with
          | false => cases Except.ok.inj ho'
          | true =>
              rw [hstate] at ho' ⊢
              exact .inr ⟨rfl, ho', rfl⟩

end Initialize

/-! ### Whole calls -/

theorem state_liftTable (s : StoredTable) (o : Outcome Table Unit) :
    (s.liftTable o).state = { s with table := o.state } := by
  cases o <;> rfl

theorem liftTable_consistent (hs : s.Consistent ndebug)
    {o : Outcome Table Unit}
    (h : o.state = s.table ∨ s.table.schemaFinalized = false ∧ ∃ column,
      o.state = { s.table with
        schema := s.table.schema.addColumn column }) :
    (s.liftTable o).state.Consistent ndebug := by
  rw [state_liftTable]
  rcases h with hsame | ⟨hopen, column, hnew⟩
  · rw [hsame]
    exact hs
  · rw [hnew]
    exact hs.withColumns hopen [column]

theorem finalizeSchema_consistent {schemaWritable : Bool}
    (hs : s.Consistent ndebug) (hsafe : s.Safe (.finalizeSchema schemaWritable))
    (hcall : s.finalizeSchema ndebug schemaWritable = .ok o) :
    o.state.Consistent ndebug ∧ ∀ message s', o = .thrown message s' →
      s'.table.schemaFinalized = false := by
  obtain ⟨hopen, hindexable⟩ := hsafe
  rw [finalizeSchema] at hcall
  cases schemaWritable with
  | false =>
      obtain rfl := Except.ok.inj hcall
      refine ⟨hs, ?_⟩
      rintro _ _ ⟨⟩
      exact hopen
  | true =>
      obtain ⟨content, hwrite⟩ : ∃ content,
          s.table.schema.write s.table.schemaFilePath true = .ok content :=
        ⟨_, rfl⟩
      simp only [hwrite] at hcall
      have hreturned := createIndexes_of_indexable ndebug
        (s := marked { s with schemaFile := some content }) rfl
        (hs.unindexed hopen) (hindexable rfl)
      obtain rfl := Except.ok.inj (hreturned.symm.trans hcall)
      refine ⟨?_, by rintro _ _ ⟨⟩⟩
      exact Consistent.indexed (s := { s with schemaFile := some content })
        (hs.congr rfl) (hindexable rfl)

theorem initializeTable_consistent {schemaReadable : Bool}
    {std : StdSort} {canOpen : Text → Bool}
    {lsListing vsListing : Option (List DirectoryEntry)}
    (hs : s.Consistent ndebug)
    (hsafe : s.Safe
      (.initializeTable schemaReadable std canOpen lsListing vsListing))
    (hcall : s.initializeTable ndebug schemaReadable std canOpen lsListing
      vsListing = .ok o) :
    o.state.Consistent ndebug ∧ ∀ message s', o = .thrown message s' →
      s'.table.schemaFinalized = false := by
  obtain ⟨hopen, hloads⟩ := hsafe
  obtain ⟨o₁, hread, hcall⟩ := bind_eq_ok.mp hcall
  rcases readSchema_spec hread with ⟨-, rfl⟩ | ⟨content, columns, hfile,
    ⟨⟨message, rfl⟩, -⟩ | ⟨hreadable, hschema, rfl⟩⟩
  · obtain ⟨message, s', hthrown, htable⟩ := openFiles_open ndebug hopen
    obtain rfl := Except.ok.inj (hthrown.symm.trans hcall)
    refine ⟨hs.congr htable, ?_⟩
    rintro _ _ ⟨⟩
    rw [htable]
    exact hopen
  · obtain rfl := Except.ok.inj hcall
    refine ⟨hs.withColumns hopen columns, ?_⟩
    rintro _ _ ⟨⟩
    exact hopen
  · obtain ⟨hgood, fileManager, hfiles⟩ :=
      hloads content _ hfile hreadable hschema
    have hreturned := openFiles_of_indexable ndebug
      (s := (s.withColumns columns).marked) rfl (hs.unindexed hopen) hgood
      hfiles
    obtain rfl := Except.ok.inj (hreturned.symm.trans hcall)
    refine ⟨?_, by rintro _ _ ⟨⟩⟩
    exact ((hs.withColumns hopen columns).indexed hgood).congr rfl

theorem call_consistent {call : SetupCall} (hs : s.Consistent ndebug)
    (hsafe : s.Safe call) (hcall : s.call ndebug call = .ok o) :
    o.state.Consistent ndebug ∧
      (call.finalizes = true → ∀ message s', o = .thrown message s' →
        s'.table.schemaFinalized = false) := by
  cases call with
  | addColumn name size columnType =>
      obtain rfl := Except.ok.inj hcall
      refine ⟨liftTable_consistent hs ?_, by rintro ⟨⟩⟩
      rw [Table.addColumn]
      split
      · exact .inl rfl
      · next hopen => exact .inr ⟨Bool.eq_false_of_not_eq_true hopen, _, rfl⟩
  | addIndex name size columnType primary =>
      obtain rfl := Except.ok.inj hcall
      refine ⟨liftTable_consistent hs ?_, by rintro ⟨⟩⟩
      rw [Table.addIndex]
      split
      · exact .inl rfl
      · next hopen => exact .inr ⟨Bool.eq_false_of_not_eq_true hopen, _, rfl⟩
  | finalizeSchema schemaWritable =>
      obtain ⟨hs', hopen⟩ := finalizeSchema_consistent hs hsafe hcall
      exact ⟨hs', fun _ => hopen⟩
  | initializeTable schemaReadable std canOpen lsListing vsListing =>
      obtain ⟨hs', hopen⟩ := initializeTable_consistent hs hsafe hcall
      exact ⟨hs', fun _ => hopen⟩

theorem Consistent.exists_primary (hs : s.Consistent ndebug)
    (hfinal : s.table.schemaFinalized = true) :
    s.table.primary.isSome ∧ ∃ column ∈ s.table.schema.getColumns,
      column.keyType = .primary := by
  obtain ⟨sl, before, column, hprimary, -, honly, -⟩ := hs.hasIndex hfinal
  exact ⟨by rw [hprimary]; rfl, column, honly.mem, honly.1⟩

theorem finalizeSchema_violates {schemaWritable : Bool}
    (hs : s.Consistent ndebug)
    (hviolated : ¬s.Safe (.finalizeSchema schemaWritable))
    (hcall : s.finalizeSchema ndebug schemaWritable = .ok o) :
    ∃ message s', o = .thrown message s' ∧
      s'.table.schemaFinalized = true := by
  rw [finalizeSchema] at hcall
  cases hopen : s.table.schemaFinalized with
  | false =>
      have hbad : schemaWritable = true ∧ ¬s.table.Indexable := by
        by_contra hgood
        exact hviolated ⟨hopen, fun hwritable => by_contra fun hbad =>
          hgood ⟨hwritable, hbad⟩⟩
      obtain ⟨rfl, hbad⟩ := hbad
      obtain ⟨message, s', hthrown, hfinal⟩ := createIndexes_throws ndebug
        (s := marked { s with schemaFile := some _ }) rfl
        (hs.unindexed hopen) hbad
      exact ⟨message, s', Except.ok.inj (hcall.symm.trans hthrown), hfinal⟩
  | true =>
      obtain ⟨hprimary, column, hmem, hkey⟩ := hs.exists_primary hopen
      cases schemaWritable with
      | false => exact ⟨_, s, (Except.ok.inj hcall).symm, hopen⟩
      | true =>
          obtain ⟨message, hthrown⟩ := createIndexes_indexed ndebug
            (s := marked { s with schemaFile := some _ }) rfl hprimary hmem
            hkey
          exact ⟨message, _, Except.ok.inj (hcall.symm.trans hthrown), rfl⟩

theorem initializeTable_throws_open {schemaReadable : Bool}
    {std : StdSort} {canOpen : Text → Bool}
    {lsListing vsListing : Option (List DirectoryEntry)}
    (hs : s.Consistent ndebug) (hopen : s.table.schemaFinalized = false)
    (hviolated : ¬s.Safe
      (.initializeTable schemaReadable std canOpen lsListing vsListing))
    (hcall : s.initializeTable ndebug schemaReadable std canOpen lsListing
      vsListing = .ok o) :
    ∃ message s', o = .thrown message s' ∧
      s'.table.schemaFinalized = true := by
  obtain ⟨o₁, hread, hcall⟩ := bind_eq_ok.mp hcall
  rcases readSchema_spec hread with ⟨hfile, -⟩ | ⟨content, columns, hfile,
    ⟨-, hrefused⟩ | ⟨hreadable, hschema, rfl⟩⟩
  · refine absurd ⟨hopen, fun content schema hcontent => ?_⟩ hviolated
    exact absurd (hfile.symm.trans hcontent) (by simp)
  · refine absurd ⟨hopen, fun content' schema hcontent hreadable hschema =>
      ?_⟩ hviolated
    obtain rfl := Option.some.inj (hfile.symm.trans hcontent)
    exact absurd hschema (hrefused schema hreadable)
  · have hbad : ¬((s.withColumns columns).marked.table.Indexable ∧
        ∃ fileManager, s.fileManager.initializeFiles std canOpen lsListing
          vsListing = .returned () fileManager) := by
      intro hgood
      apply hviolated
      refine ⟨hopen, fun content' schema hcontent _ hschema' => ?_⟩
      obtain rfl := Option.some.inj (hfile.symm.trans hcontent)
      obtain rfl := (Outcome.returned.inj
        (Except.ok.inj (hschema.symm.trans hschema'))).2
      exact hgood
    obtain ⟨message, s', hthrown, hfinal⟩ := openFiles_throws ndebug
      (s := (s.withColumns columns).marked) rfl (hs.unindexed hopen) hbad
    exact ⟨message, s', Except.ok.inj (hcall.symm.trans hthrown), hfinal⟩

theorem initializeTable_throws_finalized {schemaReadable : Bool}
    {std : StdSort} {canOpen : Text → Bool}
    {lsListing vsListing : Option (List DirectoryEntry)}
    (hs : s.Consistent ndebug) (hfinalized : s.table.schemaFinalized = true)
    (hcall : s.initializeTable ndebug schemaReadable std canOpen lsListing
      vsListing = .ok o) :
    ∃ message s', o = .thrown message s' ∧
      s'.table.schemaFinalized = true := by
  obtain ⟨hprimary, column, hmem, hkey⟩ := hs.exists_primary hfinalized
  obtain ⟨o₁, hread, hcall⟩ := bind_eq_ok.mp hcall
  rcases readSchema_spec hread with ⟨-, rfl⟩ | ⟨content, columns, hfile,
    ⟨⟨message, rfl⟩, -⟩ | ⟨-, -, rfl⟩⟩
  · obtain ⟨message, s', hthrown, hfinal⟩ :=
      openFiles_indexed ndebug hfinalized hprimary hmem hkey
    exact ⟨message, s', Except.ok.inj (hcall.symm.trans hthrown), hfinal⟩
  · exact ⟨message, _, (Except.ok.inj hcall).symm, hfinalized⟩
  · have hmem' : column ∈
        (s.withColumns columns).marked.table.schema.getColumns := by
      rw [Schema.getColumns, marked, withColumns, Schema.column_foldl]
      exact List.mem_append_left columns hmem
    obtain ⟨message, s', hthrown, hfinal⟩ := openFiles_indexed ndebug
      (s := (s.withColumns columns).marked) rfl hprimary hmem' hkey
    exact ⟨message, s', Except.ok.inj (hcall.symm.trans hthrown), hfinal⟩

theorem call_violates {call : SetupCall} (hs : s.Consistent ndebug)
    (hviolated : ¬s.Safe call) (hcall : s.call ndebug call = .ok o) :
    call.finalizes = true ∧ ∃ message s', o = .thrown message s' ∧
      s'.table.schemaFinalized = true := by
  cases call with
  | addColumn => exact absurd trivial hviolated
  | addIndex => exact absurd trivial hviolated
  | finalizeSchema schemaWritable =>
      exact ⟨rfl, finalizeSchema_violates hs hviolated hcall⟩
  | initializeTable schemaReadable std canOpen lsListing vsListing =>
      refine ⟨rfl, ?_⟩
      by_cases hfinalized : s.table.schemaFinalized = true
      · exact initializeTable_throws_finalized hs hfinalized hcall
      · have hopen := Bool.eq_false_of_not_eq_true hfinalized
        exact initializeTable_throws_open hs hopen hviolated hcall

/-- A call that does not fault keeps what was promised exactly when it is
safe. -/
theorem keeps_iff_safe {call : SetupCall} (hs : s.Consistent ndebug)
    (hcall : s.call ndebug call = .ok o) :
    s.Keeps ndebug call ↔ s.Safe call := by
  constructor
  · intro hkeeps
    by_contra hviolated
    obtain ⟨hfinalizes, message, s', rfl, hfinal⟩ :=
      call_violates hs hviolated hcall
    have hopen := (hkeeps _ hcall).2 hfinalizes message s' rfl
    exact absurd (hopen.symm.trans hfinal) (by simp)
  · intro hsafe o' ho'
    obtain ⟨hs', hthrows⟩ := call_consistent hs hsafe ho'
    exact ⟨hs'.hasIndex, hthrows⟩

/-- In a run of safe calls from a new table, every state with a finalized
schema has the primary index.  The calls of a run all keep this, and leave the
schema open when they throw, exactly when they are all safe. -/
theorem finalized_hasIndex (ndebug : Bool) (maxNodeHeight : ℕ)
    (dataPath name : Text) (fileManager : FileManager)
    (schemaFile : Option Text) {calls : List SetupCall} {s : StoredTable}
    (hrun : Machine.run (step ndebug)
      (new maxNodeHeight dataPath name fileManager schemaFile) calls =
        some s) :
    (Machine.Guarded (step ndebug) Safe
        (new maxNodeHeight dataPath name fileManager schemaFile) calls →
      s.table.schemaFinalized = true → s.table.HasIndex ndebug) ∧
    (Machine.Guarded (step ndebug) (Keeps ndebug)
        (new maxNodeHeight dataPath name fileManager schemaFile) calls ↔
      Machine.Guarded (step ndebug) Safe
        (new maxNodeHeight dataPath name fileManager schemaFile) calls) := by
  have hnew := new_consistent ndebug maxNodeHeight dataPath name fileManager
    schemaFile
  have hsafeStep : ∀ (s : StoredTable) (call : SetupCall) (s' : StoredTable),
      s.Consistent ndebug → s.Safe call → s.step ndebug call = some s' →
        s'.Consistent ndebug := by
    intro s call s' hs hsafe hstep
    obtain ⟨o, ho, rfl⟩ := exists_of_step hstep
    exact (call_consistent hs hsafe ho).1
  constructor
  · intro hsafe
    exact (Machine.run_invariant_of_guarded hsafeStep hnew hsafe hrun).hasIndex
  · apply Machine.guarded_iff ?_ hsafeStep hnew hrun
    intro s call s' hs hstep
    obtain ⟨o, ho, -⟩ := exists_of_step hstep
    exact keeps_iff_safe hs ho

/-- A table before any call, without a schema file. -/
def newKeys : StoredTable :=
  new 1 "data/".toList "keys".toList
    (.new "data/".toList ⟨"keys".toList, by decide⟩) none

theorem finalized_hasIndex_one_key :
    ∃ s, Machine.run (step false) newKeys
        [.addIndex "key".toList 4 0 true, .finalizeSchema true] = some s ∧
      s.table.schemaFinalized = true ∧ s.table.HasIndex false := by
  refine ⟨_, rfl, rfl, ?_⟩
  apply (@finalized_hasIndex false 1 "data/".toList "keys".toList
    (.new "data/".toList ⟨"keys".toList, by decide⟩) none
    [.addIndex "key".toList 4 0 true, .finalizeSchema true] _ rfl).1
  · refine ⟨trivial, fun s₁ h₁ => ?_⟩
    obtain rfl : _ = s₁ := Option.some.inj h₁
    refine ⟨⟨rfl, fun _ => ?_⟩, fun _ _ => trivial⟩
    refine ⟨by decide, [], ⟨"key".toList, 4, .int32, .primary⟩, ?_, rfl⟩
    exact ⟨rfl, [], rfl, by simp⟩
  · rfl

/-- Without columns `finalizeSchema` throws, and the table stays finalized
without an index. -/
theorem finalizeSchema_throws_finalized :
    ∃ message s, newKeys.call false (.finalizeSchema true) =
        .ok (.thrown message s) ∧
      s.table.schemaFinalized = true ∧ s.table.primary = none :=
  ⟨_, _, rfl, rfl, rfl⟩

end StoredTable

end SquidDB.Engine
