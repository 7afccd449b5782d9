import SquidDB.Lib.Int32Order
import SquidDB.Core.SkipListIterator
import SquidDB.Engine.ThreadProtocol
import SquidDB.Storage.Schema

/-!
# Tables

`Table` with its primary index, together with the manager of the thread
contexts it works with.  The files of the table and its secondary indexes,
which are never built, are left out; `schemaWritable` tells whether the schema
file can be written.
-/

namespace SquidDB.Engine

open Checked SquidDB.Core SquidDB.Storage

/-- The primary index: keys are `std::int32_t`, data are row buffers. -/
abbrev PrimaryIndex := SkipList Int32 RowBuffer

/-- `Table`; `maxNodeHeight` is the configuration's. -/
structure Table where
  maxNodeHeight : ℕ
  dataPath : Text
  name : Text
  schema : Schema
  schemaFinalized : Bool
  primary : Option PrimaryIndex

namespace Table

/-- The constructor. -/
def new (maxNodeHeight : ℕ) (dataPath name : Text) : Table where
  maxNodeHeight := maxNodeHeight
  dataPath := dataPath
  name := name
  schema := Schema.new
  schemaFinalized := false
  primary := none

def addColumn (table : Table) (name : Text) (size : ℕ)
    (columnType : ColumnType) : Outcome Table Unit :=
  if table.schemaFinalized then
    .thrown "Table::addColumn schema is finalized" table
  else
    .returned () { table with
      schema := table.schema.addColumn ⟨name, size, columnType, .none⟩ }

def addIndex (table : Table) (name : Text) (size : ℕ)
    (columnType : ColumnType) (primary : Bool) : Outcome Table Unit :=
  if table.schemaFinalized then
    .thrown "Table::addIndex schema is finalized" table
  else
    let keyType := if primary then KeyType.primary else KeyType.secondary
    .returned () { table with
      schema := table.schema.addColumn ⟨name, size, columnType, keyType⟩ }

/-- The body of the loop in `createIndexes`. -/
def createIndex (ndebug : Bool) (table : Table) (column : Column) :
    Checked (Outcome Table Unit) :=
  if column.keyType ≠ .primary then
    .ok (.returned () table)
  else if table.primary.isSome then
    .ok (.thrown ("Table::createIndexes found multiple primary for " ++
      String.ofList table.name) table)
  else if column.columnType ≠ .int32 then
    .ok (.thrown ("Table::createIndexes index type not supported " ++
      column.columnType.columnTypeString ++ " for " ++
      String.ofList table.name) table)
  else do
    let skipList : PrimaryIndex := SkipList.new true table.maxNodeHeight
    match ← skipList.initializeList ndebug with
    | .returned () skipList =>
        pure (.returned () { table with primary := some skipList })
    | .thrown message _ => pure (.thrown message table)

/-- The loop of `createIndexes`. -/
def createIndexesFrom (ndebug : Bool) :
    List Column → Table → Checked (Outcome Table Unit)
  | [], table => .ok (.returned () table)
  | column :: columns, table => do
      match ← createIndex ndebug table column with
      | .returned () table => createIndexesFrom ndebug columns table
      | .thrown message table => pure (.thrown message table)

def createIndexes (table : Table) (ndebug : Bool) :
    Checked (Outcome Table Unit) :=
  if table.schemaFinalized = false then
    .ok (.thrown "Table::createIndexes schema not finalized" table)
  else do
    match ← createIndexesFrom ndebug table.schema.getColumns table with
    | .thrown message table => pure (.thrown message table)
    | .returned () table =>
        if table.primary.isNone then
          pure (.thrown
            ("Table::createIndexes did not find primary index for " ++
              String.ofList table.name) table)
        else
          pure (.returned () table)

/-- The path of the schema file. -/
def schemaFilePath (table : Table) : Text :=
  table.dataPath ++ table.name ++ ".ss".toList

def finalizeSchema (table : Table) (ndebug schemaWritable : Bool) :
    Checked (Outcome Table Unit) :=
  if schemaWritable = false then
    .ok (.thrown ("Schema::write unable to write file " ++
      String.ofList table.schemaFilePath) table)
  else
    createIndexes { table with schemaFinalized := true } ndebug

/-- The statuses `commitMemory` and `abortTransaction` store. -/
def setStatuses {K D : Type} (status : Status) :
    List KeyRowInfo → Heap K D → Checked (Heap K D)
  | [], h => .ok h
  | keyRowInfo :: rows, h => do
      let h ← h.setStatus (some keyRowInfo.rowInfo) status
      setStatuses status rows h

/-- `commitMemory` and `abortTransaction`: walk the affected rows, which live
in the memory of the index. -/
def markRows (table : Table) (status : Status) (rows : List KeyRowInfo) :
    Checked Table :=
  match table.primary with
  | none => do
      let _ ← setStatuses status rows (Heap.empty : Heap Int32 RowBuffer)
      pure table
  | some primary => do
      let h ← setStatuses status rows primary.heap
      pure { table with primary := some { primary with heap := h } }

end Table

/-- A table and the thread contexts. -/
structure System where
  table : Table
  manager : ThreadContextManager

namespace System

/-! ## Transactions -/

/-- `Table::beginTransaction`. -/
def beginTransaction (s : System) (t : ThreadId) : Outcome System Unit :=
  match Engine.beginTransaction s.manager t with
  | .returned () manager => .returned () { s with manager := manager }
  | .thrown message manager => .thrown message { s with manager := manager }

/-- What `commit` and `rollback` share: they differ in the status the rows get
and in how the context lets go of the transaction. -/
def endTransaction (s : System) (t : ThreadId) (status : Status)
    (leave : ThreadContext → Outcome ThreadContext Unit) :
    Checked (Outcome System Unit) := do
  let (ctx, manager) := s.manager.getThreadContext t
  let transaction ← nonNull ctx.getTransaction
  let transactionId := transaction.transactionId
  let table ← s.table.markRows status transaction.getAffectedRows
  match leave ctx with
  | .thrown message _ => pure (.thrown message ⟨table, manager⟩)
  | .returned () ctx =>
      let manager := manager.setThreadContext t ctx
      pure (.returned ()
        ⟨table, manager.removeTransactionActive transactionId⟩)

/-- `Table::commit`; `commitLogValue` does nothing. -/
def commit (s : System) (t : ThreadId) : Checked (Outcome System Unit) :=
  s.endTransaction t .committed ThreadContext.committed

/-- `Table::rollback`. -/
def rollback (s : System) (t : ThreadId) : Checked (Outcome System Unit) :=
  s.endTransaction t .aborted ThreadContext.aborted

/-! ## Rows -/

/-- An operation on the index, as the row calls pass it the transaction. -/
abbrev IndexOperation :=
  PrimaryIndex → Option Transaction →
    Checked (Outcome PrimaryIndex (Bool × Option Transaction))

/-- What `insertRow`, `updateRow` and `deleteRow` share: the assertion, and the
implicit transaction around the operation when none is open. -/
def rowCall (s : System) (ndebug : Bool) (t : ThreadId)
    (operate : IndexOperation) : Checked (Outcome System Bool) := do
  assert ndebug
    (.ok (s.table.schemaFinalized && s.table.primary.isSome))
  let (ctx, manager) := s.manager.getThreadContext t
  let implicitTransaction := ctx.getTransaction.isNone
  let begun : Outcome System Unit :=
    if implicitTransaction then
      beginTransaction { s with manager := manager } t
    else .returned () { s with manager := manager }
  match begun with
  | .thrown message s => pure (.thrown message s)
  | .returned () s =>
      let (ctx, manager) := s.manager.getThreadContext t
      let primary ← nonNull s.table.primary
      match ← operate primary ctx.getTransaction with
      | .thrown message primary =>
          pure (.thrown message
            ⟨{ s.table with primary := some primary }, manager⟩)
      | .returned (result, transaction) primary =>
          let s : System := ⟨{ s.table with primary := some primary },
            manager.setThreadContext t ⟨transaction⟩⟩
          if implicitTransaction then
            let o ← s.commit t
            pure (o.map fun _ => result)
          else
            pure (.returned result s)

/-- `Table::insertRow`, which reads the key from the row; `draw` are the random
values of the node height. -/
def insertRow (s : System) (ndebug : Bool) (t : ThreadId) (row : RowBuffer)
    (draw : ℕ → ℕ) : Checked (Outcome System Bool) :=
  let primaryOffset := s.table.schema.getPrimaryOffset
  let rowSize := s.table.schema.getTotalSize
  s.rowCall ndebug t fun primary transaction => do
    let key ← row.readInt32 primaryOffset
    primary.insert ndebug key (some row) rowSize 0 draw transaction

/-- `Table::deleteRow`. -/
def deleteRow (s : System) (ndebug : Bool) (t : ThreadId) (key : Int32) :
    Checked (Outcome System Bool) :=
  s.rowCall ndebug t fun primary transaction => do
    let o ← primary.remove ndebug key
    pure (o.map fun result => (result, transaction))

/-- `Table::updateRow`. -/
def updateRow (s : System) (ndebug : Bool) (t : ThreadId) (key : Int32)
    (row : RowBuffer) : Checked (Outcome System Bool) :=
  let rowSize := s.table.schema.getTotalSize
  s.rowCall ndebug t fun primary transaction =>
    primary.update ndebug key (some row) rowSize transaction

/-- `Table::scan`, run to its end. -/
def scan (s : System) (how : ℕ → SkipListIterator.Advance) :
    Checked (Outcome PrimaryIndex (List (Int32 × Option RowBuffer))) := do
  let primary ← nonNull s.table.primary
  SkipList.visit how primary.scan

/-- `Table::rangeScan`, run to its end. -/
def rangeScan (s : System) (ndebug : Bool)
    (how : ℕ → SkipListIterator.Advance) (startKey endKey : Int32) :
    Checked (Outcome PrimaryIndex (List (Int32 × Option RowBuffer))) := do
  let primary ← nonNull s.table.primary
  SkipList.visit how (primary.rangeScan ndebug startKey endKey)

end System

/-! ## Whole calls as steps -/

/-- The calls of a thread on the table. -/
inductive TableCall where
  | beginTransaction
  | commit
  | rollback
  | insertRow (row : RowBuffer) (draw : ℕ → ℕ)
  | updateRow (key : Int32) (row : RowBuffer)
  | deleteRow (key : Int32)

namespace System

/-- Perform a call; the calls without a result give `true`. -/
def call (s : System) (ndebug : Bool) (t : ThreadId) :
    TableCall → Checked (Outcome System Bool)
  | .beginTransaction => .ok ((s.beginTransaction t).map fun _ => true)
  | .commit => do
      let o ← s.commit t
      pure (o.map fun _ => true)
  | .rollback => do
      let o ← s.rollback t
      pure (o.map fun _ => true)
  | .insertRow row draw => s.insertRow ndebug t row draw
  | .updateRow key row => s.updateRow ndebug t key row
  | .deleteRow key => s.deleteRow ndebug t key

/-- The machine whose events are whole calls of threads; it stops at a
fault. -/
def step (ndebug : Bool) (s : System) (e : ThreadId × TableCall) :
    Option System :=
  (s.call ndebug e.1 e.2).toOption.map Outcome.state

end System

end SquidDB.Engine
