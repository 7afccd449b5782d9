import SquidDB.Utils.StringUtils

/-!
# Schemas

The columns of a table, the layout of its rows, and the schema file.  Sizes and
offsets are 16-bit and wrap around.  Rows are the buffers that callers hand
over; a buffer keeps its address, and its bytes are never changed.
-/

namespace SquidDB.Storage

open Checked SquidDB.Utils

/-- `Column::ColumnType`. -/
inductive ColumnType where
  | int32
  | int64
  | float
  | string
  | unknown
  deriving DecidableEq, Repr

/-- `Column::KeyType`. -/
inductive KeyType where
  | none
  | primary
  | secondary
  | unknown
  deriving DecidableEq, Repr

/-- `Column`. -/
structure Column where
  name : Text
  size : ℕ
  columnType : ColumnType
  keyType : KeyType
  deriving DecidableEq, Repr

namespace ColumnType

def columnTypeString : ColumnType → String
  | int32 => "INT32"
  | int64 => "INT64"
  | float => "FLOAT"
  | string => "STRING"
  | unknown => "UNKNOWN"

def parseColumnType (columnTypeString : Text) : ColumnType :=
  let columnTypeStringUpper := StringUtils.toUpper columnTypeString
  if columnTypeStringUpper = "INT32".toList then int32
  else if columnTypeStringUpper = "INT64".toList then int64
  else if columnTypeStringUpper = "FLOAT".toList then float
  else if columnTypeStringUpper = "STRING".toList then string
  else unknown

end ColumnType

namespace KeyType

def keyTypeString : KeyType → String
  | none => "NONE"
  | primary => "PRIMARY"
  | secondary => "SECONDARY"
  | unknown => "UNKNOWN"

def parseKeyType (keyTypeString : Text) : KeyType :=
  let keyTypeStringUpper := StringUtils.toUpper keyTypeString
  if keyTypeStringUpper = "NONE".toList then none
  else if keyTypeStringUpper = "PRIMARY".toList then primary
  else if keyTypeStringUpper = "SECONDARY".toList then secondary
  else unknown

end KeyType

/-- What `Schema::write` prints for a column, before the end of the line. -/
def Column.line (column : Column) : Text :=
  column.name ++ ':' :: (Text.decimal column.size ++
    ':' :: (column.columnType.columnTypeString.toList ++
      ':' :: column.keyType.keyTypeString.toList))

/-- `Schema`; `offset` is the map from column names to offsets. -/
structure Schema where
  column : List Column
  offset : Text → Option ℕ
  totalSize : ℕ
  primaryOffset : ℕ
  primarySize : ℕ
  keySizeFixed : Bool
  rowSizeFixed : Bool

namespace Schema

/-- The constructor. -/
def new : Schema where
  column := []
  offset := fun _ => none
  totalSize := 0
  primaryOffset := 0
  primarySize := 0
  keySizeFixed := true
  rowSizeFixed := true

def addColumn (schema : Schema) (column : Column) : Schema where
  column := schema.column ++ [column]
  offset := Function.update schema.offset column.name (some schema.totalSize)
  totalSize := (schema.totalSize + column.size) % 2 ^ 16
  primaryOffset :=
    if column.keyType = .primary then schema.totalSize
    else schema.primaryOffset
  primarySize :=
    if column.keyType = .primary then column.size else schema.primarySize
  keySizeFixed :=
    if column.size = 0 ∧ column.keyType ≠ .none then false
    else schema.keySizeFixed
  rowSizeFixed := if column.size = 0 then false else schema.rowSizeFixed

def getColumns (schema : Schema) : List Column := schema.column

def getTotalSize (schema : Schema) : ℕ := schema.totalSize

def getPrimaryOffset (schema : Schema) : ℕ := schema.primaryOffset

def getPrimarySize (schema : Schema) : ℕ := schema.primarySize

/-- `getOffset`; `std::unordered_map::at` throws for an unknown name. -/
def getOffset (schema : Schema) (columnName : Text) : Except String ℕ :=
  match schema.offset columnName with
  | none => .error "unordered_map::at"
  | some offset => .ok offset

/-- `write`: the contents of the file, when it can be opened. -/
def write (schema : Schema) (filePath : Text) (writable : Bool) :
    Except String Text :=
  if writable = false then
    .error ("Schema::write unable to write file " ++ String.ofList filePath)
  else
    .ok (schema.column.flatMap fun column => column.line ++ ['\n'])

/-- The body of the loop in `read`.  The columns of earlier lines stay when a
line is refused. -/
def readLine (schema : Schema) (line : Text) :
    Checked (Outcome Schema Unit) := do
  let line ← StringUtils.trim line
  if line = [] ∨ line.head? = some '#' then
    pure (.returned () schema)
  else
    match StringUtils.split line ':' with
    | [name, size, columnType, keyType] =>
        match Text.stoul size with
        | .error message => pure (.thrown message schema)
        | .ok size =>
            pure (.returned () (schema.addColumn ⟨name, size % 2 ^ 16,
              ColumnType.parseColumnType columnType,
              KeyType.parseKeyType keyType⟩))
    | _ =>
        pure (.thrown
          ("Schema::read invalid schema line " ++ String.ofList line) schema)

/-- The loop of `read`. -/
def readLines : List Text → Schema → Checked (Outcome Schema Unit)
  | [], schema => .ok (.returned () schema)
  | line :: lines, schema => do
      match ← schema.readLine line with
      | .returned () schema => readLines lines schema
      | .thrown message schema => pure (.thrown message schema)

/-- `read`; `content` is what the file holds, when it can be opened. -/
def read (schema : Schema) (filePath : Text) (content : Option Text) :
    Checked (Outcome Schema Unit) :=
  match content with
  | none =>
      .ok (.thrown
        ("Schema::read unable to read file " ++ String.ofList filePath)
        schema)
  | some content => readLines (Text.lines content) schema

/-- The schema built by adding the columns in order. -/
def ofColumns (columns : List Column) : Schema :=
  columns.foldl addColumn new

end Schema

/-- A row buffer.  The address stands for the allocation: no two share one. -/
structure RowBuffer where
  address : ℕ
  bytes : List UInt8
  deriving DecidableEq, Repr

/-- The integer behind four bytes, lowest byte first. -/
def int32OfBytes (b₀ b₁ b₂ b₃ : UInt8) : Int32 :=
  (b₀.toUInt32 ||| b₁.toUInt32 <<< 8 ||| b₂.toUInt32 <<< 16 |||
    b₃.toUInt32 <<< 24).toInt32

/-- Read an `std::int32_t` at an offset into the buffer. -/
def RowBuffer.readInt32 (row : RowBuffer) (offset : ℕ) : Checked Int32 :=
  match row.bytes.drop offset with
  | b₀ :: b₁ :: b₂ :: b₃ :: _ => .ok (int32OfBytes b₀ b₁ b₂ b₃)
  | _ => .error .outOfBounds

/-- The integer behind bytes, lowest byte first. -/
def int64OfBytes (bytes : List UInt8) : Int64 :=
  (bytes.foldr (fun b (value : UInt64) => b.toUInt64 ||| value <<< 8)
    0).toInt64

/-- Read an `std::int64_t` at an offset into the buffer. -/
def RowBuffer.readInt64 (row : RowBuffer) (offset : ℕ) : Checked Int64 :=
  let bytes := (row.bytes.drop offset).take 8
  if bytes.length = 8 then .ok (int64OfBytes bytes)
  else .error .outOfBounds

namespace Schema

def readInt32 (schema : Schema) (columnName : Text) (row : RowBuffer) :
    Checked (Except String Int32) :=
  match schema.getOffset columnName with
  | .error message => .ok (.error message)
  | .ok offset => do
      let value ← row.readInt32 offset
      pure (.ok value)

def readInt64 (schema : Schema) (columnName : Text) (row : RowBuffer) :
    Checked (Except String Int64) :=
  match schema.getOffset columnName with
  | .error message => .ok (.error message)
  | .ok offset => do
      let value ← row.readInt64 offset
      pure (.ok value)

end Schema

/-! ## Layout -/

namespace Schema

variable {columns : List Column}

/-- The sum of the sizes of the columns. -/
def sizeSum (columns : List Column) : ℕ := (columns.map Column.size).sum

theorem ofColumns_concat (columns : List Column) (column : Column) :
    ofColumns (columns ++ [column]) = (ofColumns columns).addColumn column := by
  rw [ofColumns, List.foldl_append]
  rfl

theorem ofColumns_append (before after : List Column) :
    ofColumns (before ++ after) = after.foldl addColumn (ofColumns before) :=
  List.foldl_append

theorem column_foldl (columns : List Column) (schema : Schema) :
    (columns.foldl addColumn schema).column = schema.column ++ columns := by
  induction columns generalizing schema with
  | nil => simp
  | cons column columns ih => simp [ih, addColumn]

theorem column_ofColumns (columns : List Column) :
    (ofColumns columns).column = columns :=
  column_foldl columns new

/-- The total size is the sum of the sizes, up to wrapping. -/
theorem totalSize_ofColumns (columns : List Column) :
    (ofColumns columns).totalSize = sizeSum columns % 2 ^ 16 := by
  induction columns using List.reverseRecOn with
  | nil => rfl
  | append_singleton columns column ih =>
      rw [ofColumns_concat]
      simp only [addColumn, ih, sizeSum, List.map_append, List.sum_append,
        List.map_cons, List.map_nil, List.sum_cons, List.sum_nil]
      omega

/-- With one primary column its offset is the sum of the sizes in front of
it, up to wrapping. -/
theorem primaryOffset_ofColumns {before after : List Column}
    {column : Column} (hprimary : column.keyType = .primary)
    (hafter : ∀ c ∈ after, c.keyType ≠ .primary) :
    (ofColumns (before ++ column :: after)).primaryOffset =
      sizeSum before % 2 ^ 16 := by
  induction after using List.reverseRecOn with
  | nil =>
      rw [ofColumns_concat]
      simp [addColumn, hprimary, totalSize_ofColumns]
  | append_singleton after c ih =>
      have hc : c.keyType ≠ .primary := hafter c (by simp)
      have hrest := ih fun d hd => hafter d (List.mem_append_left _ hd)
      rw [← List.cons_append, ← List.append_assoc, ofColumns_concat]
      simp [addColumn, hc, hrest]

theorem sizeSum_append (before after : List Column) :
    sizeSum (before ++ after) = sizeSum before + sizeSum after := by
  simp [sizeSum]

theorem sizeSum_cons (column : Column) (columns : List Column) :
    sizeSum (column :: columns) = column.size + sizeSum columns := by
  simp [sizeSum]

end Schema

theorem RowBuffer.exists_readInt32 {row : RowBuffer} {offset : ℕ}
    (hlen : offset + 4 ≤ row.bytes.length) :
    ∃ key, row.readInt32 offset = .ok key := by
  have hdrop : 4 ≤ (row.bytes.drop offset).length := by
    rw [List.length_drop]
    omega
  rw [RowBuffer.readInt32]
  match hbytes : row.bytes.drop offset with
  | b₀ :: b₁ :: b₂ :: b₃ :: _ => exact ⟨_, rfl⟩
  | [] | [_] | [_, _] | [_, _, _] => simp [hbytes] at hdrop

end SquidDB.Storage
