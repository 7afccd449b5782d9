import SquidDB.Engine.TableStartup
import SquidDB.Lib.Window
import SquidDB.Storage.SchemaLayout

/-!
# Typed reads

The type of a column says how many bytes are read from a row, the size of the
column says how many it has there, and nothing compares the two.
`finalizeSchema` accepts one primary column of 32-bit integers of any size.
-/

namespace SquidDB.Storage

open Checked

/-! ## Reads from a row -/

namespace RowBuffer

/-- The integer in four bytes. -/
def decodeInt32 : List UInt8 → Int32
  | [b₀, b₁, b₂, b₃] => int32OfBytes b₀ b₁ b₂ b₃
  | _ => 0

theorem isReader_readInt32 (offset : ℕ) :
    Window.IsReader bytes (fun row => row.readInt32 offset) offset 4
      decodeInt32 := by
  constructor
  · intro row hrow
    have hlength : 4 ≤ (row.bytes.drop offset).length := by
      rw [List.length_drop]
      omega
    rw [readInt32, Window.window]
    generalize row.bytes.drop offset = bytes at hlength ⊢
    rcases bytes with _ | ⟨b₀, _ | ⟨b₁, _ | ⟨b₂, _ | ⟨b₃, rest⟩⟩⟩⟩
    · simp at hlength
    · simp at hlength
    · simp at hlength
    · simp at hlength
    · rfl
  · intro row hrow
    have hlength : (row.bytes.drop offset).length < 4 := by
      rw [List.length_drop]
      omega
    refine ⟨.outOfBounds, ?_⟩
    rw [readInt32]
    generalize row.bytes.drop offset = bytes at hlength ⊢
    rcases bytes with _ | ⟨b₀, _ | ⟨b₁, _ | ⟨b₂, _ | ⟨b₃, rest⟩⟩⟩⟩
    · rfl
    · rfl
    · rfl
    · rfl
    · simp only [List.length_cons] at hlength
      omega

theorem isReader_readInt64 (offset : ℕ) :
    Window.IsReader bytes (fun row => row.readInt64 offset) offset 8
      int64OfBytes := by
  constructor
  · intro row hrow
    have hlength : ((row.bytes.drop offset).take 8).length = 8 := by
      rw [List.length_take, List.length_drop]
      omega
    exact if_pos hlength
  · intro row hrow
    have hlength : ((row.bytes.drop offset).take 8).length ≠ 8 := by
      rw [List.length_take, List.length_drop]
      omega
    exact ⟨.outOfBounds, if_neg hlength⟩

theorem sensitive_decodeInt32 : Window.Sensitive decodeInt32 4 :=
  ⟨0, 1, by decide⟩

theorem sensitive_int64OfBytes : Window.Sensitive int64OfBytes 8 :=
  ⟨0, 1, by decide⟩

theorem bytes_surjective : Function.Surjective bytes :=
  fun bytes => ⟨⟨0, bytes⟩, rfl⟩

end RowBuffer

/-! ## Reads from the columns of a schema -/

namespace Schema

/-- What `insertRow` takes for the key of a row. -/
def readKey (schema : Schema) (row : RowBuffer) : Checked Int32 :=
  row.readInt32 schema.getPrimaryOffset

/-- On rows of the schema's size no read faults or looks at a byte outside its
column. -/
structure TypedReadsInside (schema : Schema) (columns : List Column) :
    Prop where
  key : ∀ (before : List Column) (c : Column) (after : List Column),
    columns = before ++ c :: after → c.keyType = .primary →
      Window.StaysWithin RowBuffer.bytes schema.readKey schema.getTotalSize
        (sizeSum before) c.size
  int32 : ∀ (before : List Column) (c : Column) (after : List Column),
    columns = before ++ c :: after → c.columnType = .int32 →
      Window.StaysWithin RowBuffer.bytes (schema.readInt32 c.name)
        schema.getTotalSize (sizeSum before) c.size
  int64 : ∀ (before : List Column) (c : Column) (after : List Column),
    columns = before ++ c :: after → c.columnType = .int64 →
      Window.StaysWithin RowBuffer.bytes (schema.readInt64 c.name)
        schema.getTotalSize (sizeSum before) c.size

/-- A size that covers what is read for the type of the column. -/
def Covers (c : Column) : Prop :=
  (c.columnType = .int32 → 4 ≤ c.size) ∧
    (c.columnType = .int64 → 8 ≤ c.size)

variable {columns before after : List Column} {c : Column}

theorem fits_of_split (hsum : sizeSum columns < 2 ^ 16)
    (hcolumns : columns = before ++ c :: after) :
    sizeSum before + c.size ≤ (ofColumns columns).getTotalSize := by
  rw [getTotalSize, totalSize_ofColumns, Nat.mod_eq_of_lt hsum, hcolumns,
    sizeSum_append, sizeSum_cons]
  omega

theorem readInt32_staysWithin_iff (hsum : sizeSum columns < 2 ^ 16)
    (hnames : (columns.map Column.name).Nodup)
    (hcolumns : columns = before ++ c :: after) :
    Window.StaysWithin RowBuffer.bytes ((ofColumns columns).readInt32 c.name)
        (ofColumns columns).getTotalSize (sizeSum before) c.size ↔
      4 ≤ c.size := by
  have hread : (ofColumns columns).readInt32 c.name = fun row =>
      (row.readInt32 (sizeSum before)).map .ok := by
    funext row
    exact readInt32_of_getOffset row
      (getOffset_of_nodup hsum hnames hcolumns)
  rw [hread]
  exact ((RowBuffer.isReader_readInt32 _).map Except.ok).staysWithin_iff
    RowBuffer.bytes_surjective
    (RowBuffer.sensitive_decodeInt32.map fun _ _ => Except.ok.inj)
    (fits_of_split hsum hcolumns)

theorem readInt64_staysWithin_iff (hsum : sizeSum columns < 2 ^ 16)
    (hnames : (columns.map Column.name).Nodup)
    (hcolumns : columns = before ++ c :: after) :
    Window.StaysWithin RowBuffer.bytes ((ofColumns columns).readInt64 c.name)
        (ofColumns columns).getTotalSize (sizeSum before) c.size ↔
      8 ≤ c.size := by
  have hread : (ofColumns columns).readInt64 c.name = fun row =>
      (row.readInt64 (sizeSum before)).map .ok := by
    funext row
    exact readInt64_of_getOffset row
      (getOffset_of_nodup hsum hnames hcolumns)
  rw [hread]
  exact ((RowBuffer.isReader_readInt64 _).map Except.ok).staysWithin_iff
    RowBuffer.bytes_surjective
    (RowBuffer.sensitive_int64OfBytes.map fun _ _ => Except.ok.inj)
    (fits_of_split hsum hcolumns)

theorem readKey_staysWithin (hsum : sizeSum columns < 2 ^ 16)
    (hcolumns : columns = before ++ c :: after)
    (hprimary : c.keyType = .primary)
    (hafter : ∀ d ∈ after, d.keyType ≠ .primary) (hsize : 4 ≤ c.size) :
    Window.StaysWithin RowBuffer.bytes (ofColumns columns).readKey
      (ofColumns columns).getTotalSize (sizeSum before) c.size := by
  have hfits := fits_of_split hsum hcolumns
  have hoffset : (ofColumns columns).getPrimaryOffset = sizeSum before := by
    rw [hcolumns, sizeSum_append] at hsum
    rw [hcolumns, getPrimaryOffset, primaryOffset_ofColumns hprimary hafter,
      Nat.mod_eq_of_lt (by omega)]
  have hread : (ofColumns columns).readKey = fun row =>
      row.readInt32 (sizeSum before) := by
    funext row
    rw [readKey, hoffset]
  rw [hread]
  exact (RowBuffer.isReader_readInt32 _).staysWithin hfits hsize

end Schema

end SquidDB.Storage

namespace SquidDB.Engine

open Checked SquidDB.Core SquidDB.Storage

/-- `insertRow` reads the key as `readKey`. -/
theorem System.insertRow_readKey (s : System) (ndebug : Bool) (t : ThreadId)
    (row : RowBuffer) (draw : ℕ → ℕ) :
    s.insertRow ndebug t row draw =
      s.rowCall ndebug t fun primary transaction =>
        (s.table.schema.readKey row >>= fun key =>
          primary.insert ndebug key (some row) s.table.schema.getTotalSize 0
            draw transaction) :=
  rfl

theorem OnlyPrimary.eq_of_split {columns front before after : List Column}
    {p c : Column} (honly : OnlyPrimary columns front p)
    (hcolumns : columns = before ++ c :: after)
    (hc : c.keyType = .primary) :
    c = p ∧ ∀ d ∈ after, d.keyType ≠ .primary := by
  obtain ⟨-, back, hsplit, hothers⟩ := honly
  rw [hcolumns, List.append_eq_append_iff] at hsplit
  rcases hsplit with ⟨between, rfl, htail⟩ | ⟨between, rfl, htail⟩
  · rcases between with _ | ⟨x, between⟩
    · obtain ⟨rfl, rfl⟩ := List.cons_eq_cons.mp htail
      exact ⟨rfl, fun d hd => hothers d (by simp [hd])⟩
    · obtain ⟨rfl, -⟩ := List.cons_eq_cons.mp htail
      exact absurd hc (hothers c (by simp))
  · rcases between with _ | ⟨x, between⟩
    · obtain ⟨rfl, rfl⟩ := List.cons_eq_cons.mp htail
      exact ⟨rfl, fun d hd => hothers d (by simp [hd])⟩
    · obtain ⟨-, rfl⟩ := List.cons_eq_cons.mp htail
      exact absurd hc (hothers c (by simp))

namespace Table

/-- A new table after its columns have been added. -/
def ofColumns (maxNodeHeight : ℕ) (dataPath name : Text)
    (columns : List Column) : Table :=
  { Table.new maxNodeHeight dataPath name with
    schema := Schema.ofColumns columns }

section Columns

variable {maxNodeHeight : ℕ} {dataPath name : Text} {columns : List Column}

theorem addColumn_ofColumns (columnName : Text) (size : ℕ)
    (columnType : ColumnType) :
    (ofColumns maxNodeHeight dataPath name columns).addColumn columnName size
        columnType =
      .returned () (ofColumns maxNodeHeight dataPath name
        (columns ++ [⟨columnName, size, columnType, .none⟩])) := by
  simp [addColumn, ofColumns, Table.new, Schema.ofColumns_concat]

theorem addIndex_ofColumns (columnName : Text) (size : ℕ)
    (columnType : ColumnType) (primary : Bool) :
    (ofColumns maxNodeHeight dataPath name columns).addIndex columnName size
        columnType primary =
      .returned () (ofColumns maxNodeHeight dataPath name
        (columns ++ [⟨columnName, size, columnType,
          if primary then .primary else .secondary⟩])) := by
  simp [addIndex, ofColumns, Table.new, Schema.ofColumns_concat]

theorem exists_onlyPrimary {ndebug schemaWritable : Bool} {table' : Table}
    (haccepted : (ofColumns maxNodeHeight dataPath name
      columns).finalizeSchema ndebug schemaWritable =
        .ok (.returned () table')) :
    table'.schema = Schema.ofColumns columns ∧
      ∃ before c, OnlyPrimary columns before c ∧ c.columnType = .int32 := by
  rw [finalizeSchema] at haccepted
  split at haccepted
  · cases haccepted
  by_cases hindexable : ({ ofColumns maxNodeHeight dataPath name columns with
      schemaFinalized := true } : Table).Indexable
  · rw [createIndexes_of_indexable ndebug rfl rfl hindexable] at haccepted
    obtain ⟨-, rfl⟩ := Outcome.returned.inj (Except.ok.inj haccepted)
    obtain ⟨-, before, c, honly, htype⟩ := hindexable
    refine ⟨rfl, before, c, ?_, htype⟩
    rwa [Schema.getColumns, ofColumns, Schema.column_ofColumns] at honly
  · obtain ⟨message, table'', hthrown, -⟩ :=
      createIndexes_throws ndebug rfl rfl hindexable
    rw [hthrown] at haccepted
    cases haccepted

/-- On a schema that is accepted the reads stay inside their columns exactly
when every integer column is as wide as its type. -/
theorem typedReadsInside_iff {ndebug schemaWritable : Bool} {table' : Table}
    (hsum : Schema.sizeSum columns < 2 ^ 16)
    (hnames : (columns.map Column.name).Nodup)
    (haccepted : (ofColumns maxNodeHeight dataPath name
      columns).finalizeSchema ndebug schemaWritable =
        .ok (.returned () table')) :
    table'.schema.TypedReadsInside columns ↔
      ∀ c ∈ columns, Schema.Covers c := by
  obtain ⟨hschema, front, p, honly, htype⟩ := exists_onlyPrimary haccepted
  rw [hschema]
  constructor
  · intro hinside c hc
    obtain ⟨before, after, hsplit⟩ := List.append_of_mem hc
    constructor
    · intro hint32
      exact (Schema.readInt32_staysWithin_iff hsum hnames hsplit).mp
        (hinside.int32 before c after hsplit hint32)
    · intro hint64
      exact (Schema.readInt64_staysWithin_iff hsum hnames hsplit).mp
        (hinside.int64 before c after hsplit hint64)
  · intro hcovers
    refine ⟨?_, ?_, ?_⟩
    · intro before c after hsplit hkey
      obtain ⟨rfl, hafter⟩ := honly.eq_of_split hsplit hkey
      exact Schema.readKey_staysWithin hsum hsplit hkey hafter
        ((hcovers c honly.mem).1 htype)
    · intro before c after hsplit hint32
      exact (Schema.readInt32_staysWithin_iff hsum hnames hsplit).mpr
        ((hcovers c (by simp [hsplit])).1 hint32)
    · intro before c after hsplit hint64
      exact (Schema.readInt64_staysWithin_iff hsum hnames hsplit).mpr
        ((hcovers c (by simp [hsplit])).2 hint64)

end Columns

/-- A table whose only column is a primary key of 32-bit integers. -/
def keyTable (size : ℕ) : Table :=
  ofColumns 1 [] "T".toList [⟨"key".toList, size, .int32, .primary⟩]

theorem finalizeSchema_keyTable (size : ℕ) :
    (keyTable size).finalizeSchema false true =
      .ok (.returned ()
        ({ keyTable size with schemaFinalized := true } : Table).indexed) := by
  rw [finalizeSchema, if_neg (by decide)]
  apply createIndexes_of_indexable false rfl rfl
  exact ⟨Nat.one_pos, [], _, ⟨rfl, [], rfl, by simp⟩, rfl⟩

/-- A key of four bytes is read inside of the row. -/
theorem typedReadsInside_iff_keyTable :
    ({ keyTable 4 with schemaFinalized := true } :
        Table).indexed.schema.TypedReadsInside
      [⟨"key".toList, 4, .int32, .primary⟩] :=
  (typedReadsInside_iff (by decide) (by decide)
    (finalizeSchema_keyTable 4)).mpr (by simp [Schema.Covers])

/-- A key of two bytes is read past the end of the row. -/
theorem not_typedReadsInside_keyTable :
    ¬∀ (maxNodeHeight : ℕ) (dataPath name : Text) (columns : List Column)
        (ndebug schemaWritable : Bool) (table' : Table),
      Schema.sizeSum columns < 2 ^ 16 →
      (columns.map Column.name).Nodup →
      (ofColumns maxNodeHeight dataPath name columns).finalizeSchema ndebug
        schemaWritable = .ok (.returned () table') →
      table'.schema.TypedReadsInside columns := by
  intro hinBounds
  have hinside := hinBounds 1 [] "T".toList
    [⟨"key".toList, 2, .int32, .primary⟩] false true _ (by decide)
    (by decide) (finalizeSchema_keyTable 2)
  obtain ⟨⟨value, hvalue⟩, -⟩ :=
    hinside.key [] _ [] rfl rfl ⟨0, [7, 7]⟩ rfl
  cases hvalue

end Table

end SquidDB.Engine
