import SquidDB.Storage.SchemaFile
import SquidDB.Storage.SchemaReading

/-!
# Writing a schema that was read

What `Schema::read` accepts is any text with lines of four fields; what
`Schema::write` prints is narrower.  The columns that can come out of a file
are all columns that a file can hold, so that a schema which was read once is
written and read without a change from then on.
-/

namespace SquidDB.Storage

open Checked SquidDB.Utils

/-- A column that a schema file can hold. -/
structure Column.Recordable (column : Column) : Prop where
  name : PlainName column.name
  size : column.size < 2 ^ 16

namespace Schema

/-- Reading the file adds the columns, to whichever schema. -/
def Holds (content : Text) (columns : List Column) : Prop :=
  ∀ (schema : Schema) (filePath : Text),
    schema.read filePath (some content) =
      .ok (.returned () (columns.foldl addColumn schema))

/-- What `write` prints for the columns. -/
def printed (columns : List Column) : Text :=
  columns.flatMap fun column => column.line ++ ['\n']

theorem write_ofColumns (columns : List Column) (filePath : Text) :
    (ofColumns columns).write filePath true = .ok (printed columns) := by
  rw [write, column_ofColumns]
  rfl

variable {columns columns' : List Column} {content filePath : Text}

/-- A file stands for one list of columns. -/
theorem Holds.unique (h : Holds content columns)
    (h' : Holds content columns') : columns = columns' := by
  have hsame := (h new []).symm.trans (h' new [])
  have hschema := congrArg column
    (Outcome.returned.inj (Except.ok.inj hsame)).2
  rwa [column_foldl, column_foldl, List.append_cancel_left_eq] at hschema

/-- Columns that a file can hold are read back from the file that is written
for them. -/
theorem holds_printed (hcolumns : ∀ c ∈ columns, c.Recordable) :
    Holds (printed columns) columns := by
  intro schema filePath
  rw [read, printed, Text.lines_flatMap fun c hc =>
    newline_notMem_line (hcolumns c hc).name]
  exact readLines_lines columns schema (fun c hc => (hcolumns c hc).name)
    fun c hc => (hcolumns c hc).size

theorem size_lt_of_take {line : Text} {column : Column}
    (htake : lineVerdict line = .take column) : column.size < 2 ^ 16 := by
  rw [lineVerdict] at htake
  split at htake
  · cases htake
  split at htake
  · cases htake
  rw [fieldsVerdict] at htake
  split at htake
  · split at htake
    · cases htake
    · obtain rfl := Verdict.take.inj htake
      exact Nat.mod_lt _ (by decide)
  · cases htake

/-- The columns of a file that is accepted can all be held by a file. -/
theorem holds_of_read {schema schema' : Schema}
    (hread : schema.read filePath (some content) =
      .ok (.returned () schema')) :
    Holds content (columnsOf (Text.lines content)) ∧
      (∀ c ∈ columnsOf (Text.lines content), c.Recordable) ∧
      schema' = (columnsOf (Text.lines content)).foldl addColumn schema := by
  obtain ⟨named, hplain, hnamed⟩ := read_adds hread
  rw [read, readLines_eq_run, Intake.run_eq_returned_iff] at hread
  obtain ⟨haccepts, rfl⟩ := hread
  have hsame : columnsOf (Text.lines content) = named := by
    have hcolumns := congrArg column hnamed
    rwa [Outcome.state_returned, column_foldl, column_foldl,
      List.append_cancel_left_eq] at hcolumns
  refine ⟨?_, ?_, rfl⟩
  · intro schema₁ filePath₁
    rw [read, readLines_eq_run]
    exact Intake.run_of_accepts addColumn schema₁ haccepts
  · intro c hc
    refine ⟨hplain c (hsame ▸ hc), ?_⟩
    obtain ⟨line, -, hline⟩ := List.mem_filterMap.mp hc
    cases hverdict : lineVerdict line with
    | take column =>
        rw [hverdict] at hline
        obtain rfl := Option.some.inj hline
        exact size_lt_of_take hverdict
    | skip =>
        rw [hverdict] at hline
        cases hline
    | refuse message =>
        rw [hverdict] at hline
        cases hline
    | fault fault =>
        rw [hverdict] at hline
        cases hline

/-- Whatever file a new schema was read from, with comments, blank lines,
indents, odd numbers or names of types that do not exist: the file that is
written for it is read back as the same schema, in all its parts. -/
theorem read_write_read {schema : Schema}
    (hread : new.read filePath (some content) = .ok (.returned () schema)) :
    ∃ content', schema.write filePath true = .ok content' ∧
      ∀ filePath', new.read filePath' (some content') =
        .ok (.returned () schema) := by
  obtain ⟨-, hcolumns, rfl⟩ := holds_of_read hread
  exact ⟨_, write_ofColumns _ filePath,
    fun filePath' => holds_printed hcolumns new filePath'⟩

/-- A comment, an indent, a size with a sign and a type in small letters. -/
theorem read_write_read_untidy :
    ∃ schema content',
      new.read "T.ss".toList
          (some "# keys\n  id : +4:int32:Primary\n".toList) =
        .ok (.returned () schema) ∧
      schema.write "T.ss".toList true = .ok content' ∧
      new.read "T.ss".toList (some content') = .ok (.returned () schema) := by
  obtain ⟨schema, hread⟩ : ∃ schema, new.read "T.ss".toList
      (some "# keys\n  id : +4:int32:Primary\n".toList) =
        .ok (.returned () schema) := ⟨_, rfl⟩
  obtain ⟨content', hwrite, hagain⟩ := read_write_read hread
  exact ⟨schema, content', hread, hwrite, hagain _⟩

end Schema

end SquidDB.Storage
