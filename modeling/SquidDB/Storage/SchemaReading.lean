import SquidDB.Lib.Intake
import SquidDB.Storage.Schema
import SquidDB.Utils.Configuration

/-!
# Reading schema files

`Schema::read` on files that nobody checked.  The columns of the lines in front
of a bad line stay in the schema.  The second field of a line goes through
`std::stoul` and is cut to 16 bits, so that more than plain numbers is taken for
a size.
-/

namespace SquidDB.Storage

open Checked SquidDB.Utils

namespace Schema

/-! ## What a line says -/

/-- What `read` does with a line that is neither empty nor a comment. -/
def fieldsVerdict (line : Text) : Verdict Column :=
  match StringUtils.split line ':' with
  | [name, size, columnType, keyType] =>
      match Text.stoul size with
      | .error message => .refuse message
      | .ok size =>
          .take ⟨name, size % 2 ^ 16, ColumnType.parseColumnType columnType,
            KeyType.parseKeyType keyType⟩
  | _ => .refuse ("Schema::read invalid schema line " ++ String.ofList line)

/-- A trimmed line that is passed over. -/
def Idle (line : Text) : Prop := line = [] ∨ line.head? = some '#'

instance (line : Text) : Decidable (Idle line) :=
  inferInstanceAs (Decidable (line = [] ∨ line.head? = some '#'))

/-- What `read` does with a line. -/
def lineVerdict (line : Text) : Verdict Column :=
  if StringUtils.RunsOff line then .fault .outOfBounds
  else if Idle (StringUtils.kept line) then .skip
  else fieldsVerdict (StringUtils.kept line)

theorem readLine_eq (schema : Schema) (line : Text) :
    schema.readLine line =
      match lineVerdict line with
      | .skip => .ok (.returned () schema)
      | .take column => .ok (.returned () (schema.addColumn column))
      | .refuse message => .ok (.thrown message schema)
      | .fault fault => .error fault := by
  rw [readLine, lineVerdict, StringUtils.trim_eq_kept]
  by_cases hoff : StringUtils.RunsOff line
  · simp only [if_pos hoff, error_bind]
  simp only [if_neg hoff, ok_bind]
  by_cases hskip : StringUtils.kept line = [] ∨
      (StringUtils.kept line).head? = some '#'
  · rw [if_pos hskip, if_pos (show Idle _ from hskip), pure_eq_ok]
  rw [if_neg hskip, if_neg (show ¬Idle _ from hskip), fieldsVerdict]
  generalize StringUtils.split (StringUtils.kept line) ':' = fields
  match fields with
  | [name, size, columnType, keyType] =>
      dsimp only
      cases Text.stoul size <;> rfl
  | [] | [_] | [_, _] | [_, _, _] | _ :: _ :: _ :: _ :: _ :: _ => rfl

theorem readLines_eq_run (lines : List Text) (schema : Schema) :
    readLines lines schema = Intake.run lineVerdict addColumn lines schema := by
  induction lines generalizing schema with
  | nil => rfl
  | cons line lines ih =>
      rw [readLines, readLine_eq, Intake.run]
      cases lineVerdict line with
      | skip => exact ih schema
      | take column => exact ih (schema.addColumn column)
      | refuse message => rfl
      | fault fault => rfl

theorem fieldsVerdict_not_faults (line : Text) :
    ¬(fieldsVerdict line).Faults := by
  rw [fieldsVerdict]
  split
  · split <;> exact id
  · exact id

theorem lineVerdict_faults_iff {line : Text} :
    (lineVerdict line).Faults ↔ StringUtils.RunsOff line := by
  rw [lineVerdict]
  by_cases hoff : StringUtils.RunsOff line
  · rw [if_pos hoff]
    exact iff_of_true trivial hoff
  rw [if_neg hoff]
  split
  · exact iff_of_false id hoff
  · exact iff_of_false (fieldsVerdict_not_faults _) hoff

/-- The columns that the lines of a file stand for. -/
def columnsOf (lines : List Text) : List Column :=
  Intake.taken lineVerdict lines

/-! ## A call that throws -/

theorem foldl_addColumn_eq_self_iff {columns : List Column} {schema : Schema} :
    columns.foldl addColumn schema = schema ↔ columns = [] := by
  constructor
  · intro hsame
    have hcolumn := column_foldl columns schema
    rw [hsame] at hcolumn
    exact List.append_right_eq_self.mp hcolumn.symm
  · rintro rfl
    rfl

/-- A call that throws has read up to the line that it refuses, and leaves the
columns of the lines before it in the schema.  Reading these lines again, in a
file that was repaired, adds their columns again. -/
theorem read_thrown_keeps {schema schema' : Schema}
    {filePath content : Text} {message : String}
    (hread : schema.read filePath (some content) =
      .ok (.thrown message schema')) :
    ∃ before line after, Text.lines content = before ++ line :: after ∧
      (∀ l ∈ before, (lineVerdict l).Accepts) ∧
      lineVerdict line = .refuse message ∧
      schema' = (columnsOf before).foldl addColumn schema ∧
      (schema' = schema ↔ columnsOf before = []) ∧
      ∀ repaired rest, Text.lines repaired = before ++ rest →
        (∀ l ∈ rest, (lineVerdict l).Accepts) →
        ∃ schema'', schema'.read filePath (some repaired) =
            .ok (.returned () schema'') ∧
          schema''.column = schema.column ++ columnsOf before ++
            columnsOf before ++ columnsOf rest := by
  rw [read, readLines_eq_run, Intake.run_eq_thrown_iff] at hread
  obtain ⟨before, line, after, hlines, hbefore, hline, rfl⟩ := hread
  refine ⟨before, line, after, hlines, hbefore, hline, rfl,
    foldl_addColumn_eq_self_iff, fun repaired rest hrepaired hrest => ?_⟩
  have haccepts : ∀ l ∈ before ++ rest, (lineVerdict l).Accepts :=
    fun l hl => (List.mem_append.mp hl).elim (hbefore l) (hrest l)
  refine ⟨(columnsOf (before ++ rest)).foldl addColumn
    ((columnsOf before).foldl addColumn schema), ?_, ?_⟩
  · rw [read, readLines_eq_run, hrepaired]
    exact (Intake.run_eq_returned_iff ..).mpr ⟨haccepts, rfl⟩
  · have happend : columnsOf (before ++ rest) =
        columnsOf before ++ columnsOf rest := List.filterMap_append
    rw [column_foldl, column_foldl, happend, ← List.append_assoc]

/-- A file whose second line has one field. -/
def halfGoodFile : Text := "key:4:INT32:PRIMARY\nname\n".toList

theorem read_halfGoodFile :
    new.read "T.ss".toList (some halfGoodFile) =
      .ok (.thrown "Schema::read invalid schema line name"
        (new.addColumn ⟨"key".toList, 4, .int32, .primary⟩)) := by
  rfl

/-- The second line is completed, and the file is read again: the key is there
twice. -/
theorem read_thrown_keeps_halfGoodFile :
    ∃ before schema'', columnsOf before =
        [⟨"key".toList, 4, .int32, .primary⟩] ∧
      (new.addColumn ⟨"key".toList, 4, .int32, .primary⟩).read "T.ss".toList
        (some "key:4:INT32:PRIMARY\nname:8:STRING:NONE\n".toList) =
          .ok (.returned () schema'') ∧
      schema''.column = columnsOf before ++ columnsOf before ++
        [⟨"name".toList, 8, .string, .none⟩] := by
  obtain ⟨before, line, after, hlines, hbefore, hline, -, -, hagain⟩ :=
    read_thrown_keeps read_halfGoodFile
  rw [show Text.lines halfGoodFile = ["key:4:INT32:PRIMARY".toList,
    "name".toList] from rfl] at hlines
  rcases before with _ | ⟨first, _ | ⟨second, before⟩⟩
  · -- the first line is a column
    obtain ⟨rfl, -⟩ := List.cons.inj hlines
    cases hline
  · obtain ⟨rfl, -⟩ := List.cons.inj hlines
    obtain ⟨schema'', hrun, hcolumn⟩ := hagain
      "key:4:INT32:PRIMARY\nname:8:STRING:NONE\n".toList
      ["name:8:STRING:NONE".toList] rfl (by decide)
    exact ⟨_, schema'', rfl, hrun, hcolumn⟩
  · -- the second line is refused
    obtain ⟨-, hlines⟩ := List.cons.inj hlines
    obtain ⟨rfl, -⟩ := List.cons.inj hlines
    exact (hbefore "name".toList (by simp)).elim

theorem read_thrown_changes :
    ¬∀ (schema schema' : Schema) (filePath content : Text) (message : String),
      schema.read filePath (some content) = .ok (.thrown message schema') →
        schema' = schema := by
  intro hunchanged
  have hcolumn := congrArg Schema.column (hunchanged _ _ _ _ _ read_halfGoodFile)
  exact List.cons_ne_nil _ _ hcolumn

end Schema

/-! ## Running off -/

/-- `read` stays inside its strings exactly when every line in which it would
not stands behind one that makes it throw. -/
theorem Schema.read_inBounds_iff (schema : Schema) (filePath content : Text) :
    (∃ o, schema.read filePath (some content) = .ok o) ↔
      ∀ before line after, Text.lines content = before ++ line :: after →
        StringUtils.RunsOff line → ∃ l ∈ before, (lineVerdict l).Refuses := by
  simp only [← lineVerdict_faults_iff]
  rw [read, readLines_eq_run]
  exact Intake.not_faults_iff _ _ _ _

/-- `trim` is right except where it runs off and where the first position does
not fit an `int`; the two parsers run off with it. -/
theorem trimming_inBounds_iff (string filePath content : Text)
    (schema : Schema) (configuration : Configuration) :
    (StringUtils.trim string = .ok (Text.trimmed string) ↔
      Text.Blank string ∨
        Text.indent string < 2 ^ 31 ∧ ¬StringUtils.RunsOff string) ∧
    ((∃ o, schema.read filePath (some content) = .ok o) ↔
      ∀ before line after, Text.lines content = before ++ line :: after →
        StringUtils.RunsOff line →
          ∃ l ∈ before, (Schema.lineVerdict l).Refuses) ∧
    ((∃ o, configuration.read filePath (some content) = .ok o) ↔
      ∀ before line after, Text.lines content = before ++ line :: after →
        (Configuration.lineVerdict line).Faults →
          ∃ l ∈ before, (Configuration.lineVerdict l).Refuses) :=
  ⟨StringUtils.trim_eq_trimmed_iff string,
    schema.read_inBounds_iff filePath content,
    configuration.read_inBounds_iff filePath content⟩

/-- A string of one character, and a file that sets the height of the nodes to
8. -/
theorem trimming_runs_off :
    ¬((∀ string, StringUtils.trim string = .ok (Text.trimmed string)) ∧
      ∀ (configuration : Configuration) (filename content : Text),
        ∃ o, configuration.read filename (some content) = .ok o) := by
  rintro ⟨htrim, -⟩
  have hsingle : StringUtils.trim "x".toList = .error .outOfBounds := rfl
  rw [htrim] at hsingle
  cases hsingle

end SquidDB.Storage
