import SquidDB.Storage.Schema

/-!
# The schema file

What `Schema::write` prints and what `Schema::read` makes of it.  Names are
printed as they are, so a file is read back as the schema it was written from
exactly when no name can be taken for something else: for several fields or
lines, for a comment, or for a line whose indent is removed.
-/

namespace SquidDB.Storage

open Checked SquidDB.Utils

/-- A name that survives in a schema file.  White space at its beginning
survives when `trim` takes the length for zero. -/
def PlainName (name : Text) : Prop :=
  ':' ∉ name ∧ '\n' ∉ name ∧ name.head? ≠ some '#' ∧
    2 ^ 32 ∣ Text.indent name

/-! ## One line -/

theorem parseColumnType_columnTypeString (t : ColumnType) :
    ColumnType.parseColumnType t.columnTypeString.toList = t := by
  cases t <;> decide

theorem parseKeyType_keyTypeString (t : KeyType) :
    KeyType.parseKeyType t.keyTypeString.toList = t := by
  cases t <;> decide

theorem notMem_columnTypeString (t : ColumnType) :
    ':' ∉ t.columnTypeString.toList ∧ '\n' ∉ t.columnTypeString.toList := by
  cases t <;> decide

theorem notMem_keyTypeString (t : KeyType) :
    ':' ∉ t.keyTypeString.toList ∧ '\n' ∉ t.keyTypeString.toList := by
  cases t <;> decide

theorem keyTypeString_ends (t : KeyType) :
    ∃ text d, t.keyTypeString.toList = text ++ [d] ∧
      Text.isSpace d = false := by
  cases t
  · exact ⟨"NON".toList, 'E', by decide, by decide⟩
  · exact ⟨"PRIMAR".toList, 'Y', by decide, by decide⟩
  · exact ⟨"SECONDAR".toList, 'Y', by decide, by decide⟩
  · exact ⟨"UNKNOW".toList, 'N', by decide, by decide⟩

section Line

variable {column : Column}

theorem newline_notMem_line (hname : PlainName column.name) :
    '\n' ∉ column.line := by
  have hsize : '\n' ∉ Text.decimal column.size :=
    Text.notMem_decimal (by decide)
  simp [Column.line, hname.2.1, hsize,
    (notMem_columnTypeString column.columnType).2,
    (notMem_keyTypeString column.keyType).2]

theorem split_line (hname : ':' ∉ column.name) :
    StringUtils.split column.line ':' =
      [column.name, Text.decimal column.size,
        column.columnType.columnTypeString.toList,
        column.keyType.keyTypeString.toList] := by
  have hsize : ':' ∉ Text.decimal column.size :=
    Text.notMem_decimal (by decide)
  rw [StringUtils.split, Column.line, Text.piecesFrom_append hname,
    Text.piecesFrom_append hsize,
    Text.piecesFrom_append (notMem_columnTypeString column.columnType).1,
    Text.piecesFrom_of_notMem (notMem_keyTypeString column.keyType).1]
  rfl

theorem line_eq (column : Column) :
    ∃ core, column.line = column.name.takeWhile Text.isSpace ++ core ∧
      Text.Tight core ∧ core.length ≠ 1 := by
  obtain ⟨text, d, htext, hd⟩ := keyTypeString_ends column.keyType
  refine ⟨column.name.dropWhile Text.isSpace ++
    ':' :: (Text.decimal column.size ++
      ':' :: (column.columnType.columnTypeString.toList ++
        ':' :: (text ++ [d]))), ?_, ⟨?_, ?_⟩, ?_⟩
  · rw [← List.append_assoc, List.takeWhile_append_dropWhile, Column.line,
      htext]
  · rcases hname : column.name.dropWhile Text.isSpace with _ | ⟨c, name⟩
    · exact ⟨':', _, rfl, by decide⟩
    · have hhead := List.head_dropWhile_not Text.isSpace
        (l := column.name) (by rw [hname]; exact List.cons_ne_nil c name)
      exact ⟨c, _, rfl, by simpa [hname] using hhead⟩
  · exact ⟨column.name.dropWhile Text.isSpace ++
      ':' :: (Text.decimal column.size ++
        ':' :: (column.columnType.columnTypeString.toList ++
          ':' :: text)), d, by simp, hd⟩
  · simp only [List.length_append, List.length_cons]
    omega

theorem readLine_line (schema : Schema) (hname : PlainName column.name)
    (hsize : column.size < 2 ^ 16) :
    schema.readLine column.line =
      .ok (.returned () (schema.addColumn column)) := by
  obtain ⟨core, hline, hcore, hlength⟩ := line_eq column
  have htrim : StringUtils.trim column.line = .ok column.line := by
    rw [hline]
    exact StringUtils.trim_of_indent (fun c hc => List.mem_takeWhile_imp hc)
      hcore hlength hname.2.2.2
  have hkept : ¬(column.line = [] ∨ column.line.head? = some '#') := by
    rcases hcolumn : column.name with _ | ⟨c, name⟩
    · simp [Column.line, hcolumn]
    · have hhash := hname.2.2.1
      simpa [Column.line, hcolumn] using hhash
  have hstoul := Text.stoul_decimal (n := column.size) (by omega)
  rw [Schema.readLine, htrim, ok_bind, if_neg hkept, split_line hname.1]
  simp only [hstoul, Nat.mod_eq_of_lt hsize,
    parseColumnType_columnTypeString, parseKeyType_keyTypeString, pure_eq_ok]

end Line

/-! ## The whole file -/

theorem readLines_lines (columns : List Column) (schema : Schema)
    (hnames : ∀ c ∈ columns, PlainName c.name)
    (hsizes : ∀ c ∈ columns, c.size < 2 ^ 16) :
    Schema.readLines (columns.map Column.line) schema =
      .ok (.returned () (columns.foldl Schema.addColumn schema)) := by
  induction columns generalizing schema with
  | nil => rfl
  | cons column columns ih =>
      obtain ⟨hname, hnames⟩ := List.forall_mem_cons.mp hnames
      obtain ⟨hsize, hsizes⟩ := List.forall_mem_cons.mp hsizes
      rw [List.map_cons, Schema.readLines, readLine_line schema hname hsize,
        ok_bind]
      exact ih _ hnames hsizes

theorem plainName_of_split {line text name : Text} {fields : List Text}
    (hline : '\n' ∉ line) (htrim : StringUtils.trim line = .ok text)
    (hhash : text.head? ≠ some '#')
    (hsplit : StringUtils.split text ':' = name :: fields) :
    PlainName name := by
  obtain ⟨p, ps, rest, hpieces, htext, hrest⟩ :=
    Text.piecesFrom_begins ':' [] text
  obtain ⟨rfl, -⟩ := List.cons_eq_cons.mp (hpieces.symm.trans hsplit)
  rw [List.nil_append] at htext
  obtain ⟨hmem, hindent⟩ := StringUtils.trim_indent htrim
  refine ⟨Text.notMem_piecesFrom (by simp) (hpieces ▸ List.mem_cons_self),
    ?_, ?_, ?_⟩
  · intro hnewline
    exact hline (hmem _ (htext ▸ List.mem_append_left rest hnewline))
  · intro hhead
    exact hhash (by simp [htext, List.head?_append, hhead])
  · have hspace : ∀ c, rest.head? = some c → Text.isSpace c = false := by
      intro c hc
      rw [hrest c hc]
      decide
    rwa [htext, Text.indent_append hspace] at hindent

theorem readLine_adds {schema : Schema} {line : Text}
    {o : Outcome Schema Unit} (hline : '\n' ∉ line)
    (hread : schema.readLine line = .ok o) :
    o.state = schema ∨
      ∃ column, PlainName column.name ∧ o.state = schema.addColumn column := by
  rw [Schema.readLine, bind_eq_ok] at hread
  obtain ⟨text, htrim, hread⟩ := hread
  by_cases hskip : text = [] ∨ text.head? = some '#'
  · rw [if_pos hskip] at hread
    obtain rfl := Except.ok.inj hread
    exact .inl rfl
  · rw [if_neg hskip] at hread
    rw [not_or] at hskip
    split at hread
    · next name size columnType keyType hsplit =>
      split at hread
      · obtain rfl := Except.ok.inj hread
        exact .inl rfl
      · obtain rfl := Except.ok.inj hread
        exact .inr ⟨_, plainName_of_split hline htrim hskip.2 hsplit, rfl⟩
    · obtain rfl := Except.ok.inj hread
      exact .inl rfl

theorem readLines_adds {lines : List Text} {schema : Schema}
    {o : Outcome Schema Unit} (hlines : ∀ line ∈ lines, '\n' ∉ line)
    (hread : Schema.readLines lines schema = .ok o) :
    ∃ columns : List Column, (∀ c ∈ columns, PlainName c.name) ∧
      o.state = columns.foldl Schema.addColumn schema := by
  induction lines generalizing schema with
  | nil =>
      obtain rfl := Except.ok.inj hread
      exact ⟨[], by simp, rfl⟩
  | cons line lines ih =>
      obtain ⟨hline, hlines⟩ := List.forall_mem_cons.mp hlines
      rw [Schema.readLines, bind_eq_ok] at hread
      obtain ⟨o₁, ho₁, hread⟩ := hread
      have hadds := readLine_adds hline ho₁
      cases o₁ with
      | thrown message schema₁ =>
          obtain rfl := Except.ok.inj hread
          rcases hadds with hsame | ⟨column, hplain, hnew⟩
          · exact ⟨[], by simp, hsame⟩
          · exact ⟨[column], by simp [hplain], hnew⟩
      | returned _ schema₁ =>
          obtain ⟨columns, hcolumns, hstate⟩ := ih hlines hread
          rcases hadds with rfl | ⟨column, hplain, rfl⟩
          · exact ⟨columns, hcolumns, hstate⟩
          · exact ⟨column :: columns,
              List.forall_mem_cons.mpr ⟨hplain, hcolumns⟩, hstate⟩

theorem read_adds {schema : Schema} {filePath : Text} {content : Option Text}
    {o : Outcome Schema Unit}
    (hread : schema.read filePath content = .ok o) :
    ∃ columns : List Column, (∀ c ∈ columns, PlainName c.name) ∧
      o.state = columns.foldl Schema.addColumn schema := by
  cases content with
  | none =>
      obtain rfl := Except.ok.inj hread
      exact ⟨[], by simp, rfl⟩
  | some content =>
      apply readLines_adds ?_ hread
      intro line hline
      exact Text.notMem_linesFrom (by simp) hline

/-- Reading back the file a schema was written to gives the schema, in all its
parts, exactly when every column has a plain name. -/
theorem read_write_iff (filePath : Text) {columns : List Column}
    (hsizes : ∀ c ∈ columns, c.size < 2 ^ 16) :
    ∃ content, (Schema.ofColumns columns).write filePath true = .ok content ∧
      (Schema.new.read filePath (some content) =
          .ok (.returned () (Schema.ofColumns columns)) ↔
        ∀ c ∈ columns, PlainName c.name) := by
  refine ⟨columns.flatMap fun column => column.line ++ ['\n'], ?_, ?_⟩
  · rw [Schema.write, Schema.column_ofColumns]
    rfl
  constructor
  · intro hread
    obtain ⟨columns', hplain, hstate⟩ := read_adds hread
    have hcolumns : columns = columns' := by
      rw [← Schema.column_ofColumns columns, ← Schema.column_ofColumns columns']
      exact congrArg Schema.column hstate
    rwa [hcolumns]
  · intro hnames
    rw [Schema.read, Text.lines_flatMap fun c hc =>
      newline_notMem_line (hnames c hc)]
    exact readLines_lines columns Schema.new hnames hsizes

/-! ## Names that begin with white space -/

/-- A name that can be taken for nothing else once its indent is removed. -/
def UnindentedName (name : Text) : Prop :=
  ':' ∉ name ∧ '\n' ∉ name ∧
    ∀ c, name.head? = some c → c ≠ '#' ∧ Text.isSpace c = false

instance (name : Text) : Decidable (UnindentedName name) :=
  decidable_of_iff (':' ∉ name ∧ '\n' ∉ name ∧
      (name.head?.all fun c => c ≠ '#' && !Text.isSpace c) = true) <| by
    simp [UnindentedName, Option.all_eq_true]

theorem unindentedName_iff {name : Text} :
    UnindentedName name ↔ PlainName name ∧ Text.indent name = 0 := by
  rcases name with _ | ⟨c, name⟩
  · simp [UnindentedName, PlainName, Text.indent]
  by_cases hspace : Text.isSpace c = true
  · simp [UnindentedName, Text.indent, hspace]
  · simp [UnindentedName, PlainName, Text.indent, hspace, and_assoc]

/-- Of the indented names those survive whose indent `trim` takes for zero. -/
theorem read_write_iff_unindented (filePath : Text) {columns : List Column}
    (hsizes : ∀ c ∈ columns, c.size < 2 ^ 16) :
    ∃ content, (Schema.ofColumns columns).write filePath true = .ok content ∧
      ((Schema.new.read filePath (some content) =
            .ok (.returned () (Schema.ofColumns columns)) ↔
          ∀ c ∈ columns, UnindentedName c.name) ↔
        ¬((∀ c ∈ columns, PlainName c.name) ∧
          ∃ c ∈ columns, 0 < Text.indent c.name)) := by
  obtain ⟨content, hwrite, hread⟩ := read_write_iff filePath hsizes
  refine ⟨content, hwrite, ?_⟩
  rw [hread]
  constructor
  · rintro hequal ⟨hplain, c, hc, hindent⟩
    have hzero := (unindentedName_iff.mp (hequal.mp hplain c hc)).2
    omega
  · intro hnone
    constructor
    · intro hplain c hc
      refine unindentedName_iff.mpr ⟨hplain c hc, ?_⟩
      by_contra hindent
      exact hnone ⟨hplain, c, hc, Nat.pos_of_ne_zero hindent⟩
    · intro hnames c hc
      exact (unindentedName_iff.mp (hnames c hc)).1

theorem read_write_iff_unindented_two_columns :
    ∃ content, (Schema.ofColumns
        [⟨"key".toList, 4, .int32, .primary⟩,
          ⟨"a:b".toList, 0, .string, .none⟩]).write "T.schema".toList true =
        .ok content ∧
      Schema.new.read "T.schema".toList (some content) ≠
        .ok (.returned () (Schema.ofColumns
          [⟨"key".toList, 4, .int32, .primary⟩,
            ⟨"a:b".toList, 0, .string, .none⟩])) := by
  obtain ⟨content, hwrite, hread⟩ :=
    @read_write_iff_unindented "T.schema".toList
      [⟨"key".toList, 4, .int32, .primary⟩,
        ⟨"a:b".toList, 0, .string, .none⟩] (by decide)
  refine ⟨content, hwrite, ?_⟩
  intro hequal
  have hexact := hread.mpr fun ⟨hplain, _⟩ =>
    (hplain ⟨"a:b".toList, 0, .string, .none⟩ (by decide)).1 (by decide)
  exact absurd (hexact.mp hequal) (by decide)

theorem plainName_replicate {n : ℕ} (hn : 2 ^ 32 ∣ n) :
    PlainName (List.replicate n ' ') := by
  have hspace : Text.isSpace ' ' = true := rfl
  refine ⟨by simp, by simp, ?_, ?_⟩
  · rw [List.head?_replicate]
    split
    · exact Option.some_ne_none _ |>.symm
    · simp
  · rw [Text.indent, List.takeWhile_replicate, if_pos hspace,
      List.length_replicate]
    exact hn

theorem not_unindentedName_replicate {n : ℕ} (hn : n ≠ 0) :
    ¬UnindentedName (List.replicate n ' ') := by
  rintro ⟨-, -, hhead⟩
  have hspace := (hhead ' ' (by rw [List.head?_replicate, if_neg hn])).2
  exact absurd hspace (by decide)

/-- A name of 2 ^ 32 blanks is read back. -/
theorem indented_name_survives :
    ¬∀ columns : List Column, (∀ c ∈ columns, c.size < 2 ^ 16) →
      ∀ content, (Schema.ofColumns columns).write "T.schema".toList true =
          .ok content →
        (Schema.new.read "T.schema".toList (some content) =
            .ok (.returned () (Schema.ofColumns columns)) ↔
          ∀ c ∈ columns, UnindentedName c.name) := by
  intro hsurvives
  have hsizes : ∀ c ∈ [(⟨List.replicate (2 ^ 32) ' ', 4, .int32, .primary⟩ :
      Column)], c.size < 2 ^ 16 := by
    intro c hc
    rw [List.mem_singleton.mp hc]
    exact Nat.lt_of_sub_eq_succ rfl
  obtain ⟨content, hwrite, hread⟩ := read_write_iff "T.schema".toList hsizes
  have hname := (hsurvives _ hsizes content hwrite).mp (hread.mpr fun c hc => by
    rw [List.mem_singleton.mp hc]
    exact plainName_replicate dvd_rfl)
  exact not_unindentedName_replicate (by decide)
    (hname _ (List.mem_singleton.mpr rfl))

end SquidDB.Storage
