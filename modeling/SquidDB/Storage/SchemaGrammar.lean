import SquidDB.Lib.Matching
import SquidDB.Storage.SchemaReading

/-!
# The grammar of schema files

Which files `Schema::read` takes for what they say.  A line that is neither
empty nor a comment should have four fields, and the second one should be a
number that a size can hold.
-/

namespace SquidDB.Storage

open Checked SquidDB.Utils

/-- A plain decimal number that fits 16 bits. -/
def PlainSize (field : Text) : Prop :=
  field ≠ [] ∧ (∀ c ∈ field, c.isDigit = true) ∧
    Text.digitsFrom 0 field ≤ 65535

theorem stoul_of_plainSize {field : Text} (h : PlainSize field) :
    Text.stoul field = .ok (Text.digitsFrom 0 field) := by
  obtain ⟨hne, hdigit, hle⟩ := h
  obtain ⟨c, text, rfl⟩ := List.exists_cons_of_ne_nil hne
  have hdigits : (c :: text).takeWhile Char.isDigit = c :: text :=
    List.takeWhile_eq_self_iff.mpr hdigit
  have hsmall : ¬2 ^ 64 ≤ Text.digitsFrom 0 (c :: text) := by
    omega
  rw [Text.stoul, Text.takeSign_of_isDigit (hdigit c List.mem_cons_self)]
  simp only [hdigits, reduceCtorEq, if_false, hsmall, Bool.false_eq_true]

namespace Schema

/-- The trimmed line says what the column is called and how large it is. -/
def Describes (line : Text) (column : Column) : Prop :=
  ∃ size columnType keyType,
    StringUtils.split line ':' = [column.name, size, columnType, keyType] ∧
      PlainSize size ∧ column.size = Text.digitsFrom 0 size

/-- What a line says: its text between white space, unless this is empty or a
comment. -/
def said (line : Text) : Option Text :=
  if Idle (Text.trimmed line) then none else some (Text.trimmed line)

/-- The trimmed lines that are neither empty nor comments. -/
def significant (lines : List Text) : List Text := lines.filterMap said

/-- When `read` returns, every line that counts describes the column it added;
otherwise it throws. -/
def ReadsFaithfully (schema : Schema) (filePath content : Text) : Prop :=
  (∀ schema', schema.read filePath (some content) =
      .ok (.returned () schema') →
    ∃ columns, schema'.column = schema.column ++ columns ∧
      List.Forall₂ Describes (significant (Text.lines content)) columns) ∧
  ((∀ schema', schema.read filePath (some content) ≠
      .ok (.returned () schema')) →
    ∃ message schema', schema.read filePath (some content) =
      .ok (.thrown message schema'))

/-- The line has four fields the second of which is no plain size; or its text
stands too far behind, unless it is a comment that is lost. -/
def Lax (line : Text) : Prop :=
  if StringUtils.Far line then
    ¬(Idle (Text.trimmed line) ∧ 2 ^ 31 ≤ Text.indent line % 2 ^ 32)
  else
    ¬Idle (Text.trimmed line) ∧ ∃ name size columnType keyType,
      StringUtils.split (Text.trimmed line) ':' =
        [name, size, columnType, keyType] ∧ ¬PlainSize size

/-- The line counts, or is not lost, and has not four fields, or its second
field does not begin with a number. -/
def Refused (line : Text) : Prop :=
  ¬StringUtils.RunsOff line ∧
    (if StringUtils.Far line then Text.indent line % 2 ^ 32 < 2 ^ 31
      else ¬Idle (Text.trimmed line)) ∧
    (fieldsVerdict (Text.trimmed line)).Refuses

variable {schema : Schema} {filePath content : Text} {lines : List Text}
  {line : Text} {column : Column}

/-! ## Names -/

theorem begins_of_take (htake : fieldsVerdict line = .take column) :
    ∃ rest, line = column.name ++ rest ∧
      ∀ c, rest.head? = some c → c = ':' := by
  obtain ⟨p, ps, rest, hpieces, hline, hrest⟩ :=
    Text.piecesFrom_begins ':' [] line
  rw [fieldsVerdict] at htake
  split at htake
  · next name size columnType keyType hsplit =>
    obtain ⟨rfl, -⟩ := List.cons_eq_cons.mp (hpieces.symm.trans hsplit)
    split at htake
    · cases htake
    · cases htake
      exact ⟨rest, hline, hrest⟩
  · cases htake

theorem name_of_space {c : Char} {text : Text} (hc : Text.isSpace c = true)
    (htake : fieldsVerdict (c :: text) = .take column) :
    column.name.head? = some c := by
  obtain ⟨rest, hline, hrest⟩ := begins_of_take htake
  rcases hname : column.name with _ | ⟨d, name⟩
  · rw [hname, List.nil_append] at hline
    obtain rfl := hrest c (by rw [← hline]; rfl)
    cases hc
  · rw [hname, List.cons_append] at hline
    rw [(List.cons_eq_cons.mp hline).1]
    rfl

theorem not_describes_of_space {c : Char} (hc : Text.isSpace c = true)
    (hname : column.name.head? = some c) :
    ¬Describes (Text.trimmed line) column := by
  rintro ⟨size, columnType, keyType, hsplit, -⟩
  obtain ⟨p, ps, rest, hpieces, htext, -⟩ :=
    Text.piecesFrom_begins ':' [] (Text.trimmed line)
  obtain ⟨rfl, -⟩ := List.cons_eq_cons.mp (hpieces.symm.trans hsplit)
  rw [List.nil_append] at htext
  have hhead : (Text.trimmed line).head? = some c := by
    rw [htext, List.head?_append, hname]
    rfl
  by_cases hblank : Text.Blank line
  · rw [Text.trimmed_of_blank hblank] at hhead
    cases hhead
  · obtain ⟨d, text, htight, hd⟩ := (Text.tight_trimmed hblank).begins
    rw [htight, List.head?_cons, Option.some.injEq] at hhead
    rw [hhead, hc] at hd
    cases hd

theorem fieldsVerdict_refuses_append {before : Text}
    (hbefore : Text.Blank before) (text : Text) :
    (fieldsVerdict (before ++ text)).Refuses ↔
      (fieldsVerdict text).Refuses := by
  have hcolon : ':' ∉ before := fun hmem => by
    have hspace := hbefore ':' hmem
    cases hspace
  obtain ⟨p, ps, hpieces, hpieces'⟩ := Text.piecesFrom_append_left hcolon text
  rw [fieldsVerdict, fieldsVerdict, StringUtils.split, StringUtils.split,
    hpieces, hpieces']
  rcases ps with _ | ⟨size, _ | ⟨columnType, _ | ⟨keyType, _ | ⟨_, _⟩⟩⟩⟩
  · exact Iff.rfl
  · exact Iff.rfl
  · exact Iff.rfl
  · -- four fields: the second one decides
    dsimp only
    cases Text.stoul size <;> exact Iff.rfl
  · exact Iff.rfl

/-! ## Lines -/

theorem not_idle_of_space {c : Char} {text : Text}
    (hc : Text.isSpace c = true) : ¬Idle (c :: text) := by
  rintro (hnil | hhash)
  · cases hnil
  · obtain rfl := Option.some.inj hhash
    cases hc

theorem lineVerdict_of_far (hfar : StringUtils.Far line) :
    2 ^ 31 ≤ Text.indent line % 2 ^ 32 ∧ lineVerdict line = .skip ∨
      Text.indent line % 2 ^ 32 < 2 ^ 31 ∧
        ∃ c before, Text.Blank (c :: before) ∧ lineVerdict line =
          fieldsVerdict (c :: (before ++ Text.trimmed line)) := by
  have hoff : ¬StringUtils.RunsOff line := by
    intro hoff
    cases line with
    | nil => exact hoff
    | cons c after =>
        have hindent : Text.indent (c :: after) = 0 := by
          simp [Text.indent, hoff.1]
        have hle := hfar.2
        rw [hindent] at hle
        exact absurd hle (by decide)
  rcases StringUtils.kept_of_far hfar with
    ⟨hlost, hkept⟩ | ⟨hnot, c, before, hkept, hblank⟩
  · refine .inl ⟨hlost, ?_⟩
    rw [lineVerdict, if_neg hoff, hkept, if_pos (.inl rfl)]
  · refine .inr ⟨hnot, c, before, hblank, ?_⟩
    rw [lineVerdict, if_neg hoff, hkept,
      if_neg (not_idle_of_space (hblank c List.mem_cons_self))]

theorem lineVerdict_of_not_far (hnear : ¬StringUtils.Far line) :
    lineVerdict line =
      if StringUtils.RunsOff line then .fault .outOfBounds
      else if Idle (Text.trimmed line) then .skip
      else fieldsVerdict (Text.trimmed line) := by
  rw [lineVerdict, StringUtils.kept_of_not_far hnear]

theorem refuses_iff_refused : (lineVerdict line).Refuses ↔ Refused line := by
  rw [Refused]
  by_cases hfar : StringUtils.Far line
  · rw [if_pos hfar]
    rcases lineVerdict_of_far hfar with
      ⟨hlost, hskip⟩ | ⟨hnot, c, before, hblank, hverdict⟩
    · rw [hskip]
      refine iff_of_false id ?_
      rintro ⟨-, hnot, -⟩
      exact absurd hlost (Nat.not_le.mpr hnot)
    · have hoff : ¬StringUtils.RunsOff line := by
        rw [← lineVerdict_faults_iff, hverdict]
        exact fieldsVerdict_not_faults _
      rw [hverdict, ← List.cons_append, fieldsVerdict_refuses_append hblank]
      exact ⟨fun h => ⟨hoff, hnot, h⟩, fun h => h.2.2⟩
  · rw [if_neg hfar, lineVerdict_of_not_far hfar]
    by_cases hoff : StringUtils.RunsOff line
    · rw [if_pos hoff]
      exact iff_of_false id fun h => h.1 hoff
    rw [if_neg hoff]
    split
    · next hidle => exact iff_of_false id fun h => h.2.1 hidle
    · next hidle => exact ⟨fun h => ⟨hoff, hidle, h⟩, fun h => h.2.2⟩

theorem exists_take (haccepts : (fieldsVerdict line).Accepts) :
    ∃ name size columnType keyType number,
      StringUtils.split line ':' = [name, size, columnType, keyType] ∧
      Text.stoul size = .ok number ∧
      fieldsVerdict line = .take ⟨name, number % 2 ^ 16,
        ColumnType.parseColumnType columnType,
        KeyType.parseKeyType keyType⟩ := by
  rw [fieldsVerdict] at haccepts ⊢
  split at haccepts
  · next name size columnType keyType hsplit =>
    split at haccepts
    · exact haccepts.elim
    · next number hnumber =>
      exact ⟨name, size, columnType, keyType, number, hsplit, hnumber, rfl⟩
  · exact haccepts.elim

/-- A line that is accepted adds the column it describes, or says nothing and
adds none, unless it is lax. -/
theorem rel_said_iff (haccepts : (lineVerdict line).Accepts) :
    Option.Rel Describes (said line) (lineVerdict line).item? ↔ ¬Lax line := by
  rw [said, Lax]
  by_cases hfar : StringUtils.Far line
  · rw [if_pos hfar, not_not]
    rcases lineVerdict_of_far hfar with
      ⟨hlost, hskip⟩ | ⟨hnot, c, before, hblank, hverdict⟩
    · rw [hskip]
      split
      · next hidle => exact iff_of_true .none ⟨hidle, hlost⟩
      · next hidle => exact iff_of_false nofun fun h => hidle h.1
    · refine iff_of_false ?_ fun h => absurd h.2 (Nat.not_le.mpr hnot)
      rw [hverdict] at haccepts ⊢
      obtain ⟨name, size, columnType, keyType, number, -, -, htake⟩ :=
        exists_take haccepts
      have hc := hblank c List.mem_cons_self
      rw [htake]
      split
      · exact nofun
      · rintro (hdescribes | _)
        exact not_describes_of_space hc (name_of_space hc htake) hdescribes
  · rw [if_neg hfar]
    have hoff : ¬StringUtils.RunsOff line := fun hoff =>
      (Verdict.accepts_iff.mp haccepts).2 (lineVerdict_faults_iff.mpr hoff)
    rw [lineVerdict_of_not_far hfar, if_neg hoff] at haccepts ⊢
    by_cases hidle : Idle (Text.trimmed line)
    · rw [if_pos hidle, if_pos hidle]
      exact iff_of_true .none fun h => h.1 hidle
    rw [if_neg hidle] at haccepts ⊢
    obtain ⟨name, size, columnType, keyType, number, hsplit, hnumber,
      htake⟩ := exists_take haccepts
    rw [if_neg hidle, htake]
    constructor
    · rintro (⟨size', columnType', keyType', hsplit', hplain, -⟩ | _)
      rintro ⟨-, name'', size'', columnType'', keyType'', hsplit'', hlax⟩
      rw [hsplit'] at hsplit''
      simp only [List.cons.injEq] at hsplit''
      exact hlax (hsplit''.2.1 ▸ hplain)
    · intro hlax
      have hplain : PlainSize size := by
        by_contra hplain
        exact hlax ⟨hidle, _, _, _, _, hsplit, hplain⟩
      rw [stoul_of_plainSize hplain, Except.ok.injEq] at hnumber
      refine .some ⟨size, columnType, keyType, hsplit, hplain, ?_⟩
      rw [← hnumber]
      exact Nat.mod_eq_of_lt (Nat.lt_succ_of_le hplain.2.2)

theorem not_describes_of_said_eq_none {l : Text} (hsaid : said line = none)
    (htake : (lineVerdict line).item? = some column) :
    ¬Describes (Text.trimmed l) column := by
  have hidle : Idle (Text.trimmed line) := by
    by_contra hidle
    rw [said, if_neg hidle] at hsaid
    cases hsaid
  have hverdict : lineVerdict line = .take column := by
    cases hjudge : lineVerdict line with
    | take column' =>
        rw [hjudge] at htake
        rw [Option.some.inj htake]
    | skip => rw [hjudge] at htake; cases htake
    | refuse message => rw [hjudge] at htake; cases htake
    | fault fault => rw [hjudge] at htake; cases htake
  by_cases hfar : StringUtils.Far line
  · rcases lineVerdict_of_far hfar with
      ⟨-, hskip⟩ | ⟨-, c, before, hblank, hjudge⟩
    · rw [hskip] at hverdict
      cases hverdict
    · have hc := hblank c List.mem_cons_self
      exact not_describes_of_space hc
        (name_of_space hc (hjudge.symm.trans hverdict))
  · rw [lineVerdict_of_not_far hfar, if_pos hidle] at hverdict
    split at hverdict <;> cases hverdict

/-- The columns are the ones described exactly when no line is lax. -/
theorem forall₂_describes_iff
    (haccepts : ∀ line ∈ lines, (lineVerdict line).Accepts) :
    List.Forall₂ Describes (significant lines) (columnsOf lines) ↔
      ∀ line ∈ lines, ¬Lax line := by
  rw [significant, columnsOf, Intake.taken, Matching.forall₂_filterMap_iff]
  · exact forall₂_congr fun line hline => rel_said_iff (haccepts line hline)
  · intro line _ hsaid column htake text htext
    obtain ⟨l, -, hl⟩ := List.mem_filterMap.mp htext
    simp only [said, Option.ite_none_left_eq_some, Option.some.injEq] at hl
    obtain ⟨-, rfl⟩ := hl
    exact not_describes_of_said_eq_none hsaid htake

/-! ## Files -/

theorem readsFaithfully_iff_of_accepts
    (haccepts : ∀ line ∈ Text.lines content, (lineVerdict line).Accepts) :
    ReadsFaithfully schema filePath content ↔
      ∀ line ∈ Text.lines content, ¬Lax line := by
  have hread : schema.read filePath (some content) =
      .ok (.returned ()
        ((columnsOf (Text.lines content)).foldl addColumn schema)) := by
    rw [read, readLines_eq_run]
    exact Intake.run_of_accepts addColumn schema haccepts
  have hcolumn : ((columnsOf (Text.lines content)).foldl addColumn
      schema).column = schema.column ++ columnsOf (Text.lines content) :=
    column_foldl _ _
  rw [← forall₂_describes_iff haccepts]
  constructor
  · rintro ⟨hreturns, -⟩
    obtain ⟨columns, hcolumns, hall⟩ := hreturns _ hread
    rw [hcolumn, List.append_cancel_left_eq] at hcolumns
    exact hcolumns ▸ hall
  · intro hall
    refine ⟨?_, fun hnone => absurd hread (hnone _)⟩
    intro schema' hread'
    rw [hread] at hread'
    obtain ⟨-, rfl⟩ := Outcome.returned.inj (Except.ok.inj hread')
    exact ⟨_, hcolumn, hall⟩

/-- A file is read faithfully exactly when a line is refused before `trim` runs
off, or there is neither a line in which it does nor a lax one. -/
theorem readsFaithfully_iff (schema : Schema) (filePath content : Text) :
    ReadsFaithfully schema filePath content ↔
      (∃ before line after, Text.lines content = before ++ line :: after ∧
        Refused line ∧ ∀ l ∈ before, ¬StringUtils.RunsOff l) ∨
      ∀ line ∈ Text.lines content, ¬StringUtils.RunsOff line ∧ ¬Lax line := by
  have hthrows :=
    Intake.throws_iff lineVerdict addColumn (Text.lines content) schema
  rw [← readLines_eq_run] at hthrows
  simp only [lineVerdict_faults_iff, refuses_iff_refused] at hthrows
  rw [← hthrows]
  rcases Intake.accepts_or_first lineVerdict (Text.lines content) with
    haccepts | ⟨before, line, after, hlines, hbefore, hline⟩
  · rw [readsFaithfully_iff_of_accepts haccepts]
    have hreturns := Intake.run_of_accepts addColumn schema haccepts
    rw [← readLines_eq_run] at hreturns
    have hoff : ∀ line ∈ Text.lines content, ¬StringUtils.RunsOff line :=
      fun line hline hoff => (Verdict.accepts_iff.mp (haccepts line hline)).2
        (lineVerdict_faults_iff.mpr hoff)
    constructor
    · intro hlax
      exact .inr fun line hline => ⟨hoff line hline, hlax line hline⟩
    · rintro (⟨message, schema', hthrown⟩ | hlax)
      · rw [hreturns] at hthrown
        cases hthrown
      · exact fun line hline => (hlax line hline).2
  · rcases Intake.run_first addColumn after schema hbefore hline with
      ⟨message, -, hrun⟩ | ⟨fault, hjudge, hrun⟩
    · rw [← hlines, ← readLines_eq_run] at hrun
      refine iff_of_true ⟨?_, fun _ => ⟨message, _, hrun⟩⟩
        (.inl ⟨message, _, hrun⟩)
      intro schema' hreturned
      rw [read, hrun] at hreturned
      cases hreturned
    · rw [← hlines, ← readLines_eq_run] at hrun
      have hoff : StringUtils.RunsOff line :=
        lineVerdict_faults_iff.mp (by rw [hjudge]; trivial)
      refine iff_of_false ?_ ?_
      · rintro ⟨-, hthrow⟩
        obtain ⟨message, schema', hthrown⟩ := hthrow fun schema' hreturned => by
          rw [read, hrun] at hreturned
          cases hreturned
        rw [read, hrun] at hthrown
        cases hthrown
      · rintro (⟨message, schema', hthrown⟩ | hall)
        · rw [hrun] at hthrown
          cases hthrown
        · exact (hall line (by rw [hlines]; simp)).1 hoff

/-- A file whose only size is a number with a letter behind it. -/
def suffixedFile : Text := "key:4x:INT32:PRIMARY\n".toList

theorem read_suffixedFile :
    new.read "T.ss".toList (some suffixedFile) =
      .ok (.returned ()
        (new.addColumn ⟨"key".toList, 4, .int32, .primary⟩)) := by
  rfl

theorem readsFaithfully_fails :
    ¬∀ (schema : Schema) (filePath content : Text),
      ReadsFaithfully schema filePath content := by
  intro hfaithful
  have haccepts : ∀ line ∈ Text.lines suffixedFile,
      (lineVerdict line).Accepts := by
    decide
  have hlax : Lax "key:4x:INT32:PRIMARY".toList := by
    rw [Lax, if_neg (by decide)]
    exact ⟨by decide, "key".toList, "4x".toList, "INT32".toList,
      "PRIMARY".toList, by decide,
      fun hplain => absurd (hplain.2.1 'x' (by decide)) (by decide)⟩
  have hnone := (readsFaithfully_iff_of_accepts haccepts).mp
    (hfaithful new "T.ss".toList suffixedFile)
  exact hnone _ (List.mem_singleton.mpr rfl) hlax

end Schema

end SquidDB.Storage
