import SquidDB.Lib.Intake
import SquidDB.Utils.Logger

/-!
# Configurations

`Configuration`.  The logger's messages are left out.  A line is trimmed, split
at its first colon, and the key and the value are trimmed again; a line without
a colon is its own key and its own value.
-/

namespace SquidDB.Utils

open Checked SquidDB.Utils.Logger

inductive ConfigurationKey where
  | logFilePath
  | logLevel
  | logMode
  | maxMemoryMB
  | maxNodeHeight
  | dataPath
  | maxFileSizeMB
  | unknown
  deriving DecidableEq, Repr

def ConfigurationKey.parseConfigurationKey (keyString : Text) :
    ConfigurationKey :=
  let keyStringUpper := StringUtils.toUpper keyString
  if keyStringUpper = "LOGFILEPATH".toList then logFilePath
  else if keyStringUpper = "LOGLEVEL".toList then logLevel
  else if keyStringUpper = "LOGMODE".toList then logMode
  else if keyStringUpper = "MAXMEMORYMB".toList then maxMemoryMB
  else if keyStringUpper = "MAXNODEHEIGHT".toList then maxNodeHeight
  else if keyStringUpper = "DATAPATH".toList then dataPath
  else if keyStringUpper = "MAXFILESIZEMB".toList then maxFileSizeMB
  else unknown

def ConfigurationKey.configurationKeyString : ConfigurationKey → Text
  | logFilePath => "LOGFILEPATH".toList
  | logLevel => "LOGLEVEL".toList
  | logMode => "LOGMODE".toList
  | maxMemoryMB => "MAXMEMORYMB".toList
  | maxNodeHeight => "MAXNODEHEIGHT".toList
  | dataPath => "DATAPATH".toList
  | maxFileSizeMB => "MAXFILESIZEMB".toList
  | unknown => "UNKNOWN".toList

theorem ConfigurationKey.toUpper_of_known {text : Text}
    (h : parseConfigurationKey text ≠ unknown) :
    StringUtils.toUpper text =
      (parseConfigurationKey text).configurationKeyString := by
  simp only [parseConfigurationKey] at h ⊢
  split_ifs at h ⊢ <;> first | assumption | exact absurd rfl h

/-- `Configuration`; the fields that the constructor leaves open have some
value. -/
structure Configuration where
  filename : Text
  logFilePath : Text
  logLevel : LogLevel
  logMode : LogMode
  maxMemoryMB : UInt32
  maxNodeHeight : UInt8
  dataPath : Text
  maxFileSizeMB : UInt16

namespace Configuration

/-- The assignment that a key and a value ask for. -/
def setting (key : ConfigurationKey) (value : Text) :
    Except String (Configuration → Configuration) :=
  match key with
  | .logFilePath => .ok fun c => { c with logFilePath := value }
  | .logLevel =>
      .ok fun c => { c with logLevel := LogLevel.parseLogLevel value }
  | .logMode => .ok fun c => { c with logMode := LogMode.parseLogMode value }
  | .maxMemoryMB => do
      let number ← Text.stoi value
      pure fun c => { c with maxMemoryMB := UInt32.ofInt number }
  | .maxNodeHeight => do
      let number ← Text.stoi value
      pure fun c => { c with maxNodeHeight := UInt8.ofInt number }
  | .dataPath => .ok fun c => { c with dataPath := value }
  | .maxFileSizeMB => do
      let number ← Text.stoi value
      pure fun c => { c with maxFileSizeMB := UInt16.ofInt number }
  | .unknown => .ok id

/-- `substr` in front of and behind the first colon; behind no colon at all
stands the whole line. -/
def keyAndValue (line : Text) : Text × Text :=
  match line.idxOf? ':' with
  | none => (line, line)
  | some colon => (line.take colon, line.drop (colon + 1))

/-- The body of the loop in `read`. -/
def readLine (configuration : Configuration) (line : Text) :
    Checked (Outcome Configuration Unit) := do
  let line ← StringUtils.trim line
  if line = [] ∨ line.head? = some '#' then
    pure (.returned () configuration)
  else
    let (key, value) := keyAndValue line
    let key ← StringUtils.trim key
    let value ← StringUtils.trim value
    match setting (.parseConfigurationKey key) value with
    | .error message => pure (.thrown message configuration)
    | .ok set => pure (.returned () (set configuration))

/-- The loop of `read`. -/
def readLines : List Text → Configuration →
    Checked (Outcome Configuration Unit)
  | [], configuration => .ok (.returned () configuration)
  | line :: lines, configuration => do
      match ← configuration.readLine line with
      | .returned () configuration => readLines lines configuration
      | .thrown message configuration => pure (.thrown message configuration)

/-- `read`; `content` is what the file holds, when it can be opened. -/
def read (configuration : Configuration) (filename : Text)
    (content : Option Text) : Checked (Outcome Configuration Unit) :=
  let configuration := { configuration with filename := filename }
  match content with
  | none =>
      .ok (.thrown
        ("Configuration::read unable to read file " ++
          String.ofList filename)
        configuration)
  | some content => readLines (Text.lines content) configuration

/-! ## What a line asks for -/

/-- What `read` does with a line. -/
def lineVerdict (line : Text) : Verdict (Configuration → Configuration) :=
  if StringUtils.RunsOff line then .fault .outOfBounds
  else
    let line := StringUtils.kept line
    if line = [] ∨ line.head? = some '#' then .skip
    else
      let (key, value) := keyAndValue line
      if StringUtils.RunsOff key ∨ StringUtils.RunsOff value then
        .fault .outOfBounds
      else
        match setting (.parseConfigurationKey (StringUtils.kept key))
            (StringUtils.kept value) with
        | .error message => .refuse message
        | .ok set => .take set

theorem readLine_eq (configuration : Configuration) (line : Text) :
    configuration.readLine line =
      match lineVerdict line with
      | .skip => .ok (.returned () configuration)
      | .take set => .ok (.returned () (set configuration))
      | .refuse message => .ok (.thrown message configuration)
      | .fault fault => .error fault := by
  rw [readLine, lineVerdict, StringUtils.trim_eq_kept]
  by_cases hoff : StringUtils.RunsOff line
  · simp only [if_pos hoff, error_bind]
  simp only [if_neg hoff, ok_bind]
  by_cases hskip : StringUtils.kept line = [] ∨
      (StringUtils.kept line).head? = some '#'
  · simp only [if_pos hskip, pure_eq_ok]
  simp only [if_neg hskip]
  obtain ⟨key, value⟩ := keyAndValue (StringUtils.kept line)
  simp only [StringUtils.trim_eq_kept]
  by_cases hkey : StringUtils.RunsOff key
  · simp only [hkey, true_or, if_true, error_bind]
  by_cases hvalue : StringUtils.RunsOff value
  · simp only [if_neg hkey, hvalue, or_true, if_true, ok_bind, error_bind]
  simp only [hkey, hvalue, or_self, if_false, ok_bind]
  cases setting (.parseConfigurationKey (StringUtils.kept key))
    (StringUtils.kept value) <;> rfl

theorem readLines_eq_run (lines : List Text) (configuration : Configuration) :
    readLines lines configuration =
      Intake.run lineVerdict (fun c set => set c) lines configuration := by
  induction lines generalizing configuration with
  | nil => rfl
  | cons line lines ih =>
      rw [readLines, readLine_eq, Intake.run]
      cases lineVerdict line with
      | skip => exact ih configuration
      | take set => exact ih (set configuration)
      | refuse message => rfl
      | fault fault => rfl

/-- `read` stays inside its strings exactly when every line in which it would
not stands behind one that makes it throw. -/
theorem read_inBounds_iff (configuration : Configuration)
    (filename content : Text) :
    (∃ o, configuration.read filename (some content) = .ok o) ↔
      ∀ before line after, Text.lines content = before ++ line :: after →
        (lineVerdict line).Faults → ∃ l ∈ before, (lineVerdict l).Refuses := by
  rw [read, readLines_eq_run]
  exact Intake.not_faults_iff _ _ _ _

end Configuration

end SquidDB.Utils
