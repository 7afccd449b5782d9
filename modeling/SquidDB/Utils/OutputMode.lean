import SquidDB.Lib.Checked
import SquidDB.Utils.Logger

/-!
# Where the logger writes

`Logger::setOutputMode` and the three fields it changes.  Whether a file can be
opened is decided by the file system at every call.  The mode and the name are
assigned before the file is opened, so the call that fails leaves them changed.
-/

namespace SquidDB.Utils.Logger

/-- `m_logMode`, `m_filename` and `m_fileStream`; a stream that is open is the
name of its file. -/
structure Output where
  logMode : LogMode
  filename : Text
  fileStream : Option Text
  deriving DecidableEq

/-- A call of `setOutputMode`; `canOpen` is the answer of the file system if
the call opens a file. -/
structure OutputCall where
  logMode : LogMode
  filename : Text
  canOpen : Bool
  deriving DecidableEq

/-- Where `run` writes a line. -/
inductive Destination where
  | terminal
  | file (filename : Text)
  /-- A stream that is not open drops what is written to it. -/
  | dropped
  deriving DecidableEq

namespace Output

/-- The constructor of `Logger`. -/
def initial : Output := ⟨.terminal, [], none⟩

/-- `m_fileStream.open(m_filename)`, which fails on a stream that is open. -/
def openStream (s : Output) (canOpen : Bool) : Output :=
  if s.fileStream = none ∧ canOpen = true then
    { s with fileStream := some s.filename }
  else s

/-- `m_fileStream.close()` if it is open. -/
def closeStream (s : Output) : Output := { s with fileStream := none }

/-- The check at the end of `setOutputMode`. -/
def checkOpen (s : Output) : Outcome Output Unit :=
  if s.logMode = .file ∧ s.fileStream = none then
    .thrown "Logger::setOutputMode mode set to file but file not open" s
  else .returned () s

def setOutputMode (s : Output) (call : OutputCall) : Outcome Output Unit :=
  if call.logMode = .unknown then .returned () s
  else
    match s.logMode with
    | .terminal =>
        match call.logMode with
        | .terminal => .returned () s
        | .file =>
            let s := { s with logMode := .file, filename := call.filename }
            (s.openStream call.canOpen).checkOpen
        | .unknown => s.checkOpen
    | .file =>
        match call.logMode with
        | .terminal =>
            let s := { s with logMode := .terminal, filename := [] }
            s.closeStream.checkOpen
        | .file =>
            if s.filename = call.filename then .returned () s
            else
              let s := { s with filename := call.filename }
              (s.closeStream.openStream call.canOpen).checkOpen
        | .unknown => s.checkOpen
    | .unknown => s.checkOpen

/-- The state after a call, whether it returns or throws. -/
def step (s : Output) (call : OutputCall) : Option Output :=
  some (s.setOutputMode call).state

/-- The output of `run`. -/
def destination (s : Output) : Destination :=
  if s.logMode = .terminal then .terminal
  else s.fileStream.elim .dropped .file

/-- The mode is File exactly when the stream is open, and then it is open on
`m_filename`. -/
def Consistent (s : Output) : Prop :=
  (s.logMode = .file ↔ s.fileStream.isSome) ∧
    ∀ filename, s.fileStream = some filename → filename = s.filename

/-- A call that returns leaves the fields consistent, and a call that throws
leaves them as they were. -/
def Keeps (s : Output) (call : OutputCall) : Prop :=
  match s.setOutputMode call with
  | .returned _ s' => s'.Consistent
  | .thrown _ s' => s' = s

/-- The call changes to a file, or from one file to another. -/
def Opens (s : Output) (call : OutputCall) : Prop :=
  call.logMode = .file ∧
    (s.logMode = .terminal ∨ s.logMode = .file ∧ s.filename ≠ call.filename)

/-- A file that the call opens can be opened. -/
def Openable (s : Output) (call : OutputCall) : Prop :=
  s.Opens call → call.canOpen = true

variable {s : Output} {call : OutputCall}

/-! ## One call -/

theorem consistent_initial : initial.Consistent :=
  ⟨by decide, nofun⟩

theorem consistent_of_terminal (hmode : s.logMode = .terminal)
    (hclosed : s.fileStream = none) : s.Consistent := by
  refine ⟨by simp [hmode, hclosed], fun filename hopen => ?_⟩
  rw [hclosed] at hopen
  cases hopen

theorem consistent_of_open (hmode : s.logMode = .file)
    (hopen : s.fileStream = some s.filename) : s.Consistent := by
  refine ⟨by simp [hmode, hopen], fun filename hname => ?_⟩
  exact Option.some.inj (hname.symm.trans hopen)

theorem Consistent.fileStream_eq_none (hs : s.Consistent)
    (hmode : s.logMode ≠ .file) : s.fileStream = none := by
  rw [Ne, hs.1, Option.not_isSome_iff_eq_none] at hmode
  exact hmode

theorem Consistent.checkOpen_eq (hs : s.Consistent) :
    s.checkOpen = .returned () s := by
  apply if_neg
  rintro ⟨hmode, hclosed⟩
  have hopen := hs.1.mp hmode
  rw [hclosed] at hopen
  cases hopen

theorem Consistent.exists_returned (hs : s.Consistent)
    (hopens : ¬ s.Opens call) :
    ∃ s', s.setOutputMode call = .returned () s' ∧ s'.Consistent := by
  rw [setOutputMode]
  rcases hcall : call.logMode with _ | _ | _
  · rcases hmode : s.logMode with _ | _ | _
    · exact ⟨s, rfl, hs⟩
    · have hclosed : Consistent ⟨.terminal, [], none⟩ :=
        consistent_of_terminal rfl rfl
      exact ⟨_, hclosed.checkOpen_eq, hclosed⟩
    · exact ⟨s, hs.checkOpen_eq, hs⟩
  · rcases hmode : s.logMode with _ | _ | _
    · exact absurd ⟨hcall, .inl hmode⟩ hopens
    · have hname : s.filename = call.filename := by
        by_contra hne
        exact hopens ⟨hcall, .inr ⟨hmode, hne⟩⟩
      exact ⟨s, if_pos hname, hs⟩
    · exact ⟨s, hs.checkOpen_eq, hs⟩
  · exact ⟨s, rfl, hs⟩

theorem Consistent.setOutputMode_of_opens (hs : s.Consistent)
    (hopens : s.Opens call) :
    s.setOutputMode call =
      if call.canOpen then
        .returned () ⟨.file, call.filename, some call.filename⟩
      else
        .thrown "Logger::setOutputMode mode set to file but file not open"
          ⟨.file, call.filename, none⟩ := by
  obtain ⟨hcall, hmode | ⟨hmode, hne⟩⟩ := hopens
  · have hclosed := hs.fileStream_eq_none (by simp [hmode])
    cases hopen : call.canOpen <;>
      simp [setOutputMode, hcall, hmode, openStream, checkOpen, hclosed, hopen]
  · cases hopen : call.canOpen <;>
      simp [setOutputMode, hcall, hmode, hne, closeStream, openStream,
        checkOpen, hopen]

/-- In a consistent state a call keeps its promises exactly when the file it
opens can be opened. -/
theorem Consistent.keeps_iff (hs : s.Consistent) :
    s.Keeps call ↔ s.Openable call := by
  rw [Keeps, Openable]
  by_cases hopens : s.Opens call
  · rw [hs.setOutputMode_of_opens hopens]
    cases hopen : call.canOpen with
    | true => exact iff_of_true (consistent_of_open rfl rfl) fun _ => rfl
    | false =>
        refine iff_of_false (fun hsame => ?_) fun hopenable => ?_
        · subst hsame
          cases hs.1.mp rfl
        · cases hopenable hopens
  · obtain ⟨s', hreturned, hs'⟩ := hs.exists_returned hopens
    rw [hreturned]
    exact iff_of_true hs' fun h => absurd h hopens

/-- Then the state is consistent again. -/
theorem Consistent.step (hs : s.Consistent) (hopenable : s.Openable call)
    {s' : Output} (hstep : s.step call = some s') : s'.Consistent := by
  obtain rfl := Option.some.inj hstep
  by_cases hopens : s.Opens call
  · rw [hs.setOutputMode_of_opens hopens, if_pos (hopenable hopens)]
    exact consistent_of_open rfl rfl
  · obtain ⟨s', hreturned, hs'⟩ := hs.exists_returned hopens
    rw [hreturned]
    exact hs'

/-! ## Every sequence of calls -/

/-- Along a sequence of calls, every call that returns leaves mode, name and
stream consistent and every call that throws leaves them as they were, exactly
when every file that a call opens can be opened. -/
theorem keeps_iff_openable (calls : List OutputCall) :
    Machine.Guarded Output.step Keeps initial calls ↔
      Machine.Guarded Output.step Openable initial calls := by
  obtain ⟨s', hrun⟩ : ∃ s', Machine.run Output.step initial calls = some s' :=
    Machine.exists_run_of_total (fun _ _ => ⟨_, rfl⟩) initial calls
  exact Machine.guarded_iff (P := Consistent) (fun _ _ _ hs _ => hs.keeps_iff)
    (fun _ _ _ hs hopenable hstep => hs.step hopenable hstep)
    consistent_initial hrun

/-- A file cannot be opened at the first call, and the second call for it
returns at once: the mode is File, the stream is not open, and the lines
written afterwards are dropped. -/
theorem retry_returns_with_closed_stream :
    ¬ Machine.Guarded Output.step Keeps initial
        [⟨.file, ['l'], false⟩, ⟨.file, ['l'], true⟩] ∧
      ∃ s₁ s₂ message,
        initial.setOutputMode ⟨.file, ['l'], false⟩ = .thrown message s₁ ∧
        s₁ ≠ initial ∧
        s₁.setOutputMode ⟨.file, ['l'], true⟩ = .returned () s₂ ∧
        s₂.logMode = .file ∧ s₂.fileStream = none ∧
        s₂.destination = .dropped := by
  refine ⟨fun hguarded => ?_, ⟨.file, ['l'], none⟩, ⟨.file, ['l'], none⟩, _,
    rfl, by decide, rfl, rfl, rfl, rfl⟩
  have hkept : (⟨.file, ['l'], none⟩ : Output) = initial := hguarded.1
  cases hkept

/-- As long as every file can be opened, the lines go to the file that
`m_filename` names. -/
theorem destination_of_openable {calls : List OutputCall}
    (hopenable : Machine.Guarded Output.step Openable initial calls)
    (hrun : Machine.run Output.step initial calls = some s)
    (hmode : s.logMode = .file) : s.destination = .file s.filename := by
  have hs : s.Consistent :=
    Machine.run_invariant_of_guarded (P := Consistent)
      (fun _ _ _ hs hopenable hstep => hs.step hopenable hstep)
      consistent_initial hopenable hrun
  obtain ⟨filename, hfilename⟩ := Option.isSome_iff_exists.mp (hs.1.mp hmode)
  rw [destination, if_neg (by simp [hmode]), hfilename,
    hs.2 filename hfilename]
  rfl

end Output

end SquidDB.Utils.Logger
