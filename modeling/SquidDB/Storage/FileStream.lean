import SquidDB.Lib.AppendStream
import SquidDB.Lib.Checked
import SquidDB.Lib.Machine
import SquidDB.Storage.FileManager

/-!
# The stream of a file

`StreamFile` with its stream: `m_file`, the size it keeps track of, and the
state that tells which operation came last.  What the operating system does is
part of a call: whether the file can be opened, whether its size is known, how
many bytes are transferred, and how many are lost when the file is closed.
`getPosition` and the tracked size are only as good as that state; the results
say when they are right.
-/

namespace SquidDB.Storage

/-- `StreamFile::Operation`. -/
inductive Operation where
  | none
  | read
  | write
  deriving DecidableEq, Repr

/-- `StreamFile`, with what the file holds while it is not open; `getFileSize`
returns the field it is named after.  The last two fields record whether the
file has ever been open and whether the last access to the stream appended
bytes. -/
structure FileStream where
  filePath : Text
  disk : List UInt8
  file : Option (AppendStream UInt8)
  fileSize : ℕ
  lastOperation : Operation
  opened : Bool
  appended : Bool
  deriving DecidableEq

namespace FileStream

/-- The constructor. -/
def new (filePath : Text) (disk : List UInt8) : FileStream where
  filePath := filePath
  disk := disk
  file := none
  fileSize := 0
  lastOperation := .none
  opened := false
  appended := false

/-- What the file holds, including what is still buffered. -/
def content (s : FileStream) : List UInt8 :=
  s.file.elim s.disk AppendStream.content

/-- The path behind a message. -/
def withPath (s : FileStream) (message : String) : String :=
  message ++ String.ofList s.filePath

/-- A number of bytes in a message. -/
def withCount (message : String) (count : Text) : String :=
  message ++ String.ofList count ++ " bytes"

/-! ## Calls -/

/-- `open`; `fileSizeError` is the message of `std::filesystem::file_size` when
it throws. -/
def openStream (s : FileStream) (canOpen : Bool)
    (fileSizeError : Option String) : Outcome FileStream Unit :=
  match s.file with
  | some _ => .thrown (s.withPath "StreamFile::open file already opened ") s
  | none =>
      if canOpen then
        let s := { s with
          file := some (.fopen s.disk), opened := true, appended := false }
        match fileSizeError with
        | some message => .thrown message s
        | none =>
            .returned () { s with
              fileSize := s.disk.length, lastOperation := .none }
      else .thrown (s.withPath "StreamFile::open could not open file ") s

/-- `close`; `lost` is the number of buffered bytes that `fclose` fails to
write.  Its result is discarded, so the call returns all the same. -/
def close (s : FileStream) (lost : ℕ) : Outcome FileStream Unit :=
  match s.file with
  | none => .thrown (s.withPath "StreamFile::close file is nullptr ") s
  | some stream =>
      .returned () { s with
        disk := stream.content.take (stream.content.length - lost)
        file := none
        lastOperation := .none
        appended := false }

/-- `read`, which returns the bytes. -/
def read (s : FileStream) (length limit : ℕ) :
    Outcome FileStream (List UInt8) :=
  match s.file with
  | none => .thrown (s.withPath "StreamFile::read file is nullptr ") s
  | some stream =>
      if s.lastOperation = .write then
        .thrown (s.withPath "StreamFile::read last operation was write ") s
      else
        let bytes := stream.delivered length limit
        let s := { s with
          file := some (stream.fread length limit), appended := false }
        if bytes.length ≠ length then
          .thrown (withCount "StreamFile::read read "
            (Text.decimal bytes.length)) s
        else .returned bytes { s with lastOperation := .read }

def write (s : FileStream) (bytes : List UInt8) (limit : ℕ) :
    Outcome FileStream Unit :=
  match s.file with
  | none => .thrown (s.withPath "StreamFile::write file is nullptr ") s
  | some stream =>
      let stream :=
        if s.lastOperation = .read then stream.seekCurrent else stream
      let bytesWritten := (bytes.take limit).length
      let s := { s with
        file := some (stream.fwrite bytes limit)
        appended := decide (0 < bytesWritten) }
      if bytesWritten ≠ bytes.length then
        .thrown (withCount "StreamFile::write wrote "
          (Text.decimal bytesWritten)) s
      else
        .returned () { s with
          fileSize := s.fileSize + bytes.length, lastOperation := .write }

/-- `flush`, which discards the result of `fflush`. -/
def flush (s : FileStream) : Outcome FileStream Unit :=
  match s.file with
  | none => .thrown (s.withPath "StreamFile::flush file is nullptr ") s
  | some _ =>
      if s.lastOperation ≠ .write then
        .thrown (s.withPath "StreamFile::flush last operation not write ") s
      else .returned () s

/-- `pointRead`; `pread` delivers bytes or fails. -/
def pointRead (s : FileStream) (length : ℕ)
    (delivered : Option (List UInt8)) : Outcome FileStream (List UInt8) :=
  match s.file with
  | none => .thrown (s.withPath "StreamFile::pointRead file is nullptr ") s
  | some _ =>
      match delivered with
      | none => .thrown (withCount "StreamFile::pointRead read " "-1".toList) s
      | some bytes =>
          if bytes.length ≠ length then
            .thrown (withCount "StreamFile::pointRead read "
              (Text.decimal bytes.length)) s
          else .returned bytes s

def getPosition (s : FileStream) : Outcome FileStream ℕ :=
  match s.file with
  | none => .thrown (s.withPath "StreamFile::getPosition file is nullptr ") s
  | some stream =>
      let stream :=
        if s.lastOperation = .read then stream.seekEnd else stream
      .returned stream.position { s with file := some stream }

end FileStream

/-- A call on a stream, with what the operating system does. -/
inductive StreamCall where
  | openStream (canOpen : Bool) (fileSizeError : Option String)
  | close (lost : ℕ)
  | read (length limit : ℕ)
  | write (bytes : List UInt8) (limit : ℕ)
  | flush
  | pointRead (offset : ℤ) (length : ℕ) (delivered : Option (List UInt8))
  | getPosition
  deriving DecidableEq

/-- What a call returns. -/
inductive StreamValue where
  | void
  | bytes (bytes : List UInt8)
  | position (position : ℕ)
  deriving DecidableEq

namespace FileStream

def perform (s : FileStream) : StreamCall → Outcome FileStream StreamValue
  | .openStream canOpen fileSizeError =>
      (s.openStream canOpen fileSizeError).map fun _ => .void
  | .close lost => (s.close lost).map fun _ => .void
  | .read length limit => (s.read length limit).map .bytes
  | .write bytes limit => (s.write bytes limit).map fun _ => .void
  | .flush => s.flush.map fun _ => .void
  | .pointRead _ length delivered => (s.pointRead length delivered).map .bytes
  | .getPosition => s.getPosition.map .position

/-- The state after a call, whether it returns or throws. -/
def step (s : FileStream) (call : StreamCall) : Option FileStream :=
  some (s.perform call).state

/-- The state after a call that returns. -/
def stepReturned (s : FileStream) (call : StreamCall) : Option FileStream :=
  match s.perform call with
  | .returned _ s' => some s'
  | .thrown _ _ => none

/-! ## What one call does -/

/-- The changes a call can make, and whether it returns after them. -/
inductive Steps (s : FileStream) :
    StreamCall → Bool → FileStream → Prop
  | keep (call : StreamCall) (returned : Bool) : Steps s call returned s
  | opened (hclosed : s.file = none) :
      Steps s (.openStream true none) true { s with
        file := some (.fopen s.disk)
        opened := true
        appended := false
        fileSize := s.disk.length
        lastOperation := .none }
  | unsized (message : String) (hclosed : s.file = none) :
      Steps s (.openStream true (some message)) false { s with
        file := some (.fopen s.disk), opened := true, appended := false }
  | closed (stream : AppendStream UInt8) (lost : ℕ)
      (hopen : s.file = some stream) :
      Steps s (.close lost) true { s with
        disk := stream.content.take (stream.content.length - lost)
        file := none
        lastOperation := .none
        appended := false }
  | hasRead (stream : AppendStream UInt8) (length limit : ℕ)
      (returned : Bool) (hopen : s.file = some stream)
      (hlast : s.lastOperation ≠ .write) :
      Steps s (.read length limit) returned { s with
        file := some (stream.fread length limit)
        appended := false
        lastOperation := if returned then .read else s.lastOperation }
  | hasWritten (stream : AppendStream UInt8) (bytes : List UInt8)
      (limit : ℕ) (hopen : s.file = some stream)
      (hall : bytes.length ≤ limit) :
      Steps s (.write bytes limit) true { s with
        file := some (stream.fwrite bytes limit)
        appended := decide (0 < bytes.length)
        fileSize := s.fileSize + bytes.length
        lastOperation := .write }
  | fellShort (stream : AppendStream UInt8) (bytes : List UInt8)
      (limit : ℕ) (hopen : s.file = some stream)
      (hshort : limit < bytes.length) :
      Steps s (.write bytes limit) false { s with
        file := some (stream.fwrite bytes limit)
        appended := decide (0 < limit) }
  | positioned (stream : AppendStream UInt8) (hopen : s.file = some stream) :
      Steps s .getPosition true { s with
        file := some
          (if s.lastOperation = .read then stream.seekEnd else stream) }

/-- Whether a call returns. -/
def returns {α : Type} : Outcome FileStream α → Bool
  | .returned _ _ => true
  | .thrown _ _ => false

@[simp] theorem returns_map {α β : Type} (f : α → β)
    (o : Outcome FileStream α) : returns (o.map f) = returns o := by
  cases o <;> rfl

variable (s : FileStream)

theorem openStream_steps (canOpen : Bool) (fileSizeError : Option String) :
    s.Steps (.openStream canOpen fileSizeError)
      (returns (s.openStream canOpen fileSizeError))
      (s.openStream canOpen fileSizeError).state := by
  rw [openStream]
  rcases hfile : s.file with _ | stream
  · cases canOpen with
    | false => exact .keep _ _
    | true =>
        rcases fileSizeError with _ | message
        · exact .opened hfile
        · exact .unsized message hfile
  · exact .keep _ _

theorem close_steps (lost : ℕ) :
    s.Steps (.close lost) (returns (s.close lost)) (s.close lost).state := by
  rw [close]
  rcases hfile : s.file with _ | stream
  · exact .keep _ _
  · exact .closed stream lost hfile

theorem read_steps (length limit : ℕ) :
    s.Steps (.read length limit) (returns (s.read length limit))
      (s.read length limit).state := by
  rw [read]
  rcases hfile : s.file with _ | stream
  · exact .keep _ _
  · by_cases hlast : s.lastOperation = .write
    · simp only [if_pos hlast]
      exact .keep _ _
    · simp only [if_neg hlast]
      split
      · exact .hasRead stream length limit false hfile hlast
      · exact .hasRead stream length limit true hfile hlast

section Write

variable {s} {stream : AppendStream UInt8} {bytes : List UInt8} {limit : ℕ}

theorem write_of_lt (hopen : s.file = some stream)
    (hshort : limit < bytes.length) :
    s.write bytes limit = .thrown
      (withCount "StreamFile::write wrote " (Text.decimal limit)) { s with
        file := some (stream.fwrite bytes limit)
        appended := decide (0 < limit) } := by
  rw [write, hopen]
  simp only [AppendStream.seekCurrent, ite_self, List.length_take]
  rw [Nat.min_eq_left hshort.le, if_pos hshort.ne]

theorem write_of_le (hopen : s.file = some stream)
    (hall : bytes.length ≤ limit) :
    s.write bytes limit = .returned () { s with
      file := some (stream.fwrite bytes limit)
      appended := decide (0 < bytes.length)
      fileSize := s.fileSize + bytes.length
      lastOperation := .write } := by
  rw [write, hopen]
  simp only [AppendStream.seekCurrent, ite_self, List.length_take]
  rw [Nat.min_eq_right hall, if_neg (not_not.mpr rfl)]

end Write

theorem write_steps (bytes : List UInt8) (limit : ℕ) :
    s.Steps (.write bytes limit) (returns (s.write bytes limit))
      (s.write bytes limit).state := by
  rcases hfile : s.file with _ | stream
  · simpa [write, hfile] using Steps.keep _ _
  · by_cases hshort : limit < bytes.length
    · rw [write_of_lt hfile hshort]
      exact .fellShort stream bytes limit hfile hshort
    · have hall := Nat.le_of_not_lt hshort
      rw [write_of_le hfile hall]
      exact .hasWritten stream bytes limit hfile hall

theorem getPosition_steps :
    s.Steps .getPosition (returns s.getPosition) s.getPosition.state := by
  rw [getPosition]
  rcases hfile : s.file with _ | stream
  · exact .keep _ _
  · exact .positioned stream hfile

@[simp] theorem flush_state : s.flush.state = s := by
  rw [flush]
  split
  · rfl
  · split <;> rfl

@[simp] theorem pointRead_state (length : ℕ)
    (delivered : Option (List UInt8)) :
    (s.pointRead length delivered).state = s := by
  rw [pointRead.eq_def]
  split
  · rfl
  · split
    · rfl
    · split <;> rfl

theorem perform_steps (call : StreamCall) :
    s.Steps call (returns (s.perform call)) (s.perform call).state := by
  cases call with
  | openStream canOpen fileSizeError =>
      simpa [perform] using s.openStream_steps canOpen fileSizeError
  | close lost => simpa [perform] using s.close_steps lost
  | read length limit => simpa [perform] using s.read_steps length limit
  | write bytes limit => simpa [perform] using s.write_steps bytes limit
  | flush => simpa [perform] using Steps.keep _ _
  | pointRead offset length delivered => simpa [perform] using Steps.keep _ _
  | getPosition => simpa [perform] using s.getPosition_steps

variable {s : FileStream} {s' : FileStream} {call : StreamCall}

theorem steps_of_step (h : s.step call = some s') :
    s.Steps call (returns (s.perform call)) s' := by
  obtain rfl := Option.some.inj h
  exact s.perform_steps call

theorem steps_of_stepReturned (h : s.stepReturned call = some s') :
    s.Steps call true s' := by
  have hsteps := s.perform_steps call
  rw [stepReturned] at h
  split at h
  next value s₁ hperform =>
    obtain rfl := Option.some.inj h
    rw [hperform] at hsteps
    exact hsteps
  next => cases h

theorem content_of_open {stream : AppendStream UInt8}
    (hopen : s.file = some stream) : s.content = stream.content := by
  rw [content, hopen]
  rfl

theorem content_of_closed (hclosed : s.file = none) : s.content = s.disk := by
  rw [content, hclosed]
  rfl

/-- `getPosition` moves the stream, and changes nothing in the file. -/
theorem content_moved (stream : AppendStream UInt8) :
    (if s.lastOperation = .read then stream.seekEnd else stream).content =
      stream.content := by
  split <;> rfl

/-- On a new object this is how a file manager opens its files. -/
theorem openStream_new (canOpen : Text → Bool) (filePath : Text)
    (disk : List UInt8) (sequenceNumber : UInt8) :
    ((new filePath disk).openStream (canOpen filePath) none).result =
      (openFile canOpen filePath sequenceNumber).map fun _ => () := by
  cases hopen : canOpen filePath <;>
    simp [openFile, openStream, new, withPath, hopen, Except.map]

/-! ## The append position -/

/-- The position is the length of the file, and the next write places its
bytes there. -/
def IsAppendPosition (s : FileStream) (position : ℕ) : Prop :=
  position = s.content.length ∧
    ∀ bytes limit, s.file.isSome →
      (s.write bytes limit).state.content.drop position = bytes.take limit

/-- What `getPosition` returns is the append position. -/
def ReportsAppendPosition (s : FileStream) (call : StreamCall) : Prop :=
  ∀ position s', s.perform call = .returned (.position position) s' →
    s'.IsAppendPosition position

/-- `getPosition` is not called on a file that holds something before it is
read or written. -/
def Accessed (s : FileStream) (call : StreamCall) : Prop :=
  call = .getPosition → s.lastOperation = .none → s.content = []

/-- The stream is at the start until it is used, and behind a write at the
end. -/
def Positioned (s : FileStream) : Prop :=
  ∀ stream, s.file = some stream →
    (s.lastOperation = .none → stream.position = 0) ∧
      (s.lastOperation = .write → stream.position = stream.appendOffset)

theorem content_write {stream : AppendStream UInt8}
    (hopen : s.file = some stream) (bytes : List UInt8) (limit : ℕ) :
    (s.write bytes limit).state.content = s.content ++ bytes.take limit := by
  rw [content_of_open hopen, write.eq_def, hopen]
  simp only [AppendStream.seekCurrent, ite_self]
  split <;> rfl

theorem isAppendPosition_iff {position : ℕ} :
    s.IsAppendPosition position ↔ position = s.content.length := by
  refine ⟨And.left, fun hposition => ⟨hposition, fun bytes limit hopen => ?_⟩⟩
  obtain ⟨stream, hstream⟩ := Option.isSome_iff_exists.mp hopen
  rw [content_write hstream, hposition, List.drop_left]

/-- Calls that return keep the stream positioned. -/
theorem Positioned.step (hs : s.Positioned)
    (h : s.stepReturned call = some s') : s'.Positioned := by
  intro stream' hstream'
  cases steps_of_stepReturned h with
  | keep => exact hs stream' hstream'
  | opened hclosed =>
      obtain rfl := Option.some.inj hstream'
      exact ⟨fun _ => rfl, nofun⟩
  | closed stream lost hopen => cases hstream'
  | hasRead stream length limit returned hopen hlast =>
      exact ⟨nofun, nofun⟩
  | hasWritten stream bytes limit hopen hall =>
      obtain rfl := Option.some.inj hstream'
      exact ⟨nofun, fun _ => stream.position_fwrite bytes limit⟩
  | positioned stream hopen =>
      obtain rfl := Option.some.inj hstream'
      by_cases hread : s.lastOperation = .read
      · simp [hread]
      · simpa [hread] using hs stream hopen

theorem getPosition_of_open {stream : AppendStream UInt8}
    (hopen : s.file = some stream) :
    s.getPosition = .returned
      (if s.lastOperation = .read then stream.content.length
        else stream.position)
      { s with
        file := some
          (if s.lastOperation = .read then stream.seekEnd else stream) } := by
  rw [getPosition, hopen]
  by_cases hread : s.lastOperation = .read
  · simp [hread, AppendStream.appendOffset]
  · simp [hread]

theorem call_eq_of_position {position : ℕ}
    (h : s.perform call = .returned (.position position) s') :
    call = .getPosition := by
  cases call with
  | getPosition => rfl
  | openStream canOpen error =>
      cases ho : s.openStream canOpen error <;> simp [perform, ho] at h
  | close lost => cases ho : s.close lost <;> simp [perform, ho] at h
  | read length limit =>
      cases ho : s.read length limit <;> simp [perform, ho] at h
  | write bytes limit =>
      cases ho : s.write bytes limit <;> simp [perform, ho] at h
  | flush => cases ho : s.flush <;> simp [perform, ho] at h
  | pointRead offset length delivered =>
      cases ho : s.pointRead length delivered <;> simp [perform, ho] at h

theorem reportsAppendPosition_iff {stream : AppendStream UInt8}
    (hopen : s.file = some stream) :
    s.ReportsAppendPosition .getPosition ↔
      (if s.lastOperation = .read then stream.content.length
        else stream.position) = stream.content.length := by
  have hcontent : ∀ moved : AppendStream UInt8,
      moved.content = stream.content →
      ({ s with file := some moved } : FileStream).content =
        stream.content := fun moved hmoved => hmoved
  constructor
  · intro hreports
    have hposition := hreports _ _
      (by rw [perform, getPosition_of_open hopen, Outcome.map_returned])
    exact hposition.1.trans
      (congrArg List.length (hcontent _ (content_moved stream)))
  · intro hposition position s' hperform
    rw [perform, getPosition_of_open hopen, Outcome.map_returned] at hperform
    obtain ⟨hvalue, rfl⟩ := Outcome.returned.inj hperform
    obtain rfl := StreamValue.position.inj hvalue
    rw [isAppendPosition_iff, hcontent _ (content_moved stream)]
    exact hposition

theorem Positioned.reports_iff (hs : s.Positioned)
    (h : s.stepReturned call = some s') :
    s.ReportsAppendPosition call ↔ s.Accessed call := by
  by_cases hcall : call = .getPosition
  · subst hcall
    obtain ⟨stream, hopen⟩ : ∃ stream, s.file = some stream := by
      rcases hfile : s.file with _ | stream
      · simp [stepReturned, perform, getPosition, hfile] at h
      · exact ⟨stream, rfl⟩
    obtain ⟨hnone, hwrite⟩ := hs stream hopen
    rw [reportsAppendPosition_iff hopen, Accessed, content_of_open hopen]
    rcases hlast : s.lastOperation with _ | _ | _
    · rw [if_neg nofun, hnone hlast, eq_comm, List.length_eq_zero_iff]
      exact ⟨fun hempty _ _ => hempty, fun hempty => hempty rfl rfl⟩
    · exact iff_of_true (if_pos rfl) nofun
    · rw [if_neg nofun]
      exact iff_of_true (hwrite hlast) nofun
  · refine iff_of_true (fun position s₁ hperform => ?_) fun heq => ?_
    · exact absurd (call_eq_of_position hperform) hcall
    · exact absurd heq hcall

/-- Along calls that all return, from any file, `getPosition` always returns
the append position exactly when it is never called on a file that holds
something, right after the file was opened. -/
theorem reports_iff_accessed {filePath : Text} {disk : List UInt8}
    {calls : List StreamCall}
    (hrun : Machine.run stepReturned (new filePath disk) calls = some s) :
    Machine.Guarded stepReturned ReportsAppendPosition (new filePath disk)
        calls ↔
      Machine.Guarded stepReturned Accessed (new filePath disk) calls :=
  Machine.guarded_iff (P := Positioned) (fun _ _ _ hs h => hs.reports_iff h)
    (fun _ _ _ hs _ h => hs.step h) (fun stream hstream => by cases hstream)
    hrun

/-- The position of an empty file is taken, and again after a write. -/
theorem reports_iff_accessed_written :
    Machine.Guarded stepReturned ReportsAppendPosition (new ['f'] [])
      [.openStream true none, .getPosition, .write [1, 2] 2,
        .getPosition] := by
  refine (reports_iff_accessed (s := _) rfl).mpr ⟨nofun, fun s₁ h₁ => ?_⟩
  obtain rfl := Option.some.inj h₁
  refine ⟨fun _ _ => rfl, fun s₂ h₂ => ?_⟩
  obtain rfl := Option.some.inj h₂
  refine ⟨nofun, fun s₃ h₃ => ?_⟩
  obtain rfl := Option.some.inj h₃
  exact ⟨nofun, fun _ _ => trivial⟩

/-- Right after a file of one byte was opened, `getPosition` returns 0, and
the next write places its bytes at 1. -/
theorem getPosition_after_open :
    ∃ s₁ s₂ s₃,
      Machine.run stepReturned (new ['f'] [7]) [.openStream true none] =
        some s₁ ∧
      s₁.getPosition = .returned 0 s₂ ∧
      ¬ s₂.IsAppendPosition 0 ∧
      s₂.write [8] 1 = .returned () s₃ ∧ s₃.content = [7, 8] ∧
      ¬ Machine.Guarded stepReturned ReportsAppendPosition (new ['f'] [7])
        [.openStream true none, .getPosition] := by
  refine ⟨_, _, _, rfl, rfl, ?_, rfl, rfl, fun hguarded => ?_⟩
  · rw [isAppendPosition_iff]
    decide
  · have hreports := (hguarded.2 _ rfl).1 0 _ rfl
    rw [isAppendPosition_iff] at hreports
    cases hreports

/-! ## The tracked size -/

/-- Once the file has been open, the tracked size is its length; after an
access that appended bytes the last operation is a write, and a read is
refused. -/
structure Tracked (s : FileStream) : Prop where
  size : s.opened = true → s.fileSize = s.content.length
  write : s.appended = true → s.lastOperation = .write
  refused : s.appended = true → ∀ length limit, ∃ message,
    s.read length limit = .thrown message s

/-- The state after a call is tracked. -/
def Tracks (s : FileStream) (call : StreamCall) : Prop :=
  ∀ s', s.step call = some s' → s'.Tracked

/-- A write to the open file transfers all of its bytes or none, a file whose
size cannot be determined when it is opened has the tracked size, and nothing
is lost when the file is closed. -/
def Whole (s : FileStream) : StreamCall → Prop
  | .write bytes limit =>
      s.file.isSome → limit = 0 ∨ bytes.length ≤ limit
  | .openStream canOpen fileSizeError =>
      s.file = none → canOpen = true → fileSizeError.isSome →
        s.fileSize = s.content.length
  | .close lost => s.file.isSome → lost = 0 ∨ s.content = []
  | _ => True

/-- Only an open stream appends, and only a file that was opened is open. -/
structure Framed (s : FileStream) : Prop where
  opened : s.file.isSome → s.opened = true
  appended : s.appended = true → s.file.isSome

theorem read_of_write (hopen : s.file.isSome)
    (hlast : s.lastOperation = .write) (length limit : ℕ) :
    s.read length limit = .thrown
      (s.withPath "StreamFile::read last operation was write ") s := by
  obtain ⟨stream, hstream⟩ := Option.isSome_iff_exists.mp hopen
  simp [read, hstream, hlast]

theorem Framed.tracked_iff (hs : s.Framed) :
    s.Tracked ↔ (s.opened = true → s.fileSize = s.content.length) ∧
      (s.appended = true → s.lastOperation = .write) := by
  refine ⟨fun htracked => ⟨htracked.size, htracked.write⟩, ?_⟩
  rintro ⟨hsize, hwrite⟩
  refine ⟨hsize, hwrite, fun happended length limit => ?_⟩
  exact ⟨_, read_of_write (hs.appended happended) (hwrite happended) length
    limit⟩

theorem Framed.step (hs : s.Framed) {returned : Bool}
    (h : s.Steps call returned s') : s'.Framed := by
  cases h with
  | keep => exact hs
  | opened | unsized => exact ⟨fun _ => rfl, nofun⟩
  | closed => exact ⟨nofun, nofun⟩
  | hasRead stream length limit returned hopen =>
      exact ⟨fun _ => hs.opened (by simp [hopen]), nofun⟩
  | hasWritten stream bytes limit hopen
  | fellShort stream bytes limit hopen
  | positioned stream hopen =>
      exact ⟨fun _ => hs.opened (by simp [hopen]), fun _ => rfl⟩

theorem tracks_iff_state :
    s.Tracks call ↔ (s.perform call).state.Tracked :=
  ⟨fun htracks => htracks _ rfl, fun htracked s' h => by
    obtain rfl := Option.some.inj h
    exact htracked⟩

theorem Tracked.of_steps (hs : s.Framed) (htracked : s.Tracked)
    {returned : Bool} (h : s.Steps call returned s')
    (hopen : ∀ canOpen error, call ≠ .openStream canOpen error)
    (hclose : ∀ lost, call ≠ .close lost)
    (hwrite : ∀ bytes limit, call ≠ .write bytes limit) : s'.Tracked := by
  rw [(hs.step h).tracked_iff]
  have hsize := htracked.size
  cases h with
  | keep => exact ⟨htracked.size, htracked.write⟩
  | opened | unsized => exact absurd rfl (hopen _ _)
  | hasWritten | fellShort => exact absurd rfl (hwrite _ _)
  | closed => exact absurd rfl (hclose _)
  | hasRead stream length limit returned hfile =>
      rw [content_of_open hfile] at hsize
      exact ⟨hsize, nofun⟩
  | positioned stream hfile =>
      rw [content_of_open hfile] at hsize
      refine ⟨fun hopened => (hsize hopened).trans ?_, htracked.write⟩
      by_cases hread : s.lastOperation = .read
      · simp [content, hread]
      · simp [content, hread]

/-- A write that falls short appends bytes that are not counted. -/
theorem Tracked.write_iff (hs : s.Framed) (htracked : s.Tracked)
    (bytes : List UInt8) (limit : ℕ) :
    (s.write bytes limit).state.Tracked ↔ s.Whole (.write bytes limit) := by
  have hframed := hs.step (s.write_steps bytes limit)
  rcases hfile : s.file with _ | stream
  · have hstate : (s.write bytes limit).state = s := by
      simp [FileStream.write, hfile]
    rw [hstate]
    refine iff_of_true htracked fun hopen => ?_
    rw [hfile] at hopen
    cases hopen
  · have hopen : s.file.isSome := by simp [hfile]
    have hsize := htracked.size (hs.opened hopen)
    rw [content_of_open hfile] at hsize
    rw [hframed.tracked_iff]
    by_cases hshort : limit < bytes.length
    · rw [write_of_lt hfile hshort]
      constructor
      · rintro ⟨hsize', -⟩ -
        have hlength := hsize' (hs.opened hopen)
        simp only [Outcome.state_thrown, content, Option.elim_some,
          AppendStream.length_content_fwrite, hsize,
          Nat.min_eq_left hshort.le] at hlength
        exact .inl (by omega)
      · intro hwhole
        have hzero : limit = 0 :=
          (hwhole hopen).resolve_right (Nat.not_le.mpr hshort)
        subst hzero
        refine ⟨fun _ => ?_, nofun⟩
        simp [content, AppendStream.length_content_fwrite, hsize]
    · have hall := Nat.le_of_not_lt hshort
      rw [write_of_le hfile hall]
      refine iff_of_true ⟨fun _ => ?_, fun _ => rfl⟩ fun _ => .inr hall
      simp [content, AppendStream.length_content_fwrite, hsize,
        Nat.min_eq_right hall]

theorem Tracked.openStream_iff (hs : s.Framed) (htracked : s.Tracked)
    (canOpen : Bool) (error : Option String) :
    (s.openStream canOpen error).state.Tracked ↔
      s.Whole (.openStream canOpen error) := by
  have hframed := hs.step (s.openStream_steps canOpen error)
  rcases hfile : s.file with _ | stream
  · cases canOpen with
    | false =>
        have hstate : (s.openStream false error).state = s := by
          simp [openStream, hfile]
        rw [hstate]
        exact iff_of_true htracked nofun
    | true =>
        rw [hframed.tracked_iff, Whole, content_of_closed hfile]
        rcases error with _ | message
        · simp [openStream, hfile, content, AppendStream.fopen]
        · simp [openStream, hfile, content, AppendStream.fopen]
  · have hstate : (s.openStream canOpen error).state = s := by
      simp [openStream, hfile]
    rw [hstate]
    refine iff_of_true htracked fun hclosed => ?_
    rw [hfile] at hclosed
    cases hclosed

theorem Tracked.close_iff (hs : s.Framed) (htracked : s.Tracked)
    (lost : ℕ) : (s.close lost).state.Tracked ↔ s.Whole (.close lost) := by
  have hframed := hs.step (s.close_steps lost)
  rcases hfile : s.file with _ | stream
  · have hstate : (s.close lost).state = s := by
      simp [close, hfile]
    rw [hstate]
    refine iff_of_true htracked fun hopen => ?_
    rw [hfile] at hopen
    cases hopen
  · have hopen : s.file.isSome := by simp [hfile]
    have hopened := hs.opened hopen
    have hsize := htracked.size hopened
    rw [content_of_open hfile] at hsize
    rw [hframed.tracked_iff]
    simp only [close, hfile, Outcome.state_returned, content_of_closed, hsize,
      List.length_take]
    constructor
    · rintro ⟨hkept, -⟩ -
      have hlength := hkept hopened
      rw [content_of_open hfile, ← List.length_eq_zero_iff]
      omega
    · intro hwhole
      refine ⟨fun _ => ?_, nofun⟩
      rcases hwhole hopen with rfl | hempty
      · omega
      · rw [content_of_open hfile] at hempty
        simp [hempty]

/-- From a tracked state a call leads to a tracked state exactly when it is
whole. -/
theorem Tracked.tracks_iff (hs : s.Framed) (htracked : s.Tracked) :
    s.Tracks call ↔ s.Whole call := by
  rw [tracks_iff_state]
  have hsteps := s.perform_steps call
  cases call with
  | write bytes limit =>
      rw [perform, Outcome.state_map]
      exact htracked.write_iff hs bytes limit
  | openStream canOpen error =>
      rw [perform, Outcome.state_map]
      exact htracked.openStream_iff hs canOpen error
  | close lost =>
      rw [perform, Outcome.state_map]
      exact htracked.close_iff hs lost
  | _ =>
      exact iff_of_true (htracked.of_steps hs hsteps nofun nofun nofun) trivial

/-! ## Every sequence of calls -/

/-- Along any sequence of calls on any file, the tracked size stays the length
of the file and the last operation a write after bytes were appended, exactly
when every write to the open file transfers all of its bytes or none, the size
is known whenever the file is opened, and nothing is lost when it is closed. -/
theorem tracks_iff_whole (filePath : Text) (disk : List UInt8)
    (calls : List StreamCall) :
    Machine.Guarded step Tracks (new filePath disk) calls ↔
      Machine.Guarded step Whole (new filePath disk) calls := by
  obtain ⟨s', hrun⟩ : ∃ s', Machine.run step (new filePath disk) calls =
      some s' :=
    Machine.exists_run_of_total (fun _ _ => ⟨_, rfl⟩) _ calls
  have hnew : (new filePath disk).Framed ∧ (new filePath disk).Tracked :=
    ⟨⟨nofun, nofun⟩, nofun, nofun, nofun⟩
  refine Machine.guarded_iff (P := fun s => s.Framed ∧ s.Tracked) ?_ ?_ hnew
    hrun
  · rintro s call s' ⟨hs, htracked⟩ -
    exact htracked.tracks_iff hs
  · rintro s call s' ⟨hs, htracked⟩ hwhole h
    exact ⟨hs.step (steps_of_step h), (htracked.tracks_iff hs).mpr hwhole s' h⟩

/-- A write of two bytes of which one is transferred: it throws, the byte is
not counted, and a read is not refused. -/
theorem short_write_not_tracked :
    ∃ s₁ s₂ s₃ message,
      Machine.run step (new ['f'] []) [.openStream true none] = some s₁ ∧
      s₁.write [1, 2] 1 = .thrown message s₂ ∧
      s₂.content = [1] ∧ s₂.fileSize = 0 ∧ s₂.appended = true ∧
      s₂.lastOperation = .none ∧ s₂.read 0 0 = .returned [] s₃ ∧
      ¬ Machine.Guarded step Tracks (new ['f'] [])
        [.openStream true none, .write [1, 2] 1] := by
  refine ⟨_, _, _, _, rfl, rfl, rfl, rfl, rfl, rfl, rfl, fun hguarded => ?_⟩
  have htracked := (hguarded.2 _ rfl).1 _ rfl
  cases htracked.size rfl

end FileStream

end SquidDB.Storage
