import SquidDB.Storage.FileStream

/-!
# Records stay where they were written

A `StreamFile` only ever appends.  What a write has transferred is found at the
same offset in every later state, by `pointRead` once it has left the buffer of
the stream, and by reading the file from its start after it was opened again.
-/

namespace SquidDB.Storage

namespace FileStream

variable {s s' : FileStream} {call : StreamCall}

/-! ## The file grows -/

/-- What is in front stays there, unless it is lost when the file is
closed. -/
theorem Steps.keeps_front {returned : Bool} (h : s.Steps call returned s')
    {front : List UInt8} (hfront : front <+: s.content)
    (hkept : ∀ lost, call = .close lost →
      front.length ≤ s.content.length - lost) : front <+: s'.content := by
  cases h with
  | keep => exact hfront
  | opened hclosed | unsized message hclosed =>
      rw [content_of_closed hclosed] at hfront
      exact hfront
  | closed stream lost hopen =>
      have hlength := hkept lost rfl
      rw [content_of_open hopen] at hfront hlength
      obtain ⟨rest, hrest⟩ := hfront
      refine ⟨rest.take (stream.content.length - lost - front.length), ?_⟩
      have htake : stream.content.take (stream.content.length - lost) =
          front ++ rest.take (stream.content.length - lost - front.length) := by
        generalize stream.content.length - lost = length at hlength ⊢
        rw [← hrest, List.take_append, List.take_of_length_le hlength]
      exact htake.symm
  | hasRead stream length limit returned hopen =>
      rw [content_of_open hopen] at hfront
      exact hfront
  | hasWritten stream bytes limit hopen =>
      rw [content_of_open hopen] at hfront
      exact hfront.trans (List.prefix_append _ _)
  | fellShort stream bytes limit hopen =>
      rw [content_of_open hopen] at hfront
      exact hfront.trans (List.prefix_append _ _)
  | positioned stream hopen =>
      rw [content_of_open hopen, ← content_moved stream] at hfront
      exact hfront

theorem content_of_write {bytes : List UInt8} {limit : ℕ}
    (hwrite : s.write bytes limit = .returned () s') :
    s'.content = s.content ++ bytes := by
  rcases hfile : s.file with _ | stream
  · simp [write, hfile] at hwrite
  · by_cases hshort : limit < bytes.length
    · rw [write_of_lt hfile hshort] at hwrite
      cases hwrite
    · have hcontent := content_write hfile bytes limit
      rwa [hwrite, Outcome.state_returned,
        List.take_of_length_le (Nat.le_of_not_lt hshort)] at hcontent

/-! ## Reading the file from its start -/

/-- What the writes among the calls were given. -/
def writtenRecords (calls : List StreamCall) : List (List UInt8) :=
  calls.filterMap fun
    | .write bytes _ => some bytes
    | _ => none

/-- Nothing is lost when the file is closed: `fclose` succeeds. -/
def Lossless : StreamCall → Prop
  | .close lost => lost = 0
  | _ => True

theorem content_of_stepReturned (hkept : Lossless call)
    (h : s.stepReturned call = some s') :
    s'.content = s.content ++ (writtenRecords [call]).flatten := by
  have hsteps := steps_of_stepReturned h
  by_cases hwrite : ∃ bytes limit, call = .write bytes limit
  · obtain ⟨bytes, limit, rfl⟩ := hwrite
    rw [stepReturned, perform] at h
    rcases ho : s.write bytes limit with ⟨value, s₁⟩ | ⟨message, s₁⟩
    · simp only [ho, Outcome.map_returned, Option.some.injEq] at h
      subst h
      simpa [writtenRecords] using content_of_write ho
    · simp [ho] at h
  · have hnone : (writtenRecords [call]).flatten = [] := by
      cases call with
      | write bytes limit => exact absurd ⟨bytes, limit, rfl⟩ hwrite
      | _ => rfl
    rw [hnone, List.append_nil]
    cases hsteps with
    | keep => rfl
    | opened hclosed => exact (content_of_closed hclosed).symm
    | closed stream lost hopen =>
        obtain rfl : lost = 0 := hkept
        rw [content_of_open hopen, content_of_closed rfl, Nat.sub_zero,
          List.take_length]
    | hasRead stream length limit returned hopen =>
        exact (content_of_open hopen).symm
    | hasWritten stream bytes limit => exact absurd ⟨bytes, limit, rfl⟩ hwrite
    | positioned stream hopen =>
        rw [content_of_open hopen]
        exact content_moved stream

/-- Along calls that return, the file grows by what the writes were given. -/
theorem content_of_run {calls : List StreamCall}
    (hkept : ∀ call ∈ calls, Lossless call)
    (hrun : Machine.run stepReturned s calls = some s') :
    s'.content = s.content ++ (writtenRecords calls).flatten := by
  induction calls generalizing s with
  | nil =>
      obtain rfl := Option.some.inj hrun
      simp [writtenRecords]
  | cons call calls ih =>
      obtain ⟨hcall, hkept⟩ := List.forall_mem_cons.mp hkept
      obtain ⟨s₁, hstep, hrun⟩ := Option.bind_eq_some_iff.mp hrun
      have hrecords : writtenRecords (call :: calls) =
          writtenRecords [call] ++ writtenRecords calls :=
        List.filterMap_append (l := [call])
      rw [ih hkept hrun, content_of_stepReturned hcall hstep, hrecords,
        List.flatten_append, List.append_assoc]

/-- Reads of these lengths, one after the other. -/
def readAll (s : FileStream) :
    List ℕ → Outcome FileStream (List (List UInt8))
  | [] => .returned [] s
  | length :: lengths =>
      match s.read length length with
      | .thrown message s => .thrown message s
      | .returned bytes s => (readAll s lengths).map fun rest => bytes :: rest

/-- Reads return the records in front of the stream. -/
theorem readAll_spec {stream : AppendStream UInt8}
    {passed rest : List UInt8} {records : List (List UInt8)}
    (hopen : s.file = some stream) (hlast : s.lastOperation ≠ .write)
    (hcontent : stream.content = passed ++ records.flatten ++ rest)
    (hposition : stream.position = passed.length) :
    ∃ s' stream', s.readAll (records.map List.length) =
        .returned records s' ∧
      s'.file = some stream' ∧ stream'.content = stream.content ∧
      stream'.position = (passed ++ records.flatten).length := by
  induction records generalizing s stream passed with
  | nil => exact ⟨s, stream, rfl, hopen, rfl, by simp [hposition]⟩
  | cons record records ih =>
      rw [List.flatten_cons, ← List.append_assoc] at hcontent
      have hsplit : stream.content =
          passed ++ record ++ (records.flatten ++ rest) := by
        rw [hcontent, List.append_assoc]
      have hdelivered := stream.delivered_of_split hsplit hposition rfl
        (le_refl record.length)
      have hread : s.read record.length record.length =
          .returned record { s with
            file := some (stream.fread record.length record.length)
            appended := false
            lastOperation := .read } := by
        simp [read, hopen, hlast, hdelivered]
      obtain ⟨s', stream', hreads, hopen', hcontent', hposition'⟩ :=
        ih (s := { s with
            file := some (stream.fread record.length record.length)
            appended := false
            lastOperation := .read }) rfl (by simp) hcontent
          (by simp [AppendStream.fread, hdelivered, hposition])
      refine ⟨s', stream', ?_, hopen', hcontent', ?_⟩
      · rw [List.map_cons, readAll, hread]
        simp only [hreads, Outcome.map_returned]
      · rw [hposition', List.flatten_cons, List.append_assoc]

/-- Whatever was called on a new file, in however many sessions: as long as the
calls return and nothing is lost when the file is closed, opening the file again
and reading it record by record returns what was written, in order, and
`getPosition` then returns where to go on writing. -/
theorem replay_returns_written {filePath : Text} {calls : List StreamCall}
    (hkept : ∀ call ∈ calls, Lossless call)
    (hrun : Machine.run stepReturned (new filePath []) calls = some s)
    (hclosed : s.file = none) :
    ∃ s₁ s₂ s₃, s.openStream true none = .returned () s₁ ∧
      s₁.fileSize = (writtenRecords calls).flatten.length ∧
      s₁.readAll ((writtenRecords calls).map List.length) =
        .returned (writtenRecords calls) s₂ ∧
      s₂.getPosition =
        .returned (writtenRecords calls).flatten.length s₃ ∧
      s₃.IsAppendPosition (writtenRecords calls).flatten.length := by
  have hcontent := content_of_run hkept hrun
  rw [content_of_closed hclosed] at hcontent
  have hdisk : s.disk = (writtenRecords calls).flatten := hcontent
  have hopened : s.openStream true none = .returned () { s with
      file := some (.fopen s.disk)
      opened := true
      appended := false
      fileSize := s.disk.length
      lastOperation := .none } := by
    simp [openStream, hclosed]
  set records := writtenRecords calls
  set s₁ : FileStream := { s with
    file := some (.fopen s.disk)
    opened := true
    appended := false
    fileSize := s.disk.length
    lastOperation := .none }
  have hall : (AppendStream.fopen s.disk).content =
      [] ++ records.flatten ++ [] := by
    simp [AppendStream.fopen, hdisk]
  obtain ⟨s₂, stream, hreads, hopen, hstream, hbehind⟩ :=
    readAll_spec (s := s₁) rfl (by simp [s₁]) hall rfl
  have hstreamDisk : stream.content = records.flatten := hstream.trans hdisk
  have hposition := getPosition_of_open hopen
  rw [hstreamDisk, hbehind, List.nil_append, ite_self] at hposition
  refine ⟨s₁, s₂, _, hopened, by rw [← hdisk], hreads, hposition, ?_⟩
  rw [isAppendPosition_iff, content, Option.elim_some, content_moved,
    hstreamDisk]

/-- Two sessions of writing, with a flush between two writes. -/
theorem replay_returns_written_two_sessions :
    ∃ s s₁ s₂, Machine.run stepReturned (new ['f'] [])
        [.openStream true none, .write [1, 2] 2, .flush, .write [3] 1,
          .close 0, .openStream true none, .write [4] 1, .close 0] = some s ∧
      s.openStream true none = .returned () s₁ ∧
      s₁.readAll [2, 1, 1] = .returned [[1, 2], [3], [4]] s₂ := by
  obtain ⟨s, hrun, hclosed⟩ : ∃ s, Machine.run stepReturned (new ['f'] [])
      [.openStream true none, .write [1, 2] 2, .flush, .write [3] 1,
        .close 0, .openStream true none, .write [4] 1, .close 0] = some s ∧
      s.file = none := ⟨_, rfl, rfl⟩
  obtain ⟨s₁, s₂, -, hopened, -, hreads, -⟩ :=
    replay_returns_written (by simp [Lossless]) hrun hclosed
  exact ⟨s, s₁, s₂, hrun, hopened, hreads⟩

end FileStream

/-! ## What has left the buffer -/

/-- A stream, and how much of what its file holds has left the buffer. -/
structure BufferedStream where
  stream : FileStream
  written : ℕ
  deriving DecidableEq

namespace BufferedStream

/-- A call, during which some bytes leave the buffer, in order. -/
def step (s : BufferedStream) (e : StreamCall × ℕ) :
    Option BufferedStream :=
  let stream := (s.stream.perform e.1).state
  some ⟨stream, min stream.content.length (s.written + e.2)⟩

/-- What `pread` and `fclose` promise: the first delivers what is in the file
behind the buffer, and the second loses what it does not write. -/
structure Promised (s : BufferedStream) (e : StreamCall × ℕ) : Prop where
  delivered : ∀ offset length bytes,
    e.1 = .pointRead offset length (some bytes) →
    0 ≤ offset ∧ bytes = ((s.stream.content.take s.written).drop
      offset.toNat).take length
  lost : ∀ lost, e.1 = .close lost →
    lost = s.stream.content.length - (s.written + e.2)

variable {s s' : BufferedStream} {front : List UInt8}

/-- The front of the file has left the buffer. -/
structure Drained (front : List UInt8) (s : BufferedStream) : Prop where
  kept : front <+: s.stream.content
  written : front.length ≤ s.written

theorem Drained.of_step {e : StreamCall × ℕ}
    (hfront : front <+: s.stream.content)
    (hwritten : front.length ≤ s.written + e.2) (hpromised : s.Promised e)
    (hstep : step s e = some s') : Drained front s' := by
  obtain rfl := Option.some.inj hstep
  have hkept := (s.stream.perform_steps e.1).keeps_front hfront
    fun lost hclose => by
      have hlength := hfront.length_le
      have hlost := hpromised.lost lost hclose
      omega
  exact ⟨hkept, le_min hkept.length_le hwritten⟩

/-- What has left the buffer stays in the file. -/
theorem Drained.run (h : Drained front s) {events : List (StreamCall × ℕ)}
    (hpromised : Machine.Guarded step Promised s events)
    (hrun : Machine.run step s events = some s') : Drained front s' := by
  refine Machine.run_invariant_of_guarded (P := Drained front) ?_ h hpromised
    hrun
  intro u e u' hu hpromised hstep
  exact .of_step hu.kept (hu.written.trans (Nat.le_add_right _ _)) hpromised
    hstep

end BufferedStream

end SquidDB.Storage
