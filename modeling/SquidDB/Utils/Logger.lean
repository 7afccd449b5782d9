import SquidDB.Infra.Queue
import SquidDB.Lib.Machine
import SquidDB.Utils.StringUtils

/-!
# The logger and its shutdown

`Logger`.  Any number of threads call `log`, one thread executes `run`, and one
thread calls `stop`.  A section under `m_mutex`, and a load or a store of
`m_stop` or of the size of the queue, is one step; the scheduler and the clock
are in the events.

The loop of `run` ends on the value of `itemsRemaining` that an earlier
iteration left behind.  The results at the end say which interleavings lose
messages for that reason.
-/

namespace SquidDB.Utils.Logger

open SquidDB.Infra

inductive LogLevel where
  | trace
  | debug
  | info
  | warn
  | error
  | unknown
  deriving DecidableEq

namespace LogLevel

/-- The value of the enumerator. -/
def value : LogLevel → ℕ
  | trace => 0
  | debug => 1
  | info => 2
  | warn => 3
  | error => 4
  | unknown => 5

def logLevelString : LogLevel → Text
  | trace => "TRACE".toList
  | debug => "DEBUG".toList
  | info => "INFO".toList
  | warn => "WARN".toList
  | error => "ERROR".toList
  | unknown => "UNKNOWN".toList

def parseLogLevel (logLevelString : Text) : LogLevel :=
  let logLevelStringUpper := StringUtils.toUpper logLevelString
  if logLevelStringUpper = "TRACE".toList then trace
  else if logLevelStringUpper = "DEBUG".toList then debug
  else if logLevelStringUpper = "INFO".toList then info
  else if logLevelStringUpper = "WARN".toList then warn
  else if logLevelStringUpper = "ERROR".toList then error
  else unknown

end LogLevel

inductive LogMode where
  | terminal
  | file
  | unknown
  deriving DecidableEq

def LogMode.parseLogMode (logModeString : Text) : LogMode :=
  let logModeStringUpper := StringUtils.toUpper logModeString
  if logModeStringUpper = "TERMINAL".toList then terminal
  else if logModeStringUpper = "FILE".toList then file
  else unknown

structure LogItem (Time : Type) where
  time : Time
  logLevel : LogLevel
  message : Text
  deriving DecidableEq

/-- Where the thread that executes `run` stands. -/
inductive RunPoint (Time : Type) where
  /-- Before the condition of the loop. -/
  | condition
  /-- Before the section under the mutex, or blocked in its wait. -/
  | waiting
  | writing (logItem : LogItem Time)
  /-- Before the test of `m_stop` at the end of the body. -/
  | check
  /-- Before the load of the size of the queue. -/
  | sample
  | purging
  | returned
  deriving DecidableEq

/-- Where the thread that executes `stop` stands. -/
inductive StopPoint where
  | logging
  | sleeping
  | stopped
  deriving DecidableEq

/-- The fields of the logger, the two threads with the local variables of
`run`, and the lines written.  The last two fields record what was ever put
into the queue, also up to the moment `m_stop` was set. -/
structure State (Time : Type) where
  logLevel : LogLevel
  queue : Queue (LogItem Time)
  stop : Bool
  point : RunPoint Time
  itemsRemaining : ℕ
  loggedRemaining : Bool
  stopPoint : StopPoint
  output : List Text
  enqueued : List (LogItem Time)
  atStop : Option (List (LogItem Time))
  deriving DecidableEq

/-- The steps of the program; those that may log read the clock. -/
inductive Event (Time : Type) where
  /-- A thread calls `log` when the clock says `now`. -/
  | log (now : Time) (logLevel : LogLevel) (message : Text)
  /-- `stop` logs its message. -/
  | stopLog (now : Time)
  /-- `stop` has slept and sets `m_stop`. -/
  | stopStore
  /-- The next step of `run`. -/
  | run (now : Time)

variable {Time : Type}

/-- The logger after `start`; messages may be queued already. -/
def start (logLevel : LogLevel) (queue : Queue (LogItem Time)) :
    State Time where
  logLevel := logLevel
  queue := queue
  stop := false
  point := .condition
  itemsRemaining := 0
  loggedRemaining := false
  stopPoint := .logging
  output := []
  enqueued := queue.nodes
  atStop := none

/-- The line `run` writes, for a format of the time. -/
def line (putTime : Time → Text) (logItem : LogItem Time) : Text :=
  putTime logItem.time ++ " (".toList ++ logItem.logLevel.logLevelString ++
    ") ".toList ++ logItem.message

namespace RunPoint

/-- The message that was dequeued and is not yet written. -/
def held : RunPoint Time → List (LogItem Time)
  | writing logItem => [logItem]
  | _ => []

/-- A point only reached when `m_stop` was seen set. -/
def draining : RunPoint Time → Bool
  | sample | purging | returned => true
  | _ => false

end RunPoint

namespace State

def log (s : State Time) (now : Time) (logLevel : LogLevel)
    (message : Text) : State Time :=
  if logLevel.value < s.logLevel.value then s
  else
    let logItem := ⟨now, logLevel, message⟩
    { s with
      queue := s.queue.enqueue logItem
      enqueued := s.enqueued ++ [logItem] }

/-- The section of `run` under the mutex.  While the predicate of the wait is
false, the thread stays blocked; it tries again whenever it is woken. -/
def lockedSection (s : State Time) : Option (State Time) :=
  if s.queue.empty = false ∨ s.stop = true then
    if s.queue.empty = false then
      match s.queue.dequeue with
      | .ok (logItem, queue) =>
          some { s with queue := queue, point := .writing logItem }
      | .error _ => none
    else some { s with point := .check }
  else some s

/-- The next step of `run`; none when it has returned.  The line that is written
reaches the terminal, or the stream of the log file as long as that is open. -/
def run (putTime : Time → Text) (s : State Time) (now : Time) :
    Option (State Time) :=
  match s.point with
  | .condition =>
      if s.stop = false ∨ 0 < s.itemsRemaining then
        some { s with point := .waiting }
      else some { s with point := .returned }
  | .waiting => s.lockedSection
  | .writing logItem =>
      some { s with
        output := s.output ++ [line putTime logItem]
        point := .check }
  | .check =>
      some { s with point := if s.stop then .sample else .condition }
  | .sample =>
      some { s with
        itemsRemaining := s.queue.size
        point :=
          if 0 < s.queue.size ∧ s.loggedRemaining = false then .purging
          else .condition }
  | .purging =>
      let message := "Logger::run Logger purging ".toList ++
        Text.decimal s.itemsRemaining ++ " items".toList
      some { s.log now .info message with
        loggedRemaining := true
        point := .condition }
  | .returned => none

def step (putTime : Time → Text) (s : State Time) :
    Event Time → Option (State Time)
  | .log now logLevel message => some (s.log now logLevel message)
  | .stopLog now =>
      if s.stopPoint = .logging then
        some { s.log now .info
          "Logger::stop Logger got stop signal".toList with
          stopPoint := .sleeping }
      else none
  | .stopStore =>
      if s.stopPoint = .sleeping then
        some { s with
          stop := true
          stopPoint := .stopped
          atStop := some s.enqueued }
      else none
  | .run now => s.run putTime now

/-- Every message enqueued before `m_stop` was set has been dequeued and
written, in the order of the queue and once. -/
def Complete (putTime : Time → Text) (s : State Time) : Prop :=
  ∃ before taken, s.atStop = some before ∧ before <+: taken ∧
    s.enqueued = taken ++ s.queue.nodes ∧
    s.output = taken.map (line putTime)

/-- `m_stop` is not set while `run` is about to evaluate the condition of its
loop with messages in the queue. -/
def Safe (s : State Time) : Event Time → Prop
  | .stopStore => s.point = .condition → s.queue.nodes = []
  | .log _ _ _ | .stopLog _ | .run _ => True

variable {putTime : Time → Text} {s s' : State Time} {e : Event Time}

/-! ## What one step does -/

theorem log_appends (s : State Time) (now : Time) (logLevel : LogLevel)
    (message : Text) :
    ∃ added, (s.log now logLevel message).enqueued = s.enqueued ++ added ∧
      (s.log now logLevel message).queue.nodes = s.queue.nodes ++ added := by
  rw [log]
  split
  · exact ⟨[], by simp, by simp⟩
  · exact ⟨[⟨now, logLevel, message⟩], rfl, rfl⟩

section

variable (s : State Time) (now : Time) (logLevel : LogLevel) (message : Text)

@[simp] theorem log_stop : (s.log now logLevel message).stop = s.stop := by
  rw [log]
  split <;> rfl

@[simp] theorem log_point :
    (s.log now logLevel message).point = s.point := by
  rw [log]
  split <;> rfl

@[simp] theorem log_itemsRemaining :
    (s.log now logLevel message).itemsRemaining = s.itemsRemaining := by
  rw [log]
  split <;> rfl

@[simp] theorem log_stopPoint :
    (s.log now logLevel message).stopPoint = s.stopPoint := by
  rw [log]
  split <;> rfl

@[simp] theorem log_output :
    (s.log now logLevel message).output = s.output := by
  rw [log]
  split <;> rfl

@[simp] theorem log_atStop :
    (s.log now logLevel message).atStop = s.atStop := by
  rw [log]
  split <;> rfl

end

/-- The steps of `run`. -/
inductive Runs (s : State Time) (putTime : Time → Text) : State Time → Prop
  | enter (hpoint : s.point = .condition)
      (hloop : s.stop = false ∨ 0 < s.itemsRemaining) :
      Runs s putTime { s with point := .waiting }
  | leave (hpoint : s.point = .condition) (hstop : s.stop = true)
      (hitems : s.itemsRemaining = 0) :
      Runs s putTime { s with point := .returned }
  | take (logItem : LogItem Time) (queue : Queue (LogItem Time))
      (hpoint : s.point = .waiting)
      (hnodes : s.queue.nodes = logItem :: queue.nodes) :
      Runs s putTime { s with queue := queue, point := .writing logItem }
  | pass (hpoint : s.point = .waiting) (hstop : s.stop = true) :
      Runs s putTime { s with point := .check }
  | block (hpoint : s.point = .waiting) : Runs s putTime s
  | write (logItem : LogItem Time) (hpoint : s.point = .writing logItem) :
      Runs s putTime { s with
        output := s.output ++ [line putTime logItem], point := .check }
  | again (hpoint : s.point = .check) (hstop : s.stop = false) :
      Runs s putTime { s with point := .condition }
  | drain (hpoint : s.point = .check) (hstop : s.stop = true) :
      Runs s putTime { s with point := .sample }
  | purge (hpoint : s.point = .sample) (hsize : 0 < s.queue.size) :
      Runs s putTime { s with
        itemsRemaining := s.queue.size, point := .purging }
  | sampled (hpoint : s.point = .sample) :
      Runs s putTime { s with
        itemsRemaining := s.queue.size, point := .condition }
  | purged (now : Time) (message : Text) (hpoint : s.point = .purging) :
      Runs s putTime { s.log now .info message with
        loggedRemaining := true, point := .condition }

theorem lockedSection_runs (hpoint : s.point = .waiting)
    (h : s.lockedSection = some s') : s.Runs putTime s' := by
  rw [lockedSection] at h
  by_cases hempty : s.queue.empty = false
  · obtain ⟨logItem, queue, hdequeue, hnodes⟩ := Queue.exists_dequeue hempty
    rw [if_pos (.inl hempty), if_pos hempty, hdequeue] at h
    obtain rfl := Option.some.inj h
    exact .take logItem queue hpoint hnodes
  · by_cases hstop : s.stop = true
    · rw [if_pos (.inr hstop), if_neg hempty] at h
      obtain rfl := Option.some.inj h
      exact .pass hpoint hstop
    · rw [if_neg (not_or.mpr ⟨hempty, hstop⟩)] at h
      obtain rfl := Option.some.inj h
      exact .block hpoint

/-- `run` takes no other steps. -/
theorem run_runs {now : Time} (h : s.run putTime now = some s') :
    s.Runs putTime s' := by
  rw [run] at h
  split at h
  next hpoint =>
    by_cases hloop : s.stop = false ∨ 0 < s.itemsRemaining
    · rw [if_pos hloop] at h
      obtain rfl := Option.some.inj h
      exact .enter hpoint hloop
    · rw [if_neg hloop] at h
      obtain rfl := Option.some.inj h
      obtain ⟨hstop, hitems⟩ := not_or.mp hloop
      exact .leave hpoint (Bool.eq_true_of_not_eq_false hstop)
        (Nat.eq_zero_of_not_pos hitems)
  next hpoint => exact lockedSection_runs hpoint h
  next logItem hpoint =>
    obtain rfl := Option.some.inj h
    exact .write logItem hpoint
  next hpoint =>
    obtain rfl := Option.some.inj h
    by_cases hstop : s.stop = true
    · rw [if_pos hstop]
      exact .drain hpoint hstop
    · rw [if_neg hstop]
      exact .again hpoint (Bool.eq_false_of_not_eq_true hstop)
  next hpoint =>
    obtain rfl := Option.some.inj h
    by_cases hpurge : 0 < s.queue.size ∧ s.loggedRemaining = false
    · rw [if_pos hpurge]
      exact .purge hpoint hpurge.1
    · rw [if_neg hpurge]
      exact .sampled hpoint
  next hpoint =>
    obtain rfl := Option.some.inj h
    exact .purged now _ hpoint
  next => cases h

/-- The steps of the program: a thread logs, `m_stop` is set, or `run` goes
on. -/
inductive Steps (s : State Time) (putTime : Time → Text) :
    Event Time → State Time → Prop
  | logs (e : Event Time) (now : Time) (logLevel : LogLevel)
      (message : Text) (stopPoint : StopPoint) (hne : e ≠ .stopStore)
      (hstopped : s.stopPoint = .stopped → stopPoint = .stopped) :
      Steps s putTime e
        { s.log now logLevel message with stopPoint := stopPoint }
  | store (hsleeping : s.stopPoint = .sleeping) :
      Steps s putTime .stopStore { s with
        stop := true, stopPoint := .stopped, atStop := some s.enqueued }
  | run (now : Time) (s' : State Time) (hruns : s.Runs putTime s') :
      Steps s putTime (.run now) s'

theorem step_steps (h : s.step putTime e = some s') :
    s.Steps putTime e s' := by
  cases e with
  | log now logLevel message =>
      obtain rfl := Option.some.inj h
      exact Steps.logs (.log now logLevel message) now logLevel message _
        nofun fun hstopped => (log_stopPoint ..).trans hstopped
  | stopLog now =>
      rw [step] at h
      split at h
      · next hlogging =>
        obtain rfl := Option.some.inj h
        refine Steps.logs (.stopLog now) now _ _ _ nofun fun hstopped => ?_
        rw [hlogging] at hstopped
        cases hstopped
      · cases h
  | stopStore =>
      rw [step] at h
      split at h
      · next hsleeping =>
        obtain rfl := Option.some.inj h
        exact .store hsleeping
      · cases h
  | run now => exact .run now s' (run_runs h)

/-- What a step adds to the queue and to the output; the messages between the
two stay in order. -/
def Flows (putTime : Time → Text) (s s' : State Time) : Prop :=
  ∃ added written, s'.enqueued = s.enqueued ++ added ∧
    s'.output = s.output ++ written.map (line putTime) ∧
    written ++ s'.point.held ++ s'.queue.nodes =
      s.point.held ++ s.queue.nodes ++ added

/-- A step that adds and writes nothing. -/
theorem Flows.quiet (henqueued : s'.enqueued = s.enqueued)
    (houtput : s'.output = s.output)
    (hmessages : s'.point.held ++ s'.queue.nodes =
      s.point.held ++ s.queue.nodes) : Flows putTime s s' :=
  ⟨[], [], by simp [henqueued], by simp [houtput], by simp [hmessages]⟩

theorem Flows.of_log {now : Time} {logLevel : LogLevel} {message : Text}
    (henqueued : s'.enqueued = (s.log now logLevel message).enqueued)
    (houtput : s'.output = s.output)
    (hheld : s'.point.held = s.point.held)
    (hnodes : s'.queue.nodes = (s.log now logLevel message).queue.nodes) :
    Flows putTime s s' := by
  obtain ⟨added, hadded, hqueue⟩ := log_appends s now logLevel message
  refine ⟨added, [], henqueued.trans hadded, by simp [houtput], ?_⟩
  rw [hheld, hnodes, hqueue]
  simp

theorem Runs.flows (h : s.Runs putTime s') : Flows putTime s s' := by
  cases h with
  | enter hpoint | leave hpoint | pass hpoint | again hpoint | drain hpoint
  | purge hpoint | sampled hpoint =>
      refine Flows.quiet rfl rfl ?_
      rw [hpoint]
      rfl
  | take logItem queue hpoint hnodes =>
      refine Flows.quiet rfl rfl ?_
      rw [hpoint, hnodes]
      rfl
  | block hpoint => exact Flows.quiet rfl rfl rfl
  | write logItem hpoint =>
      exact ⟨[], [logItem], by simp, rfl, by simp [hpoint, RunPoint.held]⟩
  | purged now message hpoint =>
      refine Flows.of_log rfl (by simp) ?_ rfl
      rw [hpoint]
      rfl

theorem Steps.flows (h : s.Steps putTime e s') : Flows putTime s s' := by
  cases h with
  | logs e now logLevel message =>
      exact Flows.of_log rfl (by simp) (by simp) rfl
  | store => exact Flows.quiet rfl rfl rfl
  | run now _ hruns => exact hruns.flows

/-- `run` neither sets `m_stop` nor acts for the thread that stops it. -/
theorem Runs.frame (h : s.Runs putTime s') :
    s'.stop = s.stop ∧ s'.stopPoint = s.stopPoint ∧
      s'.atStop = s.atStop := by
  cases h with
  | purged now message hpoint =>
      exact ⟨log_stop .., log_stopPoint .., log_atStop ..⟩
  | _ => exact ⟨rfl, rfl, rfl⟩

/-- Only the store sets `m_stop`. -/
theorem Steps.frame (h : s.Steps putTime e s') (hne : e ≠ .stopStore) :
    s'.stop = s.stop ∧ s'.atStop = s.atStop ∧
      (s.stopPoint = .stopped → s'.stopPoint = .stopped) := by
  cases h with
  | logs e now logLevel message stopPoint _ hstopped =>
      exact ⟨log_stop .., log_atStop .., hstopped⟩
  | store => exact absurd rfl hne
  | run now _ hruns =>
      obtain ⟨hstop, hstopPoint, hatStop⟩ := hruns.frame
      exact ⟨hstop, hatStop, fun h => hstopPoint.trans h⟩

/-! ## Every run -/

/-- What holds in every reachable state: the messages taken from the queue are
the first ones enqueued, and their lines are the output; `run` only drains the
queue when `m_stop` is set. -/
structure Consistent (putTime : Time → Text) (s : State Time) : Prop where
  fifo : ∃ taken,
    s.enqueued = taken ++ s.point.held ++ s.queue.nodes ∧
      s.output = taken.map (line putTime)
  running : s.stop = false → s.itemsRemaining = 0 ∧ s.point.draining = false
  purging : s.point = .purging → 0 < s.itemsRemaining
  stopped : s.stop = true → s.stopPoint = .stopped ∧
    ∃ before, s.atStop = some before ∧ before <+: s.enqueued

theorem consistent_start (logLevel : LogLevel)
    (queue : Queue (LogItem Time)) :
    (start logLevel queue).Consistent putTime where
  fifo := ⟨[], rfl, rfl⟩
  running _ := ⟨rfl, rfl⟩
  purging hpoint := by cases hpoint
  stopped hstop := by cases hstop

theorem Flows.fifo (hflow : Flows putTime s s')
    (hs : s.Consistent putTime) :
    ∃ taken, s'.enqueued = taken ++ s'.point.held ++ s'.queue.nodes ∧
      s'.output = taken.map (line putTime) := by
  obtain ⟨added, written, henqueued, houtput, hmessages⟩ := hflow
  obtain ⟨taken, htaken, hlines⟩ := hs.fifo
  refine ⟨taken ++ written, ?_, ?_⟩
  · calc
      s'.enqueued = taken ++ (s.point.held ++ s.queue.nodes ++ added) := by
        rw [henqueued, htaken]
        simp
      _ = taken ++ (written ++ s'.point.held ++ s'.queue.nodes) := by
        rw [hmessages]
      _ = taken ++ written ++ s'.point.held ++ s'.queue.nodes := by simp
  · rw [houtput, hlines, List.map_append]

theorem Runs.running (h : s.Runs putTime s') (hs : s.Consistent putTime)
    (hstop : s.stop = false) :
    s'.itemsRemaining = 0 ∧ s'.point.draining = false := by
  obtain ⟨hitems, hdraining⟩ := hs.running hstop
  cases h with
  | enter hpoint | take logItem queue hpoint | write logItem hpoint
  | again hpoint => exact ⟨hitems, rfl⟩
  | block hpoint => exact ⟨hitems, hdraining⟩
  | leave hpoint htrue | pass hpoint htrue | drain hpoint htrue =>
      rw [hstop] at htrue
      cases htrue
  | purge hpoint | sampled hpoint | purged now message hpoint =>
      rw [hpoint] at hdraining
      cases hdraining

theorem Runs.purging (h : s.Runs putTime s')
    (hpurging : s'.point = .purging) : 0 < s'.itemsRemaining := by
  cases h with
  | purge hpoint hsize => exact hsize
  | block hpoint =>
      rw [hpoint] at hpurging
      cases hpurging
  | _ => cases hpurging

theorem Consistent.steps_stopped (hs : s.Consistent putTime)
    (h : s.Steps putTime e s') (hne : e ≠ .stopStore)
    (hstop' : s'.stop = true) :
    s'.stopPoint = .stopped ∧
      ∃ before, s'.atStop = some before ∧ before <+: s'.enqueued := by
  obtain ⟨added, -, henqueued, -⟩ := h.flows
  obtain ⟨hstop, hatStop, hstopPoint⟩ := h.frame hne
  obtain ⟨hpoint, before, hbefore, hprefix⟩ := hs.stopped (hstop ▸ hstop')
  refine ⟨hstopPoint hpoint, before, hatStop.trans hbefore, ?_⟩
  rw [henqueued]
  exact hprefix.trans (List.prefix_append s.enqueued added)

/-- Every step keeps this. -/
theorem Consistent.step (hs : s.Consistent putTime)
    (h : s.step putTime e = some s') : s'.Consistent putTime := by
  have hsteps := step_steps h
  have hfifo := hsteps.flows.fifo hs
  cases id hsteps with
  | logs e now logLevel message stopPoint hne =>
      refine ⟨hfifo, ?_, ?_, hs.steps_stopped hsteps hne⟩
      · simpa using hs.running
      · simpa using hs.purging
  | store =>
      refine ⟨hfifo, fun hfalse => ?_, hs.purging, fun _ => ?_⟩
      · cases hfalse
      · exact ⟨rfl, s.enqueued, rfl, List.prefix_rfl⟩
  | run now _ hruns =>
      refine ⟨hfifo, fun hfalse => ?_, hruns.purging,
        hs.steps_stopped hsteps nofun⟩
      exact hruns.running hs (hruns.frame.1 ▸ hfalse)

/-! ## Leaving the loop -/

/-- `run` has returned, or is about to. -/
def Leaving (s : State Time) : Prop :=
  s.stop = true ∧
    (s.point = .returned ∨ s.point = .condition ∧ s.itemsRemaining = 0)

/-- At least as many lines were written as messages had been enqueued when
`m_stop` was set. -/
def Covered (s : State Time) : Prop :=
  ∀ before, s.atStop = some before → before.length ≤ s.output.length

theorem Runs.of_leaving (h : s.Runs putTime s') (hs : s.Leaving) :
    s'.Leaving ∧ s'.output = s.output := by
  obtain ⟨hstop, hfrom⟩ := hs
  cases h
  case leave => exact ⟨⟨hstop, .inl rfl⟩, rfl⟩
  all_goals simp_all

theorem Runs.nodes_of_leaving (h : s.Runs putTime s')
    (hs : s.Consistent putTime) (hs' : s'.Leaving) :
    s.Leaving ∨ s'.point.held = [] ∧ s'.queue.nodes = [] := by
  obtain ⟨htrue, hreturned | ⟨hcondition, hitems⟩⟩ := hs'
  · cases h
    case leave hpoint hstop hitems =>
      exact .inl ⟨hstop, .inr ⟨hpoint, hitems⟩⟩
    all_goals simp_all
  · cases h
    case again hpoint hstop =>
      rw [hstop] at htrue
      cases htrue
    case sampled hpoint =>
      right
      refine ⟨rfl, ?_⟩
      by_contra hnodes
      exact absurd hitems (Queue.size_pos_iff.mpr hnodes).ne'
    case purged now message hpoint =>
      have hpos := hs.purging hpoint
      simp only [log_itemsRemaining] at hitems
      omega
    all_goals simp_all

theorem Consistent.covered (hs : s.Consistent putTime)
    (hstop : s.stop = true) (hheld : s.point.held = [])
    (hnodes : s.queue.nodes = []) : s.Covered := by
  intro before hbefore
  obtain ⟨taken, henqueued, houtput⟩ := hs.fifo
  obtain ⟨-, before', hbefore', hprefix⟩ := hs.stopped hstop
  obtain rfl := Option.some.inj (hbefore.symm.trans hbefore')
  have hlength := hprefix.length_le
  rw [henqueued, hheld, hnodes] at hlength
  rw [houtput]
  simpa using hlength

theorem step_leaving (hs : s.Consistent putTime) (hleaving : s.Leaving)
    (h : s.step putTime e = some s') :
    s'.Leaving ∧ (s'.Covered ↔ s.Covered) := by
  cases step_steps h with
  | logs e now logLevel message => simpa [Leaving, Covered] using hleaving
  | store hsleeping =>
      rw [(hs.stopped hleaving.1).1] at hsleeping
      cases hsleeping
  | run now _ hruns =>
      obtain ⟨hleaving', houtput⟩ := hruns.of_leaving hleaving
      refine ⟨hleaving', ?_⟩
      rw [Covered, Covered, hruns.frame.2.2, houtput]

theorem Consistent.running_of_sleeping (hs : s.Consistent putTime)
    (hsleeping : s.stopPoint = .sleeping) :
    s.itemsRemaining = 0 ∧ s.point.draining = false := by
  apply hs.running
  by_contra hstop
  have hstopped := (hs.stopped (Bool.eq_true_of_not_eq_false hstop)).1
  rw [hsleeping] at hstopped
  cases hstopped

theorem Consistent.stop_of_returned (hs : s.Consistent putTime)
    (hreturned : s.point = .returned) : s.stop = true := by
  by_contra hstop
  have hrunning := hs.running (Bool.eq_false_of_not_eq_true hstop)
  rw [hreturned] at hrunning
  cases hrunning.2

/-- After a safe step from which `run` leaves its loop, everything is
written. -/
theorem step_covered (hs : s.Consistent putTime) (hsafe : s.Safe e)
    (h : s.step putTime e = some s') (hcovered : s.Leaving → s.Covered)
    (hleaving : s'.Leaving) : s'.Covered := by
  by_cases hbefore : s.Leaving
  · exact (step_leaving hs hbefore h).2.mpr (hcovered hbefore)
  · have hempty : s'.point.held = [] ∧ s'.queue.nodes = [] := by
      cases step_steps h with
      | logs e now logLevel message =>
          exact absurd (by simpa [Leaving] using hleaving) hbefore
      | store hsleeping =>
          have hrunning := (hs.running_of_sleeping hsleeping).2
          obtain ⟨-, hreturned | ⟨hcondition, -⟩⟩ := hleaving
          · rw [hreturned] at hrunning
            cases hrunning
          · refine ⟨?_, hsafe hcondition⟩
            rw [hcondition]
            rfl
      | run now _ hruns =>
          exact (hruns.nodes_of_leaving hs hleaving).resolve_left hbefore
    exact (hs.step h).covered hleaving.1 hempty.1 hempty.2

/-- After a store of `m_stop` that is not safe, `run` leaves its loop although
messages enqueued before are not written. -/
theorem step_not_covered (hs : s.Consistent putTime) (hviolated : ¬ s.Safe e)
    (h : s.step putTime e = some s') : s'.Leaving ∧ ¬ s'.Covered := by
  cases step_steps h with
  | logs e _ _ _ _ hne =>
      cases e with
      | stopStore => exact absurd rfl hne
      | _ => exact absurd trivial hviolated
  | run => exact absurd trivial hviolated
  | store hsleeping =>
      obtain ⟨hpoint, hnodes⟩ := Classical.not_imp.mp hviolated
      obtain ⟨taken, henqueued, houtput⟩ := hs.fifo
      have hitems := (hs.running_of_sleeping hsleeping).1
      refine ⟨⟨rfl, .inr ⟨hpoint, hitems⟩⟩, fun hcovered => ?_⟩
      have hlength := hcovered s.enqueued rfl
      have hpos := List.length_pos_iff.mpr hnodes
      rw [henqueued, houtput] at hlength
      simp only [List.length_append, List.length_map] at hlength
      omega

theorem Consistent.complete_iff (hs : s.Consistent putTime)
    (hreturned : s.point = .returned) :
    s.Complete putTime ↔ s.Covered := by
  obtain ⟨taken, henqueued, houtput⟩ := hs.fifo
  have hheld : s.point.held = [] := by
    rw [hreturned]
    rfl
  rw [hheld, List.append_nil] at henqueued
  constructor
  · rintro ⟨before, taken', hbefore, hprefix, -, houtput'⟩ b hb
    obtain rfl := Option.some.inj (hbefore.symm.trans hb)
    rw [houtput', List.length_map]
    exact hprefix.length_le
  · intro hcovered
    obtain ⟨-, before, hbefore, hprefix⟩ :=
      hs.stopped (hs.stop_of_returned hreturned)
    refine ⟨before, taken, hbefore, ?_, henqueued, houtput⟩
    have hlength := hcovered before hbefore
    rw [houtput, List.length_map] at hlength
    apply List.prefix_of_prefix_length_le hprefix _ hlength
    rw [henqueued]
    exact List.prefix_append taken s.queue.nodes

/-- A run of the logger that ends with `run` returned has written every message
enqueued before `m_stop` was set, in order and once, exactly when `m_stop` was
not set while `run` was about to test the condition of its loop with messages
in the queue. -/
theorem complete_iff_safe {logLevel : LogLevel}
    {queue : Queue (LogItem Time)} {es : List (Event Time)}
    (hrun : Machine.run (step putTime) (start logLevel queue) es = some s)
    (hreturned : s.point = .returned) :
    s.Complete putTime ↔
      Machine.Guarded (step putTime) Safe (start logLevel queue) es := by
  have hstart : (start logLevel queue).Consistent putTime :=
    consistent_start logLevel queue
  have hs : s.Consistent putTime :=
    Machine.run_invariant (fun _ _ _ hs h => hs.step h) hstart hrun
  rw [hs.complete_iff hreturned]
  -- what is written is settled from when `run` leaves its loop
  exact Machine.settled_iff_guarded
    (fun _ _ _ hs h => hs.step h)
    (fun _ _ _ hs hleaving h => step_leaving hs hleaving h)
    (fun _ _ _ hs hsafe h hcovered => step_covered hs hsafe h hcovered)
    (fun _ _ _ hs hviolated h => step_not_covered hs hviolated h) hstart
    (fun hleaving => by cases hleaving.1) hrun
    ⟨hs.stop_of_returned hreturned, .inl hreturned⟩

/-- The line of the witness and the counterexample, without the time. -/
def untimed : ℕ → Text := fun _ => []

/-- `m_stop` is set while `run` is blocked: the message is written. -/
theorem complete_iff_safe_blocked :
    ∃ s, Machine.run (step untimed) (start .info .new)
        [.run 0, .stopLog 1, .stopStore, .run 2, .run 2, .run 2, .run 2,
          .run 2] = some s ∧ s.point = .returned ∧ s.Complete untimed := by
  have hsafe : Machine.Guarded (step untimed) Safe (start .info .new)
      ([.run 0, .stopLog 1] ++ .stopStore :: [.run 2, .run 2, .run 2, .run 2,
        .run 2]) := by
    refine Machine.Guarded.append
      (Machine.guarded_of_always (by simp [Safe]) _) fun s₁ h₁ => ?_
    obtain rfl := Option.some.inj h₁
    exact ⟨nofun, fun s₂ _ =>
      Machine.guarded_of_always (by simp [Safe]) s₂⟩
  obtain ⟨s, hrun, hreturned⟩ : ∃ s, Machine.run (step untimed)
      (start .info .new) [.run 0, .stopLog 1, .stopStore, .run 2, .run 2,
        .run 2, .run 2, .run 2] = some s ∧ s.point = .returned :=
    ⟨_, rfl, rfl⟩
  exact ⟨s, hrun, hreturned, (complete_iff_safe hrun hreturned).mpr hsafe⟩

/-- A message is logged while `run`, which has written another one and seen
that `m_stop` is not set, goes back to the condition of its loop; `m_stop` is
set before it gets there. -/
theorem stop_loses_message :
    ∃ s : State ℕ, Machine.run (step untimed) (start .info .new)
        [.log 0 .info ['a'], .run 1, .run 1, .run 1, .run 1, .stopLog 2,
          .log 3 .error ['b'], .stopStore, .run 4] = some s ∧
      s.point = .returned ∧ ¬ s.Complete untimed := by
  refine ⟨_, rfl, rfl, ?_⟩
  rintro ⟨before, taken, hbefore, hprefix, -, houtput⟩
  obtain rfl := Option.some.inj hbefore
  have hlength := hprefix.length_le
  have htaken := (congrArg List.length houtput).trans (List.length_map _)
  exact absurd (hlength.trans_eq htaken.symm) (by decide)

end State

end SquidDB.Utils.Logger
