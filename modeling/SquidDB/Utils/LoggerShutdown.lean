import SquidDB.Utils.Logger

/-!
# Shutting the logger down

The threads of the logger with `m_cv`.  A wait tests its predicate and, when it
is false, releases `m_mutex` and blocks: two steps, both taken while the mutex
is held.  Setting `m_stop` needs no mutex, so it may fall between the two, and
a notify wakes only a thread that is blocked already.  `stop` sets `m_stop` and
notifies, `~Logger` sets it and joins.
-/

namespace SquidDB.Utils.Logger

open SquidDB.Infra

/-- Where the thread of `run` stands in its wait. -/
inductive WaitPoint where
  /-- Not in the wait, or about to take the mutex and test the predicate. -/
  | outside
  /-- The predicate was false, the mutex is still held. -/
  | tested
  | blocked
  deriving DecidableEq

/-- `m_cv.notify_one()`: a thread that is blocked tests its predicate again. -/
def WaitPoint.notified : WaitPoint → WaitPoint
  | outside => outside
  | tested => tested
  | blocked => outside

/-- The logger and its threads. -/
structure Threads (Time : Type) where
  logger : State Time
  wait : WaitPoint
  /-- How many threads have put a message into the queue and not yet
  notified. -/
  pending : ℕ
  /-- The thread that executes `stop` has yet to notify, for its message or
  for its store. -/
  owed : Bool
  /-- `~Logger` has set `m_stop`. -/
  destroyed : Bool
  deriving DecidableEq

/-- The steps of the threads. -/
inductive ThreadEvent (Time : Type) where
  | log (now : Time) (logLevel : LogLevel) (message : Text)
  /-- A thread in `log` notifies. -/
  | notify
  | stopLog (now : Time)
  | stopStore
  /-- The thread in `stop` notifies. -/
  | stopNotify
  /-- `~Logger` sets `m_stop`. -/
  | destroy
  | run (now : Time)
  deriving DecidableEq

namespace Threads

variable {Time : Type}

/-- The threads after `start`. -/
def start (logLevel : LogLevel) (queue : Queue (LogItem Time)) :
    Threads Time where
  logger := Logger.start logLevel queue
  wait := .outside
  pending := 0
  owed := false
  destroyed := false

/-- `log` returns before it takes the mutex. -/
def Filtered (t : Threads Time) (logLevel : LogLevel) : Prop :=
  logLevel.value < t.logger.logLevel.value

instance (t : Threads Time) (logLevel : LogLevel) :
    Decidable (t.Filtered logLevel) :=
  inferInstanceAs (Decidable (_ < _))

/-- `run` is at its wait, and the predicate is false. -/
def waits (t : Threads Time) : Bool :=
  match t.logger.point with
  | .waiting => t.logger.queue.empty && !t.logger.stop
  | _ => false

/-- The next step of `run`; none while it is blocked and when it has
returned. -/
def run (putTime : Time → Text) (t : Threads Time) (now : Time) :
    Option (Threads Time) :=
  match t.wait with
  | .tested => some { t with wait := .blocked }
  | .blocked => none
  | .outside =>
      if t.waits then some { t with wait := .tested }
      else
        (t.logger.run putTime now).map fun logger =>
          { t with logger := logger }

def step (putTime : Time → Text) (t : Threads Time) :
    ThreadEvent Time → Option (Threads Time)
  | .log now logLevel message =>
      if t.Filtered logLevel then some t
      else if t.wait = .tested then none
      else
        some { t with
          logger := t.logger.log now logLevel message
          pending := t.pending + 1 }
  | .notify =>
      if t.pending = 0 then none
      else
        some { t with
          pending := t.pending - 1
          wait := t.wait.notified }
  | .stopLog now =>
      if t.destroyed = true ∨ ¬ t.Filtered .info ∧ t.wait = .tested then none
      else
        (t.logger.step putTime (.stopLog now)).map fun logger =>
          { t with
            logger := logger
            owed := t.owed || !decide (t.Filtered .info) }
  | .stopStore =>
      if t.destroyed = true ∨ t.owed = true then none
      else
        (t.logger.step putTime .stopStore).map fun logger =>
          { t with
            logger := logger
            owed := true }
  | .stopNotify =>
      if t.owed = false then none
      else
        some { t with
          owed := false
          wait := t.wait.notified }
  | .destroy =>
      -- the thread that destroys the logger is not inside `stop`
      if t.destroyed = true ∨ t.owed = true ∨
          t.logger.stopPoint = .sleeping then none
      else
        some { t with
          logger := { t.logger with stop := true }
          destroyed := true }
  | .run now => t.run putTime now

/-- `m_stop` is set, `run` is blocked, and nobody is left to notify. -/
def Stuck (t : Threads Time) : Prop :=
  t.logger.stop = true ∧ t.wait = .blocked ∧ t.pending = 0 ∧ t.owed = false

instance (t : Threads Time) : Decidable t.Stuck :=
  inferInstanceAs (Decidable (_ ∧ _ ∧ _ ∧ _))

/-- `m_stop` is not set between the test of the predicate and the block, and
`~Logger` does not set it while `run` is blocked and nobody is about to
notify. -/
def Safe (t : Threads Time) : ThreadEvent Time → Prop
  | .stopStore => t.wait ≠ .tested
  | .destroy => t.logger.stop = false →
      t.wait ≠ .tested ∧ (t.wait = .blocked → 0 < t.pending)
  | _ => True

/-- When `m_stop` is set, the next block sees it, and a thread that is blocked
will be notified. -/
def Awaited (t : Threads Time) : Prop :=
  t.logger.stop = true →
    t.wait ≠ .tested ∧ (t.wait = .blocked → 0 < t.pending ∨ t.owed = true)

variable {putTime : Time → Text} {t t' : Threads Time}
  {e : ThreadEvent Time}

/-! ## What one step does -/

theorem notified_ne_blocked (wait : WaitPoint) :
    wait.notified ≠ .blocked := by
  cases wait with
  | _ => decide

theorem notified_ne_tested {wait : WaitPoint} (hwait : wait ≠ .tested) :
    wait.notified ≠ .tested := by
  cases wait with
  | tested => exact absurd rfl hwait
  | outside | blocked => decide

theorem stop_eq_of_step {s s' : State Time} {e : Event Time}
    (hne : e ≠ .stopStore) (h : s.step putTime e = some s') :
    s'.stop = s.stop :=
  ((State.step_steps h).frame hne).1

/-- What a step of `run` does: it tests the predicate in vain, blocks, or goes
on outside the wait. -/
theorem run_cases {now : Time} (h : t.run putTime now = some t') :
    (t.wait = .outside ∧ t.logger.stop = false ∧
        t' = { t with wait := .tested }) ∨
      (t.wait = .tested ∧ t' = { t with wait := .blocked }) ∨
      (t.wait = .outside ∧ ∃ logger,
        t.logger.step putTime (.run now) = some logger ∧
        t' = { t with logger := logger }) := by
  rw [run] at h
  split at h
  next hwait =>
    obtain rfl := Option.some.inj h
    exact .inr (.inl ⟨hwait, rfl⟩)
  next => cases h
  next hwait =>
    by_cases hwaits : t.waits = true
    · rw [if_pos hwaits] at h
      obtain rfl := Option.some.inj h
      refine .inl ⟨hwait, ?_, rfl⟩
      rw [waits] at hwaits
      split at hwaits
      · simp only [Bool.and_eq_true, Bool.not_eq_true'] at hwaits
        exact hwaits.2
      · cases hwaits
    · rw [if_neg hwaits, Option.map_eq_some_iff] at h
      obtain ⟨logger, hrun, rfl⟩ := h
      exact .inr (.inr ⟨hwait, logger, hrun, rfl⟩)

/-- A safe step leaves every blocked thread somebody who will notify it. -/
theorem Awaited.step (ht : t.Awaited) (hsafe : t.Safe e)
    (h : t.step putTime e = some t') : t'.Awaited := by
  cases e with
  | log now logLevel message =>
      rw [Threads.step] at h
      split at h
      · obtain rfl := Option.some.inj h
        exact ht
      · split at h
        · cases h
        · obtain rfl := Option.some.inj h
          intro hstop
          rw [State.log_stop] at hstop
          obtain ⟨htested, -⟩ := ht hstop
          exact ⟨htested, fun _ => .inl (Nat.succ_pos t.pending)⟩
  | notify =>
      rw [Threads.step] at h
      split at h
      · cases h
      · obtain rfl := Option.some.inj h
        intro hstop
        exact ⟨notified_ne_tested (ht hstop).1,
          fun hblocked => absurd hblocked (notified_ne_blocked t.wait)⟩
  | stopLog now =>
      rw [Threads.step] at h
      split at h
      · cases h
      · obtain ⟨logger, hlogger, rfl⟩ := Option.map_eq_some_iff.mp h
        intro hstop
        rw [stop_eq_of_step (e := .stopLog now) nofun hlogger] at hstop
        obtain ⟨htested, hblocked⟩ := ht hstop
        refine ⟨htested, fun hwait =>
          (hblocked hwait).imp_right fun howed => ?_⟩
        simp [howed]
  | stopStore =>
      rw [Threads.step] at h
      split at h
      · cases h
      · obtain ⟨logger, hlogger, rfl⟩ := Option.map_eq_some_iff.mp h
        exact fun _ => ⟨hsafe, fun _ => .inr rfl⟩
  | stopNotify =>
      rw [Threads.step] at h
      split at h
      · cases h
      · obtain rfl := Option.some.inj h
        intro hstop
        exact ⟨notified_ne_tested (ht hstop).1,
          fun hblocked => absurd hblocked (notified_ne_blocked t.wait)⟩
  | destroy =>
      rw [Threads.step] at h
      split at h
      · cases h
      · obtain rfl := Option.some.inj h
        intro _
        cases hstop : t.logger.stop with
        | false =>
            obtain ⟨htested, hblocked⟩ := hsafe hstop
            exact ⟨htested, fun hwait => .inl (hblocked hwait)⟩
        | true => exact ht hstop
  | run now =>
      rcases run_cases h with ⟨-, hfalse, rfl⟩ | ⟨htested, rfl⟩ |
        ⟨hwait, logger, hlogger, rfl⟩
      · intro hstop
        rw [hfalse] at hstop
        cases hstop
      · exact fun hstop => absurd htested (ht hstop).1
      · intro _
        exact ⟨by simp [hwait], fun hblocked => by simp [hwait] at hblocked⟩

theorem Awaited.not_stuck (ht : t.Awaited) : ¬ t.Stuck := by
  rintro ⟨hstop, hblocked, hpending, howed⟩
  rcases (ht hstop).2 hblocked with hpos | htrue
  · omega
  · rw [howed] at htrue
    cases htrue

/-- `m_stop` has been set by one of the two ways to shut down. -/
def Signalled (t : Threads Time) : Prop :=
  t.logger.stop = true →
    t.destroyed = true ∨ t.logger.stopPoint = .stopped

/-- A step of the logger alone. -/
theorem Signalled.logger (ht : t.Signalled) {logger : State Time}
    {e : Event Time} (h : t.logger.step putTime e = some logger)
    (hstop : logger.stop = true) :
    t.destroyed = true ∨ logger.stopPoint = .stopped := by
  by_cases hstore : e = .stopStore
  · subst hstore
    cases State.step_steps h with
    | logs e _ _ _ _ hne => exact absurd rfl hne
    | store hsleeping => exact .inr rfl
  · obtain ⟨hframe, -, hstopped⟩ := (State.step_steps h).frame hstore
    exact (ht (hframe ▸ hstop)).imp_right hstopped

theorem Signalled.step (ht : t.Signalled)
    (h : t.step putTime e = some t') : t'.Signalled := by
  cases e with
  | log now logLevel message =>
      rw [Threads.step] at h
      split at h
      · obtain rfl := Option.some.inj h
        exact ht
      · split at h
        · cases h
        · obtain rfl := Option.some.inj h
          simpa [Signalled] using ht
  | notify | stopNotify =>
      rw [Threads.step] at h
      split at h
      · cases h
      · obtain rfl := Option.some.inj h
        exact ht
  | stopLog | stopStore =>
      rw [Threads.step] at h
      split at h
      · cases h
      · obtain ⟨logger, hlogger, rfl⟩ := Option.map_eq_some_iff.mp h
        exact fun hstop => ht.logger hlogger hstop
  | destroy =>
      rw [Threads.step] at h
      split at h
      · cases h
      · obtain rfl := Option.some.inj h
        exact fun _ => .inl rfl
  | run now =>
      rcases run_cases h with ⟨-, -, rfl⟩ | ⟨-, rfl⟩ |
        ⟨-, logger, hlogger, rfl⟩
      · exact ht
      · exact ht
      · exact fun hstop => ht.logger hlogger hstop

/-- Only another message can free the threads when they are stuck. -/
theorem Stuck.step (ht : t.Stuck) (hsignalled : t.Signalled)
    (h : t.step putTime e = some t') :
    t'.Stuck ∨ ∃ now logLevel message, e = .log now logLevel message := by
  obtain ⟨hstop, hblocked, hpending, howed⟩ := ht
  have hdone := hsignalled hstop
  cases e with
  | log now logLevel message => exact .inr ⟨now, logLevel, message, rfl⟩
  | notify => simp [Threads.step, hpending] at h
  | stopLog now =>
      rcases hdone with hdestroyed | hstopped
      · simp [Threads.step, hdestroyed] at h
      · simp [Threads.step, State.step, hstopped] at h
  | stopStore =>
      rcases hdone with hdestroyed | hstopped
      · simp [Threads.step, hdestroyed] at h
      · simp [Threads.step, State.step, hstopped] at h
  | stopNotify => simp [Threads.step, howed] at h
  | destroy =>
      rw [Threads.step] at h
      split at h
      · cases h
      · obtain rfl := Option.some.inj h
        exact .inl ⟨rfl, hblocked, hpending, howed⟩
  | run now => simp [Threads.step, run, hblocked] at h

/-! ## The logger without its condition variable -/

theorem logger_step (hne : e ≠ .destroy) (h : t.step putTime e = some t') :
    t'.logger = t.logger ∨
      ∃ e', t.logger.step putTime e' = some t'.logger := by
  cases e with
  | destroy => exact absurd rfl hne
  | log now logLevel message =>
      rw [Threads.step] at h
      split at h
      · obtain rfl := Option.some.inj h
        exact .inl rfl
      · split at h
        · cases h
        · obtain rfl := Option.some.inj h
          exact .inr ⟨.log now logLevel message, rfl⟩
  | notify | stopNotify =>
      rw [Threads.step] at h
      split at h
      · cases h
      · obtain rfl := Option.some.inj h
        exact .inl rfl
  | stopLog | stopStore =>
      rw [Threads.step] at h
      split at h
      · cases h
      · obtain ⟨logger, hlogger, rfl⟩ := Option.map_eq_some_iff.mp h
        exact .inr ⟨_, hlogger⟩
  | run now =>
      rcases run_cases h with ⟨-, -, rfl⟩ | ⟨-, rfl⟩ |
        ⟨-, logger, hlogger, rfl⟩
      · exact .inl rfl
      · exact .inl rfl
      · exact .inr ⟨_, hlogger⟩

theorem logger_invariant {P : State Time → Prop}
    (hstep : ∀ s e s', P s → s.step putTime e = some s' → P s')
    {es : List (ThreadEvent Time)} (hes : .destroy ∉ es)
    (ht : P t.logger)
    (hrun : Machine.run (Threads.step putTime) t es = some t') :
    P t'.logger := by
  induction es generalizing t with
  | nil =>
      rw [Machine.run_nil, Option.some.injEq] at hrun
      exact hrun ▸ ht
  | cons e es ih =>
      rw [Machine.run_cons, Option.bind_eq_some_iff] at hrun
      obtain ⟨t₁, h, hrun⟩ := hrun
      obtain ⟨hne, hes⟩ := List.ne_and_not_mem_of_not_mem_cons hes
      rcases logger_step (Ne.symm hne) h with hlogger | ⟨e', h'⟩
      · exact ih hes (hlogger ▸ ht) hrun
      · exact ih hes (hstep _ _ _ ht h') hrun

/-- The messages flow as they do in the logger alone. -/
theorem consistent_of_run {logLevel : LogLevel}
    {queue : Queue (LogItem Time)} {es : List (ThreadEvent Time)}
    (hes : .destroy ∉ es)
    (hrun : Machine.run (Threads.step putTime) (start logLevel queue) es =
      some t) : t.logger.Consistent putTime :=
  logger_invariant (fun _ _ _ hs h => hs.step h) hes
    (State.consistent_start logLevel queue) hrun

/-! ## Lost notifies -/

/-- Notifies that come between the test and the block are lost. -/
theorem run_notifies (t : Threads Time) (htested : t.wait = .tested)
    (now : Time) (n : ℕ) (hpending : t.pending = n) :
    Machine.run (Threads.step putTime) t
        (List.replicate n .notify ++ [.run now]) =
      some { t with pending := 0, wait := .blocked } := by
  induction n generalizing t with
  | zero => simp [Threads.step, run, htested, hpending]
  | succ n ih =>
      have hstep : t.step putTime .notify =
          some { t with pending := n } := by
        rw [Threads.step, if_neg (by omega), htested, hpending]
        simp [WaitPoint.notified, ← htested]
      rw [List.replicate_succ, List.cons_append, Machine.run_cons, hstep]
      exact ih { t with pending := n } htested rfl

/-- After a store of `m_stop` that is not safe, the threads can get stuck:
what is left of the notifies comes too early. -/
theorem exists_stuck (now : Time) (hlost : ¬ t.Safe e)
    (h : t.step putTime e = some t') :
    ∃ es t'', Machine.run (Threads.step putTime) t' es = some t'' ∧
      t''.Stuck := by
  cases e with
  | stopStore =>
      have htested : t.wait = .tested := not_not.mp hlost
      rw [Threads.step] at h
      split at h
      · cases h
      · obtain ⟨logger, hlogger, rfl⟩ := Option.map_eq_some_iff.mp h
        have hstop : logger.stop = true := by
          cases State.step_steps hlogger with
          | logs _ _ _ _ _ hne => exact absurd rfl hne
          | store => rfl
        let lost : Threads Time := { t with logger := logger, owed := false }
        have hnotify : Threads.step putTime
            { t with logger := logger, owed := true } .stopNotify =
              some lost := by
          simp [Threads.step, lost, htested, WaitPoint.notified]
        refine ⟨.stopNotify :: (List.replicate t.pending .notify ++ [.run now]),
          { lost with pending := 0, wait := .blocked }, ?_, hstop, rfl, rfl,
          rfl⟩
        rw [Machine.run_cons, hnotify]
        exact run_notifies lost htested now t.pending rfl
  | destroy =>
      obtain ⟨-, hwait⟩ := Classical.not_imp.mp hlost
      rw [Threads.step] at h
      split at h
      · cases h
      · next henabled =>
        have howed : t.owed = false := by
          rw [← Bool.not_eq_true]
          exact fun howed => henabled (.inr (.inl howed))
        let lost : Threads Time := { t with
          logger := { t.logger with stop := true }, destroyed := true }
        obtain rfl : lost = t' := Option.some.inj h
        by_cases htested : t.wait = .tested
        · exact ⟨_, { lost with pending := 0, wait := .blocked },
            run_notifies lost htested now t.pending rfl, rfl, rfl, rfl, howed⟩
        · obtain ⟨hblocked, hpending⟩ : t.wait = .blocked ∧ t.pending = 0 := by
            by_contra hnot
            refine hwait ⟨htested, fun hblocked => ?_⟩
            exact Nat.pos_of_ne_zero fun hzero => hnot ⟨hblocked, hzero⟩
          exact ⟨[], lost, rfl, rfl, hblocked, hpending, howed⟩
  | _ => exact absurd trivial hlost

/-! ## Every interleaving -/

/-- A run of the threads in which `m_stop` is never set between a test of the
predicate and the block, nor by `~Logger` while `run` is blocked and nobody is
about to notify, never gets stuck; and after any other store of `m_stop` some
interleaving does. -/
theorem not_stuck_of_safe {logLevel : LogLevel}
    {queue : Queue (LogItem Time)} {es : List (ThreadEvent Time)}
    (hrun : Machine.run (Threads.step putTime) (start logLevel queue) es =
      some t) (now : Time) :
    (Machine.Guarded (Threads.step putTime) Safe (start logLevel queue) es →
      ¬ t.Stuck) ∧
    ∀ (e : ThreadEvent Time) (t' : Threads Time),
      t.step putTime e = some t' → ¬ t.Safe e →
      ∃ (es' : List (ThreadEvent Time)) (t'' : Threads Time),
        Machine.run (Threads.step putTime) t' es' = some t'' ∧ t''.Stuck := by
  refine ⟨fun hsafe => ?_, fun e t' h hlost => exists_stuck now hlost h⟩
  have hstart : (start logLevel queue).Awaited := fun hstop => by cases hstop
  have ht : t.Awaited :=
    Machine.run_invariant_of_guarded (P := Awaited)
      (fun _ _ _ ht hsafe h => ht.step hsafe h) hstart hsafe hrun
  exact ht.not_stuck

/-- `stop` on a logger whose level hides its message: `run` is blocked in its
wait when `m_stop` is set, is woken and returns. -/
theorem not_stuck_of_safe_filtered :
    ∃ t, Machine.run (Threads.step State.untimed) (start .error .new)
        [.run 0, .run 0, .run 0, .stopLog 0, .stopStore, .stopNotify, .run 0,
          .run 0, .run 0, .run 0] = some t ∧
      t.logger.point = .returned ∧ ¬ t.Stuck := by
  have hsafe : Machine.Guarded (Threads.step State.untimed) Safe
      (start .error .new) ([.run 0, .run 0, .run 0, .stopLog 0] ++
        .stopStore :: [.stopNotify, .run 0, .run 0, .run 0, .run 0]) := by
    refine Machine.Guarded.append
      (Machine.guarded_of_always (by simp [Safe]) _) fun t₁ h₁ => ?_
    obtain rfl := Option.some.inj h₁
    exact ⟨nofun, fun t₂ _ =>
      Machine.guarded_of_always (by simp [Safe]) t₂⟩
  obtain ⟨t, hrun, hreturned⟩ : ∃ t, Machine.run
      (Threads.step State.untimed) (start .error .new)
      [.run 0, .run 0, .run 0, .stopLog 0, .stopStore, .stopNotify, .run 0,
        .run 0, .run 0, .run 0] = some t ∧ t.logger.point = .returned :=
    ⟨_, rfl, rfl⟩
  exact ⟨t, hrun, hreturned, (not_stuck_of_safe hrun 0).1 hsafe⟩

/-- `stop` sets `m_stop` and notifies between the test and the block; and
`~Logger` sets it while `run` is blocked, without a notify. -/
theorem shutdown_gets_stuck :
    (∃ t, Machine.run (Threads.step State.untimed) (start .info .new)
        [.stopLog 0, .stopNotify, .run 0, .run 0, .run 0, .run 0, .run 0,
          .run 0, .stopStore, .stopNotify, .run 0] = some t ∧ t.Stuck) ∧
      ∃ t, Machine.run (Threads.step State.untimed) (start .info .new)
        [.run 0, .run 0, .run 0, .destroy] = some t ∧ t.Stuck :=
  ⟨⟨_, rfl, rfl, rfl, rfl, rfl⟩, ⟨_, rfl, rfl, rfl, rfl, rfl⟩⟩

/-- The threads are stuck for good, unless another message is logged. -/
theorem stuck_of_stuck {logLevel : LogLevel} {queue : Queue (LogItem Time)}
    {es es' : List (ThreadEvent Time)}
    (hrun : Machine.run (Threads.step putTime) (start logLevel queue) es =
      some t) (ht : t.Stuck)
    (hsilent : ∀ now logLevel message,
      ThreadEvent.log now logLevel message ∉ es')
    (hrun' : Machine.run (Threads.step putTime) t es' = some t') :
    t'.Stuck := by
  have hstart : (start logLevel queue).Signalled := fun hstop => by cases hstop
  have hsignalled : t.Signalled :=
    Machine.run_invariant (P := Signalled) (fun _ _ _ ht h => ht.step h) hstart
      hrun
  clear hrun
  induction es' generalizing t with
  | nil =>
      rw [Machine.run_nil, Option.some.injEq] at hrun'
      exact hrun' ▸ ht
  | cons e es' ih =>
      rw [Machine.run_cons, Option.bind_eq_some_iff] at hrun'
      obtain ⟨t₁, hstep, hrun'⟩ := hrun'
      rcases ht.step hsignalled hstep with ht₁ | ⟨now, level, message, rfl⟩
      · refine ih ht₁ (fun now level message hmem => ?_) hrun'
          (hsignalled.step hstep)
        exact hsilent now level message (List.mem_cons_of_mem _ hmem)
      · exact absurd List.mem_cons_self (hsilent now level message)

end Threads

end SquidDB.Utils.Logger
