import SquidDB.Utils.Logger

/-!
# The logger over several sessions

`start` may be called again after `stop`: it waits until `run` has returned,
clears `m_stop` and lets a new thread execute `run` on the same queue.  The
level of the logger may be changed at any time.  This module follows the
messages over any number of such sessions: what a session has left in the
queue is written first by the next one.
-/

namespace SquidDB.Utils.Logger

open SquidDB.Infra

variable {Time : Type}

/-- What happens during a session. -/
inductive SessionEvent (Time : Type) where
  | step (e : Event Time)
  | setLogLevel (logLevel : LogLevel)

namespace State

def setLogLevel (s : State Time) (logLevel : LogLevel) : State Time :=
  if logLevel = .unknown then s else { s with logLevel := logLevel }

/-- `start` after an earlier `start`: it does not get past its `join` before
`run` has returned. -/
def startAgain (s : State Time) : Option (State Time) :=
  match s.point with
  | .returned =>
      some { s with
        stop := false
        point := .condition
        itemsRemaining := 0
        loggedRemaining := false
        stopPoint := .logging
        atStop := none }
  | _ => none

def sessionStep (putTime : Time → Text) (s : State Time) :
    SessionEvent Time → Option (State Time)
  | .step e => s.step putTime e
  | .setLogLevel logLevel => some (s.setLogLevel logLevel)

/-- A whole session and the `start` of the next one. -/
def nextSession (putTime : Time → Text) (s : State Time)
    (session : List (SessionEvent Time)) : Option (State Time) :=
  (Machine.run (sessionStep putTime) s session).bind startAgain

/-- `Safe` for the events of a session. -/
def SafeInSession (s : State Time) : SessionEvent Time → Prop
  | .step e => s.Safe e
  | .setLogLevel _ => True

/-- A session begins: `run` goes around its loop and nothing is lost yet. -/
structure Begun (putTime : Time → Text) (s : State Time) : Prop where
  consistent : s.Consistent putTime
  running : s.stop = false

variable {putTime : Time → Text} {s s' : State Time} {e : SessionEvent Time}

/-! ## The level -/

/-- Changing the level concerns later messages only. -/
theorem setLogLevel_cases (s : State Time) (logLevel : LogLevel) :
    ∃ level, s.setLogLevel logLevel = { s with logLevel := level } := by
  rw [setLogLevel]
  by_cases hunknown : logLevel = .unknown
  · exact ⟨s.logLevel, if_pos hunknown⟩
  · exact ⟨logLevel, if_neg hunknown⟩

theorem Consistent.setLogLevel (hs : s.Consistent putTime)
    (logLevel : LogLevel) : (s.setLogLevel logLevel).Consistent putTime := by
  obtain ⟨level, heq⟩ := setLogLevel_cases s logLevel
  rw [heq]
  exact ⟨hs.fifo, hs.running, hs.purging, hs.stopped⟩

theorem leaving_setLogLevel (s : State Time) (logLevel : LogLevel) :
    (s.setLogLevel logLevel).Leaving ↔ s.Leaving := by
  obtain ⟨level, heq⟩ := setLogLevel_cases s logLevel
  rw [heq]
  exact Iff.rfl

theorem covered_setLogLevel (s : State Time) (logLevel : LogLevel) :
    (s.setLogLevel logLevel).Covered ↔ s.Covered := by
  obtain ⟨level, heq⟩ := setLogLevel_cases s logLevel
  rw [heq]
  exact Iff.rfl

/-! ## One session -/

theorem Consistent.sessionStep (hs : s.Consistent putTime)
    (h : s.sessionStep putTime e = some s') : s'.Consistent putTime := by
  cases e with
  | step e => exact hs.step h
  | setLogLevel logLevel =>
      obtain rfl := Option.some.inj h
      exact hs.setLogLevel logLevel

theorem sessionStep_leaving (hs : s.Consistent putTime)
    (hleaving : s.Leaving) (h : s.sessionStep putTime e = some s') :
    s'.Leaving ∧ (s'.Covered ↔ s.Covered) := by
  cases e with
  | step e => exact step_leaving hs hleaving h
  | setLogLevel logLevel =>
      obtain rfl := Option.some.inj h
      exact ⟨(leaving_setLogLevel s logLevel).mpr hleaving,
        covered_setLogLevel s logLevel⟩

theorem sessionStep_covered (hs : s.Consistent putTime)
    (hsafe : s.SafeInSession e) (h : s.sessionStep putTime e = some s')
    (hcovered : s.Leaving → s.Covered) (hleaving : s'.Leaving) :
    s'.Covered := by
  cases e with
  | step e => exact step_covered hs hsafe h hcovered hleaving
  | setLogLevel logLevel =>
      obtain rfl := Option.some.inj h
      exact (covered_setLogLevel s logLevel).mpr
        (hcovered ((leaving_setLogLevel s logLevel).mp hleaving))

theorem sessionStep_not_covered (hs : s.Consistent putTime)
    (hviolated : ¬ s.SafeInSession e)
    (h : s.sessionStep putTime e = some s') : s'.Leaving ∧ ¬ s'.Covered := by
  cases e with
  | step e => exact step_not_covered hs hviolated h
  | setLogLevel logLevel => exact absurd trivial hviolated

theorem Begun.covered_iff (hbegun : s.Begun putTime)
    {session : List (SessionEvent Time)}
    (hrun : Machine.run (sessionStep putTime) s session = some s')
    (hreturned : s'.point = .returned) :
    s'.Covered ↔
      Machine.Guarded (sessionStep putTime) SafeInSession s session := by
  have hs' : s'.Consistent putTime := Machine.run_invariant
    (fun _ _ _ hs h => hs.sessionStep h) hbegun.consistent hrun
  have hleaving : s'.Leaving :=
    ⟨hs'.stop_of_returned hreturned, .inl hreturned⟩
  have hopen : ¬s.Leaving := by
    rintro ⟨hstop, -⟩
    rw [hbegun.running] at hstop
    cases hstop
  exact Machine.settled_iff_guarded (P := fun s => s.Consistent putTime)
    (fun _ _ _ hs h => hs.sessionStep h)
    (fun _ _ _ hs hleaving h => sessionStep_leaving hs hleaving h)
    (fun _ _ _ hs hsafe h hcovered hleaving =>
      sessionStep_covered hs hsafe h hcovered hleaving)
    (fun _ _ _ hs hviolated h => sessionStep_not_covered hs hviolated h)
    hbegun.consistent hopen hrun hleaving

/-! ## From one session to the next -/

theorem begun_start (logLevel : LogLevel) (queue : Queue (LogItem Time)) :
    (start logLevel queue).Begun putTime :=
  ⟨consistent_start logLevel queue, rfl⟩

theorem Consistent.startAgain (hs : s.Consistent putTime)
    (h : s.startAgain = some s') : s'.Begun putTime := by
  rw [State.startAgain] at h
  split at h
  · next hreturned =>
    obtain rfl := Option.some.inj h
    obtain ⟨taken, henqueued, houtput⟩ := hs.fifo
    rw [hreturned] at henqueued
    refine ⟨⟨⟨taken, henqueued, houtput⟩, fun _ => ⟨rfl, rfl⟩, ?_, ?_⟩, rfl⟩
    · intro hpoint
      cases hpoint
    · intro hstop
      cases hstop
  · cases h

theorem Begun.nextSession (hbegun : s.Begun putTime)
    {session : List (SessionEvent Time)}
    (h : s.nextSession putTime session = some s') : s'.Begun putTime := by
  obtain ⟨t, hrun, hstart⟩ := Option.bind_eq_some_iff.mp h
  have ht : t.Consistent putTime := Machine.run_invariant
    (fun _ _ _ hs h => hs.sessionStep h) hbegun.consistent hrun
  exact ht.startAgain hstart

/-- Over any number of sessions the lines written are those of the first
messages enqueued, in order and once each, and the others are in the queue or
in the hands of `run`.  When `run` has returned from a session, every message
enqueued before the `m_stop` of that session, also in earlier sessions, has
been written exactly when `m_stop` was set at a safe moment of that
session. -/
theorem sessions_write_in_order {logLevel : LogLevel}
    {queue : Queue (LogItem Time)}
    {earlier : List (List (SessionEvent Time))} {s₁ : State Time}
    (hearlier : Machine.run (nextSession putTime) (start logLevel queue)
      earlier = some s₁) {session : List (SessionEvent Time)}
    (hrun : Machine.run (sessionStep putTime) s₁ session = some s) :
    (∃ taken, s.enqueued = taken ++ s.point.held ++ s.queue.nodes ∧
        s.output = taken.map (line putTime)) ∧
      (s.point = .returned → (s.Complete putTime ↔
        Machine.Guarded (sessionStep putTime) SafeInSession s₁ session)) := by
  have hbegun : s₁.Begun putTime := Machine.run_invariant
    (fun _ _ _ hs h => hs.nextSession h) (begun_start logLevel queue) hearlier
  have hs : s.Consistent putTime := Machine.run_invariant
    (fun _ _ _ hs h => hs.sessionStep h) hbegun.consistent hrun
  refine ⟨hs.fifo, fun hreturned => ?_⟩
  rw [hs.complete_iff hreturned]
  exact hbegun.covered_iff hrun hreturned

/-- The first session loses the second message: `m_stop` is set when `run` is
about to test the condition of its loop. -/
def losingSession : List (SessionEvent ℕ) :=
  [.step (.log 0 .info ['a']), .step (.run 1), .step (.run 1),
    .step (.run 1), .step (.run 1), .step (.stopLog 2),
    .step (.log 3 .error ['b']), .step .stopStore, .step (.run 4)]

/-- The second one writes it. -/
def rescuingSession : List (SessionEvent ℕ) :=
  [.setLogLevel .warn, .step (.run 5), .step (.run 5), .step (.run 5),
    .step (.run 5), .step (.run 5), .step (.run 5), .step (.run 5),
    .step (.run 5), .step (.run 5), .step (.stopLog 6), .step .stopStore,
    .step (.run 7), .step (.run 7), .step (.run 7), .step (.run 7)]

/-- A message left behind by one session is written by the next one. -/
theorem sessions_write_in_order_rescued :
    ∃ s₁ s, Machine.run (nextSession untimed) (start .info .new)
        [losingSession] = some s₁ ∧
      Machine.run (sessionStep untimed) s₁ rescuingSession = some s ∧
      s.point = .returned ∧ s.Complete untimed ∧
      s.output = [" (INFO) a".toList,
        " (INFO) Logger::stop Logger got stop signal".toList,
        " (ERROR) b".toList] := by
  obtain ⟨s₁, s, hearlier, hrun, hreturned, houtput, hsafe⟩ : ∃ s₁ s,
      Machine.run (nextSession untimed) (start .info .new) [losingSession] =
        some s₁ ∧
      Machine.run (sessionStep untimed) s₁ rescuingSession = some s ∧
      s.point = .returned ∧
      s.output = [" (INFO) a".toList,
        " (INFO) Logger::stop Logger got stop signal".toList,
        " (ERROR) b".toList] ∧
      Machine.Guarded (sessionStep untimed) SafeInSession s₁
        (rescuingSession.take 11 ++
          .step .stopStore :: rescuingSession.drop 12) := by
    refine ⟨_, _, rfl, rfl, rfl, rfl, ?_⟩
    refine Machine.Guarded.append (Machine.guarded_of_always
      (by simp [rescuingSession, SafeInSession, Safe]) _) fun s₂ h₂ => ?_
    have hwaits : s₂.point = .waiting := by
      obtain rfl := Option.some.inj h₂
      rfl
    refine ⟨fun hpoint => ?_, fun s₃ _ => ?_⟩
    · cases hwaits.symm.trans hpoint
    · exact Machine.guarded_of_always
        (by simp [rescuingSession, SafeInSession, Safe]) s₃
  exact ⟨s₁, s, hearlier, hrun, hreturned,
    ((sessions_write_in_order hearlier hrun).2 hreturned).mpr hsafe, houtput⟩

end State

end SquidDB.Utils.Logger
