import SquidDB.Lib.Checked
import SquidDB.Lib.Machine
import SquidDB.Core.ThreadContext

/-!
# Threads and their transactions

The parts of `Table` that deal with transaction ids, cut at the sections that
hold `m_transactionIdMutex`, and the machine in which any number of threads
run them interleaved.  What lies between two such sections touches only the
thread's own context, so it is part of the step that follows.
-/

namespace SquidDB.Engine

open Checked SquidDB.Core

/-! ## The sections -/

/-- The viewpoint `beginTransaction` computes from the active ids it reads. -/
def computeViewpoint (manager : ThreadContextManager) (transactionId : ℕ) :
    ℕ :=
  if transactionId > 1 then
    let minActiveTransactionId := manager.getMinActiveTransactionId
    if minActiveTransactionId = 0 ∨ minActiveTransactionId > transactionId
    then transactionId - 1
    else minActiveTransactionId - 1
  else 0

/-- `beginTransaction` behind `getNextTransactionId`. -/
def openTransaction (manager : ThreadContextManager) (t : ThreadId)
    (transactionId : ℕ) : Outcome ThreadContextManager Unit :=
  let viewpoint := computeViewpoint manager transactionId
  let (ctx, manager) := manager.getThreadContext t
  match ctx.beginTransaction transactionId viewpoint .repeatableRead with
  | .returned () ctx => .returned () (manager.setThreadContext t ctx)
  | .thrown message _ => .thrown message manager

/-- `beginTransaction` on thread `t`. -/
def beginTransaction (manager : ThreadContextManager) (t : ThreadId) :
    Outcome ThreadContextManager Unit :=
  let (transactionId, manager) := manager.getNextTransactionId
  openTransaction manager t transactionId

/-! ## The machine -/

/-- The calls a thread makes.  A row call is `insertRow`, `updateRow` or
`deleteRow`; `rows` are the affected rows it records. -/
inductive ThreadCall where
  | beginTransaction
  | commit
  | rollback
  | row (rows : List KeyRowInfo)
  deriving DecidableEq, Repr

/-- Where a thread stands between two steps: outside of any call, behind
`getNextTransactionId` (in a row call when the transaction is implicit), behind
an implicit `beginTransaction`, or in front of `removeTransactionActive`. -/
inductive Position where
  | outside
  | issued (transactionId : ℕ) (implicitTransaction : Bool)
  | begun
  | closed (transactionId : ℕ)
  deriving DecidableEq, Repr

/-- The state of all threads.  `issued` and `viewpoints` record, in order, the
ids that were issued and the transactions with their viewpoints. -/
structure Threads where
  manager : ThreadContextManager
  position : ThreadId → Position
  issued : List ℕ
  viewpoints : List (ℕ × ℕ)

/-- One step of one thread. -/
inductive ThreadEvent where
  | start (t : ThreadId)
  | exit (t : ThreadId)
  | call (t : ThreadId) (c : ThreadCall)
  | continue (t : ThreadId)
  deriving DecidableEq, Repr

namespace Threads

/-- No thread has started. -/
def initial : Threads where
  manager := ThreadContextManager.new
  position := fun _ => .outside
  issued := []
  viewpoints := []

/-- `getNextTransactionId`, as the first step of a call. -/
def issue (s : Threads) (t : ThreadId) (implicitTransaction : Bool) :
    Threads :=
  let (transactionId, manager) := s.manager.getNextTransactionId
  { s with
    manager := manager
    position :=
      Function.update s.position t
        (.issued transactionId implicitTransaction)
    issued := s.issued ++ [transactionId] }

/-- `beginTransaction` with an open transaction: behind `getNextTransactionId` it
only reads, and throws. -/
def refuse (s : Threads) (t : ThreadId) : Threads :=
  { s with
    manager := (beginTransaction s.manager t).state
    issued := s.issued ++ [s.manager.getNextTransactionId.1] }

/-- The rest of `beginTransaction`. -/
def begin (s : Threads) (t : ThreadId) (transactionId : ℕ)
    (position : Position) : Option Threads :=
  match openTransaction s.manager t transactionId with
  | .thrown _ _ => none
  | .returned () manager => some
      { s with
        manager := manager
        position := Function.update s.position t position
        viewpoints := s.viewpoints ++
          [(transactionId, computeViewpoint s.manager transactionId)] }

/-- `commit` or `rollback` up to `removeTransactionActive`; the affected rows
disappear with the transaction. -/
def close (s : Threads) (t : ThreadId) : Option Threads :=
  match s.manager.context t with
  | none => none
  | some ctx =>
      match ctx.transaction with
      | none => none
      | some transaction => some
          { s with
            manager := s.manager.setThreadContext t ThreadContext.new
            position := Function.update s.position t
              (.closed transaction.transactionId) }

/-- A row call inside an open transaction. -/
def record (s : Threads) (t : ThreadId) (transaction : Transaction)
    (rows : List KeyRowInfo) : Threads :=
  { s with
    manager := s.manager.setThreadContext t
      ⟨some { transaction with
        keyRowInfo := transaction.keyRowInfo ++ rows }⟩ }

/-- A call begins.  `commit` and `rollback` are only called with an open
transaction; without one they dereference null. -/
def call (s : Threads) (t : ThreadId) (ctx : ThreadContext) :
    ThreadCall → Option Threads
  | .beginTransaction =>
      if ctx.transaction.isSome then some (s.refuse t)
      else some (s.issue t false)
  | .commit | .rollback => s.close t
  | .row rows =>
      match ctx.transaction with
      | some transaction => some (s.record t transaction rows)
      | none => some (s.issue t true)

/-- A step of the machine; `none` when the thread cannot take it. -/
def step (s : Threads) : ThreadEvent → Option Threads
  | .start t =>
      if s.manager.context t = none then
        some { s with manager := (s.manager.getThreadContext t).2 }
      else none
  | .exit t =>
      if s.manager.context t ≠ none ∧ s.position t = .outside then
        some { s with manager := s.manager.exitThread t }
      else none
  | .call t c =>
      match s.manager.context t, s.position t with
      | some ctx, .outside => s.call t ctx c
      | _, _ => none
  | .continue t =>
      match s.position t with
      | .outside => none
      | .issued transactionId false => s.begin t transactionId .outside
      | .issued transactionId true => s.begin t transactionId .begun
      | .begun => s.close t
      | .closed transactionId => some
          { s with
            manager := s.manager.removeTransactionActive transactionId
            position := Function.update s.position t .outside }

end Threads

end SquidDB.Engine
