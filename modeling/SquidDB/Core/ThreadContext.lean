import SquidDB.Core.Transaction

/-!
# Thread contexts

The `ThreadContext` of a thread holds its open transaction; the
`ThreadContextManager` issues transaction ids and keeps the set of the active
ones.  A thread's context is created when the thread first asks for it and
destroyed when the thread exits.
-/

namespace SquidDB.Core

/-- `std::thread::id`. -/
abbrev ThreadId := ℕ

/-- `ThreadContext`. -/
structure ThreadContext where
  transaction : Option Transaction
  deriving DecidableEq, Repr

namespace ThreadContext

/-- The constructor. -/
def new : ThreadContext := ⟨none⟩

def getTransaction (ctx : ThreadContext) : Option Transaction :=
  ctx.transaction

def beginTransaction (ctx : ThreadContext) (transactionId viewpoint : ℕ)
    (isolationLevel : IsolationLevel) : Outcome ThreadContext Unit :=
  if ctx.transaction.isSome then
    .thrown "ThreadContext::beginTransaction transaction is not null" ctx
  else
    .returned () ⟨some (Transaction.new transactionId viewpoint
      isolationLevel)⟩

def committed (ctx : ThreadContext) : Outcome ThreadContext Unit :=
  if ctx.transaction.isNone then
    .thrown "ThreadContext::committed transaction is null" ctx
  else .returned () ⟨none⟩

def aborted (ctx : ThreadContext) : Outcome ThreadContext Unit :=
  if ctx.transaction.isNone then
    .thrown "ThreadContext::aborted transaction is null" ctx
  else .returned () ⟨none⟩

end ThreadContext

/-- `ThreadContextManager`; `context` is the map of the live threads' contexts,
with the contexts themselves in place of pointers to them. -/
structure ThreadContextManager where
  currentTransactionId : ℕ
  context : ThreadId → Option ThreadContext
  transactionId : Finset ℕ

namespace ThreadContextManager

/-- The constructor. -/
def new : ThreadContextManager := ⟨0, fun _ => none, ∅⟩

/-- Store a thread's context, as an assignment through the pointer to it. -/
def setThreadContext (manager : ThreadContextManager) (t : ThreadId)
    (ctx : ThreadContext) : ThreadContextManager :=
  { manager with context := Function.update manager.context t (some ctx) }

/-- `getThreadContext` on thread `t`. -/
def getThreadContext (manager : ThreadContextManager) (t : ThreadId) :
    ThreadContext × ThreadContextManager :=
  match manager.context t with
  | some ctx => (ctx, manager)
  | none => (ThreadContext.new, manager.setThreadContext t ThreadContext.new)

/-- The destructors that run when thread `t` exits: `ThreadCleanup` erases
the map's entry and `~ThreadContext` deletes the transaction. -/
def exitThread (manager : ThreadContextManager) (t : ThreadId) :
    ThreadContextManager :=
  { manager with context := Function.update manager.context t none }

/-- The id `getNextTransactionId` issues next; `std::size_t` wraps around. -/
def nextTransactionId (manager : ThreadContextManager) : ℕ :=
  (manager.currentTransactionId + 1) % 2 ^ 64

def getNextTransactionId (manager : ThreadContextManager) :
    ℕ × ThreadContextManager :=
  let nextTransactionId := manager.nextTransactionId
  (nextTransactionId, { manager with
    currentTransactionId := nextTransactionId
    transactionId := insert nextTransactionId manager.transactionId })

def removeTransactionActive (manager : ThreadContextManager)
    (transactionId : ℕ) : ThreadContextManager :=
  { manager with transactionId := manager.transactionId.erase transactionId }

def transactionActive (manager : ThreadContextManager)
    (transactionId : ℕ) : Bool :=
  decide (transactionId ∈ manager.transactionId)

def getMinActiveTransactionId (manager : ThreadContextManager) : ℕ :=
  if h : manager.transactionId.Nonempty then manager.transactionId.min' h
  else 0

/-! ## Minimum of the active ids -/

/-- An active id is not below the minimum, which is itself active. -/
theorem getMinActiveTransactionId_spec {manager : ThreadContextManager}
    {id : ℕ} (hactive : id ∈ manager.transactionId) :
    manager.getMinActiveTransactionId ∈ manager.transactionId ∧
      manager.getMinActiveTransactionId ≤ id := by
  have hne : manager.transactionId.Nonempty := ⟨id, hactive⟩
  rw [getMinActiveTransactionId, dif_pos hne]
  exact ⟨Finset.min'_mem _ hne, Finset.min'_le _ _ hactive⟩

/-! ## Open transactions -/

/-- The transaction a thread has open. -/
def transactionOf (manager : ThreadContextManager) (t : ThreadId) :
    Option Transaction :=
  (manager.context t).bind ThreadContext.getTransaction

variable (manager : ThreadContextManager) (t : ThreadId)

@[simp] theorem transactionOf_setThreadContext (ctx : ThreadContext) :
    (manager.setThreadContext t ctx).transactionOf =
      Function.update manager.transactionOf t ctx.transaction := by
  funext u
  by_cases hu : u = t
  · subst hu
    simp [transactionOf, setThreadContext, ThreadContext.getTransaction]
  · simp [transactionOf, setThreadContext, hu]

variable {manager t} in
theorem getThreadContext_fst {transaction : Option Transaction}
    (h : manager.transactionOf t = transaction) :
    (manager.getThreadContext t).1 = ⟨transaction⟩ := by
  rw [← h, getThreadContext, transactionOf]
  cases manager.context t <;> rfl

@[simp] theorem transactionOf_getThreadContext :
    (manager.getThreadContext t).2.transactionOf = manager.transactionOf := by
  rw [getThreadContext]
  rcases hctx : manager.context t with _ | ctx
  · rw [transactionOf_setThreadContext, Function.update_eq_self_iff]
    simp [transactionOf, hctx, ThreadContext.new]
  · rfl

@[simp] theorem transactionOf_getNextTransactionId :
    manager.getNextTransactionId.2.transactionOf = manager.transactionOf :=
  rfl

@[simp] theorem transactionOf_removeTransactionActive (id : ℕ) :
    (manager.removeTransactionActive id).transactionOf =
      manager.transactionOf := rfl

end ThreadContextManager

end SquidDB.Core
