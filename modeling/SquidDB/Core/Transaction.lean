import SquidDB.Core.Heap

/-!
# Transactions

The `Transaction` object a thread holds between `beginTransaction` and
`commit` or `rollback`, with the list of rows it has written.
-/

namespace SquidDB.Core

/-- `IsolationLevel`. -/
inductive IsolationLevel where
  | readUncommitted
  | readCommitted
  | repeatableRead
  | serializable
  deriving DecidableEq, Repr

/-- One written row.  The key pointer refers to the key inside the index node;
its size, which nothing reads, is left out. -/
structure KeyRowInfo where
  key : NodeRef
  rowInfo : RowInfoRef
  deriving DecidableEq, Repr

/-- A transaction; the affected rows are raw pointers, which it does not
own. -/
structure Transaction where
  transactionId : ℕ
  viewpoint : ℕ
  isolationLevel : IsolationLevel
  keyRowInfo : List KeyRowInfo
  deriving DecidableEq, Repr

namespace Transaction

/-- The constructor: no rows are affected yet. -/
def new (transactionId viewpoint : ℕ) (isolationLevel : IsolationLevel) :
    Transaction :=
  ⟨transactionId, viewpoint, isolationLevel, []⟩

def getAffectedRows (transaction : Transaction) : List KeyRowInfo :=
  transaction.keyRowInfo

def addAffectedRow (transaction : Transaction) (key : NodeRef)
    (rowInfo : RowInfoRef) : Transaction :=
  { transaction with
    keyRowInfo := transaction.keyRowInfo ++ [⟨key, rowInfo⟩] }

/-- Several calls of `addAffectedRow`. -/
def addAffectedRows (transaction : Transaction) (rows : List KeyRowInfo) :
    Transaction :=
  { transaction with keyRowInfo := transaction.keyRowInfo ++ rows }

@[simp] theorem addAffectedRows_nil (transaction : Transaction) :
    transaction.addAffectedRows [] = transaction := by
  simp [addAffectedRows]

@[simp] theorem getAffectedRows_addAffectedRows (transaction : Transaction)
    (rows : List KeyRowInfo) :
    (transaction.addAffectedRows rows).getAffectedRows =
      transaction.getAffectedRows ++ rows := rfl

end Transaction

end SquidDB.Core
