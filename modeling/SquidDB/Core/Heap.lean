import SquidDB.Lib.Checked

/-!
# Nodes and rows in memory

The objects a skip list allocates: `SkipListNode` and `RowInfo`.  Every object
has an allocation number which is never reused, so a pointer to a deleted
object stays recognizable.  The arrays `m_next` and `m_width` are separate
allocations of their node and are kept beside it, indexed by node and level.
-/

namespace SquidDB.Core

/-- A `SkipListNode<K>*` that is not null, as its allocation number. -/
abbrev NodeRef := ℕ

/-- A `RowInfo*` that is not null, as its allocation number. -/
abbrev RowInfoRef := ℕ

/-- `RowInfo::Status`. -/
inductive Status where
  | none
  | committed
  | aborted
  | uncommitted
  deriving DecidableEq, Repr

/-- The row version attached to a node; `D` is the type of row buffers. -/
structure RowInfo (D : Type) where
  status : Status
  next : Option RowInfoRef
  data : Option D
  size : ℕ
  deriving DecidableEq, Repr

/-- A node without its arrays. -/
structure SkipListNode (K : Type) where
  key : K
  rowInfo : Option RowInfoRef
  height : ℕ
  deriving DecidableEq, Repr

/-- The memory owned by one skip list, with the row buffers it has passed to
`std::free`, in order. -/
structure Heap (K D : Type) where
  node : NodeRef → Option (SkipListNode K)
  next : NodeRef → ℕ → Option NodeRef
  width : NodeRef → ℕ → ℕ
  nodeCount : ℕ
  rowInfo : RowInfoRef → Option (RowInfo D)
  rowInfoCount : ℕ
  freed : List D

namespace Heap

open Checked

variable {K D : Type}

/-- Memory before anything is allocated. -/
def empty : Heap K D where
  node := fun _ => none
  next := fun _ _ => none
  width := fun _ _ => 0
  nodeCount := 0
  rowInfo := fun _ => none
  rowInfoCount := 0
  freed := []

/-! ## Nodes -/

/-- Assign one entry of the array owned by a node. -/
def setAt {α : Type} (array : NodeRef → ℕ → α) (a : NodeRef) (level : ℕ)
    (v : α) : NodeRef → ℕ → α :=
  fun b l => if b = a ∧ l = level then v else array b l

/-- The memory with one more node, whose arrays are cleared. -/
def newNodeHeap (h : Heap K D) (key : K) (height : ℕ) : Heap K D :=
  { h with
    node := Function.update h.node h.nodeCount (some ⟨key, none, height⟩)
    next := Function.update h.next h.nodeCount fun _ => none
    width := Function.update h.width h.nodeCount fun _ => 0
    nodeCount := h.nodeCount + 1 }

/-- `new SkipListNode<K>(key, height)`. -/
def newNode (h : Heap K D) (ndebug : Bool) (key : K) (height : ℕ) :
    Checked (NodeRef × Heap K D) := do
  assert ndebug (.ok (decide (0 < height)))
  pure (h.nodeCount, h.newNodeHeap key height)

/-- `delete node`. -/
def deleteNode (h : Heap K D) (p : Option NodeRef) : Checked (Heap K D) := do
  let a ← nonNull p
  let _ ← load h.node a
  pure { h with node := Function.update h.node a none }

def getKey (h : Heap K D) (p : Option NodeRef) : Checked K := do
  let a ← nonNull p
  let n ← load h.node a
  pure n.key

def getHeight (h : Heap K D) (p : Option NodeRef) : Checked ℕ := do
  let a ← nonNull p
  let n ← load h.node a
  pure n.height

/-- The node's address once its arrays are known to have an entry at
`level`. -/
def entry (h : Heap K D) (p : Option NodeRef) (level : ℕ) :
    Checked NodeRef := do
  let a ← nonNull p
  let n ← load h.node a
  require .outOfBounds (decide (level < n.height))
  pure a

def getNext (h : Heap K D) (p : Option NodeRef) (level : ℕ) :
    Checked (Option NodeRef) := do
  let a ← h.entry p level
  pure (h.next a level)

def setNext (h : Heap K D) (p : Option NodeRef) (level : ℕ)
    (next : Option NodeRef) : Checked (Heap K D) := do
  let a ← h.entry p level
  pure { h with next := setAt h.next a level next }

def getWidth (h : Heap K D) (p : Option NodeRef) (level : ℕ) :
    Checked ℕ := do
  let a ← h.entry p level
  pure (h.width a level)

def setWidth (h : Heap K D) (p : Option NodeRef) (level width : ℕ) :
    Checked (Heap K D) := do
  let a ← h.entry p level
  pure { h with width := setAt h.width a level width }

def getRowInfo (h : Heap K D) (p : Option NodeRef) :
    Checked (Option RowInfoRef) := do
  let a ← nonNull p
  let n ← load h.node a
  pure n.rowInfo

def setRowInfo (h : Heap K D) (p : Option NodeRef)
    (rowInfo : Option RowInfoRef) : Checked (Heap K D) := do
  let a ← nonNull p
  let n ← load h.node a
  pure { h with
    node := Function.update h.node a (some { n with rowInfo := rowInfo }) }

/-! ## Row infos -/

/-- `new RowInfo(status, data, size)`. -/
def newRowInfo (h : Heap K D) (status : Status) (data : Option D)
    (size : ℕ) : RowInfoRef × Heap K D :=
  let r := h.rowInfoCount
  (r, { h with
    rowInfo := Function.update h.rowInfo r (some ⟨status, none, data, size⟩)
    rowInfoCount := r + 1 })

/-- The object behind a `RowInfo*`. -/
def readRowInfo (h : Heap K D) (p : Option RowInfoRef) :
    Checked (RowInfo D) := do
  let r ← nonNull p
  load h.rowInfo r

/-- Change the object behind a `RowInfo*`. -/
def modifyRowInfo (h : Heap K D) (p : Option RowInfoRef)
    (f : RowInfo D → RowInfo D) : Checked (Heap K D) := do
  let r ← nonNull p
  let info ← load h.rowInfo r
  pure { h with rowInfo := Function.update h.rowInfo r (some (f info)) }

def setStatus (h : Heap K D) (p : Option RowInfoRef) (status : Status) :
    Checked (Heap K D) :=
  h.modifyRowInfo p fun info => { info with status := status }

def setData (h : Heap K D) (p : Option RowInfoRef) (data : Option D)
    (size : ℕ) : Checked (Heap K D) :=
  h.modifyRowInfo p fun info => { info with data := data, size := size }

/-- `delete rowInfo`. -/
def deleteRowInfo (h : Heap K D) (p : Option RowInfoRef) :
    Checked (Heap K D) := do
  let r ← nonNull p
  let _ ← load h.rowInfo r
  pure { h with rowInfo := Function.update h.rowInfo r none }

/-- `std::free` of a row buffer, skipped when it is null.  The list reads no
buffer, so a buffer that is freed twice, or freed while a row keeps it, is no
fault here: `freed` is where it shows. -/
def free (h : Heap K D) (data : Option D) : Heap K D :=
  match data with
  | none => h
  | some d => { h with freed := h.freed ++ [d] }

/-- The same objects with other links and widths. -/
def withLinks (h : Heap K D) (next : NodeRef → ℕ → Option NodeRef)
    (width : NodeRef → ℕ → ℕ) : Heap K D :=
  { h with next := next, width := width }

section WithLinks

variable (h : Heap K D) (next : NodeRef → ℕ → Option NodeRef)
  (width : NodeRef → ℕ → ℕ)

@[simp] theorem withLinks_self : h.withLinks h.next h.width = h := rfl

@[simp] theorem withLinks_node : (h.withLinks next width).node = h.node := rfl

@[simp] theorem withLinks_next : (h.withLinks next width).next = next := rfl

@[simp] theorem withLinks_width :
    (h.withLinks next width).width = width := rfl

@[simp] theorem withLinks_nodeCount :
    (h.withLinks next width).nodeCount = h.nodeCount := rfl

@[simp] theorem withLinks_rowInfo :
    (h.withLinks next width).rowInfo = h.rowInfo := rfl

@[simp] theorem withLinks_rowInfoCount :
    (h.withLinks next width).rowInfoCount = h.rowInfoCount := rfl

@[simp] theorem withLinks_freed :
    (h.withLinks next width).freed = h.freed := rfl

@[simp] theorem withLinks_withLinks
    (next' : NodeRef → ℕ → Option NodeRef) (width' : NodeRef → ℕ → ℕ) :
    (h.withLinks next width).withLinks next' width' =
      h.withLinks next' width' := rfl

end WithLinks

/-- The same memory with another node at one address. -/
def putNode (h : Heap K D) (a : NodeRef) (n : Option (SkipListNode K)) :
    Heap K D :=
  { h with node := Function.update h.node a n }

section PutNode

variable (h : Heap K D) (a : NodeRef) (n : Option (SkipListNode K))

@[simp] theorem putNode_node :
    (h.putNode a n).node = Function.update h.node a n := rfl

@[simp] theorem putNode_next : (h.putNode a n).next = h.next := rfl

@[simp] theorem putNode_width : (h.putNode a n).width = h.width := rfl

@[simp] theorem putNode_nodeCount :
    (h.putNode a n).nodeCount = h.nodeCount := rfl

@[simp] theorem putNode_rowInfo : (h.putNode a n).rowInfo = h.rowInfo := rfl

@[simp] theorem putNode_rowInfoCount :
    (h.putNode a n).rowInfoCount = h.rowInfoCount := rfl

@[simp] theorem putNode_freed : (h.putNode a n).freed = h.freed := rfl

end PutNode

/-! ## Reading live nodes -/

section Live

variable {h : Heap K D} {a : NodeRef} {n : SkipListNode K} {level : ℕ}

theorem getKey_of_node (hn : h.node a = some n) :
    h.getKey (some a) = .ok n.key := by
  simp [getKey, load_of_eq_some hn]

theorem getHeight_of_node (hn : h.node a = some n) :
    h.getHeight (some a) = .ok n.height := by
  simp [getHeight, load_of_eq_some hn]

theorem getRowInfo_of_node (hn : h.node a = some n) :
    h.getRowInfo (some a) = .ok n.rowInfo := by
  simp [getRowInfo, load_of_eq_some hn]

theorem entry_of_node (hn : h.node a = some n) (hlevel : level < n.height) :
    h.entry (some a) level = .ok a := by
  simp [entry, load_of_eq_some hn, hlevel]

theorem getNext_of_node (hn : h.node a = some n)
    (hlevel : level < n.height) :
    h.getNext (some a) level = .ok (h.next a level) := by
  simp [getNext, entry_of_node hn hlevel]

theorem getWidth_of_node (hn : h.node a = some n)
    (hlevel : level < n.height) :
    h.getWidth (some a) level = .ok (h.width a level) := by
  simp [getWidth, entry_of_node hn hlevel]

theorem setNext_of_node (hn : h.node a = some n)
    (hlevel : level < n.height) (next : Option NodeRef) :
    h.setNext (some a) level next =
      .ok (h.withLinks (setAt h.next a level next) h.width) := by
  simp [setNext, entry_of_node hn hlevel, withLinks]

theorem setWidth_of_node (hn : h.node a = some n)
    (hlevel : level < n.height) (width : ℕ) :
    h.setWidth (some a) level width =
      .ok (h.withLinks h.next (setAt h.width a level width)) := by
  simp [setWidth, entry_of_node hn hlevel, withLinks]

theorem setRowInfo_of_node (hn : h.node a = some n)
    (rowInfo : Option RowInfoRef) :
    h.setRowInfo (some a) rowInfo =
      .ok (h.putNode a (some { n with rowInfo := rowInfo })) := by
  simp [setRowInfo, load_of_eq_some hn, putNode]

theorem deleteNode_of_node (hn : h.node a = some n) :
    h.deleteNode (some a) = .ok (h.putNode a none) := by
  simp [deleteNode, load_of_eq_some hn, putNode]

theorem readRowInfo_of_rowInfo {r : RowInfoRef} {info : RowInfo D}
    (hr : h.rowInfo r = some info) : h.readRowInfo (some r) = .ok info := by
  simp [readRowInfo, load_of_eq_some hr]

theorem modifyRowInfo_of_rowInfo {r : RowInfoRef} {info : RowInfo D}
    (hr : h.rowInfo r = some info) (f : RowInfo D → RowInfo D) :
    h.modifyRowInfo (some r) f = .ok { h with
      rowInfo := Function.update h.rowInfo r (some (f info)) } := by
  simp [modifyRowInfo, load_of_eq_some hr]

end Live

theorem newNode_of_pos (h : Heap K D) (ndebug : Bool) (key : K)
    {height : ℕ} (hpos : 0 < height) :
    h.newNode ndebug key height =
      .ok (h.nodeCount, h.newNodeHeap key height) := by
  simp [newNode, hpos]

@[simp] theorem free_node (h : Heap K D) (data : Option D) :
    (h.free data).node = h.node := by
  cases data <;> rfl

@[simp] theorem free_next (h : Heap K D) (data : Option D) :
    (h.free data).next = h.next := by
  cases data <;> rfl

@[simp] theorem free_width (h : Heap K D) (data : Option D) :
    (h.free data).width = h.width := by
  cases data <;> rfl

@[simp] theorem free_nodeCount (h : Heap K D) (data : Option D) :
    (h.free data).nodeCount = h.nodeCount := by
  cases data <;> rfl

@[simp] theorem free_rowInfo (h : Heap K D) (data : Option D) :
    (h.free data).rowInfo = h.rowInfo := by
  cases data <;> rfl

@[simp] theorem free_rowInfoCount (h : Heap K D) (data : Option D) :
    (h.free data).rowInfoCount = h.rowInfoCount := by
  cases data <;> rfl

@[simp] theorem free_freed (h : Heap K D) (data : Option D) :
    (h.free data).freed = h.freed ++ data.toList := by
  cases data <;> simp [free]

end Heap

end SquidDB.Core
