import SquidDB.Core.Transaction

/-!
# The skip list

`SkipList<K>` with its searches, its relinking loops and its self check, over
the memory of `Heap`.  `ndebug` tells whether assertions are compiled out.
Loops that follow pointers are given one iteration more than there are
allocated nodes: a loop that uses them up has met a node twice and would never
end.  Widths and ranks count nodes, of which there are fewer than `2 ^ 64`;
only their subtractions need a check.
-/

namespace SquidDB.Core

open Checked

/-- `SkipList<K>`; the logger has no influence on the state. -/
structure SkipList (K D : Type) where
  primaryIndex : Bool
  maxNodeHeight : ℕ
  head : Option NodeRef
  initialized : Bool
  size : ℕ
  heap : Heap K D

/-- `TraverseContext<K>`, whose arrays are indexed by level. -/
structure TraverseContext where
  prevNode : ℕ → Option NodeRef
  prevRank : ℕ → ℕ
  rank : ℕ

namespace TraverseContext

/-- The constructor. -/
def new : TraverseContext := ⟨fun _ => none, fun _ => 0, 0⟩

def setPrev (ctx : TraverseContext) (level : ℕ) (node : Option NodeRef)
    (rank : ℕ) : TraverseContext :=
  { ctx with
    prevNode := Function.update ctx.prevNode level node
    prevRank := Function.update ctx.prevRank level rank }

def setRank (ctx : TraverseContext) (rank : ℕ) : TraverseContext :=
  { ctx with rank := rank }

end TraverseContext

namespace SkipList

variable {K D : Type}

/-- The constructor. -/
def new (primaryIndex : Bool) (maxNodeHeight : ℕ) : SkipList K D where
  primaryIndex := primaryIndex
  maxNodeHeight := maxNodeHeight
  head := none
  initialized := false
  size := 0
  heap := Heap.empty

/-- `initialize`; the head is a node with a default key that is never
compared. -/
def initializeList [Inhabited K] (sl : SkipList K D) (ndebug : Bool) :
    Checked (Outcome (SkipList K D) Unit) :=
  if sl.initialized then
    .ok (.thrown "SkipList<K>::initialize already initialized" sl)
  else if sl.maxNodeHeight = 0 then
    .ok (.thrown "SkipList<K>::initialize maxNodeHeight 0" sl)
  else do
    let (head, heap) ← sl.heap.newNode ndebug default sl.maxNodeHeight
    pure (.returned ()
      { sl with head := some head, initialized := true, heap := heap })

/-- `generateNodeHeight` from a given height on, with `remaining` levels
left; `draw` lists the values the random engine produces. -/
def generateNodeHeightFrom (draw : ℕ → ℕ) : ℕ → ℕ → ℕ
  | 0, nodeHeight => nodeHeight
  | remaining + 1, nodeHeight =>
      if draw nodeHeight % 2 = 1 then nodeHeight
      else generateNodeHeightFrom draw remaining (nodeHeight + 1)

def generateNodeHeight (maxNodeHeight : ℕ) (draw : ℕ → ℕ) : ℕ :=
  generateNodeHeightFrom draw (maxNodeHeight - 1) 1

/-- The height `insert` gives the new node. -/
def chosenHeight (maxNodeHeight nodeHeight : ℕ) (draw : ℕ → ℕ) : ℕ :=
  if nodeHeight = 0 then generateNodeHeight maxNodeHeight draw
  else nodeHeight

variable [LinearOrder K]

/-! ## Searching -/

/-- `(node != nullptr) && (key > node->getKey())`. -/
def keyAbove (h : Heap K D) (key : K) (node : Option NodeRef) :
    Checked Bool :=
  match node with
  | none => .ok false
  | some _ => do
      let k ← h.getKey node
      pure (decide (key > k))

/-- `(node != nullptr) && (key == node->getKey())`. -/
def keyEquals (h : Heap K D) (key : K) (node : Option NodeRef) :
    Checked Bool :=
  match node with
  | none => .ok false
  | some _ => do
      let k ← h.getKey node
      pure (decide (key = k))

/-- `(node == nullptr) || (key < node->getKey())`. -/
def nullOrBelow (h : Heap K D) (key : K) (node : Option NodeRef) :
    Checked Bool :=
  match node with
  | none => .ok true
  | some _ => do
      let k ← h.getKey node
      pure (decide (key < k))

/-- `(next == nullptr) || (key <= next->getKey())`. -/
def nullOrNotAbove (h : Heap K D) (key : K) (next : Option NodeRef) :
    Checked Bool :=
  match next with
  | none => .ok true
  | some _ => do
      let k ← h.getKey next
      pure (decide (key ≤ k))

/-- `(prev == m_head) || (key > prev->getKey())`. -/
def headOrAbove (sl : SkipList K D) (h : Heap K D) (key : K)
    (prev : Option NodeRef) : Checked Bool :=
  if prev = sl.head then .ok true
  else do
    let k ← h.getKey prev
    pure (decide (key > k))

/-- The inner loop of `findNode` and of `seek`: move right on one level while
the key is above the node's key. -/
def skipLower (h : Heap K D) (key : K) (level : ℕ) :
    ℕ → Option NodeRef → Option NodeRef →
      Checked (Option NodeRef × Option NodeRef)
  | 0, _, _ => .error .divergence
  | fuel + 1, trail, node => do
      if ← keyAbove h key node then
        let next ← h.getNext node level
        skipLower h key level fuel node next
      else
        pure (trail, node)

/-- The loop of `findNode`, with `levels` levels left. -/
def findNodeFrom (ndebug : Bool) (h : Heap K D) (key : K) :
    ℕ → Option NodeRef → Checked (Option NodeRef)
  | 0, _ => .ok none
  | level + 1, start => do
      let first ← h.getNext start level
      let (trail, node) ← skipLower h key level (h.nodeCount + 1) start first
      assert ndebug (.ok trail.isSome)
      if ← keyEquals h key node then
        pure node
      else
        assert ndebug (nullOrBelow h key node)
        findNodeFrom ndebug h key level trail

def findNode (sl : SkipList K D) (ndebug : Bool) (key : K) :
    Checked (Option NodeRef) :=
  findNodeFrom ndebug sl.heap key sl.maxNodeHeight sl.head

/-- The loop of `seek`, with `levels` levels left. -/
def seekFrom (ndebug : Bool) (h : Heap K D) (key : K) :
    ℕ → Option NodeRef → Checked (Option NodeRef)
  | 0, _ => .ok none
  | level + 1, start => do
      let first ← h.getNext start level
      let (trail, node) ← skipLower h key level (h.nodeCount + 1) start first
      assert ndebug (.ok trail.isSome)
      if ← keyEquals h key node then
        pure node
      else
        assert ndebug (nullOrBelow h key node)
        if level = 0 then
          pure node
        else
          seekFrom ndebug h key level trail

/-- The inner loop of `traversePrevNodes`, which also adds up the widths it
passes. -/
def skipLowerRanked (h : Heap K D) (key : K) (level : ℕ) :
    ℕ → Option NodeRef → Option NodeRef → ℕ →
      Checked (Option NodeRef × Option NodeRef × ℕ)
  | 0, _, _, _ => .error .divergence
  | fuel + 1, trail, node, accumulatedRank => do
      if ← keyAbove h key node then
        let width ← h.getWidth trail level
        let next ← h.getNext node level
        skipLowerRanked h key level fuel node next (accumulatedRank + width)
      else
        pure (trail, node, accumulatedRank)

/-- The loop of `traversePrevNodes`, with `levels` levels left. -/
def traverseFrom (ndebug : Bool) (h : Heap K D) (key : K) :
    ℕ → Option NodeRef → ℕ → Bool → TraverseContext →
      Checked (TraverseContext × Bool)
  | 0, _, accumulatedRank, duplicateKey, ctx =>
      .ok (ctx.setRank accumulatedRank, duplicateKey)
  | level + 1, start, accumulatedRank, duplicateKey, ctx => do
      let first ← h.getNext start level
      let (trail, node, rank) ←
        skipLowerRanked h key level (h.nodeCount + 1) start first
          accumulatedRank
      assert ndebug (.ok trail.isSome)
      let equal ← keyEquals h key node
      traverseFrom ndebug h key level trail rank (duplicateKey || equal)
        (ctx.setPrev level trail rank)

/-- The predecessors of a key on all levels; `duplicateKey` is only ever set,
never cleared.  Every caller has checked `m_initialized` before. -/
def traversePrevNodes (sl : SkipList K D) (ndebug : Bool) (key : K)
    (duplicateKey : Bool) : Checked (TraverseContext × Bool) :=
  traverseFrom ndebug sl.heap key sl.maxNodeHeight sl.head 0 duplicateKey
    TraverseContext.new

/-! ## Inserting -/

/-- The first loop of `insert`, over the levels above the new node, with
`levels` levels left. -/
def raiseWidths (ndebug : Bool) (ctx : TraverseContext) (nodeHeight : ℕ) :
    ℕ → Heap K D → Checked (Heap K D)
  | 0, h => .ok h
  | level + 1, h =>
      if nodeHeight ≤ level then do
        let prev := ctx.prevNode level
        assert ndebug (.ok prev.isSome)
        let width ← h.getWidth prev level
        let h ← h.setWidth prev level (width + 1)
        raiseWidths ndebug ctx nodeHeight level h
      else
        .ok h

omit [LinearOrder K] in
/-- The width of the new node on a level, from the width its predecessor had
there: a predecessor of width 0 is the last node of the list. -/
def insertWidth (width distance : ℕ) : Checked ℕ :=
  if width = 0 then pure 0 else subtract width distance

/-- The second loop of `insert`, over the levels of the new node. -/
def linkLevels (sl : SkipList K D) (ndebug : Bool) (key : K)
    (ctx : TraverseContext) (insertNode : NodeRef) :
    ℕ → Heap K D → Checked (Heap K D)
  | 0, h => .ok h
  | level + 1, h => do
      let prev := ctx.prevNode level
      let next ← h.getNext prev level
      assert ndebug (sl.headOrAbove h key prev)
      assert ndebug (nullOrNotAbove h key next)
      let distance ← subtract ctx.rank (ctx.prevRank level)
      let prevWidth := distance + 1
      let width ← h.getWidth prev level
      let insertWidth ← insertWidth width distance
      let h ← h.setNext prev level (some insertNode)
      let h ← h.setWidth prev level prevWidth
      let h ← h.setNext (some insertNode) level next
      let h ← h.setWidth (some insertNode) level insertWidth
      linkLevels sl ndebug key ctx insertNode level h

/-- `insert`; returns the transaction with the row it has affected. -/
def insert (sl : SkipList K D) (ndebug : Bool) (key : K) (data : Option D)
    (size nodeHeight : ℕ) (draw : ℕ → ℕ) (transaction : Option Transaction) :
    Checked (Outcome (SkipList K D) (Bool × Option Transaction)) :=
  if sl.initialized = false then
    .ok (.thrown "SkipList<K>::insert not initialized" sl)
  else if nodeHeight > sl.maxNodeHeight then
    .ok (.thrown "SkipList<K>::insert nodeHeight > maxNodeHeight" sl)
  else do
    let nodeHeight := chosenHeight sl.maxNodeHeight nodeHeight draw
    let (ctx, duplicateKey) ← sl.traversePrevNodes ndebug key false
    if sl.primaryIndex && duplicateKey then
      pure (.returned (false, transaction) sl)
    else
      let (insertNode, h) ← sl.heap.newNode ndebug key nodeHeight
      let (rowInfo, h) := h.newRowInfo .none data size
      let h ← h.setRowInfo (some insertNode) (some rowInfo)
      let h ← raiseWidths ndebug ctx nodeHeight sl.maxNodeHeight h
      let h ← sl.linkLevels ndebug key ctx insertNode nodeHeight h
      pure (.returned
        (true, transaction.map fun t => t.addAffectedRow insertNode rowInfo)
        { sl with size := sl.size + 1, heap := h })

/-! ## Removing -/

/-- The loop of `remove`, over all levels; it carries the node to remove, which
each level that unlinks a node overwrites. -/
def unlinkLevels (sl : SkipList K D) (ndebug : Bool) (key : K)
    (ctx : TraverseContext) :
    ℕ → Option NodeRef → Heap K D → Checked (Option NodeRef × Heap K D)
  | 0, removeNode, h => .ok (removeNode, h)
  | level + 1, removeNode, h => do
      let prev := ctx.prevNode level
      let next ← h.getNext prev level
      assert ndebug (sl.headOrAbove h key prev)
      assert ndebug (nullOrNotAbove h key next)
      if ← keyEquals h key next then
        assert ndebug (.ok (decide (removeNode = none ∨ removeNode = next)))
        let width ← h.getWidth prev level
        let removeWidth ← h.getWidth next level
        let prevWidth ← subtract (width + removeWidth) 1
        let after ← h.getNext next level
        let h ← h.setNext prev level after
        let h ← h.setWidth prev level prevWidth
        let h ← h.setNext next level none
        unlinkLevels sl ndebug key ctx level next h
      else
        let width ← h.getWidth prev level
        let prevWidth ← subtract width 1
        let h ← h.setWidth prev level prevWidth
        unlinkLevels sl ndebug key ctx level removeNode h

/-- Delete a chain of row infos, freeing their buffers. -/
def deleteRowInfos : ℕ → Option RowInfoRef → Heap K D → Checked (Heap K D)
  | _, none, h => .ok h
  | 0, some _, _ => .error .divergence
  | fuel + 1, some r, h => do
      let info ← h.readRowInfo (some r)
      let h ← h.setData (some r) none 0
      let h := h.free info.data
      let h ← h.deleteRowInfo (some r)
      deleteRowInfos fuel info.next h

def remove (sl : SkipList K D) (ndebug : Bool) (key : K) :
    Checked (Outcome (SkipList K D) Bool) :=
  if sl.initialized = false then
    .ok (.thrown "SkipList<K>::remove not initialized" sl)
  else do
    let (ctx, duplicateKey) ← sl.traversePrevNodes ndebug key false
    if duplicateKey = false then
      pure (.returned false sl)
    else
      let (removeNode, h) ←
        sl.unlinkLevels ndebug key ctx sl.maxNodeHeight none sl.heap
      assert ndebug (.ok removeNode.isSome)
      let rowInfo ← h.getRowInfo removeNode
      let h ← h.setRowInfo removeNode none
      let h ← deleteRowInfos h.rowInfoCount rowInfo h
      let h ← h.deleteNode removeNode
      let size ← subtract sl.size 1
      pure (.returned true { sl with size := size, heap := h })

/-! ## Destroying -/

/-- The loop of the destructor, along level 0. -/
def deleteNodes : ℕ → Option NodeRef → Heap K D → Checked (Heap K D)
  | _, none, h => .ok h
  | 0, some _, _ => .error .divergence
  | fuel + 1, some a, h => do
      let next ← h.getNext (some a) 0
      let rowInfo ← h.getRowInfo (some a)
      let h ← h.setRowInfo (some a) none
      let h ← deleteRowInfos h.rowInfoCount rowInfo h
      let h ← h.deleteNode (some a)
      deleteNodes fuel next h

/-- The destructor, with the memory it leaves behind. -/
def destroy (sl : SkipList K D) : Checked (SkipList K D) := do
  let h ← deleteNodes (sl.heap.nodeCount + 1) sl.head sl.heap
  pure { sl with head := none, initialized := false, heap := h }

/-! ## Updating and looking up -/

/-- `update`: replaces the data in place and frees the old buffer. -/
def update (sl : SkipList K D) (ndebug : Bool) (key : K) (data : Option D)
    (size : ℕ) (transaction : Option Transaction) :
    Checked (Outcome (SkipList K D) (Bool × Option Transaction)) :=
  if sl.initialized = false then
    .ok (.thrown "SkipList<K>::update not initialized" sl)
  else do
    match ← sl.findNode ndebug key with
    | some foundNode =>
        let rowInfo ← sl.heap.getRowInfo (some foundNode)
        let info ← sl.heap.readRowInfo rowInfo
        let h ← sl.heap.setData rowInfo data size
        let h := h.free info.data
        let r ← nonNull rowInfo
        pure (.returned
          (true, transaction.map fun t => t.addAffectedRow foundNode r)
          { sl with heap := h })
    | none => pure (.returned (false, transaction) sl)

def find (sl : SkipList K D) (ndebug : Bool) (key : K) :
    Checked (Outcome (SkipList K D) (Option D)) :=
  if sl.initialized = false then
    .ok (.thrown "SkipList<K>::find not initialized" sl)
  else do
    match ← sl.findNode ndebug key with
    | some foundNode =>
        let rowInfo ← sl.heap.getRowInfo (some foundNode)
        let info ← sl.heap.readRowInfo rowInfo
        pure (.returned info.data sl)
    | none => pure (.returned none sl)

def contains (sl : SkipList K D) (ndebug : Bool) (key : K) :
    Checked (Outcome (SkipList K D) Bool) :=
  if sl.initialized = false then
    .ok (.thrown "SkipList<K>::contains not initialized" sl)
  else do
    let foundNode ← sl.findNode ndebug key
    pure (.returned foundNode.isSome sl)

/-! ## Statistics -/

omit [LinearOrder K] in
/-- Count the nodes from `node` on along level 0. -/
def countFrom (h : Heap K D) : ℕ → Option NodeRef → ℕ → Checked ℕ
  | _, none, size => .ok size
  | 0, some _, _ => .error .divergence
  | fuel + 1, some a, size => do
      let next ← h.getNext (some a) 0
      countFrom h fuel next (size + 1)

def empty (sl : SkipList K D) : Checked (Outcome (SkipList K D) Bool) :=
  if sl.initialized = false then
    .ok (.thrown "SkipList<K>::empty not initialized" sl)
  else .ok (.returned (decide (sl.size = 0)) sl)

/-- `size`, which counts the nodes when `calculate` is set and reads the
counter otherwise. -/
def getSize (sl : SkipList K D) (calculate : Bool) :
    Checked (Outcome (SkipList K D) ℕ) :=
  if sl.initialized = false then
    .ok (.thrown "SkipList<K>::size not initialized" sl)
  else if calculate then do
    let first ← sl.heap.getNext sl.head 0
    let size ← countFrom sl.heap (sl.heap.nodeCount + 1) first 0
    pure (.returned size sl)
  else .ok (.returned sl.size sl)

def estimateRangeCardinality (sl : SkipList K D) (ndebug : Bool)
    (lowKey highKey : K) : Checked (Outcome (SkipList K D) ℕ) :=
  if sl.initialized = false then
    .ok (.thrown "SkipList<K>::estimateRangeCardinality not initialized" sl)
  else if lowKey > highKey then
    .ok (.returned 0 sl)
  else do
    let (ctxLow, duplicateKey) ← sl.traversePrevNodes ndebug lowKey false
    let (ctxHigh, _) ← sl.traversePrevNodes ndebug highKey duplicateKey
    let lowRank := ctxLow.prevRank 0
    let highRank := ctxHigh.prevRank 0
    assert ndebug (.ok (decide (lowRank ≤ highRank)))
    let cardinality ← subtract highRank lowRank
    pure (.returned cardinality sl)

/-! ## The self check -/

/-- The inner loop of `validate`: walk along level 0 up to `node`, counting
nodes. -/
def measure (h : Heap K D) (node : Option NodeRef) :
    ℕ → Option NodeRef → ℕ → Checked ℕ
  | 0, _, _ => .error .divergence
  | fuel + 1, level0, width =>
      if level0 = node then .ok width
      else do
        let level0 ← h.getNext level0 0
        measure h node fuel level0
          (if level0.isSome then width + 1 else width)

/-- The loop of `validate` over the nodes of a level above 0; `level0` always
stands where the walk along level 0 has arrived, which is at `trail`. -/
def validateLevel (ndebug : Bool) (h : Heap K D) (level : ℕ) :
    ℕ → Option NodeRef → Option NodeRef → Bool → Checked Bool
  | 0, _, _, _ => .error .divergence
  | fuel + 1, trail, node, valid => do
      let width ← measure h node (h.nodeCount + 1) trail 0
      let trailWidth ← h.getWidth trail level
      let valid := valid && decide (trailWidth = width)
      assert ndebug (.ok (decide (trailWidth = width)))
      match node with
      | none => pure valid
      | some _ => do
          let next ← h.getNext node level
          validateLevel ndebug h level fuel node next valid

/-- The loop of `validate` over level 0. -/
def validateLevelZero (ndebug : Bool) (h : Heap K D) :
    ℕ → Option NodeRef → Bool → Checked Bool
  | _, none, valid => .ok valid
  | 0, some _, _ => .error .divergence
  | fuel + 1, some a, valid => do
      let next ← h.getNext (some a) 0
      let width ← h.getWidth (some a) 0
      let expected := if next = none then 0 else 1
      assert ndebug (.ok (decide (width = expected)))
      validateLevelZero ndebug h fuel next
        (valid && decide (width = expected))

/-- The first part of `validate`, over all levels. -/
def validateWidths (ndebug : Bool) (h : Heap K D) (head : Option NodeRef) :
    ℕ → Bool → Checked Bool
  | 0, valid => .ok valid
  | level + 1, valid => do
      let node ← h.getNext head level
      let valid ←
        if 1 ≤ level then
          validateLevel ndebug h level (h.nodeCount + 1) head node valid
        else
          validateLevelZero ndebug h (h.nodeCount + 1) head valid
      validateWidths ndebug h head level valid

/-- Compare a node's key with its successors' on the levels below. -/
def validateKey (ndebug : Bool) (h : Heap K D) (key : K)
    (node : Option NodeRef) : ℕ → Bool → Checked Bool
  | 0, valid => .ok valid
  | level + 1, valid => do
      let next ← h.getNext node level
      match next with
      | none => validateKey ndebug h key node level valid
      | some _ => do
          let nextKey ← h.getKey next
          assert ndebug (.ok (decide (key ≤ nextKey)))
          validateKey ndebug h key node level
            (valid && decide (key ≤ nextKey))

/-- The second part of `validate`: all keys are in order. -/
def validateKeys (ndebug : Bool) (h : Heap K D) :
    ℕ → Option NodeRef → Bool → Checked Bool
  | _, none, valid => .ok valid
  | 0, some _, _ => .error .divergence
  | fuel + 1, some a, valid => do
      let key ← h.getKey (some a)
      let height ← h.getHeight (some a)
      let valid ← validateKey ndebug h key (some a) height valid
      let next ← h.getNext (some a) 0
      validateKeys ndebug h fuel next valid

def validate (sl : SkipList K D) (ndebug : Bool) : Checked Bool := do
  let valid ← validateWidths ndebug sl.heap sl.head sl.maxNodeHeight true
  let first ← sl.heap.getNext sl.head 0
  validateKeys ndebug sl.heap (sl.heap.nodeCount + 1) first valid

end SkipList

end SquidDB.Core
