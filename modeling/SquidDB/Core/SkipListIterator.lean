import SquidDB.Core.SkipList

/-!
# Iterators over the skip list

`SkipListIterator<K>`, the calls of `SkipList<K>` that build one, and the loop
a caller runs over it.  The end key is tested in the constructor, in
`operator++` and in `next()`, each time on the key of the current node.
-/

namespace SquidDB.Core

open Checked

/-- `SkipListIterator<K>`. -/
structure SkipListIterator (K : Type) where
  current : Option NodeRef
  endKey : Option K
  deriving DecidableEq, Repr

namespace SkipListIterator

variable {K D : Type} [LinearOrder K]

/-- `(m_endKey.has_value() == true) && (m_current->getKey() > m_endKey)`. -/
def pastEnd (h : Heap K D) (it : SkipListIterator K) : Checked Bool :=
  match it.endKey with
  | none => .ok false
  | some endKey => do
      let key ← h.getKey it.current
      pure (decide (key > endKey))

/-- Drop the current node when it lies past the end key. -/
def cutOff (h : Heap K D) (it : SkipListIterator K) :
    Checked (SkipListIterator K) := do
  if ← it.pastEnd h then
    pure { it with current := none }
  else
    pure it

/-- The constructor. -/
def new (h : Heap K D) (startNode : Option NodeRef) (endKey : Option K) :
    Checked (SkipListIterator K) :=
  cutOff h ⟨startNode, endKey⟩

/-- `operator++`. -/
def increment (h : Heap K D) (it : SkipListIterator K) :
    Checked (SkipListIterator K) :=
  match it.current with
  | none => .ok it
  | some _ => do
      let current ← h.getNext it.current 0
      cutOff h { it with current := current }

omit [LinearOrder K] in
def valid (it : SkipListIterator K) : Bool := it.current.isSome

/-- `operator==`. -/
def equals (it other : SkipListIterator K) : Bool :=
  decide (it.current = other.current) && decide (it.endKey = other.endKey)

/-- `operator!=`. -/
def notEquals (it other : SkipListIterator K) : Bool :=
  decide (it.current ≠ other.current) || decide (it.endKey ≠ other.endKey)

/-- `next()`. -/
def next (h : Heap K D) (it : SkipListIterator K) :
    Checked (SkipListIterator K) := do
  let current ← h.getNext it.current 0
  cutOff h { it with current := current }

omit [LinearOrder K] in
/-- The key behind `getKey()`, also the value of `operator*`. -/
def getKey (h : Heap K D) (it : SkipListIterator K) : Checked K :=
  h.getKey it.current

omit [LinearOrder K] in
def getData (h : Heap K D) (it : SkipListIterator K) :
    Checked (Option D) := do
  let rowInfo ← h.getRowInfo it.current
  let info ← h.readRowInfo rowInfo
  pure info.data

/-- The two ways to advance an iterator. -/
inductive Advance where
  | next
  | increment
  deriving DecidableEq, Repr

def advance (h : Heap K D) (how : Advance) (it : SkipListIterator K) :
    Checked (SkipListIterator K) :=
  match how with
  | .next => it.next h
  | .increment => it.increment h

/-- `operator++` applied `n` times. -/
def incrementTimes (h : Heap K D) :
    ℕ → SkipListIterator K → Checked (SkipListIterator K)
  | 0, it => .ok it
  | n + 1, it => do
      let it ← it.increment h
      incrementTimes h n it

/-- The body of `for (it = start; it != stop; ++it)`, which dereferences the
iterator in every round. -/
def forLoop (h : Heap K D) (stop : SkipListIterator K) :
    ℕ → SkipListIterator K → Checked (List K)
  | 0, _ => .error .divergence
  | fuel + 1, it =>
      if it.notEquals stop then do
        let key ← it.getKey h
        let it ← it.increment h
        let rest ← forLoop h stop fuel it
        pure (key :: rest)
      else
        .ok []

/-- The caller's loop: while the iterator is valid, read the key and the data
and advance, in the way `how` chooses for this round.  The iterator the loop
ends with is not valid. -/
def collect (h : Heap K D) (how : ℕ → Advance) :
    ℕ → ℕ → SkipListIterator K → Checked (List (K × Option D))
  | 0, _, _ => .error .divergence
  | fuel + 1, round, it =>
      if it.valid then do
        let key ← it.getKey h
        let data ← it.getData h
        let it ← it.advance h (how round)
        let rest ← collect h how fuel (round + 1) it
        pure ((key, data) :: rest)
      else
        .ok []

end SkipListIterator

namespace SkipList

variable {K D : Type} [LinearOrder K]

def begin (sl : SkipList K D) :
    Checked (Outcome (SkipList K D) (SkipListIterator K)) :=
  if sl.initialized = false then
    .ok (.thrown "SkipList<K>::begin not initialized" sl)
  else do
    let first ← sl.heap.getNext sl.head 0
    let it ← SkipListIterator.new sl.heap first none
    pure (.returned it sl)

def seek (sl : SkipList K D) (ndebug : Bool) (key : K)
    (endKey : Option K) :
    Checked (Outcome (SkipList K D) (SkipListIterator K)) :=
  if sl.initialized = false then
    .ok (.thrown "SkipList<K>::seek not initialized" sl)
  else do
    let lowerBound ←
      seekFrom ndebug sl.heap key sl.maxNodeHeight sl.head
    let it ← SkipListIterator.new sl.heap lowerBound endKey
    pure (.returned it sl)

/-- `end`. -/
def endIterator (sl : SkipList K D) :
    Checked (Outcome (SkipList K D) (SkipListIterator K)) :=
  if sl.initialized = false then
    .ok (.thrown "SkipList<K>::end not initialized" sl)
  else do
    let it ← SkipListIterator.new sl.heap none none
    pure (.returned it sl)

def scan (sl : SkipList K D) :
    Checked (Outcome (SkipList K D) (SkipListIterator K)) :=
  sl.begin

def rangeScan (sl : SkipList K D) (ndebug : Bool) (startKey endKey : K) :
    Checked (Outcome (SkipList K D) (SkipListIterator K)) :=
  sl.seek ndebug startKey (some endKey)

/-- Run the caller's loop over the iterator a call has built. -/
def visit (how : ℕ → SkipListIterator.Advance)
    (start : Checked (Outcome (SkipList K D) (SkipListIterator K))) :
    Checked (Outcome (SkipList K D) (List (K × Option D))) := do
  match ← start with
  | .thrown message sl => pure (.thrown message sl)
  | .returned it sl =>
      let rows ← it.collect sl.heap how (sl.heap.nodeCount + 1) 0
      pure (.returned rows sl)

/-- The iterator a call has built, after `n` steps of `operator++`. -/
def afterSteps (n : ℕ)
    (start : Checked (Outcome (SkipList K D) (SkipListIterator K))) :
    Checked (Outcome (SkipList K D) (SkipListIterator K)) := do
  match ← start with
  | .thrown message sl => pure (.thrown message sl)
  | .returned it sl =>
      let it ← it.incrementTimes sl.heap n
      pure (.returned it sl)

/-- Run the standard loop from the iterator a call has built up to `end()`. -/
def iterate
    (start : Checked (Outcome (SkipList K D) (SkipListIterator K))) :
    Checked (Outcome (SkipList K D) (List K)) := do
  match ← start with
  | .thrown message sl => pure (.thrown message sl)
  | .returned it sl =>
      match ← sl.endIterator with
      | .thrown message sl => pure (.thrown message sl)
      | .returned stop sl =>
          let keys ← SkipListIterator.forLoop sl.heap stop
            (sl.heap.nodeCount + 1) it
          pure (.returned keys sl)

end SkipList

end SquidDB.Core
