import Mathlib

/-!
# The queue

`infra::Queue`.  The nodes are linked from `m_first` to `m_last`, and the size
is counted beside them; `m_size` is the only thing a caller reads without the
lock of the queue's owner.
-/

namespace SquidDB.Infra

/-- The nodes from first to last, and their count. -/
structure Queue (α : Type) where
  nodes : List α
  size : ℕ
  size_eq : size = nodes.length
  deriving DecidableEq

namespace Queue

variable {α : Type}

def new : Queue α := ⟨[], 0, rfl⟩

def enqueue (queue : Queue α) (data : α) : Queue α where
  nodes := queue.nodes ++ [data]
  size := queue.size + 1
  size_eq := by simp [queue.size_eq]

def empty (queue : Queue α) : Bool := queue.size == 0

/-- The first element and the queue behind it; an empty queue throws. -/
def dequeue (queue : Queue α) : Except String (α × Queue α) :=
  match hnodes : queue.nodes with
  | [] => .error "Queue::dequeue queue is empty"
  | data :: nodes => .ok (data,
      ⟨nodes, queue.size - 1, by simp [queue.size_eq, hnodes]⟩)

@[simp] theorem nodes_enqueue (queue : Queue α) (data : α) :
    (queue.enqueue data).nodes = queue.nodes ++ [data] := rfl

theorem empty_iff {queue : Queue α} :
    queue.empty = true ↔ queue.nodes = [] := by
  rw [empty, beq_iff_eq, queue.size_eq, List.length_eq_zero_iff]

theorem size_pos_iff {queue : Queue α} :
    0 < queue.size ↔ queue.nodes ≠ [] := by
  rw [queue.size_eq, List.length_pos_iff]

theorem dequeue_of_nodes_eq_nil {queue : Queue α} (hnodes : queue.nodes = []) :
    queue.dequeue = .error "Queue::dequeue queue is empty" := by
  rw [dequeue]
  split
  · rfl
  · next data nodes hcons =>
      rw [hnodes] at hcons
      cases hcons

/-- A queue that is not empty gives its first element. -/
theorem exists_dequeue {queue : Queue α} (hempty : queue.empty = false) :
    ∃ data rest, queue.dequeue = .ok (data, rest) ∧
      queue.nodes = data :: rest.nodes := by
  have hne : queue.nodes ≠ [] := by
    intro hnodes
    rw [empty_iff.mpr hnodes] at hempty
    cases hempty
  rw [dequeue]
  split
  · next hnodes => exact absurd hnodes hne
  · next data nodes hnodes => exact ⟨data, _, rfl, hnodes⟩

end Queue

end SquidDB.Infra
