import SquidDB.Lib.Checked
import SquidDB.Lib.Linked
import SquidDB.Lib.Machine
import SquidDB.Infra.Queue

/-!
# The queue in memory

`infra::Queue<T>` with its nodes, the pointers `m_first` and `m_last` and the
two counters.  A `size_t` has 64 bits, and so has an address: which free
address `new` returns is part of the call.
-/

namespace SquidDB.Infra

open Checked

/-- `QueueNode<T>`; a `QueueNode<T>*` is the address of one, or null. -/
structure QueueNode (α : Type) where
  data : α
  next : Option ℕ
  deriving DecidableEq, Repr

/-- A `Queue<T>` and the nodes that are live. -/
structure LinkedQueue (α : Type) where
  node : ℕ → Option (QueueNode α)
  first : Option ℕ
  last : Option ℕ
  size : UInt64
  consumed : UInt64

namespace LinkedQueue

variable {α : Type}

/-! ## Nodes -/

/-- `new QueueNode<T>(data)` at the address. -/
def newNode (q : LinkedQueue α) (data : α) (address : ℕ) : LinkedQueue α :=
  { q with node := Function.update q.node address (some ⟨data, none⟩) }

section NewNode

variable (q : LinkedQueue α) (data : α) (address : ℕ)

@[simp] theorem newNode_node : (q.newNode data address).node =
    Function.update q.node address (some ⟨data, none⟩) := rfl

@[simp] theorem newNode_first :
    (q.newNode data address).first = q.first := rfl

@[simp] theorem newNode_last :
    (q.newNode data address).last = q.last := rfl

@[simp] theorem newNode_size :
    (q.newNode data address).size = q.size := rfl

@[simp] theorem newNode_consumed :
    (q.newNode data address).consumed = q.consumed := rfl

end NewNode

def getData (q : LinkedQueue α) (p : Option ℕ) : Checked α := do
  let a ← nonNull p
  let n ← load q.node a
  pure n.data

def getNext (q : LinkedQueue α) (p : Option ℕ) : Checked (Option ℕ) := do
  let a ← nonNull p
  let n ← load q.node a
  pure n.next

def setNext (q : LinkedQueue α) (p next : Option ℕ) :
    Checked (LinkedQueue α) := do
  let a ← nonNull p
  let n ← load q.node a
  pure { q with
    node := Function.update q.node a (some { n with next := next }) }

/-- `delete node`. -/
def deleteNode (q : LinkedQueue α) (p : Option ℕ) :
    Checked (LinkedQueue α) := do
  let a ← nonNull p
  let _ ← load q.node a
  pure { q with node := Function.update q.node a none }

/-! ## Calls -/

/-- `Queue()`. -/
def new : LinkedQueue α where
  node := fun _ => none
  first := none
  last := none
  size := 0
  consumed := 0

def empty (q : LinkedQueue α) : Bool := q.size == 0

def enqueue (q : LinkedQueue α) (data : α) (address : ℕ) :
    Checked (LinkedQueue α) := do
  let q ←
    if q.first = none then
      let q := { q.newNode data address with first := some address }
      pure { q with last := q.first }
    else do
      let q := q.newNode data address
      let q ← q.setNext q.last (some address)
      pure { q with last := some address }
  pure { q with size := q.size + 1 }

def dequeue (q : LinkedQueue α) : Checked (Outcome (LinkedQueue α) α) :=
  if q.empty then
    pure (.thrown "Queue::dequeue queue is empty" q)
  else do
    let data ← q.getData q.first
    let nodeToDelete := q.first
    let q ←
      if q.first = q.last then
        pure { q with first := none, last := none }
      else do
        let next ← q.getNext q.first
        pure { q with first := next }
    let q ← q.deleteNode nodeToDelete
    let q := { q with size := q.size - 1 }
    let q := { q with consumed := q.consumed + 1 }
    pure (.returned data q)

end LinkedQueue

/-! ## Runs -/

/-- A call on a queue; an enqueue carries the address `new` returns. -/
inductive QueueCall (α : Type) where
  | enqueue (data : α) (address : ℕ)
  | dequeue
  deriving DecidableEq, Repr

namespace QueueCall

variable {α : Type}

/-- What the call does to a list that is served first in, first out. -/
def onList (list : List α) : QueueCall α → List α
  | enqueue data _ => list ++ [data]
  | dequeue => list.tail

def isEnqueue : QueueCall α → Bool
  | enqueue _ _ => true
  | dequeue => false

/-- The list left by the calls, from the empty one. -/
def fifo (calls : List (QueueCall α)) : List α :=
  calls.foldl onList []

/-- The number of enqueues made. -/
def enqueues (calls : List (QueueCall α)) : ℕ :=
  calls.countP isEnqueue

end QueueCall

namespace LinkedQueue

variable {α : Type}

/-- Perform a call; an enqueue returns nothing. -/
def perform (q : LinkedQueue α) :
    QueueCall α → Checked (Outcome (LinkedQueue α) (Option α))
  | .enqueue data address => do
      let q ← q.enqueue data address
      pure (.returned none q)
  | .dequeue => do
      let outcome ← q.dequeue
      pure (outcome.map some)

/-- The queue after a call that does not fault. -/
def step (q : LinkedQueue α) (call : QueueCall α) :
    Option (LinkedQueue α) :=
  (q.perform call).toOption.map Outcome.state

/-- What `new` promises: an address other than null where no object lives. -/
def Allocates (q : LinkedQueue α) : QueueCall α → Prop
  | .enqueue _ address =>
      0 < address ∧ address < 2 ^ 64 ∧ q.node address = none
  | .dequeue => True

/-! ## The list in memory -/

/-- The queue holds the list in these cells, after so many enqueues. -/
structure Represents (q : LinkedQueue α) (cells : List (ℕ × QueueNode α))
    (list : List α) (made : ℕ) : Prop where
  chain : Linked.Segment q.node QueueNode.next q.first cells none
  last_eq : q.last = cells.getLast?.map Prod.fst
  data_eq : cells.map (fun cell => cell.2.data) = list
  owned : ∀ address n, q.node address = some n → (address, n) ∈ cells
  address_lt : ∀ cell ∈ cells, 0 < cell.1 ∧ cell.1 < 2 ^ 64
  size_eq : q.size.toNat = cells.length
  length_le : list.length ≤ made
  consumed_eq : q.consumed = UInt64.ofNat (made - list.length)

/-- Distinct addresses other than null are fewer than 2^64. -/
theorem length_lt {cells : List (ℕ × QueueNode α)}
    (hnodup : (cells.map Prod.fst).Nodup)
    (haddress : ∀ cell ∈ cells, 0 < cell.1 ∧ cell.1 < 2 ^ 64) :
    cells.length < 2 ^ 64 := by
  have hsubset : (cells.map Prod.fst).toFinset ⊆ Finset.Ioo 0 (2 ^ 64) := by
    intro address hmem
    rw [List.mem_toFinset, List.mem_map] at hmem
    obtain ⟨cell, hcell, rfl⟩ := hmem
    exact Finset.mem_Ioo.mpr (haddress cell hcell)
  have hcard := Finset.card_le_card hsubset
  rw [List.toFinset_card_of_nodup hnodup, List.length_map,
    Nat.card_Ioo] at hcard
  omega

namespace Represents

variable {q : LinkedQueue α} {cells : List (ℕ × QueueNode α)}
  {list : List α} {made : ℕ}

theorem length_eq (h : Represents q cells list made) :
    cells.length = list.length := by
  rw [← h.data_eq, List.length_map]

/-- `m_size` is zero exactly when there is no cell. -/
theorem size_eq_zero_iff (h : Represents q cells list made) :
    q.size = 0 ↔ cells = [] := by
  rw [← UInt64.toNat_inj, h.size_eq]
  exact List.length_eq_zero_iff

theorem first_eq_none_iff (h : Represents q cells list made) :
    q.first = none ↔ cells = [] := by
  have hchain := h.chain
  cases cells with
  | nil => exact iff_of_true hchain rfl
  | cons cell cells => simp [hchain.1]

theorem last_eq_none_iff (h : Represents q cells list made) :
    q.last = none ↔ cells = [] := by
  rw [h.last_eq, Option.map_eq_none_iff, List.getLast?_eq_none_iff]

theorem of_new :
    Represents (new : LinkedQueue α) [] [] 0 where
  chain := rfl
  last_eq := rfl
  data_eq := rfl
  owned := by
    intro address n hn
    cases hn
  address_lt := by simp
  size_eq := rfl
  length_le := le_rfl
  consumed_eq := rfl

theorem size_succ {size : UInt64} {n : ℕ} (hsize : size.toNat = n)
    (hlt : n + 1 < 2 ^ 64) : (size + 1).toNat = n + 1 := by
  rw [UInt64.toNat_add, hsize]
  exact Nat.mod_eq_of_lt hlt

theorem size_pred {size : UInt64} {n : ℕ} (hsize : size.toNat = n + 1) :
    (size - 1).toNat = n := by
  have hle : (1 : UInt64) ≤ size := by
    rw [UInt64.le_iff_toNat_le, hsize]
    exact Nat.le_add_left 1 n
  rw [UInt64.toNat_sub_of_le _ _ hle, hsize]
  rfl

end Represents

/-! ## Enqueue -/

section Enqueue

variable {q : LinkedQueue α} {cells : List (ℕ × QueueNode α)}
  {list : List α} {made : ℕ} {data : α} {address : ℕ}

theorem enqueue_of_first_eq_none (hfirst : q.first = none) :
    q.enqueue data address = .ok { q with
      node := Function.update q.node address (some ⟨data, none⟩)
      first := some address
      last := some address
      size := q.size + 1 } := by
  simp [enqueue, hfirst]

theorem enqueue_of_last {a : ℕ} {n : QueueNode α} (hfirst : q.first ≠ none)
    (hlast : q.last = some a) (hn : q.node a = some n)
    (hfree : q.node address = none) :
    q.enqueue data address = .ok { q with
      node := Function.update
        (Function.update q.node address (some ⟨data, none⟩)) a
        (some { n with next := some address })
      last := some address
      size := q.size + 1 } := by
  have hne : a ≠ address := by
    rintro rfl
    cases hfree.symm.trans hn
  have hload : load (Function.update q.node address (some ⟨data, none⟩)) a =
      .ok n := by
    apply load_of_eq_some
    rw [Function.update_of_ne hne, hn]
  simp [enqueue, hfirst, hlast, setNext, hload]

namespace Represents

theorem enqueue_nil (h : Represents q [] [] made) (hpos : 0 < address)
    (hlt : address < 2 ^ 64) :
    Represents { q with
      node := Function.update q.node address (some ⟨data, none⟩)
      first := some address
      last := some address
      size := q.size + 1 } [(address, ⟨data, none⟩)] [data] (made + 1) where
  chain := ⟨rfl, Function.update_self .., rfl⟩
  last_eq := rfl
  data_eq := rfl
  owned := by
    intro a n
    refine Linked.mem_of_update (fun hn => ?_) fun _ hn => ?_
    · obtain rfl := Option.some.inj hn
      exact List.mem_singleton_self _
    · cases h.owned a n hn
  address_lt := by
    intro cell hcell
    obtain rfl := List.mem_singleton.mp hcell
    exact ⟨hpos, hlt⟩
  size_eq := size_succ h.size_eq (by norm_num)
  length_le := Nat.le_add_left 1 made
  consumed_eq := by simpa using h.consumed_eq

/-- Otherwise the last node is linked to the new one. -/
theorem enqueue_concat {a : ℕ} {n : QueueNode α}
    (h : Represents q (cells ++ [(a, n)]) list made) (hpos : 0 < address)
    (hlt : address < 2 ^ 64) (hfree : q.node address = none) :
    Represents { q with
      node := Function.update
        (Function.update q.node address (some ⟨data, none⟩)) a
        (some { n with next := some address })
      last := some address
      size := q.size + 1 }
      (cells ++ [(a, { n with next := some address }),
        (address, ⟨data, none⟩)]) (list ++ [data]) (made + 1) := by
  have hchain : Linked.Segment
      (Function.update (Function.update q.node address (some ⟨data, none⟩)) a
        (some { n with next := some address })) QueueNode.next q.first
      (cells ++ [(a, { n with next := some address }),
        (address, ⟨data, none⟩)]) none :=
    h.chain.link hfree rfl rfl
  have haddress : ∀ cell ∈ cells ++ [(a, { n with next := some address }),
      (address, ⟨data, none⟩)], 0 < cell.1 ∧ cell.1 < 2 ^ 64 := by
    have hold := h.address_lt
    simp only [List.mem_append, List.mem_cons, List.not_mem_nil, or_false]
      at hold ⊢
    rintro cell (hcell | rfl | rfl)
    · exact hold cell (Or.inl hcell)
    · exact hold (a, n) (Or.inr rfl)
    · exact ⟨hpos, hlt⟩
  have hlength := length_lt hchain.nodup haddress
  simp only [List.length_append, List.length_cons, List.length_nil]
    at hlength
  refine ⟨hchain, by simp, ?_, ?_, haddress, ?_, ?_, ?_⟩
  · rw [← h.data_eq]
    simp
  · intro b m
    refine Linked.mem_of_update (fun hm => ?_) fun hb =>
      Linked.mem_of_update (fun hm => ?_) fun _ hm => ?_
    · obtain rfl := Option.some.inj hm
      simp
    · obtain rfl := Option.some.inj hm
      simp
    · have hmem := h.owned b m hm
      rw [List.mem_append, List.mem_singleton, Prod.mk.injEq] at hmem
      have hcells := hmem.resolve_right fun heq => hb heq.1
      exact List.mem_append_left _ hcells
  · rw [size_succ h.size_eq (by simp; omega)]
    simp
  · rw [List.length_append, List.length_singleton]
    exact Nat.succ_le_succ h.length_le
  · rw [List.length_append, List.length_singleton, Nat.add_sub_add_right]
    exact h.consumed_eq

theorem exists_enqueue (h : Represents q cells list made)
    (hnew : Allocates q (.enqueue data address)) :
    ∃ q' cells', q.enqueue data address = .ok q' ∧
      Represents q' cells' (list ++ [data]) (made + 1) := by
  obtain ⟨hpos, hlt, hfree⟩ := hnew
  rcases List.eq_nil_or_concat' cells with rfl | ⟨cells, ⟨a, n⟩, rfl⟩
  · have hfirst : q.first = none := h.first_eq_none_iff.mpr rfl
    obtain rfl : [] = list := h.data_eq
    exact ⟨_, _, enqueue_of_first_eq_none hfirst, h.enqueue_nil hpos hlt⟩
  · have hfirst : q.first ≠ none := by
      rw [Ne, h.first_eq_none_iff]
      simp
    have hlast : q.last = some a := by simp [h.last_eq]
    have hmem : (a, n) ∈ cells ++ [(a, n)] := by simp
    have hn : q.node a = some n := h.chain.live hmem
    exact ⟨_, _, enqueue_of_last hfirst hlast hn hfree,
      h.enqueue_concat hpos hlt hfree⟩

end Represents

end Enqueue

/-! ## Dequeue -/

section Dequeue

variable {q : LinkedQueue α} {cells : List (ℕ × QueueNode α)}
  {list : List α} {made : ℕ}

theorem dequeue_of_size_eq_zero (hsize : q.size = 0) :
    q.dequeue =
      .ok (.thrown "Queue::dequeue queue is empty" q) := by
  simp [dequeue, empty, hsize]

theorem dequeue_of_first {a : ℕ} {n : QueueNode α} (hsize : q.size ≠ 0)
    (hfirst : q.first = some a) (hn : q.node a = some n) :
    q.dequeue = .ok (.returned n.data { q with
      node := Function.update q.node a none
      first := if q.last = some a then none else n.next
      last := if q.last = some a then none else q.last
      size := q.size - 1
      consumed := q.consumed + 1 }) := by
  have hempty : q.empty = false := by simpa [empty] using hsize
  by_cases hlast : q.last = some a
  · simp [dequeue, hempty, getData, deleteNode, hfirst, hlast,
      load_of_eq_some hn]
  · have hne : some a ≠ q.last := fun heq => hlast heq.symm
    simp [dequeue, hempty, getData, getNext, deleteNode, hfirst, hlast, hne,
      load_of_eq_some hn]

namespace Represents

/-- The first node is the last one exactly when it is the only one. -/
theorem last_eq_first_iff {a : ℕ} {n : QueueNode α}
    (h : Represents q ((a, n) :: cells) list made) :
    q.last = some a ↔ cells = [] := by
  rw [h.last_eq]
  rcases List.eq_nil_or_concat' cells with rfl | ⟨cells, cell, rfl⟩
  · simp
  · have hnodup := h.chain.nodup
    simp only [List.map_cons, List.map_append, List.nodup_cons,
      List.mem_append, List.map_nil, List.mem_singleton] at hnodup
    refine iff_of_false ?_ (by simp)
    rw [← List.cons_append, List.getLast?_append_cons]
    simp only [List.getLast?_singleton, Option.map_some, Option.some.injEq]
    rintro rfl
    exact hnodup.1 (Or.inr rfl)

/-- The queue behind its first node. -/
theorem dequeue_cons {a : ℕ} {n : QueueNode α} {data : α} {rest : List α}
    (h : Represents q ((a, n) :: cells) (data :: rest) made) :
    Represents { q with
      node := Function.update q.node a none
      first := if q.last = some a then none else n.next
      last := if q.last = some a then none else q.last
      size := q.size - 1
      consumed := q.consumed + 1 } cells rest made := by
  have hchain := h.chain.unlink
  have hdata := h.data_eq
  rw [List.map_cons, List.cons.injEq] at hdata
  have hlength := h.length_le
  rw [List.length_cons] at hlength
  refine ⟨?_, ?_, hdata.2, ?_, ?_, ?_, ?_, ?_⟩
  · by_cases hlast : q.last = some a
    · obtain rfl := h.last_eq_first_iff.mp hlast
      simp [hlast, Linked.Segment]
    · simpa [hlast] using hchain
  · by_cases hlast : q.last = some a
    · obtain rfl := h.last_eq_first_iff.mp hlast
      simp [hlast]
    · have hne : cells ≠ [] := fun heq => hlast (h.last_eq_first_iff.mpr heq)
      simp only [if_neg hlast]
      rw [h.last_eq, List.getLast?_cons_of_ne_nil hne]
  · intro b m
    refine Linked.mem_of_update nofun fun hb hm => ?_
    have hmem := h.owned b m hm
    rw [List.mem_cons, Prod.mk.injEq] at hmem
    exact hmem.resolve_left fun heq => hb heq.1
  · exact fun cell hcell => h.address_lt cell (List.mem_cons_of_mem _ hcell)
  · exact size_pred h.size_eq
  · omega
  · have hserved : made - rest.length = made - (data :: rest).length + 1 := by
      rw [List.length_cons]
      omega
    rw [hserved, UInt64.ofNat_add, ← h.consumed_eq]
    rfl

/-- A dequeue takes the first element off the list. -/
theorem exists_dequeue {data : α} {rest : List α}
    (h : Represents q cells (data :: rest) made) :
    ∃ q' cells', q.dequeue = .ok (.returned data q') ∧
      Represents q' cells' rest made := by
  cases cells with
  | nil => cases h.data_eq
  | cons cell cells =>
      obtain ⟨a, n⟩ := cell
      have hdata := h.data_eq
      rw [List.map_cons, List.cons.injEq] at hdata
      have hsize : q.size ≠ 0 := by
        rw [Ne, h.size_eq_zero_iff]
        simp
      have hdequeue := dequeue_of_first hsize h.chain.1 h.chain.2.1
      rw [hdata.1] at hdequeue
      exact ⟨_, cells, hdequeue, h.dequeue_cons⟩

theorem dequeue_nil (h : Represents q cells [] made) :
    q.dequeue = .ok (.thrown "Queue::dequeue queue is empty" q) := by
  apply dequeue_of_size_eq_zero
  rw [h.size_eq_zero_iff]
  exact List.map_eq_nil_iff.mp h.data_eq

end Represents

end Dequeue

/-! ## Runs -/

section Runs

variable {q : LinkedQueue α} {cells : List (ℕ × QueueNode α)}
  {list : List α} {made : ℕ}

theorem step_of_perform {call : QueueCall α}
    {outcome : Outcome (LinkedQueue α) (Option α)}
    (hperform : q.perform call = .ok outcome) :
    q.step call = some outcome.state := by
  rw [step, hperform]
  rfl

theorem Represents.exists_step (h : Represents q cells list made)
    {call : QueueCall α} (hcall : Allocates q call) :
    ∃ q' cells', q.step call = some q' ∧ Represents q' cells'
      (call.onList list) (made + if call.isEnqueue then 1 else 0) := by
  cases call with
  | enqueue data address =>
      obtain ⟨q', cells', henqueue, h'⟩ := h.exists_enqueue hcall
      have hperform : q.perform (.enqueue data address) =
          .ok (.returned none q') := by
        simp [perform, henqueue]
      exact ⟨q', cells', step_of_perform hperform, h'⟩
  | dequeue =>
      cases list with
      | nil =>
          have hperform : q.perform .dequeue =
              .ok (.thrown "Queue::dequeue queue is empty" q) := by
            simp [perform, h.dequeue_nil]
          exact ⟨q, cells, step_of_perform hperform, h⟩
      | cons data rest =>
          obtain ⟨q', cells', hdequeue, h'⟩ := h.exists_dequeue
          have hperform : q.perform .dequeue =
              .ok (.returned (some data) q') := by
            simp [perform, hdequeue]
          exact ⟨q', cells', step_of_perform hperform, h'⟩

/-- No sequence of calls faults, and the list is the one that is served first
in, first out. -/
theorem Represents.exists_run (h : Represents q cells list made)
    {calls : List (QueueCall α)}
    (hcalls : Machine.Guarded step Allocates q calls) :
    ∃ q' cells', Machine.run step q calls = some q' ∧
      Represents q' cells' (calls.foldl QueueCall.onList list)
        (made + QueueCall.enqueues calls) := by
  induction calls generalizing q cells list made with
  | nil => exact ⟨q, cells, rfl, h⟩
  | cons call calls ih =>
      obtain ⟨q₁, cells₁, hstep, h₁⟩ := h.exists_step hcalls.1
      obtain ⟨q₂, cells₂, hrun, h₂⟩ := ih h₁ (hcalls.2 q₁ hstep)
      refine ⟨q₂, cells₂, by simp [hstep, hrun], ?_⟩
      rw [QueueCall.enqueues, List.countP_cons, Nat.add_comm (List.countP _ _),
        ← Nat.add_assoc]
      exact h₂

theorem Represents.size_add_consumed (h : Represents q cells list made) :
    q.size + q.consumed = UInt64.ofNat made := by
  have hsize : q.size = UInt64.ofNat list.length := by
    rw [← h.length_eq, ← h.size_eq, UInt64.ofNat_toNat]
  rw [hsize, h.consumed_eq, ← UInt64.ofNat_add,
    Nat.add_sub_of_le h.length_le]

theorem Represents.toNat_add_toNat (h : Represents q cells list made)
    (hmade : made < 2 ^ 64) :
    q.size.toNat + q.consumed.toNat = made := by
  have hle := h.length_le
  have hserved : made - list.length < UInt64.size := by
    rw [UInt64.size]
    omega
  rw [h.size_eq, h.length_eq, h.consumed_eq,
    UInt64.toNat_ofNat_of_lt' hserved]
  omega

end Runs

/-- From the empty queue every sequence of calls completes; the nodes from
`m_first` to `m_last` spell the list that is served first in, first out, the
counters tell its length and the enqueues made, and the next dequeue throws
exactly when that list is empty. -/
theorem run_refines_fifo (calls : List (QueueCall α))
    (hcalls : Machine.Guarded step Allocates new calls) :
    ∃ (q : LinkedQueue α) (cells : List (ℕ × QueueNode α)),
      Machine.run step new calls = some q ∧
      Linked.Segment q.node QueueNode.next q.first cells none ∧
      q.last = cells.getLast?.map Prod.fst ∧
      cells.map (fun cell => cell.2.data) = QueueCall.fifo calls ∧
      (q.first = none ↔ q.last = none) ∧
      (q.last = none ↔ q.size = 0) ∧
      q.size.toNat = cells.length ∧
      q.size + q.consumed = UInt64.ofNat (QueueCall.enqueues calls) ∧
      (QueueCall.enqueues calls < 2 ^ 64 →
        q.size.toNat + q.consumed.toNat = QueueCall.enqueues calls) ∧
      (QueueCall.fifo calls = [] →
        q.dequeue = .ok (.thrown "Queue::dequeue queue is empty" q)) ∧
      (∀ data rest, QueueCall.fifo calls = data :: rest →
        ∃ (q' : LinkedQueue α) (cells' : List (ℕ × QueueNode α)),
          q.dequeue = .ok (.returned data q') ∧
          Represents q' cells' rest (QueueCall.enqueues calls)) := by
  obtain ⟨q, cells, hrun, h⟩ := Represents.of_new.exists_run hcalls
  rw [Nat.zero_add] at h
  refine ⟨q, cells, hrun, h.chain, h.last_eq, h.data_eq, ?_, ?_, h.size_eq,
    h.size_add_consumed, h.toNat_add_toNat, ?_, ?_⟩
  · rw [h.first_eq_none_iff, h.last_eq_none_iff]
  · rw [h.last_eq_none_iff, h.size_eq_zero_iff]
  · intro hempty
    rw [QueueCall.fifo] at hempty
    rw [hempty] at h
    exact h.dequeue_nil
  · intro data rest hlist
    rw [QueueCall.fifo] at hlist
    rw [hlist] at h
    exact h.exists_dequeue

/-- A queue that is emptied and filled again. -/
theorem run_refines_fifo_refilled :
    ∃ (q : LinkedQueue Bool) (cells : List (ℕ × QueueNode Bool)),
      Machine.run step new [.enqueue true 8, .dequeue, .enqueue false 8] =
        some q ∧
      cells.map (fun cell => cell.2.data) = [false] ∧
      q.size + q.consumed = 2 := by
  obtain ⟨q, cells, hrun, -, -, hdata, -, -, -, hsum, -⟩ :=
    run_refines_fifo [.enqueue true 8, .dequeue, .enqueue false 8] (by
      refine ⟨⟨by decide, by decide, rfl⟩, fun q hq => ?_⟩
      obtain rfl := Option.some.inj hq
      refine ⟨trivial, fun q hq => ?_⟩
      obtain rfl := Option.some.inj hq
      exact ⟨⟨by decide, by decide, rfl⟩, fun q hq => trivial⟩)
  exact ⟨q, cells, hrun, hdata, hsum⟩

/-! ## The queue as a list -/

/-- The calls on the queue as a list with its length. -/
def onQueue (queue : Queue α) : QueueCall α → Queue α
  | .enqueue data _ => queue.enqueue data
  | .dequeue =>
      match queue.dequeue with
      | .ok (_, rest) => rest
      | .error _ => queue

theorem nodes_onQueue (queue : Queue α) (call : QueueCall α) :
    (onQueue queue call).nodes = call.onList queue.nodes := by
  cases call with
  | enqueue data address => rfl
  | dequeue =>
      by_cases hempty : queue.empty = true
      · have hnodes := Queue.empty_iff.mp hempty
        rw [onQueue, Queue.dequeue_of_nodes_eq_nil hnodes, hnodes]
        rfl
      · obtain ⟨data, rest, hdequeue, hnodes⟩ :=
          Queue.exists_dequeue (Bool.eq_false_iff.mpr hempty)
        rw [onQueue, hdequeue, hnodes]
        rfl

/-- After the same calls, the queue in memory and the queue as a list hold
the same elements and count them alike. -/
theorem exists_run_onQueue {calls : List (QueueCall α)}
    (hcalls : Machine.Guarded step Allocates new calls) :
    ∃ (q : LinkedQueue α) (cells : List (ℕ × QueueNode α)),
      Machine.run step new calls = some q ∧
      cells.map (fun cell => cell.2.data) =
        (calls.foldl onQueue Queue.new).nodes ∧
      q.size.toNat = (calls.foldl onQueue Queue.new).size := by
  have hnodes : calls.foldl QueueCall.onList (Queue.new : Queue α).nodes =
      (calls.foldl onQueue Queue.new).nodes :=
    List.foldl_hom Queue.nodes fun queue call => (nodes_onQueue queue call).symm
  obtain ⟨q, cells, hrun, h⟩ := Represents.of_new.exists_run hcalls
  change Represents q cells (calls.foldl _ Queue.new.nodes) _ at h
  rw [hnodes] at h
  refine ⟨q, cells, hrun, h.data_eq, ?_⟩
  rw [h.size_eq, h.length_eq, Queue.size_eq]

end LinkedQueue

end SquidDB.Infra
