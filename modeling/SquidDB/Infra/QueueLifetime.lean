import SquidDB.Infra.LinkedQueue
import SquidDB.Lib.Ledger

/-!
# The life of a queue of pointers

`Queue<T>` when `T` is a pointer, as in the logger: `dequeue` hands an item
over to the caller, who may delete it, and `~Queue` deletes the items that were
never handed out, together with the nodes.
-/

namespace SquidDB.Infra

open Checked

namespace LinkedQueue

variable {ι : Type}

/-- `delete data`, when these pointers were deleted before; null is not
deleted. -/
def deleteData [DecidableEq ι] (freed : List ι) : Option ι → Checked (List ι)
  | none => pure freed
  | some item =>
      if item ∈ freed then .error .danglingPointer
      else pure (freed ++ [item])

/-- The loop of `~Queue`. -/
def deleteNodes [DecidableEq ι] :
    ℕ → LinkedQueue (Option ι) → Option ℕ → List ι →
      Checked (LinkedQueue (Option ι) × List ι)
  | _, q, none, freed => .ok (q, freed)
  | 0, _, some _, _ => .error .divergence
  | fuel + 1, q, some a, freed => do
      let nodeToDelete := some a
      let node ← q.getNext (some a)
      let data ← q.getData nodeToDelete
      let freed ← deleteData freed data
      let q ← q.deleteNode nodeToDelete
      deleteNodes fuel q node freed

/-- `~Queue`, when these items were deleted before; there are no more nodes
than addresses. -/
def destroy [DecidableEq ι] (q : LinkedQueue (Option ι)) (freed : List ι) :
    Checked (LinkedQueue (Option ι) × List ι) := do
  let (q, freed) ← deleteNodes (2 ^ 64) q q.first freed
  pure ({ q with first := none, last := none, size := 0 }, freed)

end LinkedQueue

/-- The items a call passes to the queue. -/
def QueueCall.passed {α : Type} : QueueCall α → List α
  | enqueue data _ => [data]
  | dequeue => []

/-- A queue and what it has handed out. -/
structure Delivery (ι : Type) where
  queue : LinkedQueue (Option ι)
  handedOut : List (Option ι)

namespace Delivery

variable {ι : Type}

/-- The queue after its constructor. -/
def initial : Delivery ι := ⟨LinkedQueue.new, []⟩

/-- A call that does not fault. -/
def step (s : Delivery ι) (call : QueueCall (Option ι)) :
    Option (Delivery ι) :=
  match s.queue.perform call with
  | .error _ => none
  | .ok (.returned (some data) queue) =>
      some ⟨queue, s.handedOut ++ [data]⟩
  | .ok (.returned none queue) => some ⟨queue, s.handedOut⟩
  | .ok (.thrown _ queue) => some ⟨queue, s.handedOut⟩

/-- `new` returns an address where no node lives. -/
def Allocates (s : Delivery ι) (call : QueueCall (Option ι)) : Prop :=
  LinkedQueue.Allocates s.queue call

variable {s s' : Delivery ι} {cells : List (ℕ × QueueNode (Option ι))}
  {list : List (Option ι)} {made : ℕ}

theorem exists_step (h : s.queue.Represents cells list made)
    {call : QueueCall (Option ι)} (hcall : s.Allocates call) :
    ∃ s' cells' list' made', s.step call = some s' ∧
      s'.queue.Represents cells' list' made' ∧
      s'.handedOut ++ list' = s.handedOut ++ list ++ call.passed := by
  cases call with
  | enqueue data address =>
      obtain ⟨q, cells', henqueue, h'⟩ := h.exists_enqueue hcall
      have hperform : s.queue.perform (.enqueue data address) =
          .ok (.returned none q) := by
        simp [LinkedQueue.perform, henqueue]
      refine ⟨⟨q, s.handedOut⟩, cells', _, _, ?_, h', ?_⟩
      · rw [step, hperform]
      · simp [QueueCall.passed]
  | dequeue =>
      rcases list with _ | ⟨data, rest⟩
      · have hperform : s.queue.perform .dequeue =
            .ok (.thrown "Queue::dequeue queue is empty" s.queue) := by
          simp [LinkedQueue.perform, h.dequeue_nil]
        refine ⟨⟨s.queue, s.handedOut⟩, cells, [], made, ?_, h, ?_⟩
        · rw [step, hperform]
        · simp [QueueCall.passed]
      · obtain ⟨q, cells', hdequeue, h'⟩ := h.exists_dequeue
        have hperform : s.queue.perform .dequeue =
            .ok (.returned (some data) q) := by
          simp [LinkedQueue.perform, hdequeue]
        refine ⟨⟨q, s.handedOut ++ [data]⟩, cells', rest, made, ?_, h', ?_⟩
        · rw [step, hperform]
        · simp [QueueCall.passed]

/-- No run faults, and every item passed is handed out or still queued. -/
theorem exists_run (h : s.queue.Represents cells list made)
    {calls : List (QueueCall (Option ι))}
    (hcalls : Machine.Guarded step Allocates s calls) :
    ∃ s' cells' list' made', Machine.run step s calls = some s' ∧
      s'.queue.Represents cells' list' made' ∧
      s'.handedOut ++ list' =
        s.handedOut ++ list ++ calls.flatMap QueueCall.passed := by
  induction calls generalizing s cells list made with
  | nil => exact ⟨s, cells, list, made, rfl, h, by simp⟩
  | cons call calls ih =>
      obtain ⟨s₁, cells₁, list₁, made₁, hstep, h₁, hitems₁⟩ :=
        exists_step h hcalls.1
      obtain ⟨s₂, cells₂, list₂, made₂, hrun, h₂, hitems₂⟩ :=
        ih h₁ (hcalls.2 s₁ hstep)
      refine ⟨s₂, cells₂, list₂, made₂, by simp [hstep, hrun], h₂, ?_⟩
      rw [hitems₂, hitems₁, List.flatMap_cons, List.append_assoc]

end Delivery

/-! ## The destructor -/

namespace LinkedQueue

variable {ι : Type}

theorem deleteData_of_nodup [DecidableEq ι] {freed items : List ι}
    {data : Option ι} (hfreed : (freed ++ (data.toList ++ items)).Nodup) :
    deleteData freed data = .ok (freed ++ data.toList) := by
  cases data with
  | none => simp [deleteData]
  | some item =>
      have hitem : item ∉ freed := fun hmem =>
        List.disjoint_of_nodup_append hfreed hmem (by simp)
      simp [deleteData, hitem]

/-- The loop of `~Queue` deletes the cells in front of it, and all their
items, each of them once. -/
theorem deleteNodes_spec [DecidableEq ι]
    {cells : List (ℕ × QueueNode (Option ι))}
    {q : LinkedQueue (Option ι)} {p : Option ℕ}
    (hchain : Linked.Segment q.node QueueNode.next p cells none)
    (howned : ∀ address n, q.node address = some n → (address, n) ∈ cells)
    {fuel : ℕ} (hfuel : cells.length ≤ fuel) {freed : List ι}
    (hfreed : (freed ++ cells.filterMap fun cell => cell.2.data).Nodup) :
    deleteNodes fuel q p freed =
      .ok ({ q with node := fun _ => none },
        freed ++ cells.filterMap fun cell => cell.2.data) := by
  induction cells generalizing q p fuel freed with
  | nil =>
      obtain rfl : p = none := hchain
      have hnode : q.node = fun _ => none := by
        funext address
        rcases hn : q.node address with _ | n
        · rfl
        · cases howned address n hn
      rw [deleteNodes, ← hnode, List.filterMap_nil, List.append_nil]
  | cons cell cells ih =>
      obtain ⟨rfl, hlive, -⟩ := id hchain
      obtain ⟨fuel, rfl⟩ : ∃ n, fuel = n + 1 := ⟨fuel - 1, by
        rw [List.length_cons] at hfuel
        omega⟩
      rw [Ledger.filterMap_cons_toList] at hfreed
      have hdata := deleteData_of_nodup hfreed
      rw [← List.append_assoc] at hfreed
      have hrest := ih (q := { q with
          node := Function.update q.node cell.1 none }) hchain.unlink
        (fun address n hn => ?_) (Nat.le_of_succ_le_succ hfuel) hfreed
      · simp only [deleteNodes, getNext, getData, deleteNode, nonNull_some,
          ok_bind, load_of_eq_some hlive, pure_eq_ok, hdata]
        rw [hrest, Ledger.filterMap_cons_toList, List.append_assoc]
      · by_cases haddress : address = cell.1
        · rw [haddress] at hn
          cases (Function.update_self cell.1 none q.node).symm.trans hn
        · have hn' := (Function.update_of_ne haddress none q.node).symm.trans hn
          rcases List.mem_cons.mp (howned address n hn') with rfl | hmem
          · exact absurd rfl haddress
          · exact hmem

/-- `~Queue` leaves no node and deletes the items in the queue. -/
theorem Represents.destroy_spec [DecidableEq ι] {q : LinkedQueue (Option ι)}
    {cells : List (ℕ × QueueNode (Option ι))} {list : List (Option ι)}
    {made : ℕ} (h : q.Represents cells list made) {freed : List ι}
    (hfreed : (freed ++ list.filterMap id).Nodup) :
    ∃ q', q.destroy freed = .ok (q', freed ++ list.filterMap id) ∧
      ∀ address, q'.node address = none := by
  have hlength := (length_lt h.chain.nodup h.address_lt).le
  have hdeleted : list.filterMap id =
      cells.filterMap fun cell => cell.2.data := by
    rw [← h.data_eq, List.filterMap_map]
    rfl
  rw [hdeleted] at hfreed ⊢
  refine ⟨{ q with
    node := fun _ => none, first := none, last := none, size := 0 }, ?_,
    fun _ => rfl⟩
  rw [destroy, deleteNodes_spec h.chain h.owned hlength hfreed, ok_bind]
  rfl

end LinkedQueue

/-- After any calls that pass distinct pointers, the items passed to the queue
are those handed out followed by those `~Queue` deletes, in the order of the
enqueues: each is handed out or deleted, never both, and never twice.  Whichever
of the items handed out were deleted before, `~Queue` goes through and leaves no
node behind. -/
theorem Delivery.handed_out_or_deleted {ι : Type} [DecidableEq ι]
    (calls : List (QueueCall (Option ι)))
    (hcalls : Machine.Guarded step Allocates initial calls)
    (hdistinct : ((calls.flatMap QueueCall.passed).filterMap id).Nodup) :
    ∃ (s : Delivery ι) (deleted : List ι),
      Machine.run step initial calls = some s ∧
      s.handedOut <+: calls.flatMap QueueCall.passed ∧
      (calls.flatMap QueueCall.passed).filterMap id =
        s.handedOut.filterMap id ++ deleted ∧
      deleted.Nodup ∧ (∀ item ∈ deleted, some item ∉ s.handedOut) ∧
      ∀ freed : List ι, freed.Nodup →
        (∀ item ∈ freed, some item ∈ s.handedOut) →
        ∃ q, s.queue.destroy freed = .ok (q, freed ++ deleted) ∧
          ∀ address, q.node address = none := by
  obtain ⟨s, cells, list, made, hrun, h, hitems⟩ :=
    exists_run (s := initial) LinkedQueue.Represents.of_new hcalls
  have hpassed : s.handedOut ++ list = calls.flatMap QueueCall.passed := hitems
  rw [← hpassed, List.filterMap_append] at hdistinct
  obtain ⟨-, hdeleted, hapart⟩ := List.nodup_append.mp hdistinct
  have hkept : ∀ item ∈ list.filterMap id, some item ∉ s.handedOut := by
    intro item hitem hgone
    exact hapart item (List.mem_filterMap.mpr ⟨some item, hgone, rfl⟩) item
      hitem rfl
  refine ⟨s, list.filterMap id, hrun, ⟨list, hpassed⟩, ?_, hdeleted, hkept,
    fun freed hfreed hgone => h.destroy_spec (List.nodup_append.mpr
      ⟨hfreed, hdeleted, ?_⟩)⟩
  · rw [← hpassed, List.filterMap_append]
  · rintro item hitem _ hother rfl
    exact hkept item hother (hgone item hitem)

/-- Three items, one of them handed out and deleted by its receiver; the second
node takes the address of the first. -/
theorem Delivery.handed_out_or_deleted_three :
    ∃ (s : Delivery ℕ) (q : LinkedQueue (Option ℕ)),
      Machine.run step initial [.enqueue (some 1) 8, .dequeue,
        .enqueue (some 2) 8, .enqueue none 16, .enqueue (some 3) 24] =
          some s ∧
      s.handedOut = [some 1] ∧ s.queue.destroy [1] = .ok (q, [1, 2, 3]) := by
  obtain ⟨s, deleted, hrun, -, hitems, -, -, hdestroy⟩ :=
    handed_out_or_deleted [.enqueue (some 1) 8, .dequeue,
      .enqueue (some 2) 8, .enqueue none 16, .enqueue (some 3) 24] (by
      refine ⟨⟨by decide, by decide, rfl⟩, fun s hs => ?_⟩
      obtain rfl := Option.some.inj hs
      refine ⟨trivial, fun s hs => ?_⟩
      obtain rfl := Option.some.inj hs
      refine ⟨⟨by decide, by decide, rfl⟩, fun s hs => ?_⟩
      obtain rfl := Option.some.inj hs
      refine ⟨⟨by decide, by decide, rfl⟩, fun s hs => ?_⟩
      obtain rfl := Option.some.inj hs
      exact ⟨⟨by decide, by decide, rfl⟩, fun s hs => trivial⟩) (by decide)
  have hhanded : s.handedOut = [some 1] := by
    obtain rfl := Option.some.inj hrun
    rfl
  have hdeleted : deleted = [2, 3] := by
    rw [hhanded] at hitems
    exact (List.cons.inj hitems).2.symm
  subst hdeleted
  obtain ⟨q, hq, -⟩ := hdestroy [1] (by decide) (by simp [hhanded])
  exact ⟨s, q, hrun, hhanded, hq⟩

/-- A pointer that is passed twice is deleted twice. -/
example :
    ((Machine.run Delivery.step Delivery.initial
      [.enqueue (some 1) 8, .enqueue (some 1) 16]).map fun s =>
        match s.queue.destroy [] with
        | .error fault => some fault
        | .ok _ => none) = some (some .danglingPointer) := rfl

end SquidDB.Infra
