import SquidDB.Core.MemoryUsage
import SquidDB.Core.RangeScan
import SquidDB.Engine.RowOwnership

/-!
# The contents of a table

What the rows of a table are after any calls of any threads, and what memory
it reports: transactions have no part in either.  And what the transaction does
that a row call opens for itself: the same as an explicit one around the call.
-/

namespace SquidDB.Engine

open Checked SquidDB.Core SquidDB.Storage

/-- `Table::memoryUsageMB`; the array of secondary indexes is empty. -/
def Table.memoryUsageMB (table : Table) (sizes : Sizes) :
    Checked (Outcome PrimaryIndex ℕ) := do
  let primary ← nonNull table.primary
  primary.memoryUsageMB sizes

namespace System

variable {s s' : System} {m : SortedMap Int32 (RowData RowBuffer)}
  {t : ThreadId}

/-! ## Runs -/

/-- The recorded sizes are those of the rows. -/
def Sized (m : SortedMap Int32 (RowData RowBuffer)) : Prop :=
  ∀ b ∈ m.entries, ∀ row, b.2.data = some row → b.2.size = row.bytes.length

/-- Rows of the size of the schema are recorded with their size. -/
theorem Sized.mapStep {table : Table} (hm : Sized m) {call : TableCall}
    (hfits : ∀ row, call.row = some row →
      row.bytes.length = table.schema.getTotalSize) :
    Sized (mapStep table m call) := by
  intro b hb row hrow
  rcases mem_mapStep hb with hb | ⟨c, hc, hbinding, -⟩
  · exact hm b hb row hrow
  cases call with
  | insertRow row' draw =>
      obtain ⟨key, -, rfl⟩ := Option.map_eq_some_iff.mp hc
      obtain rfl := Option.some.inj hbinding
      exact (hfits row hrow).symm
  | updateRow key row' =>
      obtain rfl := Option.some.inj hc
      obtain rfl := Option.some.inj hbinding
      exact (hfits row hrow).symm
  | deleteRow key => cases hc; cases hbinding
  | beginTransaction => cases hc
  | commit => cases hc
  | rollback => cases hc

/-- When the rows have the size of the schema and no buffer is passed twice,
the table reports the bytes of all nodes, arrays, row infos and row buffers that
were allocated, or handed over, and not deleted. -/
theorem memoryUsageMB_eq_allocated {ndebug : Bool} {s₀ s : System}
    (hfinal : s₀.Finalized ndebug) {events : List (ThreadId × TableCall)}
    (hfits : ∀ e ∈ events, ∀ row, e.2.row = some row →
      row.bytes.length = s₀.table.schema.getTotalSize)
    (hpassed : (events.filterMap fun e =>
      e.2.row.map RowBuffer.address).Nodup)
    (hrun : Machine.run (System.step ndebug) s₀ events = some s)
    (sizes : Sizes) :
    ∃ received sl,
      Machine.run (Entrusted.step ndebug) (Entrusted.initial s₀) events =
        some ⟨s, received⟩ ∧
      s.table.primary = some sl ∧
      s.table.memoryUsageMB sizes =
        .ok (.returned (allocatedBytes sizes (fun row => row.bytes.length)
          received sl.heap % 2 ^ 64 / (1024 * 1024)) sl) := by
  obtain ⟨⟨s', received⟩, hnoted, rfl⟩ := Option.map_eq_some_iff.mp
    ((Machine.run_map (Entrusted.step_system ndebug)
      (Entrusted.initial s₀) events).trans hrun)
  have hrows : (events.filterMap fun e => e.2.row).Nodup := by
    refine List.Nodup.of_map RowBuffer.address ?_
    rwa [List.map_filterMap]
  have hnodup : received.Nodup := (Entrusted.run_received hnoted).nodup hrows
  have hbooks : ∃ m, Serves s₀.table s' m ∧ Sized m ∧ s'.Booked received := by
    refine Machine.run_invariant_of_guarded (P := fun u : Entrusted =>
      ∃ m, Serves s₀.table u.system m ∧ Sized m ∧
        u.system.Booked u.received)
      ?_ ⟨_, ⟨hfinal.holds, rfl⟩, by simp [Sized], hfinal.booked⟩
      (Machine.guarded_of_forall hfits _) hnoted
    rintro u e u' ⟨m, hserves, hsized, hbooked⟩ hfits hstep
    obtain ⟨o, ho, rfl⟩ := Entrusted.exists_call_of_step hstep
    exact ⟨_, hserves.called ho, hsized.mapStep hfits,
      (hserves.holds.called ho).booked hbooked⟩
  obtain ⟨m, hserves, hsized, sl, head, spine, hprimary, hacc⟩ := hbooks
  refine ⟨received, sl, hnoted, hprimary, ?_⟩
  have hentries : contents sl.heap spine = m.entries := by
    obtain ⟨-, sl', hprimary', head', spine', wf, hm, -⟩ := hserves.holds
    obtain rfl := Option.some.inj (hprimary.symm.trans hprimary')
    rw [← hm, hacc.toWellFormed.contents_eq wf.toWellFormed]
  rw [Sized, ← hentries] at hsized
  rw [Table.memoryUsageMB, hprimary, nonNull_some, ok_bind,
    hacc.memoryUsageMB_spec hnodup hsized]

/-- Two rows are inserted and one is deleted: what is left are the head, a node
with its row info, and four bytes of a row. -/
theorem memoryUsageMB_eq_allocated_two_rows :
    ∃ s received sl, Machine.run (System.step false) keySystem
        [(0, .insertRow (keyRow 1 5) fun _ => 0),
          (1, .insertRow (keyRow 2 7) fun _ => 0),
          (1, .deleteRow 5)] = some s ∧
      s.table.primary = some sl ∧ received = [keyRow 1 5, keyRow 2 7] ∧
      allocatedBytes ⟨40, 8, 8, 40⟩ (fun row => row.bytes.length) received
        sl.heap = 2 * 56 + 40 + 4 ∧
      s.table.memoryUsageMB ⟨40, 8, 8, 40⟩ =
        .ok (.returned ((2 * 56 + 40 + 4) % 2 ^ 64 / (1024 * 1024)) sl) := by
  have hfits : ∀ e ∈ [((0 : ThreadId),
        TableCall.insertRow (keyRow 1 5) fun _ => 0),
      (1, .insertRow (keyRow 2 7) fun _ => 0), (1, .deleteRow 5)],
      ∀ row, e.2.row = some row →
        row.bytes.length = keySystem.table.schema.getTotalSize := by
    simp only [List.forall_mem_cons, TableCall.row, Option.some.injEq,
      forall_eq', List.not_mem_nil, false_imp_iff, implies_true, and_true]
    exact ⟨rfl, rfl, by simp⟩
  obtain ⟨s, sl, hrun, hprimary, hnoted, hbytes⟩ : ∃ s sl,
      Machine.run (System.step false) keySystem
        [(0, .insertRow (keyRow 1 5) fun _ => 0),
          (1, .insertRow (keyRow 2 7) fun _ => 0),
          (1, .deleteRow 5)] = some s ∧
      s.table.primary = some sl ∧
      Machine.run (Entrusted.step false) (Entrusted.initial keySystem)
        [(0, .insertRow (keyRow 1 5) fun _ => 0),
          (1, .insertRow (keyRow 2 7) fun _ => 0),
          (1, .deleteRow 5)] = some ⟨s, [keyRow 1 5, keyRow 2 7]⟩ ∧
      allocatedBytes ⟨40, 8, 8, 40⟩ (fun row => row.bytes.length)
        [keyRow 1 5, keyRow 2 7] sl.heap = 2 * 56 + 40 + 4 :=
    ⟨_, _, rfl, rfl, rfl, by decide⟩
  obtain ⟨received, sl', hnoted', hprimary', hreports⟩ :=
    memoryUsageMB_eq_allocated (keySystem_finalized false) hfits (by decide)
      hrun ⟨40, 8, 8, 40⟩
  obtain rfl := Option.some.inj (hprimary.symm.trans hprimary')
  obtain rfl : _ = received :=
    congrArg Entrusted.received (Option.some.inj (hnoted.symm.trans hnoted'))
  rw [hbytes] at hreports
  exact ⟨s, _, sl, hrun, hprimary, rfl, hbytes, hreports⟩

/-! ## Implicit transactions -/

theorem setThreadContext_twice (manager : ThreadContextManager)
    (t : ThreadId) (ctx ctx' : ThreadContext) :
    (manager.setThreadContext t ctx).setThreadContext t ctx' =
      manager.setThreadContext t ctx' := by
  simp [ThreadContextManager.setThreadContext]

theorem setThreadContext_getThreadContext (manager : ThreadContextManager)
    (t : ThreadId) (ctx : ThreadContext) :
    (manager.getThreadContext t).2.setThreadContext t ctx =
      manager.setThreadContext t ctx := by
  rw [ThreadContextManager.getThreadContext]
  cases manager.context t with
  | none => exact setThreadContext_twice ..
  | some _ => rfl

theorem getNextTransactionId_getThreadContext
    (manager : ThreadContextManager) (t : ThreadId) :
    (manager.getThreadContext t).2.getNextTransactionId =
      (manager.getNextTransactionId.1,
        (manager.getNextTransactionId.2.getThreadContext t).2) := by
  simp only [ThreadContextManager.getThreadContext,
    ThreadContextManager.getNextTransactionId,
    ThreadContextManager.nextTransactionId]
  cases manager.context t with
  | none => rfl
  | some _ => rfl

theorem newTransaction_withContext (s : System) (t : ThreadId) :
    (s.withContext t).newTransaction = s.newTransaction := by
  simp only [newTransaction, withContext,
    ThreadContextManager.getThreadContext]
  cases s.manager.context t with
  | none => rfl
  | some _ => rfl

theorem begun_withContext (s : System) (t : ThreadId) :
    (s.withContext t).begun t = s.begun t := by
  have hids := getNextTransactionId_getThreadContext s.manager t
  have hmanager : (s.withContext t).manager.getNextTransactionId.2 =
      (s.manager.getNextTransactionId.2.getThreadContext t).2 :=
    congrArg Prod.snd hids
  rw [begun, newTransaction_withContext, issued, hmanager,
    setThreadContext_getThreadContext, setThreadContext_getThreadContext,
    begun, issued, setThreadContext_getThreadContext]
  rfl

theorem operated_withContext (s : System) (t : ThreadId) (sl : PrimaryIndex)
    (transaction : Option Transaction) :
    (s.withContext t).operated t sl transaction =
      s.operated t sl transaction := by
  simp only [operated, withContext, setThreadContext_getThreadContext]

/-- A row call is its operation on the index, which reports the rows it wrote
to whatever transaction is open. -/
theorem exists_operate (ndebug : Bool) (t : ThreadId) {schema : Schema}
    {call : TableCall} (hcall : (call.operation schema).isSome) :
    ∃ operate : IndexOperation,
      (∀ s : System, s.table.schema = schema →
        s.call ndebug t call = s.rowCall ndebug t operate) ∧
      ∀ (maxNodeHeight : ℕ) (sl : PrimaryIndex)
        (m : SortedMap Int32 (RowData RowBuffer)),
        Represents maxNodeHeight sl m →
        ∃ result rows sl',
          (∀ transaction, operate sl transaction =
            .ok (.returned (result, transaction.map fun tx =>
              tx.addAffectedRows rows) sl')) ∧
          ∀ keyRowInfo ∈ rows,
            (sl'.heap.rowInfo keyRowInfo.rowInfo).isSome := by
  have hlive : ∀ {maxNodeHeight : ℕ} {sl sl' : PrimaryIndex}
      {m : SortedMap Int32 (RowData RowBuffer)} {c : Call Int32 RowBuffer}
      {result : Bool} {rows : List KeyRowInfo},
      Effect maxNodeHeight sl m c result rows sl' →
      ∀ keyRowInfo ∈ rows,
        (sl'.heap.rowInfo keyRowInfo.rowInfo).isSome := by
    intro maxNodeHeight sl sl' m c result rows heffect keyRowInfo hmem
    obtain ⟨key, -, ha⟩ := Matching.exists_left heffect.written hmem
    exact ha.live
  cases call with
  | insertRow row draw =>
      obtain ⟨operation, hoperation⟩ := Option.isSome_iff_exists.mp hcall
      obtain ⟨key, hkey, -⟩ := Option.map_eq_some_iff.mp hoperation
      have hread := eq_ok_of_toOption hkey
      refine ⟨_, fun s hs => by rw [System.call, insertRow, hs], ?_⟩
      intro maxNodeHeight sl m hrep
      obtain ⟨result, rows, sl', hall⟩ := hrep.insert_effect ndebug key
        (some row) schema.getTotalSize (Nat.zero_le _) draw
      refine ⟨result, rows, sl', fun transaction => ?_, hlive (hall none).2⟩
      rw [hread, ok_bind, (hall transaction).1]
  | updateRow key row =>
      refine ⟨_, fun s hs => by rw [System.call, updateRow, hs], ?_⟩
      intro maxNodeHeight sl m hrep
      obtain ⟨result, rows, sl', hall⟩ := hrep.update_effect ndebug key
        (some row) schema.getTotalSize
      exact ⟨result, rows, sl', fun transaction => (hall transaction).1,
        hlive (hall none).2⟩
  | deleteRow key =>
      refine ⟨_, fun s _ => by rw [System.call, deleteRow], ?_⟩
      intro maxNodeHeight sl m hrep
      obtain ⟨result, sl', hrun, heffect⟩ := hrep.remove_effect ndebug key
      refine ⟨result, [], sl', fun transaction => ?_, hlive heffect⟩
      rw [hrun]
      simp
  | beginTransaction => cases hcall
  | commit => cases hcall
  | rollback => cases hcall

/-- A row call outside of a transaction leaves everything as the same call does
inside an explicit transaction that is committed at once: rows with their
status, transaction ids and contexts. -/
theorem implicit_eq_explicit {ndebug : Bool} {s₀ s : System}
    (hfinal : s₀.Finalized ndebug) {events : List (ThreadId × TableCall)}
    (hrun : Machine.run (System.step ndebug) s₀ events = some s)
    (hclosed : s.manager.transactionOf t = none) {call : TableCall}
    (hcall : (call.operation s.table.schema).isSome) :
    ∃ result s₁ s₂ s₃,
      s.call ndebug t .beginTransaction = .ok (.returned true s₁) ∧
      s₁.call ndebug t call = .ok (.returned result s₂) ∧
      s₂.call ndebug t .commit = .ok (.returned true s₃) ∧
      s.call ndebug t call = .ok (.returned result s₃) := by
  obtain ⟨m, hs⟩ := hfinal.holds.run hrun
  obtain ⟨hschema, sl, hprimary, hrep⟩ := hs
  obtain ⟨operate, heq, hoperate⟩ := exists_operate ndebug t hcall
  obtain ⟨result, rows, sl', hoperate, hlive⟩ :=
    hoperate s.table.maxNodeHeight sl m hrep
  obtain ⟨s₃, hcommit, -⟩ := commit_operated hclosed hlive
  have hbegun : (s.begun t).manager.transactionOf t =
      some s.newTransaction := by
    rw [transactionOf_begun, Function.update_self]
  set tx := (s.withContext t).newTransaction with htx
  set s₂ := ((s.withContext t).begun t).operated t sl'
    (some (tx.addAffectedRows rows)) with hs₂
  have hinside : (s.begun t).rowCall ndebug t operate =
      .ok (.returned result s₂) := by
    have hfinalized : (s.begun t).table.schemaFinalized = true := hschema
    rw [rowCall_eq_open ndebug hfinalized hprimary operate hbegun, hoperate,
      hs₂, htx, begun_withContext, newTransaction_withContext,
      ← operated_withContext]
    rfl
  refine ⟨result, s.begun t, s₂, s₃, ?_, ?_, ?_, ?_⟩
  · rw [System.call, beginTransaction_closed hclosed]
    rfl
  · rw [heq (s.begun t) rfl, hinside]
  · rw [System.call, hcommit]
    rfl
  · rw [heq s rfl, rowCall_eq_closed ndebug hschema hprimary operate hclosed,
      hoperate]
    simp only [ok_bind, Option.map_some, ← htx, ← hs₂, hcommit, pure_eq_ok,
      Outcome.map_returned]

/-- Thread 1 inserts a row while thread 0 has a transaction open. -/
theorem implicit_eq_explicit_beside_open :
    ∃ s result s₁ s₂ s₃, Machine.run (System.step false) keySystem
        [(0, .beginTransaction)] = some s ∧
      s.call false 1 .beginTransaction = .ok (.returned true s₁) ∧
      s₁.call false 1 (.insertRow (keyRow 1 5) fun _ => 0) =
        .ok (.returned result s₂) ∧
      s₂.call false 1 .commit = .ok (.returned true s₃) ∧
      s.call false 1 (.insertRow (keyRow 1 5) fun _ => 0) =
        .ok (.returned result s₃) := by
  obtain ⟨s, hrun, hclosed, hcall⟩ : ∃ s, Machine.run (System.step false)
      keySystem [(0, .beginTransaction)] = some s ∧
      s.manager.transactionOf 1 = none ∧
      ((TableCall.insertRow (keyRow 1 5) fun _ => 0).operation
        s.table.schema).isSome := ⟨_, rfl, rfl, rfl⟩
  obtain ⟨result, s₁, s₂, s₃, hcalls⟩ :=
    implicit_eq_explicit (keySystem_finalized false) hrun hclosed hcall
  exact ⟨s, result, s₁, s₂, s₃, hrun, hcalls⟩

end System

end SquidDB.Engine
