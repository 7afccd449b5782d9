import SquidDB.Lib.Matching
import SquidDB.Core.SkipListRefinement
import SquidDB.Engine.Table

/-!
# The calls on a table

Every call is specified by what it does to the map the primary index stands
for, to the rows attached to the index, and to the open transactions.  The
calls fault only when a transaction lists a row that is gone.
-/

namespace SquidDB.Engine

open Checked SquidDB.Core SquidDB.Storage

section Listed

variable {K : Type} {attached : K → RowInfoRef → Prop} {keys : List K}
  {rows : List KeyRowInfo} {key : K} {r : RowInfoRef}

/-- Of rows that determine their keys, those listed with some keys are the
rows of these keys. -/
theorem mem_rows_iff_exists
    (hinj : ∀ {key key' : K} {r r' : RowInfoRef}, attached key r →
      attached key' r' → (key = key' ↔ r = r'))
    (hrows : List.Forall₂
      (fun key keyRowInfo => attached key keyRowInfo.rowInfo) keys rows) :
    r ∈ rows.map KeyRowInfo.rowInfo ↔ ∃ key ∈ keys, attached key r := by
  constructor
  · intro hmem
    obtain ⟨keyRowInfo, hlisted, rfl⟩ := List.mem_map.mp hmem
    exact Matching.exists_left hrows hlisted
  · rintro ⟨key, hkey, ha⟩
    obtain ⟨keyRowInfo, hlisted, ha'⟩ := Matching.exists_right hrows hkey
    rw [(hinj ha ha').mp rfl]
    exact List.mem_map_of_mem hlisted

theorem mem_rows_iff
    (hinj : ∀ {key key' : K} {r r' : RowInfoRef}, attached key r →
      attached key' r' → (key = key' ↔ r = r'))
    (hrows : List.Forall₂
      (fun key keyRowInfo => attached key keyRowInfo.rowInfo) keys rows)
    (ha : attached key r) :
    r ∈ rows.map KeyRowInfo.rowInfo ↔ key ∈ keys := by
  rw [mem_rows_iff_exists hinj hrows]
  constructor
  · rintro ⟨key', hkey', ha'⟩
    rwa [(hinj ha ha').mpr rfl]
  · exact fun hkey => ⟨key, hkey, ha⟩

end Listed

/-! ## Marking rows -/

section Marks

variable {K D : Type}

/-- The memory after the listed rows have got a status. -/
def markedHeap (h : Heap K D) (status : Status) (rows : List KeyRowInfo) :
    Heap K D :=
  { h with rowInfo := fun r => (h.rowInfo r).map fun info =>
      if r ∈ rows.map KeyRowInfo.rowInfo then { info with status := status }
      else info }

/-- `setStatuses` goes through exactly when every listed row is live. -/
theorem setStatuses_eq (status : Status) (rows : List KeyRowInfo)
    (h : Heap K D) :
    Table.setStatuses status rows h =
      if ∀ keyRowInfo ∈ rows, (h.rowInfo keyRowInfo.rowInfo).isSome then
        .ok (markedHeap h status rows)
      else .error .danglingPointer := by
  induction rows generalizing h with
  | nil => simp [Table.setStatuses, markedHeap]
  | cons keyRowInfo rows ih =>
      rcases hinfo : h.rowInfo keyRowInfo.rowInfo with _ | info
      · simp [Table.setStatuses, Heap.setStatus, Heap.modifyRowInfo,
          load_of_eq_none hinfo, hinfo]
      · have hset := Heap.modifyRowInfo_of_rowInfo hinfo
          fun info => { info with status := status }
        rw [Table.setStatuses, Heap.setStatus, hset, ok_bind, ih]
        have hlive : ∀ r, (Function.update h.rowInfo keyRowInfo.rowInfo
            (some { info with status := status }) r).isSome =
            (h.rowInfo r).isSome := by
          intro r
          by_cases hr : r = keyRowInfo.rowInfo
          · simp [hr, hinfo]
          · simp [hr]
        simp only [hlive, List.forall_mem_cons, hinfo, Option.isSome_some,
          true_and]
        refine if_congr Iff.rfl (congrArg _ ?_) rfl
        simp only [markedHeap, Heap.mk.injEq, true_and, and_true]
        funext r
        by_cases hr : r = keyRowInfo.rowInfo
        · subst hr
          simp [hinfo]
        · simp [hr]

/-- The list with marked rows. -/
def markedList (sl : SkipList K D) (status : Status)
    (rows : List KeyRowInfo) : SkipList K D :=
  { sl with heap := markedHeap sl.heap status rows }

theorem markedList_nil (sl : SkipList K D) (status : Status) :
    markedList sl status [] = sl := by
  simp [markedList, markedHeap]

theorem contents_marked (h : Heap K D) (status : Status)
    (rows : List KeyRowInfo) (spine : List (Entry K)) :
    contents (markedHeap h status rows) spine = contents h spine := by
  apply List.map_congr_left
  intro e _
  rw [Heap.dataOf, Heap.dataOf, Heap.rowOf, Heap.rowOf]
  rcases e.node.rowInfo with _ | r
  · rfl
  · rcases hinfo : h.rowInfo r with _ | info
    · simp [markedHeap, hinfo]
    · simp only [Option.bind_some, markedHeap, hinfo, Option.map_some,
        Option.elim_some]
      split <;> rfl

theorem statusOf_marked (sl : SkipList K D) (status : Status)
    (rows : List KeyRowInfo) (r : RowInfoRef) :
    (markedList sl status rows).statusOf r =
      if r ∈ rows.map KeyRowInfo.rowInfo then
        (sl.statusOf r).map fun _ => status
      else sl.statusOf r := by
  simp only [SkipList.statusOf, markedList, markedHeap, Option.map_map]
  split
  · rfl
  · rfl

variable [LinearOrder K] {sl : SkipList K D}

theorem marked_wellFormed {head : Entry K} {spine : List (Entry K)}
    (wf : PrimaryWellFormed sl head spine) (status : Status)
    (rows : List KeyRowInfo) :
    PrimaryWellFormed (markedList sl status rows) head spine := by
  refine ⟨wf.toWellFormed.withRows rfl rfl rfl rfl ⟨?_, wf.rows.distinct,
    ?_, ?_⟩, wf.primary, wf.strict, wf.full⟩
  · intro e he
    obtain ⟨r, info, hr, hinfo, hnext⟩ := wf.rows.exists_row he
    refine ⟨_, by simp [Heap.rowOf, hr, markedHeap, hinfo]; rfl, ?_⟩
    split
    · exact hnext
    · exact hnext
  · intro r hr
    simp [markedHeap, wf.rows.allocated r hr]
  · intro r info hinfo
    obtain ⟨info₀, hinfo₀, -⟩ := Option.map_eq_some_iff.mp hinfo
    exact wf.rows.owned r info₀ hinfo₀

theorem represents_marked {maxNodeHeight : ℕ} {m : SortedMap K (RowData D)}
    (hrep : Represents maxNodeHeight sl m) (status : Status)
    (rows : List KeyRowInfo) :
    Represents maxNodeHeight (markedList sl status rows) m := by
  obtain ⟨head, spine, wf, hm, hmax⟩ := hrep
  refine ⟨head, spine, marked_wellFormed wf status rows, ?_, hmax⟩
  rw [markedList, contents_marked, hm]

theorem attached_marked {maxNodeHeight : ℕ} {m : SortedMap K (RowData D)}
    (hrep : Represents maxNodeHeight sl m) (status : Status)
    (rows : List KeyRowInfo) {key : K} {r : RowInfoRef} :
    (markedList sl status rows).Attached key r ↔ sl.Attached key r := by
  obtain ⟨head, spine, wf, -, -⟩ := hrep
  rw [(marked_wellFormed wf status rows).attached_iff, wf.attached_iff]

end Marks

/-! ## The state of a table -/

namespace System

/-- The table is finalized and its index stands for the map. -/
def Holds (s : System) (m : SortedMap Int32 (RowData RowBuffer)) : Prop :=
  s.table.schemaFinalized = true ∧ ∃ sl, s.table.primary = some sl ∧
    Represents s.table.maxNodeHeight sl m

/-- The row is attached to a node of the index with the key, and live. -/
def Attached (s : System) (key : Int32) (r : RowInfoRef) : Prop :=
  ∃ sl, s.table.primary = some sl ∧ sl.Attached key r

/-- The status of a live row. -/
def statusOf (s : System) (r : RowInfoRef) : Option Status :=
  s.table.primary.bind fun sl => (sl.heap.rowInfo r).map RowInfo.status

variable {s s' : System} {m : SortedMap Int32 (RowData RowBuffer)}
  {t : ThreadId} {tx : Transaction}

/-- A state with the same table. -/
theorem Holds.congr (hs : s.Holds m) (htable : s'.table = s.table) :
    s'.Holds m := by
  rw [Holds, htable]
  exact hs

theorem Attached.congr {key : Int32} {r : RowInfoRef}
    (ha : s.Attached key r) (htable : s'.table = s.table) :
    s'.Attached key r := by
  rw [Attached, htable]
  exact ha

/-! ## Transactions -/

/-- The transaction `beginTransaction` opens. -/
def newTransaction (s : System) : Transaction :=
  Transaction.new s.manager.nextTransactionId
    (computeViewpoint s.manager.getNextTransactionId.2
      s.manager.nextTransactionId) .repeatableRead

/-- The state in which `beginTransaction` asks for the context. -/
def issued (s : System) (t : ThreadId) : System :=
  ⟨s.table, (s.manager.getNextTransactionId.2.getThreadContext t).2⟩

/-- The state after `beginTransaction`. -/
def begun (s : System) (t : ThreadId) : System :=
  ⟨s.table,
    (s.issued t).manager.setThreadContext t ⟨some s.newTransaction⟩⟩

@[simp] theorem transactionOf_issued :
    (s.issued t).manager.transactionOf = s.manager.transactionOf := by
  simp [issued]

@[simp] theorem transactionOf_begun :
    (s.begun t).manager.transactionOf =
      Function.update s.manager.transactionOf t (some s.newTransaction) := by
  rw [begun, ThreadContextManager.transactionOf_setThreadContext,
    transactionOf_issued]

/-- A thread without a transaction opens one that has affected no row. -/
theorem beginTransaction_closed (hclosed : s.manager.transactionOf t = none) :
    s.beginTransaction t = .returned () (s.begun t) := by
  have hctx : (s.manager.getNextTransactionId.2.getThreadContext t).1 =
      ⟨none⟩ := ThreadContextManager.getThreadContext_fst hclosed
  simp only [System.beginTransaction, Engine.beginTransaction,
    openTransaction, hctx, ThreadContext.beginTransaction,
    Option.isSome_none, Bool.false_eq_true, if_false]
  rfl

theorem beginTransaction_open (hopen : s.manager.transactionOf t = some tx) :
    s.beginTransaction t =
      .thrown "ThreadContext::beginTransaction transaction is not null"
        (s.issued t) := by
  have hctx : (s.manager.getNextTransactionId.2.getThreadContext t).1 =
      ⟨some tx⟩ := ThreadContextManager.getThreadContext_fst hopen
  simp only [System.beginTransaction, Engine.beginTransaction,
    openTransaction, hctx, ThreadContext.beginTransaction,
    Option.isSome_some, if_true]
  rfl

/-- The state after `commit` or `rollback`. -/
def ended (s : System) (t : ThreadId) (status : Status) (tx : Transaction)
    (sl : PrimaryIndex) : System where
  table := { s.table with
    primary := some (markedList sl status tx.getAffectedRows) }
  manager := ((s.manager.getThreadContext t).2.setThreadContext t
    ⟨none⟩).removeTransactionActive tx.transactionId

@[simp] theorem transactionOf_ended (status : Status) (sl : PrimaryIndex) :
    (s.ended t status tx sl).manager.transactionOf =
      Function.update s.manager.transactionOf t none := by
  simp [ended]

/-- The way in which `commit` and `rollback` let go of the transaction. -/
def Leaves (leave : ThreadContext → Outcome ThreadContext Unit) : Prop :=
  ∀ ctx, ctx.transaction.isSome → leave ctx = .returned () ⟨none⟩

theorem leaves_committed : Leaves ThreadContext.committed := by
  intro ctx hctx
  simp [ThreadContext.committed, Option.isSome_iff_ne_none.mp hctx]

theorem leaves_aborted : Leaves ThreadContext.aborted := by
  intro ctx hctx
  simp [ThreadContext.aborted, Option.isSome_iff_ne_none.mp hctx]

/-- `commit` and `rollback` go through exactly when all the rows the
transaction lists are live. -/
theorem endTransaction_eq {sl : PrimaryIndex}
    (hprimary : s.table.primary = some sl)
    (hopen : s.manager.transactionOf t = some tx) (status : Status)
    {leave : ThreadContext → Outcome ThreadContext Unit}
    (hleave : Leaves leave) :
    s.endTransaction t status leave =
      if ∀ keyRowInfo ∈ tx.getAffectedRows,
          (sl.heap.rowInfo keyRowInfo.rowInfo).isSome then
        .ok (.returned () (s.ended t status tx sl))
      else .error .danglingPointer := by
  have hctx := ThreadContextManager.getThreadContext_fst hopen
  simp only [endTransaction, hctx, ThreadContext.getTransaction,
    nonNull_some, ok_bind, Table.markRows, hprimary, setStatuses_eq]
  split
  · simp only [ok_bind, pure_eq_ok, hleave ⟨some tx⟩ rfl]
    rfl
  · rfl

theorem endTransaction_closed (hclosed : s.manager.transactionOf t = none)
    (status : Status) (leave : ThreadContext → Outcome ThreadContext Unit) :
    s.endTransaction t status leave = .error .nullPointer := by
  have hctx := ThreadContextManager.getThreadContext_fst hclosed
  simp [endTransaction, hctx, ThreadContext.getTransaction]

/-- Ending a transaction keeps the map. -/
theorem Holds.ended (hs : s.Holds m) {sl : PrimaryIndex}
    (hprimary : s.table.primary = some sl) (status : Status) :
    (s.ended t status tx sl).Holds m := by
  obtain ⟨hfinal, sl', hprimary', hrep⟩ := hs
  rw [hprimary, Option.some.injEq] at hprimary'
  subst hprimary'
  exact ⟨hfinal, _, rfl, represents_marked hrep status _⟩

theorem attached_ended (hs : s.Holds m) {sl : PrimaryIndex}
    (hprimary : s.table.primary = some sl) (status : Status) {key : Int32}
    {r : RowInfoRef} :
    (s.ended t status tx sl).Attached key r ↔ s.Attached key r := by
  obtain ⟨-, sl', hprimary', hrep⟩ := hs
  rw [hprimary, Option.some.injEq] at hprimary'
  subst hprimary'
  have hmarked : (markedList sl status tx.getAffectedRows).Attached key r ↔
      sl.Attached key r := attached_marked hrep status _
  simp only [Attached, ended, hprimary, Option.some.injEq, exists_eq_left',
    hmarked]

/-- The rows a transaction lists get the status it ended with, and the other
rows keep theirs. -/
theorem statusOf_ended {sl : PrimaryIndex}
    (hprimary : s.table.primary = some sl) (status : Status)
    (r : RowInfoRef) :
    (s.ended t status tx sl).statusOf r =
      if r ∈ tx.getAffectedRows.map KeyRowInfo.rowInfo then
        (s.statusOf r).map fun _ => status
      else s.statusOf r := by
  rw [statusOf, statusOf, hprimary]
  exact statusOf_marked sl status tx.getAffectedRows r

/-! ## Row calls -/

/-- The state in which a row call asks for the transaction. -/
def withContext (s : System) (t : ThreadId) : System :=
  ⟨s.table, (s.manager.getThreadContext t).2⟩

/-- The state after the operation of a row call. -/
def operated (s : System) (t : ThreadId) (sl : PrimaryIndex)
    (transaction : Option Transaction) : System :=
  ⟨{ s.table with primary := some sl },
    (s.withContext t).manager.setThreadContext t ⟨transaction⟩⟩

@[simp] theorem transactionOf_withContext :
    (s.withContext t).manager.transactionOf = s.manager.transactionOf := by
  simp [withContext]

@[simp] theorem transactionOf_operated (sl : PrimaryIndex)
    (transaction : Option Transaction) :
    (s.operated t sl transaction).manager.transactionOf =
      Function.update s.manager.transactionOf t transaction := by
  simp [operated]

section RowCall

variable {sl sl' : PrimaryIndex} {operate : IndexOperation} {result : Bool}
  {rows : List KeyRowInfo}

theorem rowCall_eq_open (ndebug : Bool)
    (hfinal : s.table.schemaFinalized = true)
    (hprimary : s.table.primary = some sl) (operate : IndexOperation)
    (hopen : s.manager.transactionOf t = some tx) :
    s.rowCall ndebug t operate = (do
      match ← operate sl (some tx) with
      | .thrown message primary =>
          pure (.thrown message
            ⟨{ s.table with primary := some primary },
              ((s.withContext t).withContext t).manager⟩)
      | .returned (result, transaction) primary =>
          pure (.returned result
            ((s.withContext t).operated t primary transaction))) := by
  have hassert : assert ndebug
      (.ok (s.table.schemaFinalized && s.table.primary.isSome)) = .ok () := by
    simp [hfinal, hprimary]
  have hctx := ThreadContextManager.getThreadContext_fst hopen
  have hctx' : ((s.withContext t).manager.getThreadContext t).1 =
      ⟨some tx⟩ := ThreadContextManager.getThreadContext_fst
    ((congrFun transactionOf_withContext t).trans hopen)
  rw [rowCall, hassert, ok_bind]
  simp only [hctx]
  change (nonNull (s.withContext t).table.primary >>= _) = _
  simp only [withContext] at hctx'
  simp only [withContext, hprimary, nonNull_some, ok_bind, hctx',
    ThreadContext.getTransaction]
  rfl

/-- A row call without an open transaction, up to its operation: it opens one
of its own. -/
theorem rowCall_eq_closed (ndebug : Bool)
    (hfinal : s.table.schemaFinalized = true)
    (hprimary : s.table.primary = some sl) (operate : IndexOperation)
    (hclosed : s.manager.transactionOf t = none) :
    s.rowCall ndebug t operate = (do
      match ← operate sl (some (s.withContext t).newTransaction) with
      | .thrown message primary =>
          pure (.thrown message
            ⟨{ s.table with primary := some primary },
              (((s.withContext t).begun t).withContext t).manager⟩)
      | .returned (result, transaction) primary =>
          let o ← (((s.withContext t).begun t).operated t primary
            transaction).commit t
          pure (o.map fun _ => result)) := by
  have hassert : assert ndebug
      (.ok (s.table.schemaFinalized && s.table.primary.isSome)) = .ok () := by
    simp [hfinal, hprimary]
  have hctx := ThreadContextManager.getThreadContext_fst hclosed
  have hbegin : System.beginTransaction
      ⟨s.table, (s.manager.getThreadContext t).2⟩ t =
      .returned () ((s.withContext t).begun t) :=
    beginTransaction_closed
      ((congrFun transactionOf_withContext t).trans hclosed)
  have htxs := transactionOf_begun (s := s.withContext t) (t := t)
  set s₁ := (s.withContext t).begun t
  have hctx₁ := ThreadContextManager.getThreadContext_fst
    ((congrFun htxs t).trans (Function.update_self ..))
  have hprimary₁ : s₁.table.primary = some sl := hprimary
  rw [rowCall, hassert, ok_bind]
  simp only [hctx, ThreadContext.getTransaction, Option.isNone_none,
    if_true, hbegin, hprimary₁, nonNull_some, ok_bind, hctx₁]
  rfl

theorem commit_operated (hclosed : s.manager.transactionOf t = none)
    (hlive : ∀ keyRowInfo ∈ rows,
      (sl.heap.rowInfo keyRowInfo.rowInfo).isSome) :
    ∃ s', (((s.withContext t).begun t).operated t sl (some
        ((s.withContext t).newTransaction.addAffectedRows rows))).commit t =
        .ok (.returned () s') ∧
      s'.table = { s.table with
        primary := some (markedList sl .committed rows) } ∧
      s'.manager.transactionOf = s.manager.transactionOf := by
  have htxs := transactionOf_begun (s := s.withContext t) (t := t)
  rw [transactionOf_withContext] at htxs
  set tx := (s.withContext t).newTransaction
  set s₁ := (s.withContext t).begun t
  have hrows : (tx.addAffectedRows rows).getAffectedRows = rows := rfl
  have htxs' : (s₁.operated t sl
      (some (tx.addAffectedRows rows))).manager.transactionOf =
      Function.update s₁.manager.transactionOf t
        (some (tx.addAffectedRows rows)) := transactionOf_operated ..
  have hprimary : (s₁.operated t sl
      (some (tx.addAffectedRows rows))).table.primary = some sl := rfl
  have hend := endTransaction_eq hprimary
    ((congrFun htxs' t).trans (Function.update_self ..)) .committed
    leaves_committed
  rw [hrows, if_pos hlive] at hend
  refine ⟨_, hend, ?_, ?_⟩
  · rw [ended, hrows]
    rfl
  · rw [transactionOf_ended, htxs', htxs]
    simp [hclosed]

theorem rowCall_fault (ndebug : Bool)
    (hfinal : s.table.schemaFinalized = true)
    (hprimary : s.table.primary = some sl) {fault : Fault}
    (hoperate : ∀ transaction, operate sl transaction = .error fault)
    (t : ThreadId) : s.rowCall ndebug t operate = .error fault := by
  rcases hopen : s.manager.transactionOf t with _ | tx
  · rw [rowCall_eq_closed ndebug hfinal hprimary operate hopen, hoperate]
    rfl
  · rw [rowCall_eq_open ndebug hfinal hprimary operate hopen, hoperate]
    rfl

end RowCall

/-- What a row call does whose operation on the index is `c`. -/
structure RowCalled (s : System) (m : SortedMap Int32 (RowData RowBuffer))
    (t : ThreadId) (c : Call Int32 RowBuffer) (result : Bool)
    (s' : System) : Prop where
  returns : (mapCall s.table.maxNodeHeight m c).1 = .ok result
  table : s'.table = { s.table with primary := s'.table.primary }
  holds : s'.Holds (mapCall s.table.maxNodeHeight m c).2
  recorded : ∃ rows,
    List.Forall₂ (fun key keyRowInfo => s'.Attached key keyRowInfo.rowInfo)
      (c.writes result) rows ∧
    s'.manager.transactionOf = Function.update s.manager.transactionOf t
      ((s.manager.transactionOf t).map fun tx => tx.addAffectedRows rows)
  persists : ∀ key r, s.Attached key r → c ≠ .remove key →
    s'.Attached key r
  /-- A call without an open transaction commits what it has written. -/
  committed : s.manager.transactionOf t = none → ∀ key ∈ c.writes result,
    ∀ r, s'.Attached key r → s'.statusOf r = some .committed
  /-- Any other row keeps its status, or is the row of a new key. -/
  carried : ∀ key r, s'.Attached key r →
    (s.manager.transactionOf t).isSome ∨ key ∉ c.writes result →
    s.Attached key r ∧ s'.statusOf r = s.statusOf r ∨
    key ∈ c.writes result ∧ (∀ r', ¬s.Attached key r') ∧
      s'.statusOf r = some .none
  /-- The index is as the operation leaves it, up to the status of rows. -/
  index : ∃ ndebug sl sl' rows, s.table.primary = some sl ∧
    sl.call ndebug c = .ok (.returned result sl') ∧
    s'.table.primary = some (markedList sl' .committed rows)

section Effects

variable {sl sl' : PrimaryIndex} {c : Call Int32 RowBuffer} {result : Bool}
  {rows : List KeyRowInfo} {key : Int32} {r : RowInfoRef} {ndebug : Bool}

theorem rows_live
    (heffect : Effect s.table.maxNodeHeight sl m c result rows sl') :
    ∀ keyRowInfo ∈ rows,
      (sl'.heap.rowInfo keyRowInfo.rowInfo).isSome := by
  intro keyRowInfo hmem
  obtain ⟨key, -, ha⟩ := Matching.exists_left heffect.written hmem
  exact ha.live

theorem attached_persists (hprimary : s.table.primary = some sl)
    (heffect : Effect s.table.maxNodeHeight sl m c result rows sl')
    (ha : s.Attached key r) (hne : c ≠ .remove key) :
    sl'.Attached key r := by
  obtain ⟨sl₀, hprimary₀, ha⟩ := ha
  rw [hprimary, Option.some.injEq] at hprimary₀
  subst hprimary₀
  exact heffect.persists key r ha hne

theorem attached_carried (hprimary : s.table.primary = some sl)
    (heffect : Effect s.table.maxNodeHeight sl m c result rows sl')
    (ha : sl'.Attached key r) (hstatus : s'.statusOf r = sl'.statusOf r) :
    s.Attached key r ∧ s'.statusOf r = s.statusOf r ∨
    key ∈ c.writes result ∧ (∀ r', ¬s.Attached key r') ∧
      s'.statusOf r = some .none := by
  rw [hstatus]
  rcases heffect.carried key r ha with ⟨ha, hsame⟩ | ⟨hnew, hfresh, hnone⟩
  · have hkept : sl.statusOf r = s.statusOf r := by
      rw [statusOf, hprimary]
      rfl
    exact Or.inl ⟨⟨sl, hprimary, ha⟩, hsame.trans hkept⟩
  · refine Or.inr ⟨hnew, ?_, hnone⟩
    rintro r' ⟨sl₀, hprimary₀, ha'⟩
    rw [hprimary, Option.some.injEq] at hprimary₀
    exact hfresh r' (hprimary₀ ▸ ha')

theorem Holds.rowCalled_open (hs : s.Holds m)
    (hprimary : s.table.primary = some sl)
    (heffect : Effect s.table.maxNodeHeight sl m c result rows sl')
    (hcall : sl.call ndebug c = .ok (.returned result sl'))
    (hopen : s.manager.transactionOf t = some tx) :
    s.RowCalled m t c result
      ((s.withContext t).operated t sl' (some (tx.addAffectedRows rows))) where
  returns := heffect.returns
  table := rfl
  holds := ⟨hs.1, sl', rfl, heffect.represents⟩
  recorded := by
    refine ⟨rows, heffect.written.imp fun _ _ ha => ⟨sl', rfl, ha⟩, ?_⟩
    rw [transactionOf_operated, transactionOf_withContext, hopen,
      Option.map_some]
  persists key r ha hne :=
    ⟨sl', rfl, attached_persists hprimary heffect ha hne⟩
  committed hclosed := by cases hopen.symm.trans hclosed
  carried := by
    rintro key r ⟨sl₀, hprimary₀, ha⟩ -
    obtain rfl : sl' = sl₀ := Option.some.inj hprimary₀
    exact attached_carried hprimary heffect ha rfl
  index := ⟨ndebug, sl, sl', [], hprimary, hcall, by
    rw [markedList_nil]
    rfl⟩

/-- A row call without a transaction leaves the rows it wrote committed. -/
theorem Holds.rowCalled_closed (hs : s.Holds m)
    (hprimary : s.table.primary = some sl)
    (heffect : Effect s.table.maxNodeHeight sl m c result rows sl')
    (hcall : sl.call ndebug c = .ok (.returned result sl'))
    (hclosed : s.manager.transactionOf t = none)
    (htable : s'.table = { s.table with
      primary := some (markedList sl' .committed rows) })
    (htxs : s'.manager.transactionOf = s.manager.transactionOf) :
    s.RowCalled m t c result s' := by
  have hattached : ∀ {key r}, s'.Attached key r ↔ sl'.Attached key r := by
    intro key r
    rw [← attached_marked heffect.represents .committed rows, Attached,
      htable]
    simp
  have hstatus : ∀ {key r}, sl'.Attached key r → s'.statusOf r =
      if key ∈ c.writes result then (sl'.statusOf r).map fun _ => .committed
      else sl'.statusOf r := by
    intro key r ha
    have hmem : r ∈ rows.map KeyRowInfo.rowInfo ↔ key ∈ c.writes result :=
      mem_rows_iff heffect.represents.attached_inj heffect.written ha
    rw [← if_congr hmem rfl rfl, ← statusOf_marked, statusOf, htable]
    rfl
  constructor
  case returns => exact heffect.returns
  case table => rw [htable]
  case holds =>
    refine ⟨by rw [htable]; exact hs.1, _, by rw [htable], ?_⟩
    rw [htable]
    exact represents_marked heffect.represents .committed rows
  case recorded =>
    refine ⟨rows, heffect.written.imp fun _ _ ha => hattached.mpr ha, ?_⟩
    rw [htxs, hclosed, Option.map_none, ← hclosed, Function.update_eq_self]
  case persists =>
    intro key r ha hne
    exact hattached.mpr (attached_persists hprimary heffect ha hne)
  case committed =>
    intro _ key hkey r ha
    obtain ⟨info, hinfo⟩ :=
      Option.isSome_iff_exists.mp (hattached.mp ha).live
    rw [hstatus (hattached.mp ha), if_pos hkey, SkipList.statusOf, hinfo]
    rfl
  case carried =>
    intro key r ha hcases
    have hkey : key ∉ c.writes result := by simpa [hclosed] using hcases
    apply attached_carried hprimary heffect (hattached.mp ha)
    rw [hstatus (hattached.mp ha), if_neg hkey]
  case index => exact ⟨ndebug, sl, sl', rows, hprimary, hcall, by rw [htable]⟩

end Effects

/-- An operation that goes through on the index goes through as a row
call. -/
theorem Holds.rowCall (hs : s.Holds m) (ndebug : Bool) (t : ThreadId)
    {operate : IndexOperation} {c : Call Int32 RowBuffer}
    (hoperate : ∀ sl, s.table.primary = some sl →
      Represents s.table.maxNodeHeight sl m →
      ∃ result rows sl',
        (∀ transaction, operate sl transaction =
          .ok (.returned (result, transaction.map fun tx =>
            tx.addAffectedRows rows) sl')) ∧
        Effect s.table.maxNodeHeight sl m c result rows sl' ∧
        sl.call ndebug c = .ok (.returned result sl')) :
    ∃ result s', s.rowCall ndebug t operate = .ok (.returned result s') ∧
      s.RowCalled m t c result s' := by
  obtain ⟨hfinal, sl, hprimary, hrep⟩ := id hs
  obtain ⟨result, rows, sl', hoperate, heffect, hcall⟩ :=
    hoperate sl hprimary hrep
  rcases hopen : s.manager.transactionOf t with _ | tx
  · obtain ⟨s', hcommit, htable, htxs⟩ :=
      commit_operated hopen (rows_live heffect)
    refine ⟨result, s', ?_,
      hs.rowCalled_closed hprimary heffect hcall hopen htable htxs⟩
    rw [rowCall_eq_closed ndebug hfinal hprimary operate hopen, hoperate,
      ok_bind]
    simp only [Option.map_some, hcommit, ok_bind, pure_eq_ok,
      Outcome.map_returned]
  · refine ⟨result, _, ?_,
      hs.rowCalled_open hprimary heffect hcall hopen⟩
    rw [rowCall_eq_open ndebug hfinal hprimary operate hopen, hoperate]
    rfl

end System

/-! ## Whole calls -/

/-- The operation on the index behind a row call; none when the call is not a
row call, or the row has no key. -/
def TableCall.operation (schema : Schema) :
    TableCall → Option (Call Int32 RowBuffer)
  | .insertRow row draw =>
      (row.readInt32 schema.getPrimaryOffset).toOption.map fun key =>
        .insert key (some row) schema.getTotalSize 0 draw none
  | .updateRow key row =>
      some (.update key (some row) schema.getTotalSize none)
  | .deleteRow key => some (.remove key)
  | .beginTransaction | .commit | .rollback => none

namespace System

variable {s s' : System} {m : SortedMap Int32 (RowData RowBuffer)}
  {t : ThreadId} {tx : Transaction}

/-- Every row call goes through, except an insertion of a row that is too
short to have a key. -/
theorem Holds.call_row (hs : s.Holds m) (ndebug : Bool) (t : ThreadId)
    {call : TableCall} {c : Call Int32 RowBuffer}
    (hc : call.operation s.table.schema = some c) :
    ∃ result s', s.call ndebug t call = .ok (.returned result s') ∧
      s.RowCalled m t c result s' := by
  cases call with
  | insertRow row draw =>
      obtain ⟨key, hkey, rfl⟩ := Option.map_eq_some_iff.mp hc
      have hread : row.readInt32 s.table.schema.getPrimaryOffset =
          .ok key := eq_ok_of_toOption hkey
      simp only [call, insertRow]
      apply hs.rowCall ndebug t
      intro sl _ hrep
      obtain ⟨result, rows, sl', hall⟩ := hrep.insert_effect ndebug key
        (some row) s.table.schema.getTotalSize (Nat.zero_le _) draw
      refine ⟨result, rows, sl', fun transaction => ?_, (hall none).2, ?_⟩
      · rw [hread, ok_bind, (hall transaction).1]
      · rw [SkipList.call, (hall none).1]
        rfl
  | updateRow key row =>
      obtain rfl := Option.some.inj hc
      apply hs.rowCall ndebug t
      intro sl _ hrep
      obtain ⟨result, rows, sl', hall⟩ := hrep.update_effect ndebug key
        (some row) s.table.schema.getTotalSize
      refine ⟨result, rows, sl', fun transaction => (hall transaction).1,
        (hall none).2, ?_⟩
      rw [SkipList.call, (hall none).1]
      rfl
  | deleteRow key =>
      obtain rfl := Option.some.inj hc
      simp only [call, deleteRow]
      apply hs.rowCall ndebug t
      intro sl _ hrep
      obtain ⟨result, sl', hrun, heffect⟩ := hrep.remove_effect ndebug key
      refine ⟨result, [], sl', fun transaction => ?_, heffect, hrun⟩
      rw [hrun]
      simp
  | beginTransaction => cases hc
  | commit => cases hc
  | rollback => cases hc

/-- The ways in which a call on a table that stands for a map can end. -/
inductive Called (s : System) (m : SortedMap Int32 (RowData RowBuffer))
    (t : ThreadId) : TableCall → Outcome System Bool → Prop where
  | begun (hclosed : s.manager.transactionOf t = none) :
      Called s m t .beginTransaction (.returned true (s.begun t))
  | refused (message : String)
      (hopen : (s.manager.transactionOf t).isSome) :
      Called s m t .beginTransaction (.thrown message (s.issued t))
  | ended {call : TableCall} {status : Status} {tx : Transaction}
      {sl : PrimaryIndex}
      (hcall : call = .commit ∧ status = .committed ∨
        call = .rollback ∧ status = .aborted)
      (hopen : s.manager.transactionOf t = some tx)
      (hprimary : s.table.primary = some sl) :
      Called s m t call (.returned true (s.ended t status tx sl))
  | row {call : TableCall} {c : Call Int32 RowBuffer} {result : Bool}
      {s' : System} (hc : call.operation s.table.schema = some c)
      (hrow : s.RowCalled m t c result s') :
      Called s m t call (.returned result s')

/-- A call that does not fault ends in one of these ways. -/
theorem Holds.called (hs : s.Holds m) {ndebug : Bool} {call : TableCall}
    {o : Outcome System Bool} (hrun : s.call ndebug t call = .ok o) :
    Called s m t call o := by
  obtain ⟨hfinal, sl, hprimary, -⟩ := id hs
  have hend : ∀ {status leave}, Leaves leave →
      (call = .commit ∧ status = .committed ∨
        call = .rollback ∧ status = .aborted) →
      (s.endTransaction t status leave >>= fun o =>
        pure (o.map fun _ => true)) = .ok o → Called s m t call o := by
    intro status leave hleave hcall hrun
    rcases hopen : s.manager.transactionOf t with _ | tx
    · rw [endTransaction_closed hopen] at hrun
      cases hrun
    · rw [endTransaction_eq hprimary hopen status hleave] at hrun
      split at hrun
      · obtain rfl := Except.ok.inj hrun
        exact .ended hcall hopen hprimary
      · cases hrun
  have hrow : ∀ {c}, call.operation s.table.schema = some c →
      Called s m t call o := by
    intro c hc
    obtain ⟨result, s', hrun', hrow⟩ := hs.call_row ndebug t hc
    obtain rfl := Except.ok.inj (hrun'.symm.trans hrun)
    exact .row hc hrow
  cases call with
  | beginTransaction =>
      rcases hopen : s.manager.transactionOf t with _ | tx
      · rw [System.call, beginTransaction_closed hopen] at hrun
        obtain rfl := Except.ok.inj hrun
        exact .begun hopen
      · rw [System.call, beginTransaction_open hopen] at hrun
        obtain rfl := Except.ok.inj hrun
        exact .refused _ (by simp [hopen])
  | commit => exact hend leaves_committed (Or.inl ⟨rfl, rfl⟩) hrun
  | rollback => exact hend leaves_aborted (Or.inr ⟨rfl, rfl⟩) hrun
  | insertRow row draw =>
      cases hkey : row.readInt32 s.table.schema.getPrimaryOffset with
      | ok key => exact hrow (by rw [TableCall.operation, hkey]; rfl)
      | error fault =>
          have hfault : s.insertRow ndebug t row draw = .error fault := by
            simp only [insertRow]
            refine rowCall_fault ndebug hfinal hprimary ?_ t
            intro transaction
            rw [hkey, error_bind]
          rw [System.call, hfault] at hrun
          cases hrun
  | updateRow key row => exact hrow rfl
  | deleteRow key => exact hrow rfl

/-- The map after a call. -/
def mapStep (table : Table) (m : SortedMap Int32 (RowData RowBuffer))
    (call : TableCall) : SortedMap Int32 (RowData RowBuffer) :=
  (call.operation table.schema).elim m fun c =>
    (mapCall table.maxNodeHeight m c).2

/-- The table after a call stands for the map after it. -/
theorem Called.holds {call : TableCall} {o : Outcome System Bool}
    (h : Called s m t call o) (hs : s.Holds m) :
    o.state.Holds (mapStep s.table m call) ∧
      o.state.table =
        { s.table with primary := o.state.table.primary } := by
  cases h with
  | begun hclosed => exact ⟨hs.congr rfl, rfl⟩
  | refused message hopen => exact ⟨hs.congr rfl, rfl⟩
  | ended hcall hopen hprimary =>
      refine ⟨?_, rfl⟩
      have hnone : call.operation s.table.schema = none := by
        rcases hcall with ⟨rfl, -⟩ | ⟨rfl, -⟩ <;> rfl
      rw [mapStep, hnone]
      exact hs.ended hprimary _
  | row hc hrow =>
      refine ⟨?_, hrow.table⟩
      rw [mapStep, hc]
      exact hrow.holds

/-- A step of the machine, as a call. -/
theorem exists_call_of_step {ndebug : Bool} {call : TableCall}
    (hstep : System.step ndebug s (t, call) = some s') :
    ∃ o, s.call ndebug t call = .ok o ∧ o.state = s' := by
  obtain ⟨o, ho, hstate⟩ := Option.map_eq_some_iff.mp hstep
  exact ⟨o, eq_ok_of_toOption ho, hstate⟩

/-- A later state of a table, which now stands for the map. -/
structure Serves (table : Table) (s : System)
    (m : SortedMap Int32 (RowData RowBuffer)) : Prop where
  holds : s.Holds m
  table : s.table = { table with primary := s.table.primary }

/-- A call that does not fault is followed by the map. -/
theorem Serves.called {table : Table} (h : Serves table s m) {ndebug : Bool}
    {call : TableCall} {o : Outcome System Bool}
    (hrun : s.call ndebug t call = .ok o) :
    Serves table o.state (mapStep table m call) := by
  obtain ⟨hholds, htable⟩ := (h.holds.called hrun).holds h.holds
  refine ⟨?_, ?_⟩
  · rw [h.table] at hholds
    exact hholds
  · rw [htable, h.table]

theorem Serves.exists_call {table : Table} (h : Serves table s m)
    (ndebug : Bool) (t : ThreadId) {call : TableCall}
    (hcall : (call.operation table.schema).isSome) :
    ∃ c result s', s.call ndebug t call = .ok (.returned result s') ∧
      s.RowCalled m t c result s' := by
  have hschema : s.table.schema = table.schema := by
    rw [h.table]
  obtain ⟨c, hc⟩ := Option.isSome_iff_exists.mp hcall
  exact ⟨c, h.holds.call_row ndebug t (hschema.symm ▸ hc)⟩

/-- Runs of row calls go through. -/
theorem Serves.run {table : Table} (h : Serves table s m) (ndebug : Bool)
    {events : List (ThreadId × TableCall)}
    (hevents : ∀ e ∈ events, (e.2.operation table.schema).isSome) :
    ∃ s', Machine.run (System.step ndebug) s events = some s' ∧
      Serves table s'
        (events.foldl (fun m e => mapStep table m e.2) m) := by
  refine Machine.exists_run_of_simulation ?_ h hevents
  rintro s m ⟨t, call⟩ hcall h
  obtain ⟨-, result, s', hrun, -⟩ := h.exists_call ndebug t hcall
  exact ⟨s', by rw [System.step, hrun]; rfl, h.called hrun⟩

/-- Every run of calls keeps a table that stands for a map. -/
theorem Holds.run {ndebug : Bool} {events : List (ThreadId × TableCall)}
    (hs : s.Holds m)
    (hrun : Machine.run (System.step ndebug) s events = some s') :
    ∃ m', s'.Holds m' := by
  refine Machine.run_invariant (P := fun s : System => ∃ m, s.Holds m) ?_
    ⟨m, hs⟩ hrun
  rintro s ⟨t, call⟩ s' ⟨m, hs⟩ hstep
  obtain ⟨o, hrun, rfl⟩ := exists_call_of_step hstep
  exact ⟨_, ((hs.called hrun).holds hs).1⟩

/-- A transaction whose rows are all attached can be ended either way. -/
theorem Holds.end_spec (hs : s.Holds m)
    (hopen : s.manager.transactionOf t = some tx)
    (hrows : ∀ keyRowInfo ∈ tx.getAffectedRows,
      ∃ key, s.Attached key keyRowInfo.rowInfo) :
    ∃ sl, s.table.primary = some sl ∧
      s.commit t = .ok (.returned () (s.ended t .committed tx sl)) ∧
      s.rollback t = .ok (.returned () (s.ended t .aborted tx sl)) := by
  obtain ⟨hfinal, sl, hprimary, hrep⟩ := hs
  have hlive : ∀ keyRowInfo ∈ tx.getAffectedRows,
      (sl.heap.rowInfo keyRowInfo.rowInfo).isSome := by
    intro keyRowInfo hmem
    obtain ⟨key, sl', hprimary', ha⟩ := hrows keyRowInfo hmem
    rw [hprimary, Option.some.injEq] at hprimary'
    subst hprimary'
    exact ha.live
  refine ⟨sl, hprimary, ?_, ?_⟩
  · rw [commit, endTransaction_eq hprimary hopen _ leaves_committed,
      if_pos hlive]
  · rw [rollback, endTransaction_eq hprimary hopen _ leaves_aborted,
      if_pos hlive]

end System

/-! ## Scans -/

namespace System

variable {s : System} {m : SortedMap Int32 (RowData RowBuffer)}

theorem Holds.exists_attached (hs : s.Holds m) {key : Int32}
    (hkey : (m.lookup key).isSome) : ∃ r, s.Attached key r := by
  obtain ⟨-, sl, hprimary, head, spine, wf, hm, -⟩ := hs
  obtain ⟨v, hv⟩ := Option.isSome_iff_exists.mp hkey
  rw [SortedMap.lookup_eq_some_iff, ← hm] at hv
  obtain ⟨e, he, heq⟩ := List.mem_map.mp hv
  obtain ⟨r, info, hr, -⟩ := wf.rows.exists_row he
  obtain ⟨rfl, -⟩ := Prod.mk.inj heq
  exact ⟨r, sl, hprimary, wf.attached_iff.mpr ⟨e, he, rfl, hr⟩⟩

theorem Holds.lookup_of_attached (hs : s.Holds m) {key : Int32}
    {r : RowInfoRef} (ha : s.Attached key r) : (m.lookup key).isSome := by
  obtain ⟨-, sl, hprimary, head, spine, wf, hm, -⟩ := hs
  obtain ⟨sl', hprimary', ha⟩ := ha
  rw [hprimary, Option.some.injEq] at hprimary'
  subst hprimary'
  obtain ⟨e, he, rfl, -⟩ := wf.attached_iff.mp ha
  rw [Option.isSome_iff_exists]
  refine ⟨sl.heap.dataOf e.node, ?_⟩
  rw [SortedMap.lookup_eq_some_iff, ← hm]
  exact List.mem_map_of_mem he

/-- A key and the row attached under it determine each other. -/
theorem Holds.attached_inj (hs : s.Holds m) {key key' : Int32}
    {r r' : RowInfoRef} (ha : s.Attached key r) (ha' : s.Attached key' r') :
    key = key' ↔ r = r' := by
  obtain ⟨-, sl, hprimary, hrep⟩ := hs
  obtain ⟨sl₁, hprimary₁, ha⟩ := ha
  obtain ⟨sl₂, hprimary₂, ha'⟩ := ha'
  rw [hprimary, Option.some.injEq] at hprimary₁ hprimary₂
  subst hprimary₁ hprimary₂
  exact hrep.attached_inj ha ha'

/-- However it is advanced, a scan of the table yields the rows. -/
def Scans (s : System) (rows : List (Int32 × Option RowBuffer)) : Prop :=
  ∃ sl, s.table.primary = some sl ∧
    ∀ how, s.scan how = .ok (.returned rows sl)

/-- A scan yields what the map binds. -/
theorem Holds.scans (hs : s.Holds m) : s.Scans (rowsOf m.entries) := by
  obtain ⟨-, sl, hprimary, hrep⟩ := hs
  refine ⟨sl, hprimary, fun how => ?_⟩
  rw [scan, hprimary, nonNull_some, ok_bind]
  exact (hrep.agrees false).scan how

end System

/-! ## A finalized table -/

namespace Table

/-- A primary index that was just created, if there is one. -/
def PrimaryNew (table : Table) : Prop :=
  table.primary = none ∨ 0 < table.maxNodeHeight ∧
    table.primary = some (initialList true table.maxNodeHeight)

theorem createIndex_spec {ndebug : Bool} {table table' : Table}
    {column : Column} (hnew : table.PrimaryNew)
    (hrun : createIndex ndebug table column = .ok (.returned () table')) :
    table' = { table with primary := table'.primary } ∧
      table'.PrimaryNew := by
  rw [createIndex] at hrun
  split at hrun
  · cases hrun
    exact ⟨rfl, hnew⟩
  · split at hrun
    · cases hrun
    · split at hrun
      · cases hrun
      · by_cases hmax : 0 < table.maxNodeHeight
        · simp only [initializeList_spec ndebug true hmax, ok_bind] at hrun
          cases hrun
          exact ⟨rfl, Or.inr ⟨hmax, rfl⟩⟩
        · have hzero : table.maxNodeHeight = 0 := by omega
          simp [SkipList.initializeList, SkipList.new, hzero] at hrun

theorem createIndexesFrom_spec {ndebug : Bool} {columns : List Column}
    {table table' : Table} (hnew : table.PrimaryNew)
    (hrun : createIndexesFrom ndebug columns table =
      .ok (.returned () table')) :
    table' = { table with primary := table'.primary } ∧
      table'.PrimaryNew := by
  induction columns generalizing table with
  | nil =>
      cases hrun
      exact ⟨rfl, hnew⟩
  | cons column columns ih =>
      rw [createIndexesFrom, bind_eq_ok] at hrun
      obtain ⟨o, hindex, hrun⟩ := hrun
      cases o with
      | thrown message table₁ => cases hrun
      | returned _ table₁ =>
          obtain ⟨htable₁, hnew₁⟩ := createIndex_spec hnew hindex
          obtain ⟨htable', hnew'⟩ := ih hnew₁ hrun
          refine ⟨?_, hnew'⟩
          rw [htable', htable₁]

/-- A table that `finalizeSchema` returns has an empty primary index. -/
theorem finalizeSchema_spec {ndebug schemaWritable : Bool}
    {table table' : Table} (hnew : table.primary = none)
    (hrun : table.finalizeSchema ndebug schemaWritable =
      .ok (.returned () table')) :
    0 < table.maxNodeHeight ∧
      table' = { table with
        schemaFinalized := true
        primary := some (initialList true table.maxNodeHeight) } := by
  rw [finalizeSchema] at hrun
  split at hrun
  · cases hrun
  · rw [createIndexes, if_neg (by simp), bind_eq_ok] at hrun
    obtain ⟨o, hindexes, hrun⟩ := hrun
    cases o with
    | thrown message table₁ => cases hrun
    | returned _ table₁ =>
        have hnew₀ : PrimaryNew { table with schemaFinalized := true } :=
          Or.inl hnew
        obtain ⟨htable₁, hnew₁⟩ := createIndexesFrom_spec hnew₀ hindexes
        rcases hnew₁ with hnone | ⟨hmax, hprimary⟩
        · simp [hnone] at hrun
        · simp only [hprimary, Option.isNone_some, Bool.false_eq_true,
            if_false, pure_eq_ok, Except.ok.injEq, Outcome.returned.injEq,
            true_and] at hrun
          subst hrun
          rw [htable₁] at hmax hprimary ⊢
          exact ⟨hmax, by rw [hprimary]⟩

end Table

namespace System

/-- A table with a finalized schema and no row, together with the contexts of
threads none of which has an open transaction. -/
structure Finalized (ndebug : Bool) (s : System) : Prop where
  table : ∃ table schemaWritable, table.primary = none ∧
    Table.finalizeSchema table ndebug schemaWritable =
      .ok (.returned () s.table)
  closed : ∀ t, s.manager.transactionOf t = none

theorem Finalized.holds {ndebug : Bool} {s : System}
    (h : s.Finalized ndebug) : s.Holds SortedMap.empty := by
  obtain ⟨table, schemaWritable, hnew, hrun⟩ := h.table
  obtain ⟨hmax, htable⟩ := Table.finalizeSchema_spec hnew hrun
  rw [Holds, htable]
  exact ⟨rfl, _, rfl, initialList_represents hmax⟩

/-- A table with one column, the primary key, before its schema is
finalized. -/
def keyTable : Table :=
  ((Table.new 1 [] "keys".toList).addIndex "key".toList 4 .int32 true).state

/-- The finalized table without rows. -/
def keySystem : System where
  table := { keyTable with
    schemaFinalized := true
    primary := some (initialList true 1) }
  manager := ThreadContextManager.new

/-- A row that consists of a small key. -/
def keyRow (address : ℕ) (key : UInt8) : RowBuffer :=
  ⟨address, [key, 0, 0, 0]⟩

theorem keySystem_finalized (ndebug : Bool) : keySystem.Finalized ndebug :=
  ⟨⟨keyTable, true, rfl, by cases ndebug <;> rfl⟩, fun _ => rfl⟩

end System

end SquidDB.Engine
