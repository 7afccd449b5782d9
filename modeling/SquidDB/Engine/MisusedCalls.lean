import SquidDB.Engine.TableCalls

/-!
# Misused transaction calls

`ThreadContext` refuses to open a second transaction and to end a missing one.
`Table` reaches these guards too late: `beginTransaction` has issued an id by
then, and `commit` and `rollback` have read the missing transaction.
-/

namespace SquidDB.Engine

open Checked SquidDB.Core SquidDB.Storage

namespace System

/-! ## Failing cleanly -/

/-- `beginTransaction` inside a transaction, or `commit` or `rollback` outside
of one. -/
def Misuses (s : System) (e : ThreadId × TableCall) : Prop :=
  match e.2 with
  | .beginTransaction => (s.manager.transactionOf e.1).isSome
  | .commit | .rollback => (s.manager.transactionOf e.1).isNone
  | _ => False

/-- A row with its data and its status. -/
def rowInfo (s : System) (r : RowInfoRef) : Option (RowInfo RowBuffer) :=
  s.table.primary.bind fun sl => sl.heap.rowInfo r

/-- The call throws and keeps the active ids, the open transactions with their
affected rows, and the rows. -/
def FailsCleanly (ndebug : Bool) (s : System) (e : ThreadId × TableCall) :
    Prop :=
  ∃ message s', s.call ndebug e.1 e.2 = .ok (.thrown message s') ∧
    s'.manager.transactionId = s.manager.transactionId ∧
    s'.manager.transactionOf = s.manager.transactionOf ∧
    s'.rowInfo = s.rowInfo

/-- A misused call fails cleanly. -/
def MisuseFailsCleanly (ndebug : Bool) (s : System)
    (e : ThreadId × TableCall) : Prop :=
  s.Misuses e → s.FailsCleanly ndebug e

/-- The only misuse is a `beginTransaction` for which an id is issued that is
active already. -/
def MisuseReissues (s : System) (e : ThreadId × TableCall) : Prop :=
  s.Misuses e → e.2 = .beginTransaction ∧
    s.manager.nextTransactionId ∈ s.manager.transactionId

variable {s : System} {t : ThreadId} {tx : Transaction}

theorem transactionId_issued : (s.issued t).manager.transactionId =
    insert s.manager.nextTransactionId s.manager.transactionId := by
  rw [issued, ThreadContextManager.getThreadContext]
  split
  · rfl
  · rfl

theorem begin_failsCleanly_iff (ndebug : Bool)
    (hopen : s.manager.transactionOf t = some tx) :
    s.FailsCleanly ndebug (t, .beginTransaction) ↔
      s.manager.nextTransactionId ∈ s.manager.transactionId := by
  have hcall : s.call ndebug t .beginTransaction =
      .ok (.thrown "ThreadContext::beginTransaction transaction is not null"
        (s.issued t)) := by
    rw [call, beginTransaction_open hopen]
    rfl
  rw [← Finset.insert_eq_self, ← transactionId_issued (t := t)]
  constructor
  · rintro ⟨message, s', hthrown, hactive, -, -⟩
    rw [hcall] at hthrown
    cases hthrown
    exact hactive
  · intro hactive
    exact ⟨_, _, hcall, hactive, transactionOf_issued, rfl⟩

theorem end_not_failsCleanly (ndebug : Bool)
    (hclosed : s.manager.transactionOf t = none) {call : TableCall}
    (hcall : call = .commit ∨ call = .rollback) :
    ¬ s.FailsCleanly ndebug (t, call) := by
  have hnull : s.call ndebug t call = .error .nullPointer := by
    rcases hcall with rfl | rfl
    · rw [System.call, commit, endTransaction_closed hclosed, error_bind]
    · rw [System.call, rollback, endTransaction_closed hclosed, error_bind]
  rintro ⟨message, s', hthrown, -⟩
  rw [hnull] at hthrown
  cases hthrown

theorem misuseFailsCleanly_iff (ndebug : Bool) (s : System)
    (e : ThreadId × TableCall) :
    s.MisuseFailsCleanly ndebug e ↔ s.MisuseReissues e := by
  obtain ⟨t, call⟩ := e
  refine imp_congr_right fun hmisuse => ?_
  cases call with
  | beginTransaction =>
      obtain ⟨tx, hopen⟩ := Option.isSome_iff_exists.mp hmisuse
      rw [begin_failsCleanly_iff ndebug hopen]
      simp
  | commit =>
      have hclosed := Option.isNone_iff_eq_none.mp hmisuse
      simp [end_not_failsCleanly ndebug hclosed (.inl rfl)]
  | rollback =>
      have hclosed := Option.isNone_iff_eq_none.mp hmisuse
      simp [end_not_failsCleanly ndebug hclosed (.inr rfl)]
  | insertRow row draw => exact hmisuse.elim
  | updateRow key row => exact hmisuse.elim
  | deleteRow key => exact hmisuse.elim

/-- The misused calls of a run all fail cleanly exactly when each of them is a
`beginTransaction` that is issued an active id once more, which takes a
counter that has wrapped around. -/
theorem misuses_failCleanly_iff (ndebug : Bool) (s : System)
    (events : List (ThreadId × TableCall)) :
    Machine.Guarded (System.step ndebug) (MisuseFailsCleanly ndebug)
        s events ↔
      Machine.Guarded (System.step ndebug) MisuseReissues s events :=
  ⟨Machine.Guarded.mono fun s e => (misuseFailsCleanly_iff ndebug s e).mp,
    Machine.Guarded.mono fun s e => (misuseFailsCleanly_iff ndebug s e).mpr⟩

/-- A second `beginTransaction` leaves the id 2 active; a `commit` or a
`rollback` in front of any transaction dereferences a null pointer. -/
theorem misuses_not_failCleanly :
    keySystem.Finalized false ∧
      (¬ Machine.Guarded (System.step false) (MisuseFailsCleanly false)
        keySystem [(0, .beginTransaction), (0, .beginTransaction)]) ∧
      keySystem.call false 0 .commit = .error .nullPointer ∧
      keySystem.call false 0 .rollback = .error .nullPointer := by
  refine ⟨keySystem_finalized false, fun h => ?_, rfl, rfl⟩
  obtain ⟨-, hrest⟩ := h
  obtain ⟨hsecond, -⟩ := hrest _ rfl
  obtain ⟨message, s', hthrown, hactive, -⟩ := hsecond rfl
  cases hthrown
  revert hactive
  decide

/-! ## Ids that are not issued again -/

/-- At most `n` ids have been issued, and the active ones are among them. -/
def IssuedAtMost (n : ℕ) (manager : ThreadContextManager) : Prop :=
  manager.currentTransactionId ≤ n ∧
    ∀ id ∈ manager.transactionId, id ≤ manager.currentTransactionId

namespace IssuedAtMost

variable {n : ℕ} {manager : ThreadContextManager}

theorem mono (h : IssuedAtMost n manager) : IssuedAtMost (n + 1) manager :=
  ⟨Nat.le_succ_of_le h.1, h.2⟩

theorem getThreadContext (h : IssuedAtMost n manager) (t : ThreadId) :
    IssuedAtMost n (manager.getThreadContext t).2 := by
  rw [ThreadContextManager.getThreadContext]
  split
  · exact h
  · exact h

theorem nextTransactionId_eq (h : IssuedAtMost n manager)
    (hn : n + 1 < 2 ^ 64) :
    manager.nextTransactionId = manager.currentTransactionId + 1 :=
  Nat.mod_eq_of_lt (lt_of_le_of_lt (Nat.succ_le_succ h.1) hn)

theorem getNextTransactionId (h : IssuedAtMost n manager)
    (hn : n + 1 < 2 ^ 64) :
    IssuedAtMost (n + 1) manager.getNextTransactionId.2 := by
  have hnext := h.nextTransactionId_eq hn
  refine ⟨?_, fun id hid => ?_⟩
  · change manager.nextTransactionId ≤ n + 1
    rw [hnext]
    exact Nat.succ_le_succ h.1
  · change id ≤ manager.nextTransactionId
    rw [hnext]
    rcases Finset.mem_insert.mp hid with rfl | hid
    · exact hnext.le
    · exact Nat.le_succ_of_le (h.2 id hid)

theorem beginTransaction (h : IssuedAtMost n s.manager)
    (hn : n + 1 < 2 ^ 64) (t : ThreadId) :
    IssuedAtMost (n + 1) (s.beginTransaction t).state.manager := by
  have hissued := (h.getNextTransactionId hn).getThreadContext t
  rcases hopen : s.manager.transactionOf t with _ | tx
  · rw [beginTransaction_closed hopen]
    exact hissued
  · rw [beginTransaction_open hopen]
    exact hissued

theorem endTransaction (h : IssuedAtMost n s.manager) {status : Status}
    {leave : ThreadContext → Outcome ThreadContext Unit}
    {o : Outcome System Unit}
    (hrun : s.endTransaction t status leave = .ok o) :
    IssuedAtMost n o.state.manager := by
  have hctx := h.getThreadContext t
  rw [System.endTransaction, bind_eq_ok] at hrun
  obtain ⟨transaction, -, hrun⟩ := hrun
  obtain ⟨table, -, hrun⟩ := bind_eq_ok.mp hrun
  split at hrun
  · cases hrun
    exact hctx
  · cases hrun
    exact ⟨hctx.1, fun id hid => hctx.2 id (Finset.mem_of_mem_erase hid)⟩

/-- A row call issues an id for its implicit transaction only. -/
theorem rowCall (h : IssuedAtMost n s.manager) (hn : n + 1 < 2 ^ 64)
    {ndebug : Bool} {operate : IndexOperation} {o : Outcome System Bool}
    (hrun : s.rowCall ndebug t operate = .ok o) :
    IssuedAtMost (n + 1) o.state.manager := by
  have hctx : IssuedAtMost n (s.withContext t).manager :=
    h.getThreadContext t
  have hbegun : ∀ implicitTransaction : Bool,
      IssuedAtMost (n + 1) (if implicitTransaction
        then (s.withContext t).beginTransaction t
        else .returned () (s.withContext t)).state.manager := by
    intro implicitTransaction
    cases implicitTransaction with
    | true => exact hctx.beginTransaction hn t
    | false => exact hctx.mono
  rw [System.rowCall, bind_eq_ok] at hrun
  obtain ⟨-, -, hrun⟩ := hrun
  simp only at hrun
  generalize hbegin : (if (s.manager.getThreadContext t).1.getTransaction.isNone
    then System.beginTransaction ⟨s.table, (s.manager.getThreadContext t).2⟩ t
    else .returned () ⟨s.table, (s.manager.getThreadContext t).2⟩) = begun
    at hrun
  have hs₁ : IssuedAtMost (n + 1) begun.state.manager := hbegin ▸ hbegun _
  rcases begun with ⟨u, s₁⟩ | ⟨message, s₁⟩
  · obtain ⟨primary, -, hrun⟩ := bind_eq_ok.mp hrun
    obtain ⟨operated, -, hrun⟩ := bind_eq_ok.mp hrun
    have hctx₁ : ∀ ctx, IssuedAtMost (n + 1)
        ((s₁.manager.getThreadContext t).2.setThreadContext t ctx) :=
      fun _ => hs₁.getThreadContext t
    rcases operated with
      ⟨⟨result, transaction⟩, primary'⟩ | ⟨message, primary'⟩
    · simp only at hrun
      split at hrun
      · obtain ⟨ended, hcommit, hrun⟩ := bind_eq_ok.mp hrun
        cases hrun
        rw [Outcome.state_map]
        exact endTransaction (hctx₁ ⟨transaction⟩) hcommit
      · cases hrun
        exact hctx₁ ⟨transaction⟩
    · cases hrun
      exact hs₁.getThreadContext t
  · cases hrun
    exact hs₁

/-- A call issues at most one id. -/
theorem call (h : IssuedAtMost n s.manager) (hn : n + 1 < 2 ^ 64)
    {ndebug : Bool} {c : TableCall} {o : Outcome System Bool}
    (hrun : s.call ndebug t c = .ok o) :
    IssuedAtMost (n + 1) o.state.manager := by
  cases c with
  | beginTransaction =>
      cases hrun
      rw [Outcome.state_map]
      exact h.beginTransaction hn t
  | commit =>
      obtain ⟨ended, hcommit, hrun⟩ := bind_eq_ok.mp hrun
      cases hrun
      rw [Outcome.state_map]
      exact (h.endTransaction hcommit).mono
  | rollback =>
      obtain ⟨ended, hrollback, hrun⟩ := bind_eq_ok.mp hrun
      cases hrun
      rw [Outcome.state_map]
      exact (h.endTransaction hrollback).mono
  | insertRow row draw =>
      rw [System.call, insertRow] at hrun
      exact h.rowCall hn hrun
  | updateRow key row =>
      rw [System.call, updateRow] at hrun
      exact h.rowCall hn hrun
  | deleteRow key =>
      rw [System.call, deleteRow] at hrun
      exact h.rowCall hn hrun

/-- So does every call of a run. -/
theorem run {ndebug : Bool} {events : List (ThreadId × TableCall)}
    {s s' : System} {n : ℕ} (h : IssuedAtMost n s.manager)
    (hn : n + events.length < 2 ^ 64)
    (hrun : Machine.run (System.step ndebug) s events = some s') :
    IssuedAtMost (n + events.length) s'.manager := by
  induction events generalizing s n with
  | nil =>
      cases hrun
      exact h
  | cons e events ih =>
      rw [List.length_cons] at hn
      obtain ⟨s₁, hstep, hrun⟩ := Option.bind_eq_some_iff.mp hrun
      obtain ⟨o, hcall, rfl⟩ := Option.map_eq_some_iff.mp hstep
      have hone := h.call (by omega) (eq_ok_of_toOption hcall)
      have hall := ih hone (by omega) hrun
      rw [List.length_cons]
      rwa [Nat.add_assoc, Nat.add_comm 1] at hall

end IssuedAtMost

/-- In a run of fewer than `2 ^ 64 - 1` calls from a new manager, no misused
call fails cleanly. -/
theorem misuse_not_failsCleanly {ndebug : Bool} {s₀ : System}
    (hnew : s₀.manager = .new) {events : List (ThreadId × TableCall)}
    (hfew : events.length + 1 < 2 ^ 64)
    (hrun : Machine.run (System.step ndebug) s₀ events = some s)
    {e : ThreadId × TableCall} (hmisuse : s.Misuses e) :
    ¬ s.FailsCleanly ndebug e := by
  intro hclean
  have hissued₀ : IssuedAtMost 0 s₀.manager := by
    rw [hnew]
    exact ⟨le_rfl, fun id hid => absurd hid (Finset.notMem_empty id)⟩
  have hissued := hissued₀.run (by omega) hrun
  rw [Nat.zero_add] at hissued
  obtain ⟨-, hactive⟩ :=
    (misuseFailsCleanly_iff ndebug s e).mp (fun _ => hclean) hmisuse
  rw [hissued.nextTransactionId_eq hfew] at hactive
  have hle := hissued.2 _ hactive
  omega

end System

end SquidDB.Engine
