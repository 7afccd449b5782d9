import SquidDB.Core.SkipListStructure
import SquidDB.Engine.TableCalls

/-!
# The rows a transaction lists

A transaction keeps raw pointers to the rows it has written, and `remove`
deletes a row at once.  The machine below records, beside the state, the keys
each open transaction has written.  As long as no thread deletes such a key the
listed rows are exactly the rows attached under these keys.
-/

namespace SquidDB.Engine

open Checked SquidDB.Core SquidDB.Storage

/-- A system, and for every thread the keys written since its transaction was
opened. -/
structure Traced where
  system : System
  written : ThreadId → List Int32

namespace Traced

/-- Nothing has been written yet. -/
def initial (s : System) : Traced := ⟨s, fun _ => []⟩

/-- The keys a thread has written when a call has ended. -/
def writtenAfter (s : Traced) (t : ThreadId) :
    TableCall → Except String Bool → List Int32
  | .beginTransaction, .ok _ | .commit, .ok _ | .rollback, .ok _ => []
  | call, .ok result =>
      if (s.system.manager.transactionOf t).isSome then
        s.written t ++ (call.operation s.system.table.schema).elim []
          fun c => c.writes result
      else s.written t
  | _, .error _ => s.written t

/-- The machine of whole calls, with the record. -/
def step (ndebug : Bool) (s : Traced) (e : ThreadId × TableCall) :
    Option Traced :=
  (s.system.call ndebug e.1 e.2).toOption.map fun o =>
    ⟨o.state,
      Function.update s.written e.1 (s.writtenAfter e.1 e.2 o.result)⟩

/-- The event deletes no key that a thread's open transaction has written. -/
def SparesWrittenBy (u : ThreadId) (s : Traced) (e : ThreadId × TableCall) :
    Prop :=
  ∀ key, e.2 = .deleteRow key →
    (s.system.manager.transactionOf u).isSome → key ∉ s.written u

/-- The event deletes no key that an open transaction has written. -/
def SparesWritten (s : Traced) (e : ThreadId × TableCall) : Prop :=
  ∀ u, SparesWrittenBy u s e

/-- The rows listed by a thread's open transaction are the rows attached under
the keys it has written. -/
def Accurate (s : Traced) (u : ThreadId) : Prop :=
  ∀ tx, s.system.manager.transactionOf u = some tx →
    List.Forall₂ (fun key keyRowInfo =>
      s.system.Attached key keyRowInfo.rowInfo) (s.written u)
      tx.getAffectedRows

variable {ndebug : Bool} {s s' : Traced} {e : ThreadId × TableCall}
  {m : SortedMap Int32 (RowData RowBuffer)} {t u : ThreadId}

/-- The record does not influence the system. -/
theorem step_system (ndebug : Bool) (s : Traced) (e : ThreadId × TableCall) :
    (s.step ndebug e).map system = s.system.step ndebug e := by
  rw [step, System.step, Option.map_map]
  rfl

theorem writtenAfter_row {call : TableCall} {c : Call Int32 RowBuffer}
    (hc : call.operation s.system.table.schema = some c) (result : Bool) :
    s.writtenAfter t call (.ok result) =
      if (s.system.manager.transactionOf t).isSome then
        s.written t ++ c.writes result
      else s.written t := by
  cases call with
  | beginTransaction => cases hc
  | commit => cases hc
  | rollback => cases hc
  | insertRow row draw => simp [writtenAfter, hc]
  | updateRow key row => simp [writtenAfter, hc]
  | deleteRow key => simp [writtenAfter, hc]

/-- A transaction that was open before a call and is still open lists the same
rows, if all of them stay attached. -/
theorem Accurate.frame (hacc : s.Accurate u) {tx : Transaction}
    (hopen : s.system.manager.transactionOf u = some tx) {s' : System}
    (hkeep : ∀ key ∈ s.written u, ∀ r, s.system.Attached key r →
      s'.Attached key r) :
    List.Forall₂ (fun key keyRowInfo => s'.Attached key keyRowInfo.rowInfo)
      (s.written u) tx.getAffectedRows :=
  ((List.forall₂_and_left _ _).mpr ⟨hkeep, hacc tx hopen⟩).imp
    fun _ _ ⟨hkeep, ha⟩ => hkeep _ ha

theorem eq_deleteRow_of_operation {schema : Schema} {call : TableCall}
    {key : Int32} (hc : call.operation schema = some (.remove key)) :
    call = .deleteRow key := by
  cases call with
  | beginTransaction => cases hc
  | commit => cases hc
  | rollback => cases hc
  | insertRow row draw =>
      obtain ⟨key', -, heq⟩ := Option.map_eq_some_iff.mp hc
      cases heq
  | updateRow key row => cases hc
  | deleteRow key => cases hc; rfl

/-- One step that spares the keys a thread has written keeps its list
accurate. -/
theorem Accurate.step (hacc : s.Accurate u) (hs : s.system.Holds m)
    (hspares : s.SparesWrittenBy u e)
    (hstep : Traced.step ndebug s e = some s') : s'.Accurate u := by
  obtain ⟨t, call⟩ := e
  obtain ⟨o, ho, rfl⟩ := Option.map_eq_some_iff.mp hstep
  have hrun : s.system.call ndebug t call = .ok o := eq_ok_of_toOption ho
  intro tx hopen
  cases hs.called hrun with
  | begun hclosed =>
      by_cases hu : u = t
      · subst hu
        simp only [Outcome.state_returned, System.transactionOf_begun,
          Function.update_self, Option.some.injEq] at hopen
        subst hopen
        simp only [Function.update_self]
        exact List.Forall₂.nil
      · simp only [Outcome.state_returned, System.transactionOf_begun,
          Function.update_of_ne hu] at hopen ⊢
        exact hacc.frame hopen fun _ _ _ ha => ha.congr rfl
  | refused message hrefused =>
      simp only [Outcome.state_thrown, System.transactionOf_issued] at hopen
      have hsame : s.writtenAfter t .beginTransaction
          (.error message) = s.written t := rfl
      simp only [Outcome.state_thrown, Outcome.result_thrown, hsame,
        Function.update_eq_self]
      exact hacc.frame hopen fun _ _ _ ha => ha.congr rfl
  | ended hcall htx hprimary =>
      by_cases hu : u = t
      · subst hu
        simp at hopen
      · simp only [Outcome.state_returned, System.transactionOf_ended,
          Function.update_of_ne hu] at hopen ⊢
        exact hacc.frame hopen fun _ _ _ ha =>
          (System.attached_ended hs hprimary _).mpr ha
  | @row _ c result s' hc hrow =>
      obtain ⟨rows, hwritten, htxs⟩ := hrow.recorded
      have hkeep : ∀ tx, s.system.manager.transactionOf u = some tx →
          ∀ key ∈ s.written u, ∀ r, s.system.Attached key r →
            s'.Attached key r := by
        intro tx hopen key hkey r ha
        apply hrow.persists key r ha
        rintro rfl
        exact hspares key (eq_deleteRow_of_operation hc) (by simp [hopen])
          hkey
      simp only [Outcome.state_returned, Outcome.result_returned,
        writtenAfter_row hc] at hopen ⊢
      rw [htxs] at hopen
      by_cases hu : u = t
      · subst hu
        rw [Function.update_self] at hopen
        obtain ⟨tx₀, htx₀, rfl⟩ := Option.map_eq_some_iff.mp hopen
        rw [Function.update_self, htx₀, Option.isSome_some, if_pos rfl]
        exact List.rel_append (hacc.frame htx₀ (hkeep tx₀ htx₀)) hwritten
      · rw [Function.update_of_ne hu] at hopen ⊢
        exact hacc.frame hopen (hkeep tx hopen)

theorem exists_holds (hs : s.system.Holds m)
    (hstep : Traced.step ndebug s e = some s') :
    ∃ m', s'.system.Holds m' := by
  have hsystem : System.step ndebug s.system (e.1, e.2) =
      some s'.system := by
    rw [← step_system, hstep, Option.map_some]
  obtain ⟨o, hrun, hstate⟩ := System.exists_call_of_step hsystem
  exact ⟨_, hstate ▸ ((hs.called hrun).holds hs).1⟩

/-- In a run that spares the keys a thread has written its list stays
accurate. -/
theorem run_accurate {events : List (ThreadId × TableCall)}
    (hacc : s.Accurate u) (hs : s.system.Holds m)
    (hguard : Machine.Guarded (Traced.step ndebug) (SparesWrittenBy u) s
      events)
    (hrun : Machine.run (Traced.step ndebug) s events = some s') :
    s'.Accurate u ∧ ∃ m', s'.system.Holds m' := by
  refine Machine.run_invariant_of_guarded
    (P := fun s : Traced => s.Accurate u ∧ ∃ m, s.system.Holds m) ?_
    ⟨hacc, m, hs⟩ hguard hrun
  rintro s e s' ⟨hacc, m, hs⟩ hspares hstep
  exact ⟨hacc.step hs hspares hstep, exists_holds hs hstep⟩

/-- In every run in which no `deleteRow` removes a key that an open
transaction has written, the rows an open transaction lists are the rows
attached under the keys it has written, and it can be committed or rolled
back. -/
theorem affectedRows_attached {ndebug : Bool} {s₀ : System}
    (hfinal : s₀.Finalized ndebug) (events : List (ThreadId × TableCall))
    (hguard : Machine.Guarded (Traced.step ndebug) SparesWritten
      (initial s₀) events) {s : Traced}
    (hrun : Machine.run (Traced.step ndebug) (initial s₀) events = some s) :
    ∀ t tx, s.system.manager.transactionOf t = some tx →
      List.Forall₂ (fun key keyRowInfo =>
          s.system.Attached key keyRowInfo.rowInfo) (s.written t)
        tx.getAffectedRows ∧
      (∃ s', s.system.commit t = .ok (.returned () s')) ∧
      ∃ s', s.system.rollback t = .ok (.returned () s') := by
  intro t tx hopen
  have hacc₀ : (initial s₀).Accurate t := by
    intro tx hopen
    rw [initial, hfinal.closed t] at hopen
    cases hopen
  obtain ⟨hacc, m, hs⟩ := run_accurate hacc₀ hfinal.holds
    (hguard.mono fun _ _ hspares => hspares t) hrun
  have hrows := hacc tx hopen
  obtain ⟨sl, -, hcommit, hrollback⟩ := hs.end_spec hopen
    fun keyRowInfo hmem => by
      obtain ⟨key, -, ha⟩ := Matching.exists_left hrows hmem
      exact ⟨key, ha⟩
  exact ⟨hrows, ⟨_, hcommit⟩, _, hrollback⟩

/-- A thread inserts a row and updates it while another one deletes a key that
is not there. -/
theorem affectedRows_attached_two_threads :
    ∃ s, Machine.run (Traced.step false) (initial System.keySystem)
        [(0, .beginTransaction),
          (0, .insertRow (System.keyRow 0 7) fun _ => 1),
          (0, .updateRow 7 (System.keyRow 1 7)), (1, .deleteRow 5)] =
        some s ∧
      ∀ t tx, s.system.manager.transactionOf t = some tx →
        List.Forall₂ (fun key keyRowInfo =>
            s.system.Attached key keyRowInfo.rowInfo) (s.written t)
          tx.getAffectedRows ∧
        (∃ s', s.system.commit t = .ok (.returned () s')) ∧
        ∃ s', s.system.rollback t = .ok (.returned () s') := by
  refine ⟨_, rfl, affectedRows_attached (System.keySystem_finalized false)
    [(0, .beginTransaction), (0, .insertRow (System.keyRow 0 7) fun _ => 1),
      (0, .updateRow 7 (System.keyRow 1 7)), (1, .deleteRow 5)] ?_ rfl⟩
  refine ⟨fun _ key hkey => (by cases hkey), fun s₁ h₁ => ?_⟩
  obtain rfl : _ = s₁ := Option.some.inj h₁
  refine ⟨fun _ key hkey => (by cases hkey), fun s₂ h₂ => ?_⟩
  obtain rfl : _ = s₂ := Option.some.inj h₂
  refine ⟨fun _ key hkey => (by cases hkey), fun s₃ h₃ => ?_⟩
  obtain rfl : _ = s₃ := Option.some.inj h₃
  refine ⟨fun u key hkey _ => ?_, fun _ _ => trivial⟩
  cases hkey
  by_cases hu : u = 0
  · subst hu
    decide
  · have hnone : ∀ keys keys' keys'' : List Int32, (5 : Int32) ∉
        Function.update (Function.update (Function.update
          (fun _ => ([] : List Int32)) 0 keys) 0 keys') 0 keys'' u := by
      simp [hu]
    exact hnone _ _ _

/-- A thread inserts a row and deletes it again: its transaction lists a row
that is gone, and neither `commit` nor `rollback` goes through. -/
theorem deleteRow_leaves_dead_row :
    ∃ s, System.keySystem.Finalized false ∧
      Machine.run (System.step false) System.keySystem
        [(0, .beginTransaction),
          (0, .insertRow (System.keyRow 0 7) fun _ => 1),
          (0, .deleteRow 7)] = some s ∧
      (∃ tx keyRowInfo, s.manager.transactionOf 0 = some tx ∧
        keyRowInfo ∈ tx.getAffectedRows ∧
        ∀ key, ¬s.Attached key keyRowInfo.rowInfo) ∧
      s.commit 0 = .error .danglingPointer ∧
      s.rollback 0 = .error .danglingPointer := by
  refine ⟨_, System.keySystem_finalized false, rfl,
    ⟨_, ⟨1, 0⟩, rfl, by decide, ?_⟩, rfl, rfl⟩
  rintro key ⟨sl, hsl, ha⟩
  obtain rfl := Option.some.inj hsl
  exact absurd ha.live (by decide)

end Traced

end SquidDB.Engine
