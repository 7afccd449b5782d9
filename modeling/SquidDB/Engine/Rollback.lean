import SquidDB.Engine.AffectedRows

/-!
# What a rollback does

The row calls of a transaction change the index in place, and the old data are
freed.  `rollback` walks the rows the transaction lists and gives them the
status `Aborted`; nothing reads the status, so every effect of the calls stays
visible.
-/

namespace SquidDB.Engine

open Checked SquidDB.Core SquidDB.Storage

/-! ## The calls of a transaction -/

namespace Traced

variable {s : Traced} {m : SortedMap Int32 (RowData RowBuffer)}
  {t : ThreadId}

/-- The thread is inside a transaction on the table, which stands for the
map. -/
structure Inside (table : Table) (t : ThreadId) (s : Traced)
    (m : SortedMap Int32 (RowData RowBuffer)) : Prop where
  serves : System.Serves table s.system m
  isOpen : (s.system.manager.transactionOf t).isSome

/-- A row call inside a transaction goes through. -/
theorem Inside.step {table : Table} (h : Inside table t s m) (ndebug : Bool)
    {call : TableCall} (hcall : (call.operation table.schema).isSome) :
    ∃ s', Traced.step ndebug s (t, call) = some s' ∧
      Inside table t s' (System.mapStep table m call) := by
  obtain ⟨c, result, system, hrun, hrow⟩ :=
    h.serves.exists_call ndebug t hcall
  refine ⟨_, by rw [Traced.step, hrun]; rfl, h.serves.called hrun, ?_⟩
  obtain ⟨rows, -, htxs⟩ := hrow.recorded
  change (system.manager.transactionOf t).isSome = true
  rw [htxs, Function.update_self, Option.isSome_map]
  exact h.isOpen

/-- Inside a transaction the row calls of a thread go through, and their
effects on the map add up. -/
theorem Inside.run {table : Table} (h : Inside table t s m) (ndebug : Bool)
    {calls : List TableCall}
    (hcalls : ∀ call ∈ calls, (call.operation table.schema).isSome) :
    ∃ s', Machine.run (Traced.step ndebug) s
        (calls.map fun call => (t, call)) = some s' ∧
      Inside table t s' (calls.foldl (System.mapStep table) m) := by
  have hall : ∀ e ∈ calls.map fun call => (t, call),
      e.1 = t ∧ (e.2.operation table.schema).isSome := by
    simpa using hcalls
  have hsim : ∃ s', Machine.run (Traced.step ndebug) s
        (calls.map fun call => (t, call)) = some s' ∧
      Inside table t s' ((calls.map fun call => (t, call)).foldl
        (fun m e => System.mapStep table m e.2) m) :=
    Machine.exists_run_of_simulation (fun s m e he h => by
      obtain ⟨rfl, hcall⟩ := he
      exact h.step ndebug hcall) h hall
  rwa [List.foldl_map] at hsim

end Traced

/-! ## The rollback -/

namespace System

variable {s : System} {m : SortedMap Int32 (RowData RowBuffer)}
  {t : ThreadId} {tx : Transaction}

theorem closed_of_begin {s₁ : System}
    (hbegin : s.beginTransaction t = .returned () s₁) :
    s.manager.transactionOf t = none ∧ s₁ = s.begun t := by
  rcases hopen : s.manager.transactionOf t with _ | tx
  · rw [beginTransaction_closed hopen] at hbegin
    cases hbegin
    exact ⟨rfl, rfl⟩
  · rw [beginTransaction_open hopen] at hbegin
    cases hbegin

/-- A transaction in which no `deleteRow` removes a key it has written can be
rolled back.  The rollback marks the rows attached under the written keys as
aborted and changes nothing a scan shows: a scan yields what the calls have made
of the rows that were there before. -/
theorem rollback_marks_only {ndebug : Bool} {s₀ s s₁ : System}
    (hfinal : s₀.Finalized ndebug) (events : List (ThreadId × TableCall))
    (hrun : Machine.run (System.step ndebug) s₀ events = some s)
    {t : ThreadId} (hbegin : s.beginTransaction t = .returned () s₁)
    (calls : List TableCall)
    (hcalls : ∀ call ∈ calls, (call.operation s.table.schema).isSome)
    (hspares : Machine.Guarded (Traced.step ndebug)
      (Traced.SparesWrittenBy t) (Traced.initial s₁)
      (calls.map fun call => (t, call))) :
    ∃ m s₂ s₃ written,
      Machine.run (System.step ndebug) s₁
        (calls.map fun call => (t, call)) = some s₂ ∧
      Machine.run (Traced.step ndebug) (Traced.initial s₁)
        (calls.map fun call => (t, call)) = some ⟨s₂, written⟩ ∧
      s₂.rollback t = .ok (.returned () s₃) ∧
      s.Scans (rowsOf m.entries) ∧
      s₂.Scans (rowsOf (calls.foldl (mapStep s.table) m).entries) ∧
      s₃.Scans (rowsOf (calls.foldl (mapStep s.table) m).entries) ∧
      ∃ tx, s₂.manager.transactionOf t = some tx ∧
        (∀ r, r ∈ tx.getAffectedRows.map KeyRowInfo.rowInfo ↔
          ∃ key ∈ written t, s₂.Attached key r) ∧
        ∀ r, s₃.statusOf r =
          if r ∈ tx.getAffectedRows.map KeyRowInfo.rowInfo then
            some .aborted
          else s₂.statusOf r := by
  obtain ⟨m, hs⟩ := hfinal.holds.run hrun
  obtain ⟨hclosed, rfl⟩ := closed_of_begin hbegin
  have hs₁ : (s.begun t).Holds m := hs.congr rfl
  have hinside : Traced.Inside s.table t (Traced.initial (s.begun t)) m :=
    ⟨⟨hs₁, rfl⟩, by simp [Traced.initial]⟩
  obtain ⟨s₂, hrun₂, hinside₂⟩ := hinside.run ndebug hcalls
  have hacc₁ : (Traced.initial (s.begun t)).Accurate t := by
    intro tx hopen
    simp only [Traced.initial, transactionOf_begun, Function.update_self,
      Option.some.injEq] at hopen
    subst hopen
    exact List.Forall₂.nil
  obtain ⟨hacc₂, -⟩ := Traced.run_accurate hacc₁ hs₁ hspares hrun₂
  obtain ⟨tx, hopen₂⟩ := Option.isSome_iff_exists.mp hinside₂.isOpen
  have hholds := hinside₂.serves.holds
  have hlisted : ∀ r, r ∈ tx.getAffectedRows.map KeyRowInfo.rowInfo ↔
      ∃ key ∈ s₂.written t, s₂.system.Attached key r :=
    fun r => mem_rows_iff_exists hholds.attached_inj (hacc₂ tx hopen₂)
  obtain ⟨sl, hprimary, -, hrollback⟩ :=
    hholds.end_spec hopen₂ fun keyRowInfo hmem =>
      ((hlisted _).mp (List.mem_map_of_mem hmem)).imp fun _ => And.right
  have hsystem := Machine.run_map (Traced.step_system ndebug)
    (Traced.initial (s.begun t)) (calls.map fun call => (t, call))
  rw [hrun₂, Option.map_some] at hsystem
  refine ⟨m, s₂.system, _, s₂.written, hsystem.symm, hrun₂, hrollback,
    hs.scans, hholds.scans, (hholds.ended hprimary _).scans, tx, hopen₂,
    hlisted, fun r => ?_⟩
  rw [statusOf_ended hprimary]
  by_cases hmem : r ∈ tx.getAffectedRows.map KeyRowInfo.rowInfo
  · rw [if_pos hmem, if_pos hmem]
    obtain ⟨key, -, sl', hprimary', ha⟩ := (hlisted r).mp hmem
    obtain rfl := Option.some.inj (hprimary.symm.trans hprimary')
    obtain ⟨info, hinfo⟩ := Option.isSome_iff_exists.mp ha.live
    rw [statusOf, hprimary, Option.bind_some, hinfo]
    rfl
  · rw [if_neg hmem, if_neg hmem]

/-- A transaction inserts two rows, updates one of them and fails to insert a
duplicate. -/
theorem rollback_marks_only_two_rows :
    ∃ (m : SortedMap Int32 (RowData RowBuffer)) (s₁ s₂ s₃ : System)
        (written : ThreadId → List Int32),
      keySystem.beginTransaction 0 = .returned () s₁ ∧
      Machine.run (System.step false) s₁
        ([.insertRow (keyRow 0 7) fun _ => 1,
          .insertRow (keyRow 1 5) fun _ => 1,
          .updateRow 7 (keyRow 2 7),
          .insertRow (keyRow 3 5) fun _ => 1].map fun call =>
            (0, call)) = some s₂ ∧
      written 0 = [7, 5, 7] ∧
      s₂.rollback 0 = .ok (.returned () s₃) ∧
      keySystem.Scans (rowsOf m.entries) ∧
      ∃ tx, s₂.manager.transactionOf 0 = some tx ∧
        (∀ r, r ∈ tx.getAffectedRows.map KeyRowInfo.rowInfo ↔
          ∃ key ∈ written 0, s₂.Attached key r) ∧
        ∀ r, s₃.statusOf r =
          if r ∈ tx.getAffectedRows.map KeyRowInfo.rowInfo then
            some .aborted
          else s₂.statusOf r := by
  obtain ⟨m, s₂, s₃, written, hrun, htraced, hrollback, hscans, -, -,
      hmarked⟩ :=
    rollback_marks_only (keySystem_finalized false) [] rfl (t := 0) rfl
      [.insertRow (keyRow 0 7) fun _ => 1,
        .insertRow (keyRow 1 5) fun _ => 1, .updateRow 7 (keyRow 2 7),
        .insertRow (keyRow 3 5) fun _ => 1] (by decide)
      ⟨fun _ h => (by cases h), fun _ _ => ⟨fun _ h => (by cases h),
        fun _ _ => ⟨fun _ h => (by cases h), fun _ _ =>
          ⟨fun _ h => (by cases h), fun _ _ => trivial⟩⟩⟩⟩
  have hwritten : written 0 = [7, 5, 7] :=
    congrArg (fun u : Traced => u.written 0) (Option.some.inj htraced).symm
  exact ⟨m, _, s₂, s₃, written, rfl, hrun, hwritten, hrollback, hscans,
    hmarked⟩

/-- A transaction inserts a row and is rolled back: the row stays. -/
theorem rollback_keeps_inserted_row :
    ∃ s₁ s₂ s₃ sl, keySystem.Finalized false ∧
      keySystem.beginTransaction 0 = .returned () s₁ ∧
      Machine.run (System.step false) s₁
        [(0, .insertRow (keyRow 0 7) fun _ => 1)] = some s₂ ∧
      s₂.rollback 0 = .ok (.returned () s₃) ∧ keySystem.Scans [] ∧
      s₃.scan (fun _ => .next) =
        .ok (.returned [(7, some (keyRow 0 7))] sl) :=
  ⟨_, _, _, _, keySystem_finalized false, rfl, rfl, rfl,
    ⟨_, rfl, fun _ => rfl⟩, rfl⟩

end System

end SquidDB.Engine
