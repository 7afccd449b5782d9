import SquidDB.Engine.AffectedRows

/-!
# The status of a row and its author

The status of a row is set when a transaction that lists the row ends.  An
update gives the row new data and leaves the status alone, and a row may be
listed by several transactions.  The machine below records, beside the state,
what has become of the transaction that last stored the data of every row.
-/

namespace SquidDB.Engine

open Checked SquidDB.Core SquidDB.Storage

/-- What has become of the transaction that last stored the data of a row. -/
inductive Author where
  | inProgress (t : ThreadId)
  | committed
  | rolledBack
  deriving DecidableEq

/-- The status a row should have. -/
def Author.Allows : Author → Status → Prop
  | inProgress _, status => status ≠ .committed ∧ status ≠ .aborted
  | committed, status => status = .committed
  | rolledBack, status => status = .aborted

/-- The author when the transaction of a thread has ended. -/
def Author.finish (author : Author) (t : ThreadId) (outcome : Author) :
    Author :=
  if author = inProgress t then outcome else author

/-- The call is `deleteRow`. -/
def TableCall.deletes : TableCall → Bool
  | .deleteRow _ => true
  | _ => false

/-- A system with the record of the keys that were written, and of the author
of every key. -/
structure Authored where
  traced : Traced
  author : Int32 → Option Author

namespace Authored

/-- Nothing has been stored yet. -/
def initial (s : System) : Authored := ⟨.initial s, fun _ => none⟩

/-- The keys a call writes that returns `result`. -/
def writesOf (s : Authored) (call : TableCall) (result : Bool) : List Int32 :=
  (call.operation s.traced.system.table.schema).elim [] fun c =>
    c.writes result

/-- The authors when a call has ended; a thread without a transaction commits
at once what it stores. -/
def authorAfter (s : Authored) (t : ThreadId) :
    TableCall → Except String Bool → Int32 → Option Author
  | .commit, .ok _ => fun key =>
      (s.author key).map fun author => author.finish t .committed
  | .rollback, .ok _ => fun key =>
      (s.author key).map fun author => author.finish t .rolledBack
  | call, .ok result => fun key =>
      if key ∈ s.writesOf call result then
        if (s.traced.system.manager.transactionOf t).isSome then
          some (.inProgress t)
        else some .committed
      else s.author key
  | _, .error _ => s.author

/-- The machine of the calls other than `deleteRow`, with the records. -/
def step (ndebug : Bool) (s : Authored) (e : ThreadId × TableCall) :
    Option Authored :=
  if e.2.deletes then none
  else (s.traced.system.call ndebug e.1 e.2).toOption.map fun o =>
    ⟨⟨o.state, Function.update s.traced.written e.1
        (s.traced.writtenAfter e.1 e.2 o.result)⟩,
      s.authorAfter e.1 e.2 o.result⟩

/-- Every attached row has an author and the status that goes with it. -/
def Reflects (s : Authored) : Prop :=
  ∀ key r, s.traced.system.Attached key r → ∃ author status,
    s.author key = some author ∧ s.traced.system.statusOf r = some status ∧
      author.Allows status

/-- The call leaves every row with the status of its author. -/
def Keeps (ndebug : Bool) (s : Authored) (e : ThreadId × TableCall) : Prop :=
  ∀ s', s.step ndebug e = some s' → s'.Reflects

/-- An update inside a transaction changes only rows whose author is still in
progress, and a transaction ends only when nobody has overwritten its rows,
or only transactions that ended the same way. -/
def Safe (s : Authored) : ThreadId × TableCall → Prop
  | (t, .updateRow key _) =>
      (s.traced.system.manager.transactionOf t).isSome →
      (∃ r, s.traced.system.Attached key r) →
        ∃ u, s.author key = some (.inProgress u)
  | (t, .commit) => ∀ key ∈ s.traced.written t,
      s.author key = some (.inProgress t) ∨ s.author key = some .committed
  | (t, .rollback) => ∀ key ∈ s.traced.written t,
      s.author key = some (.inProgress t) ∨ s.author key = some .rolledBack
  | (_, .beginTransaction) | (_, .insertRow _ _) | (_, .deleteRow _) => True

/-- What safe calls preserve. -/
structure Consistent (s : Authored) : Prop where
  holds : ∃ m, s.traced.system.Holds m
  accurate : ∀ u, s.traced.Accurate u
  reflects : s.Reflects
  covered : ∀ key u, s.author key = some (.inProgress u) →
    (s.traced.system.manager.transactionOf u).isSome ∧
      key ∈ s.traced.written u

variable {ndebug : Bool} {s s' : Authored} {e : ThreadId × TableCall}
  {t u : ThreadId}

/-- A step is a call other than `deleteRow`, and the records follow it. -/
theorem exists_call_of_step (hstep : s.step ndebug e = some s') :
    e.2.deletes = false ∧
      ∃ o, s.traced.system.call ndebug e.1 e.2 = .ok o ∧
        s'.traced = ⟨o.state, Function.update s.traced.written e.1
          (s.traced.writtenAfter e.1 e.2 o.result)⟩ ∧
        s'.author = s.authorAfter e.1 e.2 o.result := by
  rw [step] at hstep
  split at hstep
  · cases hstep
  · next hdeletes =>
    obtain ⟨o, ho, rfl⟩ := Option.map_eq_some_iff.mp hstep
    exact ⟨Bool.eq_false_of_not_eq_true hdeletes, o, eq_ok_of_toOption ho,
      rfl, rfl⟩

theorem step_traced (hstep : s.step ndebug e = some s') :
    s.traced.step ndebug e = some s'.traced := by
  obtain ⟨-, o, ho, htraced, -⟩ := exists_call_of_step hstep
  rw [Traced.step, ho, htraced]
  rfl

/-! ## Ending a transaction -/

/-- The outcome of a transaction that ends with the status. -/
def Ends (status : Status) (outcome : Author) : Prop :=
  status = .committed ∧ outcome = .committed ∨
    status = .aborted ∧ outcome = .rolledBack

/-- The status goes with the author exactly when the author has ended with
it. -/
theorem finish_allows_iff {status : Status} {outcome : Author}
    (hends : Ends status outcome) (t : ThreadId) (author : Author) :
    (author.finish t outcome).Allows status ↔
      author = .inProgress t ∨ author = outcome := by
  rw [Author.finish]
  split
  · next h =>
      rcases hends with ⟨rfl, rfl⟩ | ⟨rfl, rfl⟩
      · simp [h, Author.Allows]
      · simp [h, Author.Allows]
  · next h =>
      rw [or_iff_right h]
      rcases hends with ⟨rfl, rfl⟩ | ⟨rfl, rfl⟩
      · cases author <;> simp [Author.Allows]
      · cases author <;> simp [Author.Allows]

/-- A transaction lists the row of a key exactly when its thread has written
the key. -/
theorem Consistent.mem_listed_iff (hs : s.Consistent) {tx : Transaction}
    (hopen : s.traced.system.manager.transactionOf t = some tx)
    {key : Int32} {r : RowInfoRef} (ha : s.traced.system.Attached key r) :
    r ∈ tx.getAffectedRows.map KeyRowInfo.rowInfo ↔
      key ∈ s.traced.written t := by
  obtain ⟨m, hholds⟩ := hs.holds
  exact mem_rows_iff hholds.attached_inj (hs.accurate t tx hopen) ha

theorem Consistent.exists_attached (hs : s.Consistent) {tx : Transaction}
    (hopen : s.traced.system.manager.transactionOf t = some tx)
    {key : Int32} (hkey : key ∈ s.traced.written t) :
    ∃ r, s.traced.system.Attached key r := by
  obtain ⟨keyRowInfo, -, ha⟩ :=
    Matching.exists_right (hs.accurate t tx hopen) hkey
  exact ⟨keyRowInfo.rowInfo, ha⟩

/-- The row of a key has the status that goes with the key's author. -/
def ReflectsAt (s : Authored) (key : Int32) (r : RowInfoRef) : Prop :=
  ∃ author status, s.author key = some author ∧
    s.traced.system.statusOf r = some status ∧ author.Allows status

/-- After `commit` or `rollback` a row has the status of its author exactly
when its key was not written by the thread, or belongs to it, or to a
transaction that ended the same way. -/
theorem Consistent.ended_reflectsAt_iff (hs : s.Consistent) {status : Status}
    {outcome : Author} (hends : Ends status outcome) {key : Int32}
    {r : RowInfoRef} (ha : s.traced.system.Attached key r)
    (hstatus : s'.traced.system.statusOf r =
      if key ∈ s.traced.written t then
        (s.traced.system.statusOf r).map fun _ => status
      else s.traced.system.statusOf r)
    (hauthor : s'.author key =
      (s.author key).map fun author => author.finish t outcome) :
    s'.ReflectsAt key r ↔ (key ∈ s.traced.written t →
      s.author key = some (.inProgress t) ∨ s.author key = some outcome) := by
  obtain ⟨author, old, hauthor₀, hold, hallows⟩ := hs.reflects key r ha
  rw [hauthor₀, Option.map_some] at hauthor
  rw [hold] at hstatus
  rw [ReflectsAt, hauthor, hstatus, hauthor₀, Option.some.injEq,
    Option.some.injEq, ← finish_allows_iff hends]
  by_cases hkey : key ∈ s.traced.written t
  · simp [hkey]
  · have hother : author.finish t outcome = author := by
      rw [Author.finish, if_neg]
      rintro rfl
      exact hkey (hs.covered key t hauthor₀).2
    simpa [hkey, hother] using hallows

/-- After `commit` or `rollback` the rows have the status of their author
exactly when the keys the thread has written belong to it, or to a transaction
that ended the same way. -/
theorem Consistent.ended_reflects_iff (hs : s.Consistent) {tx : Transaction}
    (hopen : s.traced.system.manager.transactionOf t = some tx)
    {sl : PrimaryIndex}
    (hprimary : s.traced.system.table.primary = some sl) {status : Status}
    {outcome : Author} (hends : Ends status outcome)
    (hsystem : s'.traced.system = s.traced.system.ended t status tx sl)
    (hauthor : ∀ key, s'.author key =
      (s.author key).map fun author => author.finish t outcome) :
    s'.Reflects ↔ ∀ key ∈ s.traced.written t,
      s.author key = some (.inProgress t) ∨ s.author key = some outcome := by
  obtain ⟨m, hholds⟩ := hs.holds
  have hattached : ∀ {key r}, s'.traced.system.Attached key r ↔
      s.traced.system.Attached key r := by
    intro key r
    rw [hsystem]
    exact System.attached_ended hholds hprimary status
  have hat : ∀ {key r}, s.traced.system.Attached key r →
      (s'.ReflectsAt key r ↔ (key ∈ s.traced.written t →
        s.author key = some (.inProgress t) ∨
          s.author key = some outcome)) := by
    intro key r ha
    refine hs.ended_reflectsAt_iff hends ha ?_ (hauthor key)
    rw [hsystem, System.statusOf_ended hprimary]
    simp only [hs.mem_listed_iff hopen ha]
  constructor
  · intro hreflects key hkey
    obtain ⟨r, ha⟩ := hs.exists_attached hopen hkey
    exact (hat ha).mp (hreflects key r (hattached.mpr ha)) hkey
  · intro hkeys key r ha
    exact (hat (hattached.mp ha)).mpr (hkeys key)

/-! ## Storing a row -/

/-- A row keeps its status while a transaction gives it new data: it has the
status of its new author exactly when the old one is still in progress. -/
theorem Consistent.overwritten_reflectsAt_iff (hs : s.Consistent)
    {key : Int32} {r : RowInfoRef} (ha : s.traced.system.Attached key r)
    (hstatus : s'.traced.system.statusOf r = s.traced.system.statusOf r)
    (hauthor : s'.author key = some (.inProgress t)) :
    s'.ReflectsAt key r ↔ ∃ u, s.author key = some (.inProgress u) := by
  obtain ⟨author, status, hauthor₀, hstatus₀, hallows⟩ :=
    hs.reflects key r ha
  rw [ReflectsAt, hauthor, hstatus, hstatus₀, hauthor₀]
  constructor
  · rintro ⟨author', status', hauthor', hstatus', hallows'⟩
    obtain rfl := Option.some.inj hauthor'
    obtain rfl := Option.some.inj hstatus'
    cases author with
    | inProgress u => exact ⟨u, rfl⟩
    | committed => exact absurd hallows hallows'.1
    | rolledBack => exact absurd hallows hallows'.2
  · rintro ⟨u, hu⟩
    obtain rfl := Option.some.inj hu
    exact ⟨_, status, rfl, rfl, hallows⟩

/-- After a row call the rows have the status of their author exactly when the
call, inside a transaction, gives new data only to rows whose author is still
in progress. -/
theorem Consistent.row_reflects_iff (hs : s.Consistent)
    {m : SortedMap Int32 (RowData RowBuffer)} {c : Call Int32 RowBuffer}
    {result : Bool}
    (hrow : s.traced.system.RowCalled m t c result s'.traced.system)
    (hkept : ∀ key, c ≠ .remove key)
    (hauthor : ∀ key, s'.author key =
      if key ∈ c.writes result then
        if (s.traced.system.manager.transactionOf t).isSome then
          some (.inProgress t)
        else some .committed
      else s.author key) :
    s'.Reflects ↔
      ((s.traced.system.manager.transactionOf t).isSome →
        ∀ key ∈ c.writes result, (∃ r, s.traced.system.Attached key r) →
          ∃ u, s.author key = some (.inProgress u)) := by
  have hnew : ∀ {key}, key ∈ c.writes result →
      (s.traced.system.manager.transactionOf t).isSome →
      s'.author key = some (.inProgress t) := by
    intro key hkey hopen
    rw [hauthor, if_pos hkey, if_pos hopen]
  constructor
  · rintro hreflects hopen key hkey ⟨r, ha⟩
    have ha' := hrow.persists key r ha (hkept key)
    rcases hrow.carried key r ha' (Or.inl hopen) with
      ⟨-, hsame⟩ | ⟨-, hfresh, -⟩
    · exact (hs.overwritten_reflectsAt_iff ha hsame (hnew hkey hopen)).mp
        (hreflects key r ha')
    · exact absurd ha (hfresh r)
  · intro hsafe key r ha'
    by_cases hkey : key ∈ c.writes result
    · by_cases hopen : (s.traced.system.manager.transactionOf t).isSome
      · rcases hrow.carried key r ha' (Or.inl hopen) with
          ⟨ha, hsame⟩ | ⟨-, -, hnone⟩
        · exact (hs.overwritten_reflectsAt_iff ha hsame
            (hnew hkey hopen)).mpr (hsafe hopen key hkey ⟨r, ha⟩)
        · exact ⟨_, _, hnew hkey hopen, hnone, by simp [Author.Allows]⟩
      · rw [hauthor, if_pos hkey, if_neg hopen]
        have hclosed := Option.not_isSome_iff_eq_none.mp hopen
        exact ⟨_, _, rfl, hrow.committed hclosed key hkey r ha', rfl⟩
    · rcases hrow.carried key r ha' (Or.inr hkey) with
        ⟨ha, hsame⟩ | ⟨hwrites, -⟩
      · rw [hauthor, if_neg hkey, hsame]
        exact hs.reflects key r ha
      · exact absurd hwrites hkey

/-- In these terms a row call is safe. -/
theorem safe_row_iff {m : SortedMap Int32 (RowData RowBuffer)}
    (hholds : s.traced.system.Holds m) {call : TableCall}
    (hdeletes : call.deletes = false) {c : Call Int32 RowBuffer}
    (hc : call.operation s.traced.system.table.schema = some c)
    {result : Bool} {s₁ : System}
    (hrow : s.traced.system.RowCalled m t c result s₁) :
    s.Safe (t, call) ↔
      ((s.traced.system.manager.transactionOf t).isSome →
        ∀ key ∈ c.writes result, (∃ r, s.traced.system.Attached key r) →
          ∃ u, s.author key = some (.inProgress u)) := by
  have hreturns := hrow.returns
  cases call with
  | beginTransaction => cases hc
  | commit => cases hc
  | rollback => cases hc
  | deleteRow key => cases hdeletes
  | insertRow row draw =>
      obtain ⟨key, -, rfl⟩ := Option.map_eq_some_iff.mp hc
      apply iff_of_true trivial
      rintro - key' hkey' ⟨r, ha⟩
      cases result with
      | false => cases hkey'
      | true =>
          obtain rfl := List.mem_singleton.mp hkey'
          have hbound := hholds.lookup_of_attached ha
          simp [mapCall, hbound] at hreturns
  | updateRow key row =>
      obtain rfl := Option.some.inj hc
      rw [Safe]
      apply imp_congr_right
      intro _
      constructor
      · intro hsafe key' hkey'
        cases result with
        | false => cases hkey'
        | true =>
            obtain rfl := List.mem_singleton.mp hkey'
            exact hsafe
      · rintro hwrites ⟨r, ha⟩
        have hbound := hholds.lookup_of_attached ha
        simp only [mapCall, hbound, if_true, Except.ok.injEq] at hreturns
        subst hreturns
        exact hwrites key List.mem_cons_self ⟨r, ha⟩

/-! ## Steps and runs -/

/-- A step that changes neither the table nor the authors. -/
theorem Reflects.congr (hs : s.Reflects)
    (htable : s'.traced.system.table = s.traced.system.table)
    (hauthor : s'.author = s.author) : s'.Reflects := by
  intro key r ha
  rw [hauthor, System.statusOf, htable]
  exact hs key r (ha.congr htable.symm)

theorem authorAfter_row {call : TableCall} {c : Call Int32 RowBuffer}
    (hc : call.operation s.traced.system.table.schema = some c)
    (result : Bool) (key : Int32) :
    s.authorAfter t call (.ok result) key =
      if key ∈ c.writes result then
        if (s.traced.system.manager.transactionOf t).isSome then
          some (.inProgress t)
        else some .committed
      else s.author key := by
  have hwrites : s.writesOf call result = c.writes result := by
    rw [writesOf, hc]
    rfl
  rw [← hwrites]
  cases call with
  | beginTransaction => cases hc
  | commit => cases hc
  | rollback => cases hc
  | insertRow row draw => rfl
  | updateRow key row => rfl
  | deleteRow key => rfl

/-- The rows have the status of their author after a step exactly when the
step is safe. -/
theorem Consistent.step_reflects_iff (hs : s.Consistent)
    (hstep : s.step ndebug e = some s') : s'.Reflects ↔ s.Safe e := by
  obtain ⟨t, call⟩ := e
  obtain ⟨hdeletes, o, ho, htraced, hauthor⟩ := exists_call_of_step hstep
  obtain ⟨m, hholds⟩ := hs.holds
  have hsystem : s'.traced.system = o.state := by rw [htraced]
  cases hholds.called ho with
  | begun hclosed =>
      have hsame : s'.Reflects :=
        hs.reflects.congr (by rw [hsystem]; rfl) (by rw [hauthor]; rfl)
      exact iff_of_true hsame trivial
  | refused message hrefused =>
      have hsame : s'.Reflects :=
        hs.reflects.congr (by rw [hsystem]; rfl) (by rw [hauthor]; rfl)
      exact iff_of_true hsame trivial
  | @ended _ status tx sl hcall hopen hprimary =>
      rcases hcall with ⟨rfl, rfl⟩ | ⟨rfl, rfl⟩
      · exact hs.ended_reflects_iff hopen hprimary (Or.inl ⟨rfl, rfl⟩) hsystem
          fun key => by rw [hauthor]; rfl
      · exact hs.ended_reflects_iff hopen hprimary (Or.inr ⟨rfl, rfl⟩) hsystem
          fun key => by rw [hauthor]; rfl
  | @row _ c result s₁ hc hrow =>
      rw [safe_row_iff hholds hdeletes hc hrow]
      obtain rfl : s'.traced.system = s₁ := hsystem
      refine hs.row_reflects_iff hrow ?_ fun key => ?_
      · rintro key rfl
        rw [Traced.eq_deleteRow_of_operation hc] at hdeletes
        cases hdeletes
      · rw [hauthor]
        exact authorAfter_row hc result key

theorem inProgress_of_finish {author : Option Author} {outcome : Author}
    (houtcome : ∀ v, outcome ≠ .inProgress v)
    (h : (author.map fun author => author.finish t outcome) =
      some (.inProgress u)) : u ≠ t ∧ author = some (.inProgress u) := by
  obtain ⟨author, rfl, hu⟩ := Option.map_eq_some_iff.mp h
  rw [Author.finish] at hu
  split at hu
  · exact absurd hu (houtcome u)
  · next hne =>
    subst hu
    exact ⟨fun heq => hne (by rw [heq]), rfl⟩

/-- A thread whose transaction is the author of a key still has it open, and
has written the key. -/
theorem Consistent.step_covered (hs : s.Consistent)
    (hstep : s.step ndebug e = some s') (key : Int32) (u : ThreadId)
    (hauthor' : s'.author key = some (.inProgress u)) :
    (s'.traced.system.manager.transactionOf u).isSome ∧
      key ∈ s'.traced.written u := by
  obtain ⟨t, call⟩ := e
  obtain ⟨hdeletes, o, ho, htraced, hauthor⟩ := exists_call_of_step hstep
  obtain ⟨m, hholds⟩ := hs.holds
  rw [hauthor] at hauthor'
  rw [htraced]
  cases hholds.called ho with
  | begun hclosed =>
      obtain ⟨hopen, hwritten⟩ := hs.covered key u hauthor'
      have hu : u ≠ t := by
        rintro rfl
        rw [hclosed] at hopen
        cases hopen
      simp only [Outcome.state_returned, System.transactionOf_begun,
        Function.update_of_ne hu]
      exact ⟨hopen, hwritten⟩
  | refused message hrefused =>
      obtain ⟨hopen, hwritten⟩ := hs.covered key u hauthor'
      have hsame : s.traced.writtenAfter t .beginTransaction
          (.error message) = s.traced.written t := rfl
      simp only [Outcome.state_thrown, System.transactionOf_issued,
        Outcome.result_thrown, hsame, Function.update_eq_self]
      exact ⟨hopen, hwritten⟩
  | @ended _ status tx sl hcall hopen hprimary =>
      have hfinish : u ≠ t ∧ s.author key = some (.inProgress u) := by
        rcases hcall with ⟨rfl, rfl⟩ | ⟨rfl, rfl⟩
        · exact inProgress_of_finish (by simp) hauthor'
        · exact inProgress_of_finish (by simp) hauthor'
      obtain ⟨hopen', hwritten⟩ := hs.covered key u hfinish.2
      simp only [Outcome.state_returned, System.transactionOf_ended,
        Function.update_of_ne hfinish.1]
      exact ⟨hopen', hwritten⟩
  | @row _ c result s₁ hc hrow =>
      obtain ⟨rows, -, htxs⟩ := hrow.recorded
      simp only [Outcome.state_returned, Outcome.result_returned, htxs,
        Traced.writtenAfter_row hc] at hauthor' ⊢
      rw [authorAfter_row hc] at hauthor'
      by_cases hkey : key ∈ c.writes result
      · rw [if_pos hkey] at hauthor'
        split at hauthor'
        · next hopen =>
          obtain rfl := Author.inProgress.inj (Option.some.inj hauthor')
          simp [hopen, hkey]
        · cases hauthor'
      · rw [if_neg hkey] at hauthor'
        obtain ⟨hopen, hwritten⟩ := hs.covered key u hauthor'
        by_cases hu : u = t
        · subst hu
          simp [hopen, hwritten]
        · simp [hu, hopen, hwritten]

/-- Safe steps keep the records in step with the table. -/
theorem Consistent.step (hs : s.Consistent) (hsafe : s.Safe e)
    (hstep : s.step ndebug e = some s') : s'.Consistent := by
  obtain ⟨hdeletes, -⟩ := exists_call_of_step hstep
  obtain ⟨m, hholds⟩ := hs.holds
  refine ⟨Traced.exists_holds hholds (step_traced hstep), fun u => ?_,
    (hs.step_reflects_iff hstep).mpr hsafe, hs.step_covered hstep⟩
  refine (hs.accurate u).step hholds ?_ (step_traced hstep)
  intro key hkey
  rw [hkey] at hdeletes
  cases hdeletes

theorem initial_consistent {s₀ : System} (hfinal : s₀.Finalized ndebug) :
    (initial s₀).Consistent where
  holds := ⟨_, hfinal.holds⟩
  accurate u tx hopen := by
    rw [initial, Traced.initial, hfinal.closed u] at hopen
    cases hopen
  reflects key r ha := by
    have hbound := hfinal.holds.lookup_of_attached ha
    cases hbound
  covered key u hauthor := by cases hauthor

/-- In a run of safe calls the status of every row is that of the transaction
that last stored its data.  The calls of a run all keep this exactly when they
are all safe. -/
theorem status_reflects_author {s₀ : System} (hfinal : s₀.Finalized ndebug)
    {events : List (ThreadId × TableCall)}
    (hrun : Machine.run (Authored.step ndebug) (initial s₀) events =
      some s) :
    (Machine.Guarded (Authored.step ndebug) Safe (initial s₀) events →
      s.Reflects) ∧
    (Machine.Guarded (Authored.step ndebug) (Keeps ndebug) (initial s₀)
        events ↔
      Machine.Guarded (Authored.step ndebug) Safe (initial s₀) events) := by
  have hinitial := initial_consistent hfinal
  constructor
  · intro hsafe
    exact (Machine.run_invariant_of_guarded
      (fun _ _ _ hs hsafe hstep => Consistent.step hs hsafe hstep) hinitial
      hsafe hrun).reflects
  · apply Machine.guarded_iff ?_
      (fun _ _ _ hs hsafe hstep => Consistent.step hs hsafe hstep) hinitial
      hrun
    intro s e s' hs hstep
    rw [← hs.step_reflects_iff hstep, Keeps, hstep]
    simp

/-- A transaction inserts a row and commits. -/
theorem status_reflects_author_committed :
    ∃ s, Machine.run (Authored.step false) (initial System.keySystem)
        [(0, .beginTransaction),
          (0, .insertRow (System.keyRow 0 7) fun _ => 1), (0, .commit)] =
        some s ∧
      s.Reflects := by
  refine ⟨_, rfl, (@status_reflects_author _ _ _
    (System.keySystem_finalized false)
    [(0, .beginTransaction), (0, .insertRow (System.keyRow 0 7) fun _ => 1),
      (0, .commit)] rfl).1 ?_⟩
  refine ⟨trivial, fun s₁ h₁ => ?_⟩
  obtain rfl : _ = s₁ := Option.some.inj h₁
  refine ⟨trivial, fun s₂ h₂ => ?_⟩
  obtain rfl : _ = s₂ := Option.some.inj h₂
  refine ⟨fun key hkey => ?_, fun _ _ => trivial⟩
  have hseven : key = 7 := List.mem_singleton.mp hkey
  rw [hseven]
  exact Or.inl rfl

/-- A row that was committed is updated inside a transaction: its status is
still that of the transaction before. -/
theorem update_keeps_committed :
    ∃ s, System.keySystem.Finalized false ∧
      Machine.run (Authored.step false) (initial System.keySystem)
        [(0, .insertRow (System.keyRow 0 7) fun _ => 1),
          (0, .beginTransaction), (0, .updateRow 7 (System.keyRow 1 7))] =
        some s ∧
      s.author 7 = some (.inProgress 0) ∧
      s.traced.system.statusOf 0 = some .committed ∧
      s.traced.system.Attached 7 0 := by
  refine ⟨_, System.keySystem_finalized false, rfl, rfl, rfl, ?_⟩
  refine ⟨_, rfl, 0, [1], 1, ⟨7, some 0, 1⟩, rfl, ?_, by decide, rfl, rfl,
    rfl, rfl⟩
  exact ⟨rfl, ⟨⟨7, some 0, 1⟩, rfl, by decide⟩, rfl⟩

end Authored

end SquidDB.Engine
