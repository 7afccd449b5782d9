import SquidDB.Lib.Lease
import SquidDB.Engine.ThreadProtocol

/-!
# Active ids are leases

A thread holds an id from `getNextTransactionId` until
`removeTransactionActive`: in between the id is in the thread's hands or in
the transaction of its context.  Every step takes a lease, gives one back,
leaves all leases alone, is an exit, which abandons what the thread holds, or a
`beginTransaction` that throws, whose id nobody holds.
-/

namespace SquidDB.Engine

open Checked SquidDB.Core

namespace Threads

variable {s s' : Threads} {e : ThreadEvent} {t : ThreadId}

/-! ## What a step can do -/

/-- Inside the sections of `beginTransaction`, `commit` and `rollback` a live
thread has no transaction. -/
structure Quiet (s : Threads) : Prop where
  dead : ∀ t, s.manager.context t = none → s.position t = .outside
  issued : ∀ t id implicitTransaction,
    s.position t = .issued id implicitTransaction →
      s.manager.context t = some ThreadContext.new
  closed : ∀ t id, s.position t = .closed id →
    s.manager.context t = some ThreadContext.new

/-- The transaction `beginTransaction` opens. -/
def opened (s : Threads) (id : ℕ) : Transaction :=
  Transaction.new id (computeViewpoint s.manager id) .repeatableRead

/-- The machine's steps, with the states they lead to written out. -/
inductive Step (s : Threads) : ThreadEvent → Threads → Prop where
  | start (t : ThreadId) (hdead : s.manager.context t = none) :
      Step s (.start t)
        { s with manager := s.manager.setThreadContext t ThreadContext.new }
  | exit (t : ThreadId) (hposition : s.position t = .outside) :
      Step s (.exit t) { s with manager := s.manager.exitThread t }
  | issue (t : ThreadId) (c : ThreadCall) (implicitTransaction : Bool)
      (hcall : c ≠ .commit ∧ c ≠ .rollback)
      (hposition : s.position t = .outside)
      (hcontext : s.manager.context t = some ThreadContext.new) :
      Step s (.call t c) (s.issue t implicitTransaction)
  | refuse (t : ThreadId) (transaction : Transaction)
      (hposition : s.position t = .outside)
      (hcontext : s.manager.context t = some ⟨some transaction⟩) :
      Step s (.call t .beginTransaction)
        { s with
          manager := s.manager.getNextTransactionId.2
          issued := s.issued ++ [s.manager.nextTransactionId] }
  | begin (t : ThreadId) (id : ℕ) (implicitTransaction : Bool)
      (position : Position)
      (hissued : s.position t = .issued id implicitTransaction)
      (hposition : position = .outside ∨ position = .begun) :
      Step s (.continue t)
        { s with
          manager := s.manager.setThreadContext t ⟨some (s.opened id)⟩
          position := Function.update s.position t position
          viewpoints := s.viewpoints ++
            [(id, computeViewpoint s.manager id)] }
  | record (t : ThreadId) (rows : List KeyRowInfo)
      (transaction : Transaction) (hposition : s.position t = .outside)
      (hcontext : s.manager.context t = some ⟨some transaction⟩) :
      Step s (.call t (.row rows)) (s.record t transaction rows)
  | close (t : ThreadId) (e : ThreadEvent) (transaction : Transaction)
      (hposition : s.position t = .outside ∨ s.position t = .begun)
      (hcontext : s.manager.context t = some ⟨some transaction⟩) :
      Step s e
        { s with
          manager := s.manager.setThreadContext t ThreadContext.new
          position := Function.update s.position t
            (.closed transaction.transactionId) }
  | remove (t : ThreadId) (id : ℕ) (hposition : s.position t = .closed id) :
      Step s (.continue t)
        { s with
          manager := s.manager.removeTransactionActive id
          position := Function.update s.position t .outside }

theorem begin_eq (hcontext : s.manager.context t = some ThreadContext.new)
    (id : ℕ) (position : Position) :
    s.begin t id position = some
      { s with
        manager := s.manager.setThreadContext t ⟨some (s.opened id)⟩
        position := Function.update s.position t position
        viewpoints := s.viewpoints ++
          [(id, computeViewpoint s.manager id)] } := by
  simp [begin, openTransaction, ThreadContextManager.getThreadContext,
    hcontext, ThreadContext.beginTransaction, ThreadContext.new, opened]

/-- `beginTransaction` throws with an open transaction. -/
theorem refuse_eq {transaction : Transaction}
    (hcontext : s.manager.context t = some ⟨some transaction⟩) :
    s.refuse t = { s with
      manager := s.manager.getNextTransactionId.2
      issued := s.issued ++ [s.manager.nextTransactionId] } := by
  have hcontext' : s.manager.getNextTransactionId.2.context t =
      some ⟨some transaction⟩ := hcontext
  have hthrown : (beginTransaction s.manager t).state =
      s.manager.getNextTransactionId.2 := by
    simp [beginTransaction, openTransaction,
      ThreadContextManager.getThreadContext, hcontext',
      ThreadContext.beginTransaction]
  rw [refuse, hthrown]
  rfl

theorem close_eq_some (h : s.close t = some s') :
    ∃ transaction, s.manager.context t = some ⟨some transaction⟩ ∧
      s' = { s with
        manager := s.manager.setThreadContext t ThreadContext.new
        position := Function.update s.position t
          (.closed transaction.transactionId) } := by
  rw [close] at h
  split at h
  · cases h
  · next ctx hctx =>
    split at h
    · cases h
    · next transaction htransaction =>
      obtain ⟨htransaction'⟩ := ctx
      subst htransaction
      exact ⟨transaction, hctx, (Option.some.inj h).symm⟩

theorem context_eq_new {ctx : ThreadContext} (h : ctx.transaction = none) :
    ctx = ThreadContext.new := by
  cases ctx
  subst h
  rfl

/-- The first step of a call. -/
theorem call_cases {ctx : ThreadContext} {c : ThreadCall}
    (hctx : s.manager.context t = some ctx)
    (hposition : s.position t = .outside)
    (h : s.call t ctx c = some s') : Step s (.call t c) s' := by
  cases c with
  | beginTransaction =>
      rw [call] at h
      split at h
      · next hsome =>
        obtain ⟨transaction, hopen⟩ := Option.isSome_iff_exists.mp hsome
        obtain ⟨inner⟩ := ctx
        subst hopen
        rw [← Option.some.inj h, refuse_eq hctx]
        exact .refuse t transaction hposition hctx
      · next hnone =>
        rw [Bool.not_eq_true, Option.isSome_eq_false_iff,
          Option.isNone_iff_eq_none] at hnone
        rw [← Option.some.inj h]
        exact .issue t _ _ (by simp) hposition (context_eq_new hnone ▸ hctx)
  | commit =>
      obtain ⟨transaction, hcontext, rfl⟩ := close_eq_some h
      exact .close t _ transaction (Or.inl hposition) hcontext
  | rollback =>
      obtain ⟨transaction, hcontext, rfl⟩ := close_eq_some h
      exact .close t _ transaction (Or.inl hposition) hcontext
  | row rows =>
      rw [call] at h
      split at h
      · next transaction hsome =>
        rw [← Option.some.inj h]
        obtain ⟨inner⟩ := ctx
        subst hsome
        exact .record t rows transaction hposition hctx
      · next hnone =>
        rw [← Option.some.inj h]
        exact .issue t _ _ (by simp) hposition (context_eq_new hnone ▸ hctx)

theorem step_cases (hquiet : Quiet s) (h : s.step e = some s') :
    Step s e s' := by
  cases e with
  | start t =>
      rw [step] at h
      split at h
      · next hdead =>
        rw [← Option.some.inj h, ThreadContextManager.getThreadContext, hdead]
        exact .start t hdead
      · cases h
  | exit t =>
      rw [step] at h
      split at h
      · next hlive =>
        rw [← Option.some.inj h]
        exact .exit t hlive.2
      · cases h
  | call t c =>
      rw [step] at h
      split at h
      · next ctx hctx hposition => exact call_cases hctx hposition h
      · cases h
  | «continue» t =>
      rw [step] at h
      split at h
      · cases h
      · next id hissued =>
        rw [begin_eq (hquiet.issued t id false hissued)] at h
        rw [← Option.some.inj h]
        exact .begin t id false _ hissued (Or.inl rfl)
      · next id hissued =>
        rw [begin_eq (hquiet.issued t id true hissued)] at h
        rw [← Option.some.inj h]
        exact .begin t id true _ hissued (Or.inr rfl)
      · next hbegun =>
        obtain ⟨transaction, hcontext, rfl⟩ := close_eq_some h
        exact .close t _ transaction (Or.inr hbegun) hcontext
      · next id hclosed =>
        rw [← Option.some.inj h]
        exact .remove t id hclosed

/-! ## Leases -/

/-- The id a thread holds. -/
def holder (s : Threads) (t : ThreadId) : Option ℕ :=
  match s.position t with
  | .issued id _ => some id
  | .closed id => some id
  | .outside | .begun =>
      ((s.manager.context t).bind ThreadContext.transaction).map
        Transaction.transactionId

/-- The active ids and the threads that hold them. -/
def leases (s : Threads) : Leases ThreadId ℕ :=
  ⟨s.manager.transactionId, s.holder⟩

theorem holder_congr (hposition : s'.position t = s.position t)
    (hcontext : s'.manager.context t = s.manager.context t) :
    s'.holder t = s.holder t := by
  rw [holder, hposition, hcontext, holder]

theorem holder_moved {o : Option ℕ}
    (hothers : ∀ u, u ≠ t → s'.holder u = s.holder u)
    (hholder : s'.holder t = o) :
    s'.holder = Function.update s.holder t o := by
  funext u
  by_cases hu : u = t
  · rw [hu, hholder, Function.update_self]
  · rw [hothers u hu, Function.update_of_ne hu]

theorem leases_eq (hactive : s'.manager.transactionId =
      s.manager.transactionId)
    (hothers : ∀ u, u ≠ t → s'.holder u = s.holder u)
    (hholder : s'.holder t = s.holder t) : s'.leases = s.leases := by
  rw [leases, leases, hactive, holder_moved hothers hholder,
    Function.update_eq_self]

theorem holder_update {manager : ThreadContextManager} {ctx : ThreadContext}
    {position : Position} {u : ThreadId} (hu : u ≠ t)
    (hcontext : manager.context =
      Function.update s.manager.context t (some ctx)) :
    ({ s with
        manager := manager
        position := Function.update s.position t position } : Threads).holder
      u = s.holder u := by
  refine holder_congr ?_ ?_
  · exact Function.update_of_ne hu _ _
  · change manager.context u = _
    rw [hcontext, Function.update_of_ne hu]

/-- What a step does to the leases. -/
theorem step_leases (hquiet : Quiet s) (h : Step s e s') :
    s'.leases = s.leases ∨
      (∃ t, e = .exit t ∧ s.position t = .outside ∧
        s'.leases = s.leases.abandon t) ∨
      (∃ t c, e = .call t c ∧ c ≠ .commit ∧ c ≠ .rollback ∧
        s.manager.context t = some ThreadContext.new ∧ s.holder t = none ∧
        s'.leases = s.leases.acquire t s.manager.nextTransactionId) ∨
      (∃ t id, s.holder t = some id ∧
        s'.leases = s.leases.release t id) ∨
      ∃ t transaction, e = .call t .beginTransaction ∧
        s.manager.context t = some ⟨some transaction⟩ ∧
        s'.leases = s.leases.strand s.manager.nextTransactionId := by
  cases h with
  | start t hdead =>
      left
      have hposition := hquiet.dead t hdead
      refine leases_eq (t := t) rfl (fun u hu => ?_) ?_
      · exact holder_congr rfl (Function.update_of_ne hu _ _)
      · simp [holder, hposition, hdead, ThreadContextManager.setThreadContext,
          ThreadContext.new]
  | exit t hposition =>
      refine Or.inr (Or.inl ⟨t, rfl, hposition, ?_⟩)
      apply congrArg (Leases.mk s.manager.transactionId)
      apply holder_moved
      · intro u hu
        exact holder_congr rfl (Function.update_of_ne hu _ _)
      · simp [holder, hposition, ThreadContextManager.exitThread]
  | issue t c implicitTransaction hcall hposition hcontext =>
      refine Or.inr (Or.inr (Or.inl
        ⟨t, c, rfl, hcall.1, hcall.2, hcontext, ?_, ?_⟩))
      · simp [holder, hposition, hcontext, ThreadContext.new]
      · apply congrArg (Leases.mk _)
        apply holder_moved
        · intro u hu
          exact holder_congr (Function.update_of_ne hu _ _) rfl
        · simp [holder, issue, ThreadContextManager.getNextTransactionId]
  | refuse t transaction hposition hcontext =>
      refine Or.inr (Or.inr (Or.inr (Or.inr ⟨t, transaction, rfl, hcontext,
        ?_⟩)))
      exact congrArg (Leases.mk _) (funext fun u => holder_congr rfl rfl)
  | begin t id implicitTransaction position hissued hposition =>
      left
      refine leases_eq (t := t) rfl (fun u hu => ?_) ?_
      · exact holder_congr (Function.update_of_ne hu _ _)
          (Function.update_of_ne hu _ _)
      · rcases hposition with rfl | rfl
        · simp [holder, hissued, ThreadContextManager.setThreadContext,
            opened, Transaction.new]
        · simp [holder, hissued, ThreadContextManager.setThreadContext,
            opened, Transaction.new]
  | record t rows transaction hposition hcontext =>
      left
      refine leases_eq (t := t) rfl (fun u hu => ?_) ?_
      · exact holder_congr rfl (Function.update_of_ne hu _ _)
      · simp [holder, record, hposition, hcontext,
          ThreadContextManager.setThreadContext]
  | close t e transaction hposition hcontext =>
      left
      refine leases_eq (t := t) rfl (fun u hu => ?_) ?_
      · exact holder_update hu rfl
      · rcases hposition with hposition | hposition
        · simp [holder, hposition, hcontext]
        · simp [holder, hposition, hcontext]
  | remove t id hposition =>
      refine Or.inr (Or.inr (Or.inr (Or.inl ⟨t, id, ?_, ?_⟩)))
      · simp [holder, hposition]
      · apply congrArg (Leases.mk _)
        apply holder_moved
        · intro u hu
          exact holder_congr (Function.update_of_ne hu _ _) rfl
        · simp [holder, hquiet.closed t id hposition, ThreadContext.new,
            ThreadContextManager.removeTransactionActive]

theorem Quiet.of_moved (hquiet : Quiet s) (t : ThreadId)
    (hposition : ∀ u, u ≠ t → s'.position u = s.position u)
    (hcontext : ∀ u, u ≠ t → s'.manager.context u = s.manager.context u)
    (hdead : s'.manager.context t = none → s'.position t = .outside)
    (hissued : ∀ id implicitTransaction,
      s'.position t = .issued id implicitTransaction →
        s'.manager.context t = some ThreadContext.new)
    (hclosed : ∀ id, s'.position t = .closed id →
      s'.manager.context t = some ThreadContext.new) : Quiet s' := by
  refine ⟨fun u hu => ?_, fun u id b hu => ?_, fun u id hu => ?_⟩
  · by_cases hut : u = t
    · exact hut ▸ hdead (hut ▸ hu)
    · rw [hcontext u hut] at hu
      rw [hposition u hut]
      exact hquiet.dead u hu
  · by_cases hut : u = t
    · exact hut ▸ hissued id b (hut ▸ hu)
    · rw [hposition u hut] at hu
      rw [hcontext u hut]
      exact hquiet.issued u id b hu
  · by_cases hut : u = t
    · exact hut ▸ hclosed id (hut ▸ hu)
    · rw [hposition u hut] at hu
      rw [hcontext u hut]
      exact hquiet.closed u id hu

theorem Quiet.of_outside (hquiet : Quiet s) (t : ThreadId)
    (hposition : ∀ u, u ≠ t → s'.position u = s.position u)
    (hcontext : ∀ u, u ≠ t → s'.manager.context u = s.manager.context u)
    (houtside : s'.position t = .outside) : Quiet s' := by
  apply hquiet.of_moved t hposition hcontext
  · exact fun _ => houtside
  · intro id b hissued
    cases houtside.symm.trans hissued
  · intro id hclosed
    cases houtside.symm.trans hclosed

theorem Quiet.of_new (hquiet : Quiet s) (t : ThreadId)
    (hposition : ∀ u, u ≠ t → s'.position u = s.position u)
    (hcontext : ∀ u, u ≠ t → s'.manager.context u = s.manager.context u)
    (hnew : s'.manager.context t = some ThreadContext.new) : Quiet s' := by
  apply hquiet.of_moved t hposition hcontext
  · intro hdead
    cases hnew.symm.trans hdead
  · exact fun _ _ _ => hnew
  · exact fun _ _ => hnew

/-- Threads stay quiet inside the sections. -/
theorem Step.quiet (hquiet : Quiet s) (h : Step s e s') : Quiet s' := by
  have hother : ∀ {α : Type} {f : ThreadId → α} {t : ThreadId} {a : α},
      ∀ u, u ≠ t → Function.update f t a u = f u :=
    fun u hu => Function.update_of_ne hu _ _
  cases h with
  | start t hdead =>
      exact hquiet.of_new t (fun _ _ => rfl) hother (Function.update_self ..)
  | exit t hposition =>
      exact hquiet.of_outside t (fun _ _ => rfl) hother hposition
  | issue t c implicitTransaction hcall hposition hcontext =>
      exact hquiet.of_new t hother (fun _ _ => rfl) hcontext
  | refuse t transaction hposition hcontext =>
      exact hquiet.of_outside t (fun _ _ => rfl) (fun _ _ => rfl) hposition
  | begin t id implicitTransaction position hissued hposition =>
      have hself : Function.update s.position t position t = position :=
        Function.update_self ..
      apply hquiet.of_moved t hother hother
      · intro hdead
        cases (Function.update_self ..).symm.trans hdead
      · intro id' b hissued'
        have hissued' := hself.symm.trans hissued'
        rcases hposition with rfl | rfl <;> cases hissued'
      · intro id' hclosed
        have hclosed := hself.symm.trans hclosed
        rcases hposition with rfl | rfl <;> cases hclosed
  | record t rows transaction hposition hcontext =>
      exact hquiet.of_outside t (fun _ _ => rfl) hother hposition
  | close t e transaction hposition hcontext =>
      exact hquiet.of_new t hother hother (Function.update_self ..)
  | remove t id hposition =>
      exact hquiet.of_outside t hother (fun _ _ => rfl)
        (Function.update_self ..)

theorem initial_quiet : Quiet initial where
  dead := fun _ _ => rfl
  issued := fun _ _ _ h => by cases h
  closed := fun _ _ h => by cases h

/-! ## Runs -/

/-- The next id is not in use; this cannot fail before the counter wraps
around. -/
def Fresh (s : Threads) : Prop :=
  s.manager.nextTransactionId ∉ s.manager.transactionId

/-- The thread has no open transaction. -/
def Closed (s : Threads) (t : ThreadId) : Prop :=
  ∀ ctx, s.manager.context t = some ctx → ctx.getTransaction = none

/-- A thread only exits, and calls `beginTransaction`, without an open
transaction, and no call takes an id that is still in use. -/
def Orderly (s : Threads) : ThreadEvent → Prop
  | .exit t => s.Closed t
  | .call t .beginTransaction => s.Closed t ∧ s.Fresh
  | .call t (.row _) => s.Closed t → s.Fresh
  | _ => True

theorem sound_step (hquiet : Quiet s) (hsound : s.leases.Sound)
    (hfresh : s.Fresh) (h : Step s e s') : s'.leases.Sound := by
  rcases step_leases hquiet h with
    hsame | ⟨t, -, -, hl⟩ | ⟨t, c, -, -, -, -, -, hl⟩ | ⟨t, id, hheld, hl⟩ |
      ⟨t, -, -, -, hl⟩
  · rw [hsame]
    exact hsound
  · rw [hl]
    exact hsound.abandon
  · rw [hl]
    exact hsound.acquire hfresh
  · rw [hl]
    exact hsound.release hheld
  · rw [hl]
    exact hsound.strand

theorem exact_step (hquiet : Quiet s) (hexact : s.leases.Exact)
    (horderly : s.Orderly e) (h : Step s e s') : s'.leases.Exact := by
  rcases step_leases hquiet h with
    hsame | ⟨t, rfl, hposition, hl⟩ |
      ⟨t, c, rfl, hcommit, hrollback, hcontext, hnone, hl⟩ |
      ⟨t, id, hheld, hl⟩ | ⟨t, transaction, rfl, hcontext, -⟩
  · rw [hsame]
    exact hexact
  · -- the thread has no open transaction, so it leaves empty-handed
    have hnone : s.leases.holder t = none := by
      change s.holder t = none
      rcases hcontext : s.manager.context t with _ | ctx
      · simp [holder, hposition, hcontext]
      · have hclosed : ctx.transaction = none := horderly ctx hcontext
        simp [holder, hposition, hcontext, hclosed]
    rw [hl, Leases.abandon_of_none hnone]
    exact hexact
  · rw [hl]
    refine hexact.acquire ?_ hnone
    have hclosed : s.Closed t := by
      intro ctx hctx
      rw [hcontext, Option.some.injEq] at hctx
      rw [← hctx]
      rfl
    cases c with
    | beginTransaction => exact horderly.2
    | commit => exact absurd rfl hcommit
    | rollback => exact absurd rfl hrollback
    | row rows => exact horderly hclosed
  · rw [hl]
    exact hexact.release hheld
  · cases horderly.1 _ hcontext

/-- What is true in every state of an orderly run. -/
theorem run_exact {events : List ThreadEvent}
    (hguard : Machine.Guarded step Orderly initial events)
    (hrun : Machine.run step initial events = some s) :
    Quiet s ∧ s.leases.Exact := by
  refine Machine.run_invariant_of_guarded (P := fun s =>
    Quiet s ∧ s.leases.Exact) ?_ ?_ hguard hrun
  · rintro s e s' ⟨hquiet, hexact⟩ horderly hstep
    have h := step_cases hquiet hstep
    exact ⟨h.quiet hquiet, exact_step hquiet hexact horderly h⟩
  · exact ⟨initial_quiet, Leases.exact_empty⟩

/-- No thread is inside a call. -/
def Calm (s : Threads) : Prop := ∀ t, s.position t = .outside

/-- The id is held by the context of a live thread. -/
def HeldByContext (s : Threads) (id : ℕ) : Prop :=
  ∃ t ctx transaction, s.manager.context t = some ctx ∧
    ctx.getTransaction = some transaction ∧ transaction.transactionId = id

theorem holder_eq_some_of_outside (hposition : s.position t = .outside)
    {id : ℕ} : s.holder t = some id ↔
      ∃ ctx transaction, s.manager.context t = some ctx ∧
        ctx.getTransaction = some transaction ∧
        transaction.transactionId = id := by
  rw [holder, hposition]
  simp only [Option.map_eq_some_iff, Option.bind_eq_some_iff]
  constructor
  · rintro ⟨transaction, ⟨ctx, hctx, hopen⟩, rfl⟩
    exact ⟨ctx, transaction, hctx, hopen, rfl⟩
  · rintro ⟨ctx, transaction, hctx, hopen, rfl⟩
    exact ⟨transaction, ⟨ctx, hctx, hopen⟩, rfl⟩

/-- In every state of an orderly run the active ids are those some thread
holds; when no thread is inside a call, they are the ids of the transactions
in the contexts of the live threads. -/
theorem active_eq_held {events : List ThreadEvent} {s : Threads}
    (hguard : Machine.Guarded step Orderly initial events)
    (hrun : Machine.run step initial events = some s) :
    (∀ id, id ∈ s.manager.transactionId ↔
      ∃ t, s.manager.context t ≠ none ∧ s.holder t = some id) ∧
    (s.Calm → ∀ id, id ∈ s.manager.transactionId ↔ s.HeldByContext id) := by
  obtain ⟨hquiet, hexact⟩ := run_exact hguard hrun
  have hiff : ∀ id, id ∈ s.manager.transactionId ↔
      ∃ t, s.holder t = some id := by
    intro id
    constructor
    · exact hexact.held id
    · rintro ⟨t, ht⟩
      exact hexact.active t id ht
  refine ⟨fun id => ?_, fun hcalm id => ?_⟩
  · rw [hiff]
    refine exists_congr fun t => ⟨fun ht => ⟨?_, ht⟩, And.right⟩
    intro hdead
    simp [holder, hquiet.dead t hdead, hdead] at ht
  · rw [hiff]
    exact exists_congr fun t => holder_eq_some_of_outside (hcalm t)

/-- One thread runs a transaction and exits behind it: no id is active. -/
theorem active_eq_held_one_thread :
    Machine.Guarded step Orderly initial
        [.start 0, .call 0 .beginTransaction, .continue 0, .call 0 .commit,
          .continue 0, .exit 0] ∧
      ∃ s, Machine.run step initial
          [.start 0, .call 0 .beginTransaction, .continue 0, .call 0 .commit,
            .continue 0, .exit 0] = some s ∧
        s.issued = [1] ∧ ∀ id, id ∉ s.manager.transactionId := by
  have hguard : Machine.Guarded step Orderly initial
      [.start 0, .call 0 .beginTransaction, .continue 0, .call 0 .commit,
        .continue 0, .exit 0] := by
    refine ⟨trivial, fun s₁ h₁ => ?_⟩
    obtain rfl : _ = s₁ := Option.some.inj h₁
    refine ⟨⟨fun ctx hctx => ?_, Finset.notMem_empty _⟩, fun s₂ h₂ => ?_⟩
    · obtain rfl : _ = ctx := Option.some.inj hctx
      rfl
    obtain rfl : _ = s₂ := Option.some.inj h₂
    refine ⟨trivial, fun s₃ h₃ => ?_⟩
    obtain rfl : _ = s₃ := Option.some.inj h₃
    refine ⟨trivial, fun s₄ h₄ => ?_⟩
    obtain rfl : _ = s₄ := Option.some.inj h₄
    refine ⟨trivial, fun s₅ h₅ => ?_⟩
    obtain rfl : _ = s₅ := Option.some.inj h₅
    refine ⟨fun ctx hctx => ?_, fun _ _ => trivial⟩
    obtain rfl : _ = ctx := Option.some.inj hctx
    rfl
  obtain ⟨s, hrun, hissued, hdead⟩ : ∃ s, Machine.run step initial
      [.start 0, .call 0 .beginTransaction, .continue 0, .call 0 .commit,
        .continue 0, .exit 0] = some s ∧
      s.issued = [1] ∧ ∀ t, s.manager.context t = none := by
    refine ⟨_, rfl, rfl, fun t => ?_⟩
    simp [ThreadContextManager.exitThread, issue,
      ThreadContextManager.removeTransactionActive,
      ThreadContextManager.setThreadContext,
      ThreadContextManager.getNextTransactionId,
      ThreadContextManager.getThreadContext, initial,
      ThreadContextManager.new]
  refine ⟨hguard, s, hrun, hissued, fun id hid => ?_⟩
  obtain ⟨t, hlive, -⟩ := ((active_eq_held hguard hrun).1 id).mp hid
  exact hlive (hdead t)

/-- A thread begins a transaction and exits: its id stays active though no
thread holds it. -/
theorem exit_pins_active :
    ∃ s, Machine.run step initial
        [.start 0, .call 0 .beginTransaction, .continue 0, .exit 0] =
          some s ∧
      s.Calm ∧ 1 ∈ s.manager.transactionId ∧ ¬s.HeldByContext 1 := by
  refine ⟨_, rfl, ?_, by decide, ?_⟩
  · intro t
    by_cases ht : t = 0
    · subst ht
      rfl
    · exact (Function.update_of_ne ht _ _).trans
        (Function.update_of_ne ht _ _)
  · rintro ⟨t, ctx, transaction, hctx, -, -⟩
    by_cases ht : t = 0
    · subst ht
      cases hctx
    · simp [ThreadContextManager.exitThread, issue,
        ThreadContextManager.setThreadContext,
        ThreadContextManager.getNextTransactionId,
        ThreadContextManager.getThreadContext, initial,
        ThreadContextManager.new] at hctx

end Threads

end SquidDB.Engine
