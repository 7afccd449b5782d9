import SquidDB.Engine.Viewpoint

/-!
# Ids that nobody holds

`~ThreadContext` deletes the transaction of a thread that exits, but nobody
tells the manager; and `beginTransaction` takes an id before it throws because a
transaction is open.  In both cases the id stays among the active ones and holds
back every viewpoint from then on.
-/

namespace SquidDB.Engine

open Checked SquidDB.Core

namespace Threads

variable {s s' : Threads} {e : ThreadEvent} {lost : List ℕ}

/-- The id an event leaves without a holder: that of the open transaction of a
thread that exits, and the one `beginTransaction` takes before it throws. -/
def abandonedBy (s : Threads) : ThreadEvent → List ℕ
  | .exit t => (s.holder t).toList
  | .call t .beginTransaction =>
      if s.manager.transactionOf t = none then []
      else [s.manager.nextTransactionId]
  | .start _ | .call _ _ | .continue _ => []

/-- The ids that were left without a holder. -/
def abandoned : Threads → List ThreadEvent → List ℕ
  | _, [] => []
  | s, e :: events =>
      s.abandonedBy e ++
        (s.step e).elim [] fun s' => abandoned s' events

theorem exit_leases {t : ThreadId} (hstep : s.step (.exit t) = some s') :
    s'.leases = s.leases.abandon t := by
  rw [step] at hstep
  split at hstep
  · next hlive =>
      obtain rfl := Option.some.inj hstep
      apply congrArg (Leases.mk s.manager.transactionId)
      apply holder_moved
      · intro u hu
        exact holder_congr rfl (Function.update_of_ne hu _ _)
      · simp [holder, hlive.2, ThreadContextManager.exitThread]
  · cases hstep

/-- The id of a `beginTransaction` that throws is taken for nobody. -/
theorem refuse_leases {t : ThreadId}
    (hopen : s.manager.transactionOf t ≠ none)
    (hstep : s.step (.call t .beginTransaction) = some s') :
    s'.leases = s.leases.strand s.manager.nextTransactionId := by
  obtain ⟨transaction, htransaction⟩ := Option.ne_none_iff_exists'.mp hopen
  obtain ⟨⟨_⟩, hcontext, rfl⟩ := Option.bind_eq_some_iff.mp htransaction
  rw [step] at hstep
  split at hstep
  · next ctx hctx hposition =>
    obtain rfl := Option.some.inj (hcontext.symm.trans hctx)
    obtain rfl := Option.some.inj hstep
    rw [refuse_eq hcontext]
    exact congrArg (Leases.mk _) (funext fun u => holder_congr rfl rfl)
  · cases hstep

/-- The other events leave no id without a holder. -/
theorem abandonedBy_eq_nil (hexit : ¬∃ t, e = .exit t)
    (hrefused : ¬∃ t, e = .call t .beginTransaction ∧
      s.manager.transactionOf t ≠ none) : s.abandonedBy e = [] := by
  cases e with
  | exit t => exact absurd ⟨t, rfl⟩ hexit
  | call t c =>
      cases c with
      | beginTransaction =>
          rw [abandonedBy, if_pos]
          by_contra hopen
          exact hrefused ⟨t, rfl, hopen⟩
      | _ => rfl
  | _ => rfl

/-- A step that issues no id in use adds to the lost ids what it abandons. -/
theorem accounted_step (hquiet : Quiet s)
    (hacc : s.leases.Accounted lost) (hfresh : s.Fresh)
    (hstep : s.step e = some s') :
    s'.leases.Accounted (s.abandonedBy e ++ lost) := by
  by_cases hexit : ∃ t, e = .exit t
  · obtain ⟨t, rfl⟩ := hexit
    rw [exit_leases hstep]
    exact hacc.abandon
  by_cases hrefused : ∃ t, e = .call t .beginTransaction ∧
      s.manager.transactionOf t ≠ none
  · obtain ⟨t, rfl, hopen⟩ := hrefused
    rw [refuse_leases hopen hstep, abandonedBy, if_neg hopen]
    exact hacc.strand hfresh
  · rw [abandonedBy_eq_nil hexit hrefused, List.nil_append]
    rcases step_leases hquiet (step_cases hquiet hstep) with
      hsame | ⟨t, he, -, -⟩ | ⟨t, c, -, -, -, -, hheld, hl⟩ |
        ⟨t, id, hheld, hl⟩ | ⟨t, transaction, he, hcontext, -⟩
    · rw [hsame]
      exact hacc
    · exact absurd ⟨t, he⟩ hexit
    · rw [hl]
      exact hacc.acquire hfresh hheld
    · rw [hl]
      exact hacc.release hheld
    · refine absurd ⟨t, he, ?_⟩ hrefused
      simp [ThreadContextManager.transactionOf, hcontext,
        ThreadContext.getTransaction]

/-- No run takes back an id. -/
theorem run_issued_length (hquiet : Quiet s) {events : List ThreadEvent}
    (hrun : Machine.run Threads.step s events = some s') :
    s.issued.length ≤ s'.issued.length := by
  have hkept := Machine.run_invariant (P := fun u : Threads =>
    Quiet u ∧ s.issued.length ≤ u.issued.length) ?_
    ⟨hquiet, le_rfl⟩ hrun
  · exact hkept.2
  · rintro u e u' ⟨hquiet, hle⟩ hstep
    have h := step_cases hquiet hstep
    exact ⟨h.quiet hquiet, hle.trans (step_issued_length h)⟩

/-- The ids lost in a run, by induction on its events. -/
theorem run_accounted (hnum : Numbered s) (hacc : s.leases.Accounted lost)
    {events : List ThreadEvent}
    (hrun : Machine.run Threads.step s events = some s')
    (hbound : s'.issued.length < 2 ^ 64) :
    ∃ lost', s'.leases.Accounted lost' ∧
      ∀ id, id ∈ lost' ↔ id ∈ lost ∨ id ∈ abandoned s events := by
  induction events generalizing s lost with
  | nil =>
      obtain rfl := Option.some.inj hrun
      exact ⟨lost, hacc, by simp [abandoned]⟩
  | cons e events ih =>
      obtain ⟨s₁, hstep, hrun⟩ := Option.bind_eq_some_iff.mp hrun
      have h := step_cases hnum.quiet hstep
      have hbound₁ := (run_issued_length (h.quiet hnum.quiet)
        hrun).trans_lt hbound
      have hbefore := (step_issued_length h).trans_lt hbound₁
      obtain ⟨lost', hacc', hlost⟩ := ih (hnum.step h hbound₁)
        (accounted_step hnum.quiet hacc (hnum.fresh hbefore) hstep) hrun
      refine ⟨lost', hacc', fun id => ?_⟩
      rw [hlost, abandoned, hstep, Option.elim_some, List.mem_append,
        List.mem_append]
      tauto

/-- In every run with fewer than `2 ^ 64` issued ids, the active ids are those
some live thread holds, those whose threads exited with the transaction open, and
those a `beginTransaction` took that threw.  The latter two stay active for good,
and no viewpoint ever reaches them. -/
theorem active_iff_held_or_abandoned (events : List ThreadEvent)
    {s : Threads} (hrun : Machine.run Threads.step initial events = some s)
    (hbound : s.issued.length < 2 ^ 64) :
    (∀ id, id ∈ s.manager.transactionId ↔
      id ∈ abandoned initial events ∨
        ∃ t, s.manager.context t ≠ none ∧ s.holder t = some id) ∧
      ∀ id ∈ abandoned initial events,
        (∀ t, s.holder t ≠ some id) ∧ ∀ p ∈ s.viewpoints, p.2 < id := by
  have hnum := run_numbered initial_numbered hrun hbound
  obtain ⟨lost, hacc, hlost⟩ := run_accounted initial_numbered
    Leases.accounted_empty hrun hbound
  have hmem : ∀ id, id ∈ lost ↔ id ∈ abandoned initial events := by
    simpa using hlost
  constructor
  · intro id
    have hactive := hacc.active_iff (i := id)
    rw [hmem] at hactive
    refine hactive.trans (or_congr_right (exists_congr fun t =>
      ⟨fun ht => ⟨?_, ht⟩, And.right⟩))
    intro hdead
    have hheld : s.holder t = some id := ht
    simp [holder, hnum.quiet.dead t hdead, hdead] at hheld
  · intro id hid
    rw [← hmem] at hid
    refine ⟨hacc.lost_unheld id hid, fun p hp => ?_⟩
    by_contra hle
    have hactive : id ∈ s.manager.transactionId := hacc.lost_active id hid
    exact hnum.settled p hp id (hnum.active id hactive).1 (by omega) hactive

/-- Thread 0 calls `beginTransaction` again in transaction 1, which takes the id
2, and exits; transaction 3 does not see that nothing else is going on. -/
theorem active_iff_held_or_abandoned_two_threads :
    ∃ s, Machine.run Threads.step initial
        [.start 0, .call 0 .beginTransaction, .continue 0,
          .call 0 .beginTransaction, .exit 0, .start 1,
          .call 1 .beginTransaction, .continue 1] = some s ∧
      s.viewpoints = [(1, 0), (3, 0)] ∧ ∀ id ∈ [1, 2],
        id ∈ s.manager.transactionId ∧ ∀ t, s.holder t ≠ some id := by
  obtain ⟨s, hrun, hviewpoints, hbound⟩ : ∃ s,
      Machine.run Threads.step initial
        [.start 0, .call 0 .beginTransaction, .continue 0,
          .call 0 .beginTransaction, .exit 0, .start 1,
          .call 1 .beginTransaction, .continue 1] = some s ∧
      s.viewpoints = [(1, 0), (3, 0)] ∧ s.issued.length < 2 ^ 64 :=
    ⟨_, rfl, rfl, by decide⟩
  have hactive := active_iff_held_or_abandoned _ hrun hbound
  have habandoned : ∀ id ∈ [1, 2], id ∈ abandoned initial
      [.start 0, .call 0 .beginTransaction, .continue 0,
        .call 0 .beginTransaction, .exit 0, .start 1,
        .call 1 .beginTransaction, .continue 1] := by
    decide
  exact ⟨s, hrun, hviewpoints, fun id hid =>
    ⟨(hactive.1 id).mpr (Or.inl (habandoned id hid)),
      (hactive.2 id (habandoned id hid)).1⟩⟩

end Threads

end SquidDB.Engine
