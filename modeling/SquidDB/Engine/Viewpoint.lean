import SquidDB.Engine.ActiveTransactions

/-!
# Viewpoints

As long as the counter has not wrapped around, ids are issued in ascending
order, and the viewpoint of a transaction lies just below the smallest active
id at the time it is computed.  The transaction's own id is active then, so
everything up to the viewpoint has ended before.
-/

namespace SquidDB.Engine

open Checked SquidDB.Core

namespace Threads

variable {s s' : Threads} {e : ThreadEvent}

/-- Ids, active set and computed viewpoints while fewer than `2 ^ 64` ids have
been issued. -/
structure Numbered (s : Threads) : Prop where
  quiet : Quiet s
  sound : s.leases.Sound
  counter : s.manager.currentTransactionId = s.issued.length
  issued : s.issued = List.range' 1 s.issued.length
  active : ∀ i ∈ s.manager.transactionId, 1 ≤ i ∧ i ≤ s.issued.length
  bounded : ∀ p ∈ s.viewpoints, p.2 < p.1 ∧ p.1 ≤ s.issued.length
  settled : ∀ p ∈ s.viewpoints, ∀ i, 1 ≤ i → i ≤ p.2 →
    i ∉ s.manager.transactionId
  ordered : (s.viewpoints.map Prod.snd).Pairwise (· ≤ ·)
  recorded : ∀ t transaction,
    s.manager.context t = some ⟨some transaction⟩ →
      (transaction.transactionId, transaction.viewpoint) ∈ s.viewpoints

theorem initial_numbered : Numbered initial where
  quiet := initial_quiet
  sound := Leases.exact_empty.toSound
  counter := rfl
  issued := rfl
  active := fun _ h => absurd h (Finset.notMem_empty _)
  bounded := fun _ h => absurd h List.not_mem_nil
  settled := fun _ h => absurd h List.not_mem_nil
  ordered := List.Pairwise.nil
  recorded := fun _ _ h => by cases h

theorem Numbered.mem_issued (hnum : Numbered s) {i : ℕ} :
    i ∈ s.issued ↔ 1 ≤ i ∧ i ≤ s.issued.length := by
  rw [hnum.issued, List.mem_range'_1, List.length_range']
  omega

theorem Numbered.nextTransactionId_eq (hnum : Numbered s)
    (hbound : s.issued.length + 1 < 2 ^ 64) :
    s.manager.nextTransactionId = s.issued.length + 1 := by
  rw [ThreadContextManager.nextTransactionId, hnum.counter,
    Nat.mod_eq_of_lt hbound]

/-! ## Computing a viewpoint -/

/-- The viewpoint of an active id: it is below the id, nothing up to it is
active, and no earlier viewpoint exceeds it. -/
theorem Numbered.computeViewpoint_spec (hnum : Numbered s) {id : ℕ}
    (hactive : id ∈ s.manager.transactionId) :
    computeViewpoint s.manager id < id ∧
      (∀ i, 1 ≤ i → i ≤ computeViewpoint s.manager id →
        i ∉ s.manager.transactionId) ∧
      ∀ p ∈ s.viewpoints, p.2 ≤ computeViewpoint s.manager id := by
  obtain ⟨hmin, hle⟩ :=
    ThreadContextManager.getMinActiveTransactionId_spec hactive
  obtain ⟨hpos, -⟩ := hnum.active _ hmin
  have hview : computeViewpoint s.manager id =
      s.manager.getMinActiveTransactionId - 1 := by
    rw [computeViewpoint]
    split
    · rw [if_neg]
      omega
    · omega
  refine ⟨by omega, fun i hi hle' hmem => ?_, fun p hp => ?_⟩
  · have := (ThreadContextManager.getMinActiveTransactionId_spec hmem).2
    omega
  · by_contra hlt
    exact hnum.settled p hp _ hpos (by omega) hmin

/-! ## Steps -/

theorem step_issued (h : Step s e s') :
    s'.issued = s.issued ∨
      s'.issued = s.issued ++ [s.manager.nextTransactionId] := by
  cases h with
  | issue t c implicitTransaction hcall hposition hcontext =>
      exact Or.inr rfl
  | refuse t transaction hposition hcontext => exact Or.inr rfl
  | _ => exact Or.inl rfl

theorem Numbered.of_idle (hnum : Numbered s) (hquiet : Quiet s')
    (hsound : s'.leases.Sound)
    (hcounter : s'.manager.currentTransactionId =
      s.manager.currentTransactionId)
    (hactive : s'.manager.transactionId ⊆ s.manager.transactionId)
    (hissued : s'.issued = s.issued)
    (hviewpoints : s'.viewpoints = s.viewpoints)
    (hrecorded : ∀ t transaction,
      s'.manager.context t = some ⟨some transaction⟩ →
        (transaction.transactionId, transaction.viewpoint) ∈ s.viewpoints) :
    Numbered s' where
  quiet := hquiet
  sound := hsound
  counter := by rw [hcounter, hnum.counter, hissued]
  issued := by rw [hissued, ← hnum.issued]
  active := by
    intro i hi
    rw [hissued]
    exact hnum.active i (hactive hi)
  bounded := by
    rw [hviewpoints, hissued]
    exact hnum.bounded
  settled := by
    rw [hviewpoints]
    exact fun p hp i hi hle hmem => hnum.settled p hp i hi hle (hactive hmem)
  ordered := by
    rw [hviewpoints]
    exact hnum.ordered
  recorded := by
    rw [hviewpoints]
    exact hrecorded

theorem Numbered.recorded_update (hnum : Numbered s) (t : ThreadId)
    (ctx : Option ThreadContext)
    (hctx : ∀ transaction, ctx = some ⟨some transaction⟩ →
      (transaction.transactionId, transaction.viewpoint) ∈ s.viewpoints)
    (u : ThreadId) (transaction : Transaction)
    (hu : Function.update s.manager.context t ctx u =
      some ⟨some transaction⟩) :
    (transaction.transactionId, transaction.viewpoint) ∈ s.viewpoints := by
  by_cases hut : u = t
  · rw [hut, Function.update_self] at hu
    exact hctx transaction hu
  · rw [Function.update_of_ne hut] at hu
    exact hnum.recorded u transaction hu

/-- The next id is not active, also when the counter is about to wrap
around. -/
theorem Numbered.fresh (hnum : Numbered s)
    (hbound : s.issued.length < 2 ^ 64) : s.Fresh := by
  intro hmem
  obtain ⟨hpos, hle⟩ := hnum.active _ hmem
  have hnext : s.manager.nextTransactionId =
      (s.issued.length + 1) % 2 ^ 64 := by
    rw [ThreadContextManager.nextTransactionId, hnum.counter]
  omega

/-- The next id is issued, to a thread or to nobody. -/
theorem Numbered.issue (hnum : Numbered s)
    (hmanager : s'.manager = s.manager.getNextTransactionId.2)
    (hissued : s'.issued = s.issued ++ [s.manager.nextTransactionId])
    (hviewpoints : s'.viewpoints = s.viewpoints)
    (hbound : s'.issued.length < 2 ^ 64)
    (hquiet : Quiet s') (hsound : s'.leases.Sound) : Numbered s' := by
  have hlen : s'.issued.length = s.issued.length + 1 := by
    rw [hissued, List.length_append, List.length_singleton]
  have hnext := hnum.nextTransactionId_eq (hlen ▸ hbound)
  have hactive : ∀ i, i ∈ s'.manager.transactionId →
      i = s.issued.length + 1 ∨ i ∈ s.manager.transactionId := by
    intro i hi
    rw [hmanager] at hi
    rw [← hnext]
    exact Finset.mem_insert.mp hi
  constructor
  case quiet => exact hquiet
  case sound => exact hsound
  case counter =>
    rw [hlen, hmanager, ← hnext]
    rfl
  case issued =>
    rw [hlen, hissued, hnext, List.range'_1_concat, ← hnum.issued,
      Nat.add_comm 1]
  case active =>
    intro i hi
    rw [hlen]
    rcases hactive i hi with rfl | hi
    · omega
    · have := hnum.active i hi
      omega
  case bounded =>
    intro p hp
    rw [hviewpoints] at hp
    have := hnum.bounded p hp
    rw [hlen]
    omega
  case ordered =>
    rw [hviewpoints]
    exact hnum.ordered
  case recorded =>
    rw [hmanager, hviewpoints]
    exact hnum.recorded
  case settled =>
    intro p hp i hi hle hmem
    rw [hviewpoints] at hp
    rcases hactive i hmem with rfl | hmem
    · have := hnum.bounded p hp
      omega
    · exact hnum.settled p hp i hi hle hmem

/-- Computing the viewpoint of an issued id. -/
theorem Numbered.begin (hnum : Numbered s) (t : ThreadId) {id : ℕ}
    (hactive : id ∈ s.manager.transactionId)
    {s' : Threads}
    (hmanager : s'.manager =
      s.manager.setThreadContext t ⟨some (s.opened id)⟩)
    (hissued : s'.issued = s.issued)
    (hviewpoints : s'.viewpoints =
      s.viewpoints ++ [(id, computeViewpoint s.manager id)])
    (hquiet : Quiet s') (hsound : s'.leases.Sound) : Numbered s' := by
  obtain ⟨hlt, hsettled, hordered⟩ := hnum.computeViewpoint_spec hactive
  have hmem : ∀ p, p ∈ s'.viewpoints ↔
      p ∈ s.viewpoints ∨ p = (id, computeViewpoint s.manager id) := by
    simp [hviewpoints]
  have hids : s'.manager.transactionId = s.manager.transactionId := by
    rw [hmanager]
    rfl
  constructor
  case quiet => exact hquiet
  case sound => exact hsound
  case counter =>
    rw [hmanager, hissued]
    exact hnum.counter
  case issued =>
    rw [hissued]
    exact hnum.issued
  case active =>
    rw [hids, hissued]
    exact hnum.active
  case bounded =>
    intro p hp
    rw [hissued]
    rcases (hmem p).mp hp with hp | rfl
    · exact hnum.bounded p hp
    · exact ⟨hlt, (hnum.active id hactive).2⟩
  case settled =>
    intro p hp
    rw [hids]
    rcases (hmem p).mp hp with hp | rfl
    · exact hnum.settled p hp
    · exact hsettled
  case ordered =>
    rw [hviewpoints, List.map_append, List.pairwise_append]
    refine ⟨hnum.ordered, by simp, ?_⟩
    intro v hv w hw
    obtain ⟨p, hp, rfl⟩ := List.mem_map.mp hv
    simp only [List.map_cons, List.map_nil, List.mem_singleton] at hw
    rw [hw]
    exact hordered p hp
  case recorded =>
    intro u transaction hu
    rw [hmanager] at hu
    rw [hmem]
    by_cases hut : u = t
    · rw [hut] at hu
      have hself : some ⟨some (s.opened id)⟩ =
          some (⟨some transaction⟩ : ThreadContext) :=
        (Function.update_self t _ s.manager.context).symm.trans hu
      simp only [Option.some.injEq, ThreadContext.mk.injEq] at hself
      rw [← hself]
      exact Or.inr rfl
    · rw [ThreadContextManager.setThreadContext] at hu
      exact Or.inl (hnum.recorded u transaction
        ((Function.update_of_ne hut _ _).symm.trans hu))

/-- Every step before the counter wraps around keeps the numbering. -/
theorem Numbered.step (hnum : Numbered s) (h : Step s e s')
    (hbound : s'.issued.length < 2 ^ 64) : Numbered s' := by
  have hbefore : s.issued.length < 2 ^ 64 := by
    rcases step_issued h with hissued | hissued
    · rwa [hissued] at hbound
    · rw [hissued, List.length_append] at hbound
      omega
  have hquiet := h.quiet hnum.quiet
  have hsound := sound_step hnum.quiet hnum.sound (hnum.fresh hbefore) h
  cases h with
  | start t hdead =>
      exact hnum.of_idle hquiet hsound rfl subset_rfl rfl rfl
        (hnum.recorded_update t (some ThreadContext.new) (by
          simp [ThreadContext.new]))
  | exit t hposition =>
      exact hnum.of_idle hquiet hsound rfl subset_rfl rfl rfl
        (hnum.recorded_update t none (by simp))
  | issue t c implicitTransaction hcall hposition hcontext =>
      exact hnum.issue rfl rfl rfl hbound hquiet hsound
  | refuse t transaction hposition hcontext =>
      exact hnum.issue rfl rfl rfl hbound hquiet hsound
  | begin t id implicitTransaction position hissued hposition =>
      have hheld : s.leases.holder t = some id := by
        simp [leases, holder, hissued]
      exact hnum.begin t (hnum.sound.active t id hheld) rfl rfl rfl hquiet
        hsound
  | record t rows transaction hposition hcontext =>
      refine hnum.of_idle hquiet hsound rfl subset_rfl rfl rfl
        (hnum.recorded_update t _ ?_)
      intro transaction' heq
      simp only [Option.some.injEq, ThreadContext.mk.injEq] at heq
      rw [← heq]
      exact hnum.recorded t transaction hcontext
  | close t e transaction hposition hcontext =>
      exact hnum.of_idle hquiet hsound rfl subset_rfl rfl rfl
        (hnum.recorded_update t (some ThreadContext.new) (by
          simp [ThreadContext.new]))
  | remove t id hposition =>
      exact hnum.of_idle hquiet hsound rfl (Finset.erase_subset _ _) rfl rfl
        hnum.recorded

theorem step_active (h : Step s e s') {i : ℕ}
    (hi : i ∈ s'.manager.transactionId) :
    i ∈ s.manager.transactionId ∨ i = s.manager.nextTransactionId := by
  cases h with
  | issue t c implicitTransaction hcall hposition hcontext =>
      exact (Finset.mem_insert.mp hi).symm
  | refuse t transaction hposition hcontext =>
      exact (Finset.mem_insert.mp hi).symm
  | remove t id hposition => exact Or.inl (Finset.mem_of_mem_erase hi)
  | _ => exact Or.inl hi

theorem Numbered.next_not_issued (hnum : Numbered s)
    (hbound : s.issued.length < 2 ^ 64) :
    s.manager.nextTransactionId ∉ s.issued := by
  have hnext : s.manager.nextTransactionId =
      (s.issued.length + 1) % 2 ^ 64 := by
    rw [ThreadContextManager.nextTransactionId, hnum.counter]
  rw [hnum.mem_issued]
  omega

/-! ## Runs -/

theorem step_issued_length (h : Step s e s') :
    s.issued.length ≤ s'.issued.length := by
  rcases step_issued h with hissued | hissued
  · rw [hissued]
  · rw [hissued, List.length_append]
    omega

/-- Every run before the counter wraps around keeps the numbering. -/
theorem run_numbered (hnum : Numbered s) {events : List ThreadEvent}
    (hrun : Machine.run Threads.step s events = some s')
    (hbound : s'.issued.length < 2 ^ 64) : Numbered s' := by
  refine (Machine.run_invariant (P := fun s => Quiet s ∧
    (s.issued.length < 2 ^ 64 → Numbered s)) ?_
    ⟨hnum.quiet, fun _ => hnum⟩ hrun).2 hbound
  rintro s e s' ⟨hquiet, hnum⟩ hstep
  have h := step_cases hquiet hstep
  refine ⟨h.quiet hquiet, fun hbound => ?_⟩
  exact (hnum ((step_issued_length h).trans_lt hbound)).step h hbound

/-- An id that has left the active set stays out of it. -/
theorem run_inactive (hnum : Numbered s) {i : ℕ} (hissued : i ∈ s.issued)
    (hinactive : i ∉ s.manager.transactionId)
    {events : List ThreadEvent}
    (hrun : Machine.run Threads.step s events = some s')
    (hbound : s'.issued.length < 2 ^ 64) :
    i ∉ s'.manager.transactionId := by
  refine ((Machine.run_invariant (P := fun s => Quiet s ∧
    (s.issued.length < 2 ^ 64 → Numbered s ∧ i ∈ s.issued ∧
      i ∉ s.manager.transactionId)) ?_
    ⟨hnum.quiet, fun _ => ⟨hnum, hissued, hinactive⟩⟩ hrun).2 hbound).2.2
  rintro s e s' ⟨hquiet, hs⟩ hstep
  have h := step_cases hquiet hstep
  refine ⟨h.quiet hquiet, fun hbound => ?_⟩
  have hbefore := (step_issued_length h).trans_lt hbound
  obtain ⟨hnum, hissued, hinactive⟩ := hs hbefore
  refine ⟨hnum.step h hbound, ?_, fun hmem => ?_⟩
  · rcases step_issued h with heq | heq
    · rwa [heq]
    · rw [heq]
      exact List.mem_append_left _ hissued
  · rcases step_active h hmem with hold | rfl
    · exact hinactive hold
    · exact hnum.next_not_issued hbefore hissued

/-- In every run with fewer than `2 ^ 64` issued ids: no id is issued twice, an
id that has left the active set never returns, every viewpoint lies below its
transaction's id and all ids up to it have been issued and are not active, and
viewpoints do not decrease in the order in which they are computed. -/
theorem viewpoints_sound (events : List ThreadEvent) {s : Threads}
    (hrun : Machine.run Threads.step initial events = some s)
    (hbound : s.issued.length < 2 ^ 64) :
    s.issued.Nodup ∧
      (∀ events' s', Machine.run Threads.step s events' = some s' →
        s'.issued.length < 2 ^ 64 → ∀ i ∈ s.issued,
          i ∉ s.manager.transactionId → i ∉ s'.manager.transactionId) ∧
      (∀ p ∈ s.viewpoints, p.2 < p.1 ∧ ∀ i, 1 ≤ i → i ≤ p.2 →
        i ∈ s.issued ∧ i ∉ s.manager.transactionId) ∧
      (s.viewpoints.map Prod.snd).Pairwise (· ≤ ·) ∧
      ∀ t transaction, s.manager.context t = some ⟨some transaction⟩ →
        (transaction.transactionId, transaction.viewpoint) ∈
          s.viewpoints := by
  have hnum := run_numbered initial_numbered hrun hbound
  refine ⟨?_, ?_, ?_, hnum.ordered, hnum.recorded⟩
  · rw [hnum.issued]
    exact List.nodup_range'
  · intro events' s' hrun' hbound' i hi hinactive
    exact run_inactive hnum hi hinactive hrun' hbound'
  · intro p hp
    obtain ⟨hlt, hle⟩ := hnum.bounded p hp
    refine ⟨hlt, fun i hi hip => ⟨?_, hnum.settled p hp i hi hip⟩⟩
    rw [hnum.mem_issued]
    omega

/-- Two threads: the second one begins between the two steps of the first. -/
theorem viewpoints_sound_two_threads :
    ∃ s, Machine.run Threads.step initial
        [.start 0, .start 1, .call 0 .beginTransaction,
          .call 1 .beginTransaction, .continue 1, .continue 0] = some s ∧
      s.issued = [1, 2] ∧ s.viewpoints = [(2, 0), (1, 0)] ∧
      s.issued.Nodup := by
  refine ⟨_, rfl, rfl, by decide, ?_⟩
  exact (viewpoints_sound [.start 0, .start 1, .call 0 .beginTransaction,
    .call 1 .beginTransaction, .continue 1, .continue 0] rfl (by decide)).1

end Threads

end SquidDB.Engine
