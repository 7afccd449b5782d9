import Mathlib

/-!
# Runs of a deterministic machine

A machine is a partial step function from a state and an event to the next
state; every source of nondeterminism (a scheduler, a listing order, a random
draw) is part of the event.  A run is a finite list of events.  The invariant
rules below turn a fact about one step into a fact about every run, also for
runs whose steps all meet a side condition.
-/

namespace Machine

variable {σ ε : Type}

/-- Perform the events in order; `none` once a step cannot be completed. -/
def run (step : σ → ε → Option σ) : σ → List ε → Option σ
  | s, [] => some s
  | s, e :: es => (step s e).bind fun s' => run step s' es

/-- Every step the machine takes along the events meets the guard. -/
def Guarded (step : σ → ε → Option σ) (guard : σ → ε → Prop) :
    σ → List ε → Prop
  | _, [] => True
  | s, e :: es =>
      guard s e ∧ ∀ s', step s e = some s' → Guarded step guard s' es

variable {step : σ → ε → Option σ} {guard : σ → ε → Prop}

/-- A stronger guard. -/
theorem Guarded.mono {guard' : σ → ε → Prop}
    (hguard : ∀ s e, guard s e → guard' s e) {s : σ} {es : List ε}
    (h : Guarded step guard s es) : Guarded step guard' s es := by
  induction es generalizing s with
  | nil => trivial
  | cons e es ih => exact ⟨hguard s e h.1, fun s' hst => ih (h.2 s' hst)⟩

/-- A guard on the events alone. -/
theorem guarded_of_forall {E : ε → Prop} {es : List ε}
    (hes : ∀ e ∈ es, E e) (s : σ) :
    Guarded step (fun _ e => E e) s es := by
  induction es generalizing s with
  | nil => trivial
  | cons e es ih =>
      obtain ⟨he, hes⟩ := List.forall_mem_cons.mp hes
      exact ⟨he, fun s' _ => ih hes s'⟩

/-- Events for which the guard holds in every state. -/
theorem guarded_of_always {es : List ε} (hes : ∀ e ∈ es, ∀ s, guard s e)
    (s : σ) : Guarded step guard s es :=
  (guarded_of_forall hes s).mono fun s _ he => he s

theorem Guarded.and_mem {s : σ} {es : List ε} (h : Guarded step guard s es) :
    Guarded step (fun s e => guard s e ∧ e ∈ es) s es := by
  induction es generalizing s with
  | nil => trivial
  | cons e es ih =>
      refine ⟨⟨h.1, List.mem_cons_self⟩, fun s' hst => ?_⟩
      exact (ih (h.2 s' hst)).mono fun _ _ he =>
        ⟨he.1, List.mem_cons_of_mem _ he.2⟩

/-- Events behind others, in the state that those lead to. -/
theorem Guarded.append {s : σ} {es es' : List ε}
    (h : Guarded step guard s es)
    (h' : ∀ s', run step s es = some s' → Guarded step guard s' es') :
    Guarded step guard s (es ++ es') := by
  induction es generalizing s with
  | nil => exact h' s rfl
  | cons e es ih =>
      refine ⟨h.1, fun t hst => ih (h.2 t hst) fun s' hrun => h' s' ?_⟩
      rw [run, hst]
      exact hrun

@[simp] theorem run_nil (s : σ) : run step s [] = some s := rfl

@[simp] theorem run_cons (s : σ) (e : ε) (es : List ε) :
    run step s (e :: es) = (step s e).bind fun s' => run step s' es := rfl

theorem run_append (s : σ) (es es' : List ε) :
    run step s (es ++ es') =
      (run step s es).bind fun s' => run step s' es' := by
  induction es generalizing s with
  | nil => rfl
  | cons e es ih =>
      cases h : step s e with
      | none => simp [h]
      | some s' => simp [h, ih]

theorem run_concat (s : σ) (es : List ε) (e : ε) :
    run step s (es ++ [e]) = (run step s es).bind fun s' => step s' e := by
  rw [run_append]
  simp

theorem exists_run_of_total (htotal : ∀ s e, ∃ s', step s e = some s')
    (s : σ) (es : List ε) : ∃ s', run step s es = some s' := by
  induction es generalizing s with
  | nil => exact ⟨s, rfl⟩
  | cons e es ih =>
      obtain ⟨t, hst⟩ := htotal s e
      obtain ⟨s', hrun⟩ := ih t
      exact ⟨s', by rw [run_cons, hst, Option.bind_some, hrun]⟩

/-- What every step preserves, every run preserves. -/
theorem run_invariant {P : σ → Prop}
    (hstep : ∀ s e s', P s → step s e = some s' → P s')
    {s s' : σ} {es : List ε} (h : P s) (hrun : run step s es = some s') :
    P s' := by
  induction es generalizing s with
  | nil =>
      rw [run_nil, Option.some.injEq] at hrun
      exact hrun ▸ h
  | cons e es ih =>
      rw [run_cons, Option.bind_eq_some_iff] at hrun
      obtain ⟨t, hst, hrun⟩ := hrun
      exact ih (hstep s e t h hst) hrun

/-- What every guarded step preserves, every guarded run preserves. -/
theorem run_invariant_of_guarded {P : σ → Prop}
    (hstep : ∀ s e s', P s → guard s e → step s e = some s' → P s')
    {s s' : σ} {es : List ε} (h : P s) (hguard : Guarded step guard s es)
    (hrun : run step s es = some s') : P s' := by
  induction es generalizing s with
  | nil =>
      rw [run_nil, Option.some.injEq] at hrun
      exact hrun ▸ h
  | cons e es ih =>
      rw [run_cons, Option.bind_eq_some_iff] at hrun
      obtain ⟨t, hst, hrun⟩ := hrun
      exact ih (hstep s e t h hguard.1 hst) (hguard.2 t hst) hrun

/-- Two guards that agree in the states an invariant describes accept the same
completed runs. -/
theorem guarded_iff {guard' : σ → ε → Prop} {P : σ → Prop}
    (hiff : ∀ s e s', P s → step s e = some s' → (guard s e ↔ guard' s e))
    (hstep : ∀ s e s', P s → guard' s e → step s e = some s' → P s')
    {s s' : σ} {es : List ε} (h : P s) (hrun : run step s es = some s') :
    Guarded step guard s es ↔ Guarded step guard' s es := by
  induction es generalizing s with
  | nil => exact Iff.rfl
  | cons e es ih =>
      rw [run_cons, Option.bind_eq_some_iff] at hrun
      obtain ⟨t, hst, hrun⟩ := hrun
      have hhead := hiff s e t h hst
      constructor
      · intro hguard
        have hguard' := hhead.mp hguard.1
        refine ⟨hguard', fun u hu => ?_⟩
        obtain rfl := Option.some.inj (hst.symm.trans hu)
        exact (ih (hstep s e t h hguard' hst) hrun).mp (hguard.2 t hst)
      · intro hguard
        refine ⟨hhead.mpr hguard.1, fun u hu => ?_⟩
        obtain rfl := Option.some.inj (hst.symm.trans hu)
        exact (ih (hstep s e t h hguard.1 hst) hrun).mpr (hguard.2 t hst)

theorem exists_of_not_guarded {s s' : σ} {es : List ε}
    (hrun : run step s es = some s') (hguard : ¬ Guarded step guard s es) :
    ∃ es₁ e es₂ s₁ s₂, es = es₁ ++ e :: es₂ ∧ run step s es₁ = some s₁ ∧
      Guarded step guard s es₁ ∧ ¬ guard s₁ e ∧ step s₁ e = some s₂ ∧
      run step s₂ es₂ = some s' := by
  induction es generalizing s with
  | nil => exact absurd trivial hguard
  | cons e es ih =>
      rw [run_cons, Option.bind_eq_some_iff] at hrun
      obtain ⟨t, hst, hrun⟩ := hrun
      by_cases he : guard s e
      · have hrest : ¬ Guarded step guard t es := by
          intro hrest
          apply hguard
          refine ⟨he, fun u hu => ?_⟩
          obtain rfl := Option.some.inj (hst.symm.trans hu)
          exact hrest
        obtain ⟨es₁, e', es₂, s₁, s₂, rfl, hrun₁, hguard₁, he', hst', hrun₂⟩ :=
          ih hrun hrest
        refine ⟨e :: es₁, e', es₂, s₁, s₂, rfl, ?_, ?_, he', hst', hrun₂⟩
        · rw [run_cons, hst]
          exact hrun₁
        · refine ⟨he, fun u hu => ?_⟩
          obtain rfl := Option.some.inj (hst.symm.trans hu)
          exact hguard₁
      · exact ⟨[], e, es, s, t, rfl, rfl, trivial, he, hst, hrun⟩

/-- A machine that decides something at a certain moment: from when it is
`Settled` on, `Holds` does not change.  Guarded steps settle it well, and the
first step that fails the guard settles it badly.  So it holds at the end of a
run exactly when the run was guarded. -/
theorem settled_iff_guarded {P Settled Holds : σ → Prop}
    (hinvariant : ∀ s e s', P s → step s e = some s' → P s')
    (hfixed : ∀ s e s', P s → Settled s → step s e = some s' →
      Settled s' ∧ (Holds s' ↔ Holds s))
    (hsafe : ∀ s e s', P s → guard s e → step s e = some s' →
      (Settled s → Holds s) → Settled s' → Holds s')
    (hbroken : ∀ s e s', P s → ¬guard s e → step s e = some s' →
      Settled s' ∧ ¬Holds s')
    {s s' : σ} {es : List ε} (h : P s) (hopen : ¬Settled s)
    (hrun : run step s es = some s') (hsettled : Settled s') :
    Holds s' ↔ Guarded step guard s es := by
  constructor
  · intro hholds
    by_contra hguard
    obtain ⟨es₁, e, es₂, s₁, s₂, -, hrun₁, -, hviolated, hstep, hrun₂⟩ :=
      exists_of_not_guarded hrun hguard
    have hs₁ : P s₁ := run_invariant hinvariant h hrun₁
    have hbad : P s' ∧ Settled s' ∧ ¬Holds s' := by
      refine run_invariant (P := fun s => P s ∧ Settled s ∧ ¬Holds s) ?_
        ⟨hinvariant _ _ _ hs₁ hstep, hbroken _ _ _ hs₁ hviolated hstep⟩ hrun₂
      rintro t e t' ⟨ht, hset, hnot⟩ hst
      obtain ⟨hset', hiff⟩ := hfixed t e t' ht hset hst
      exact ⟨hinvariant t e t' ht hst, hset', fun hc => hnot (hiff.mp hc)⟩
    exact hbad.2.2 hholds
  · intro hguard
    have hgood : P s' ∧ (Settled s' → Holds s') := by
      refine run_invariant_of_guarded
        (P := fun s => P s ∧ (Settled s → Holds s)) ?_
        ⟨h, fun hset => absurd hset hopen⟩ hguard hrun
      rintro t e t' ⟨ht, hgood⟩ hg hst
      exact ⟨hinvariant t e t' ht hst, hsafe t e t' ht hg hst hgood⟩
    exact hgood.2 hsettled

/-- Forward simulation: when a total abstract machine follows every step for
an event of some kind, it follows every run of such events, and the concrete
machine completes it. -/
theorem exists_run_of_simulation {τ : Type} {A : τ → ε → τ}
    {R : σ → τ → Prop} {E : ε → Prop}
    (hstep : ∀ s t e, E e → R s t →
      ∃ s', step s e = some s' ∧ R s' (A t e))
    {s : σ} {t : τ} (h : R s t) {es : List ε} (hes : ∀ e ∈ es, E e) :
    ∃ s', run step s es = some s' ∧ R s' (es.foldl A t) := by
  induction es generalizing s t with
  | nil => exact ⟨s, rfl, h⟩
  | cons e es ih =>
      obtain ⟨he, hes⟩ := List.forall_mem_cons.mp hes
      obtain ⟨u, hst, hu⟩ := hstep s t e he h
      obtain ⟨s', hrun, hs'⟩ := ih hu hes
      exact ⟨s', by simp [hst, hrun], hs'⟩

/-- Two partial machines whose related states step together, or not at all,
run together, or not at all. -/
theorem run_rel {τ : Type} {step' : τ → ε → Option τ} {R : σ → τ → Prop}
    (hstep : ∀ s t e, R s t → Option.Rel R (step s e) (step' t e))
    {s : σ} {t : τ} (h : R s t) (es : List ε) :
    Option.Rel R (run step s es) (run step' t es) := by
  induction es generalizing s t with
  | nil => exact .some h
  | cons e es ih =>
      have hnext := hstep s t e h
      rw [run_cons, run_cons]
      generalize step s e = x, step' t e = y at hnext ⊢
      cases hnext with
      | some h' => exact ih h'
      | none => exact .none

theorem exists_run_of_rel {τ : Type} {step' : τ → ε → Option τ}
    {R : σ → τ → Prop}
    (hstep : ∀ s t e, R s t → Option.Rel R (step s e) (step' t e))
    {s s' : σ} {t : τ} (h : R s t) {es : List ε}
    (hrun : run step s es = some s') :
    ∃ t', run step' t es = some t' ∧ R s' t' := by
  have hrel := run_rel hstep h es
  rw [hrun] at hrel
  generalize run step' t es = y at hrel ⊢
  cases hrel with
  | some h' => exact ⟨_, rfl, h'⟩

/-- A run of a machine whose states extend those of another one projects to a
run of the other. -/
theorem run_map {τ : Type} {step' : τ → ε → Option τ} {f : σ → τ}
    (hstep : ∀ s e, (step s e).map f = step' (f s) e) (s : σ)
    (es : List ε) : (run step s es).map f = run step' (f s) es := by
  induction es generalizing s with
  | nil => rfl
  | cons e es ih =>
      rw [run_cons, run_cons, ← hstep]
      cases step s e with
      | none => rfl
      | some s' => exact ih s'

/-- A run whose events are translated one by one. -/
theorem run_comap {ε' : Type} (f : ε' → ε) (s : σ) (es : List ε') :
    run step s (es.map f) = run (fun s e => step s (f e)) s es := by
  induction es generalizing s with
  | nil => rfl
  | cons e es ih =>
      rw [List.map_cons, run_cons, run_cons]
      exact congrArg _ (funext fun s' => ih s')

end Machine
