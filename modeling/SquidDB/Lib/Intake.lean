import SquidDB.Lib.Checked

/-!
# Loops that take in one item after the other

The body of such a loop looks at an item alone: it skips the item, puts what it
stands for into the state, refuses it by an exception, or faults.  The first
item that is refused or faults ends the loop, and what was put into the state
before stays there.
-/

/-- What the body of a loop does with an item. -/
inductive Verdict (β : Type) where
  | skip
  | take (item : β)
  | refuse (message : String)
  | fault (fault : Checked.Fault)
  deriving DecidableEq, Repr

namespace Verdict

variable {β : Type}

/-- What the item stands for, if it is put into the state. -/
def item? : Verdict β → Option β
  | take item => some item
  | _ => none

/-- The loop goes on behind the item. -/
def Accepts : Verdict β → Prop
  | skip | take _ => True
  | refuse _ | fault _ => False

def Refuses : Verdict β → Prop
  | refuse _ => True
  | skip | take _ | fault _ => False

def Faults : Verdict β → Prop
  | fault _ => True
  | skip | take _ | refuse _ => False

instance : DecidablePred (Accepts (β := β))
  | skip | take _ => .isTrue trivial
  | refuse _ | fault _ => .isFalse id

instance : DecidablePred (Refuses (β := β))
  | refuse _ => .isTrue trivial
  | skip | take _ | fault _ => .isFalse id

instance : DecidablePred (Faults (β := β))
  | fault _ => .isTrue trivial
  | skip | take _ | refuse _ => .isFalse id

theorem accepts_iff {verdict : Verdict β} :
    verdict.Accepts ↔ ¬verdict.Refuses ∧ ¬verdict.Faults := by
  cases verdict <;> simp [Accepts, Refuses, Faults]

end Verdict

namespace Intake

variable {α β σ : Type}

/-- The loop. -/
def run (judge : α → Verdict β) (put : σ → β → σ) :
    List α → σ → Checked (Outcome σ Unit)
  | [], s => .ok (.returned () s)
  | a :: items, s =>
      match judge a with
      | .skip => run judge put items s
      | .take item => run judge put items (put s item)
      | .refuse message => .ok (.thrown message s)
      | .fault fault => .error fault

/-- What the items stand for, in their order. -/
def taken (judge : α → Verdict β) (items : List α) : List β :=
  items.filterMap fun a => (judge a).item?

variable {judge : α → Verdict β} {put : σ → β → σ} {before items : List α}
  {a : α} {s s' : σ}

theorem run_append (put : σ → β → σ) (after : List α) (s : σ)
    (hbefore : ∀ b ∈ before, (judge b).Accepts) :
    run judge put (before ++ after) s =
      run judge put after ((taken judge before).foldl put s) := by
  induction before generalizing s with
  | nil => rfl
  | cons b before ih =>
      obtain ⟨hb, hbefore⟩ := List.forall_mem_cons.mp hbefore
      rw [List.cons_append, run]
      cases hjudge : judge b with
      | skip => simp [taken, ih _ hbefore, hjudge, Verdict.item?]
      | take item => simp [taken, ih _ hbefore, hjudge, Verdict.item?]
      | refuse message =>
          rw [hjudge] at hb
          exact hb.elim
      | fault fault =>
          rw [hjudge] at hb
          exact hb.elim

/-- Without an item that ends the loop all are taken in. -/
theorem run_of_accepts (put : σ → β → σ) (s : σ)
    (hitems : ∀ b ∈ items, (judge b).Accepts) :
    run judge put items s =
      .ok (.returned () ((taken judge items).foldl put s)) := by
  have hrun := run_append put [] s hitems
  rwa [List.append_nil] at hrun

/-- Either the loop goes on to the end or some item is the first that ends
it. -/
theorem accepts_or_first (judge : α → Verdict β) (items : List α) :
    (∀ b ∈ items, (judge b).Accepts) ∨
      ∃ before a after, items = before ++ a :: after ∧
        (∀ b ∈ before, (judge b).Accepts) ∧ ¬(judge a).Accepts := by
  by_cases hitems : ∀ b ∈ items, (judge b).Accepts
  · exact .inl hitems
  · simp only [not_forall] at hitems
    obtain ⟨b, hb, hjudge⟩ := hitems
    obtain ⟨a, before, after, hbefore, ha, hsplit⟩ :=
      List.exists_of_eraseP (p := fun b => ¬(judge b).Accepts) hb
        (by simpa using hjudge)
    refine .inr ⟨before, a, after, hsplit.1, ?_, by simpa using ha⟩
    intro c hc
    simpa using hbefore c hc

/-- The loop ends at the first item that is not accepted. -/
theorem run_first (put : σ → β → σ) (after : List α) (s : σ)
    (hbefore : ∀ b ∈ before, (judge b).Accepts) (ha : ¬(judge a).Accepts) :
    (∃ message, judge a = .refuse message ∧
        run judge put (before ++ a :: after) s =
          .ok (.thrown message ((taken judge before).foldl put s))) ∨
      ∃ fault, judge a = .fault fault ∧
        run judge put (before ++ a :: after) s = .error fault := by
  rw [run_append put _ s hbefore, run]
  cases hjudge : judge a with
  | skip =>
      rw [hjudge] at ha
      exact absurd trivial ha
  | take item =>
      rw [hjudge] at ha
      exact absurd trivial ha
  | refuse message => exact .inl ⟨message, rfl, rfl⟩
  | fault fault => exact .inr ⟨fault, rfl, rfl⟩

/-- A loop that returns has accepted every item. -/
theorem run_eq_returned_iff (judge : α → Verdict β) (put : σ → β → σ)
    (items : List α) (s s' : σ) :
    run judge put items s = .ok (.returned () s') ↔
      (∀ b ∈ items, (judge b).Accepts) ∧
        s' = (taken judge items).foldl put s := by
  rcases accepts_or_first judge items with
    hitems | ⟨before, a, after, rfl, hbefore, ha⟩
  · rw [run_of_accepts put s hitems, and_iff_right hitems]
    simp [eq_comm]
  · have hnot : ¬∀ b ∈ before ++ a :: after, (judge b).Accepts :=
      fun hall => ha (hall a (by simp))
    rcases run_first put after s hbefore ha with
      ⟨message, -, hrun⟩ | ⟨fault, -, hrun⟩
    · rw [hrun]
      exact iff_of_false (by simp) (fun h => hnot h.1)
    · rw [hrun]
      exact iff_of_false (by simp) (fun h => hnot h.1)

/-- A loop that throws has taken in exactly the items before the one that is
refused. -/
theorem run_eq_thrown_iff (judge : α → Verdict β) (put : σ → β → σ)
    (items : List α) (s s' : σ) (message : String) :
    run judge put items s = .ok (.thrown message s') ↔
      ∃ before a after, items = before ++ a :: after ∧
        (∀ b ∈ before, (judge b).Accepts) ∧ judge a = .refuse message ∧
        s' = (taken judge before).foldl put s := by
  constructor
  · intro hthrown
    rcases accepts_or_first judge items with
      hitems | ⟨before, a, after, rfl, hbefore, ha⟩
    · rw [run_of_accepts put s hitems] at hthrown
      cases hthrown
    · refine ⟨before, a, after, rfl, hbefore, ?_⟩
      rcases run_first put after s hbefore ha with
        ⟨message', hjudge, hrun⟩ | ⟨fault, -, hrun⟩
      · rw [hrun] at hthrown
        cases hthrown
        exact ⟨hjudge, rfl⟩
      · rw [hrun] at hthrown
        cases hthrown
  · rintro ⟨before, a, after, rfl, hbefore, hjudge, rfl⟩
    rw [run_append put _ s hbefore, run, hjudge]

theorem exists_ends (put : σ → β → σ) (before : List α) (after : List α)
    (s : σ) (ha : ¬(judge a).Accepts) :
    ∃ b ∈ before ++ [a],
      (∃ message s', judge b = .refuse message ∧
        run judge put (before ++ a :: after) s =
          .ok (.thrown message s')) ∨
      ∃ fault, judge b = .fault fault ∧
        run judge put (before ++ a :: after) s = .error fault := by
  rcases accepts_or_first judge before with
    haccepts | ⟨before, c, between, rfl, haccepts, hc⟩
  · rcases run_first put after s haccepts ha with
      ⟨message, hjudge, hrun⟩ | ⟨fault, hjudge, hrun⟩
    · exact ⟨a, by simp, .inl ⟨message, _, hjudge, hrun⟩⟩
    · exact ⟨a, by simp, .inr ⟨fault, hjudge, hrun⟩⟩
  · have hsplit : before ++ c :: between ++ a :: after =
        before ++ c :: (between ++ a :: after) := by
      simp
    rw [hsplit]
    rcases run_first put (between ++ a :: after) s haccepts hc with
      ⟨message, hjudge, hrun⟩ | ⟨fault, hjudge, hrun⟩
    · exact ⟨c, by simp, .inl ⟨message, _, hjudge, hrun⟩⟩
    · exact ⟨c, by simp, .inr ⟨fault, hjudge, hrun⟩⟩

/-- The loop throws exactly when an item is refused behind none that
faults. -/
theorem throws_iff (judge : α → Verdict β) (put : σ → β → σ) (items : List α)
    (s : σ) :
    (∃ message s', run judge put items s = .ok (.thrown message s')) ↔
      ∃ before a after, items = before ++ a :: after ∧ (judge a).Refuses ∧
        ∀ b ∈ before, ¬(judge b).Faults := by
  constructor
  · rintro ⟨message, s', hrun⟩
    obtain ⟨before, a, after, rfl, hbefore, hjudge, -⟩ :=
      (run_eq_thrown_iff judge put items s s' message).mp hrun
    refine ⟨before, a, after, rfl, by rw [hjudge]; trivial, ?_⟩
    intro b hb
    exact (Verdict.accepts_iff.mp (hbefore b hb)).2
  · rintro ⟨before, a, after, rfl, ha, hbefore⟩
    have hends : ¬(judge a).Accepts :=
      fun h => (Verdict.accepts_iff.mp h).1 ha
    obtain ⟨b, hb, ⟨message, s', -, hrun⟩ | ⟨fault, hjudge, -⟩⟩ :=
      exists_ends put before after s hends
    · exact ⟨message, s', hrun⟩
    · have hfaults : (judge b).Faults := by
        rw [hjudge]
        trivial
      rcases List.mem_append.mp hb with hb | hb
      · exact absurd hfaults (hbefore b hb)
      · rw [← List.mem_singleton.mp hb, hjudge] at ha
        exact ha.elim

/-- The loop does not fault exactly when every item that faults stands behind
one that is refused. -/
theorem not_faults_iff (judge : α → Verdict β) (put : σ → β → σ)
    (items : List α) (s : σ) :
    (∃ o, run judge put items s = .ok o) ↔
      ∀ before a after, items = before ++ a :: after → (judge a).Faults →
        ∃ b ∈ before, (judge b).Refuses := by
  constructor
  · rintro ⟨o, hrun⟩ before a after rfl ha
    have hends : ¬(judge a).Accepts :=
      fun h => (Verdict.accepts_iff.mp h).2 ha
    obtain ⟨b, hb, ⟨message, s', hjudge, -⟩ | ⟨fault, -, hfault⟩⟩ :=
      exists_ends put before after s hends
    · rcases List.mem_append.mp hb with hb | hb
      · exact ⟨b, hb, by rw [hjudge]; trivial⟩
      · rw [← List.mem_singleton.mp hb, hjudge] at ha
        exact ha.elim
    · rw [hfault] at hrun
      cases hrun
  · intro hall
    rcases accepts_or_first judge items with
      hitems | ⟨before, a, after, rfl, hbefore, ha⟩
    · exact ⟨_, run_of_accepts put s hitems⟩
    · rcases run_first put after s hbefore ha with
        ⟨message, -, hrun⟩ | ⟨fault, hjudge, -⟩
      · exact ⟨_, hrun⟩
      · obtain ⟨b, hb, hrefuses⟩ := hall before a after rfl
          (by rw [hjudge]; trivial)
        exact absurd hrefuses (Verdict.accepts_iff.mp (hbefore b hb)).1

end Intake
