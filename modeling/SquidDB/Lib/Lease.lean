import Mathlib

/-!
# Leases

Agents take identifiers out of a pool and put them back.  The pool keeps the
set of identifiers in use, each agent holds at most one, and the two are
updated together, except that an agent may walk away from what it holds, and
that an identifier may be taken out for nobody.  An identifier in use is held by
at most one agent, and as long as neither happens, every identifier in use has a
holder.
-/

/-- The identifiers in use and their holders. -/
structure Leases (α ι : Type) where
  active : Finset ι
  holder : α → Option ι

namespace Leases

variable {α ι : Type} [DecidableEq α] [DecidableEq ι]

/-- Agent `a` takes identifier `i`. -/
def acquire (l : Leases α ι) (a : α) (i : ι) : Leases α ι :=
  ⟨insert i l.active, Function.update l.holder a (some i)⟩

/-- Agent `a` puts identifier `i` back. -/
def release (l : Leases α ι) (a : α) (i : ι) : Leases α ι :=
  ⟨l.active.erase i, Function.update l.holder a none⟩

/-- Agent `a` leaves with what it holds. -/
def abandon (l : Leases α ι) (a : α) : Leases α ι :=
  ⟨l.active, Function.update l.holder a none⟩

/-- Identifier `i` is taken out, and nobody holds it. -/
def strand (l : Leases α ι) (i : ι) : Leases α ι :=
  ⟨insert i l.active, l.holder⟩

/-- Every held identifier is in use, and no two agents hold the same. -/
structure Sound (l : Leases α ι) : Prop where
  active : ∀ a i, l.holder a = some i → i ∈ l.active
  unique : ∀ a b i, l.holder a = some i → l.holder b = some i → a = b

/-- Besides, every identifier in use has a holder. -/
structure Exact (l : Leases α ι) : Prop extends Sound l where
  held : ∀ i ∈ l.active, ∃ a, l.holder a = some i

variable {l : Leases α ι} {a : α} {i : ι}

omit [DecidableEq α] [DecidableEq ι] in
theorem exact_empty : Exact (⟨∅, fun _ => none⟩ : Leases α ι) where
  active := by simp
  unique := by simp
  held := by simp

theorem Sound.acquire (hl : Sound l) (hfresh : i ∉ l.active) :
    Sound (l.acquire a i) where
  active := by
    intro b j hb
    by_cases hba : b = a
    · simp only [Leases.acquire, hba, Function.update_self,
        Option.some.injEq] at hb
      simp [Leases.acquire, hb]
    · simp only [Leases.acquire, Function.update_of_ne hba] at hb
      exact Finset.mem_insert_of_mem (hl.active b j hb)
  unique := by
    have hold : ∀ b, b ≠ a → (l.acquire a i).holder b ≠ some i := by
      intro b hba hb
      simp only [Leases.acquire, Function.update_of_ne hba] at hb
      exact hfresh (hl.active b i hb)
    have hnew : ∀ j, (l.acquire a i).holder a = some j → j = i := by
      intro j hj
      simpa [Leases.acquire, eq_comm] using hj
    intro b c j hb hc
    by_cases hba : b = a
    · by_cases hca : c = a
      · rw [hba, hca]
      · rw [hba] at hb
        exact absurd (hnew j hb ▸ hc) (hold c hca)
    · by_cases hca : c = a
      · rw [hca] at hc
        exact absurd (hnew j hc ▸ hb) (hold b hba)
      · simp only [Leases.acquire, Function.update_of_ne hba] at hb
        simp only [Leases.acquire, Function.update_of_ne hca] at hc
        exact hl.unique b c j hb hc

theorem Exact.acquire (hl : Exact l) (hfresh : i ∉ l.active)
    (hnone : l.holder a = none) : Exact (l.acquire a i) := by
  refine ⟨hl.toSound.acquire hfresh, fun j hj => ?_⟩
  rcases Finset.mem_insert.mp hj with rfl | hj
  · exact ⟨a, by simp [Leases.acquire]⟩
  · obtain ⟨b, hb⟩ := hl.held j hj
    have hba : b ≠ a := by
      rintro rfl
      rw [hnone] at hb
      cases hb
    exact ⟨b, by simp [Leases.acquire, hba, hb]⟩

omit [DecidableEq α] in
theorem Sound.strand (hl : Sound l) : Sound (l.strand i) where
  active a j ha := Finset.mem_insert_of_mem (hl.active a j ha)
  unique := hl.unique

omit [DecidableEq ι] in
theorem Sound.abandon (hl : Sound l) : Sound (l.abandon a) where
  active := by
    intro b j hb
    by_cases hba : b = a
    · simp [Leases.abandon, hba] at hb
    · simp only [Leases.abandon, Function.update_of_ne hba] at hb
      exact hl.active b j hb
  unique := by
    intro b c j hb hc
    by_cases hba : b = a
    · simp [Leases.abandon, hba] at hb
    · by_cases hca : c = a
      · simp [Leases.abandon, hca] at hc
      · simp only [Leases.abandon, Function.update_of_ne hba] at hb
        simp only [Leases.abandon, Function.update_of_ne hca] at hc
        exact hl.unique b c j hb hc

omit [DecidableEq ι] in
theorem abandon_of_none (hnone : l.holder a = none) : l.abandon a = l := by
  rw [abandon, ← hnone, Function.update_eq_self]

/-- Putting back what one holds. -/
theorem Sound.release (hl : Sound l) (hheld : l.holder a = some i) :
    Sound (l.release a i) where
  active := by
    intro b j hb
    by_cases hba : b = a
    · simp [Leases.release, hba] at hb
    · simp only [Leases.release, Function.update_of_ne hba] at hb
      refine Finset.mem_erase.mpr ⟨?_, hl.active b j hb⟩
      rintro rfl
      exact hba (hl.unique b a j hb hheld)
  unique := hl.abandon.unique

theorem Exact.release (hl : Exact l) (hheld : l.holder a = some i) :
    Exact (l.release a i) := by
  refine ⟨hl.toSound.release hheld, fun j hj => ?_⟩
  obtain ⟨hji, hj⟩ := Finset.mem_erase.mp hj
  obtain ⟨b, hb⟩ := hl.held j hj
  have hba : b ≠ a := by
    rintro rfl
    rw [hheld, Option.some.injEq] at hb
    exact hji hb.symm
  exact ⟨b, by simp [Leases.release, hba, hb]⟩

/-! ## What was lost -/

/-- The identifiers in use are those with a holder and the lost ones, which
nobody holds any more. -/
structure Accounted (l : Leases α ι) (lost : List ι) : Prop
    extends Sound l where
  lost_active : ∀ i ∈ lost, i ∈ l.active
  lost_unheld : ∀ i ∈ lost, ∀ a, l.holder a ≠ some i
  found : ∀ i ∈ l.active, i ∈ lost ∨ ∃ a, l.holder a = some i

variable {lost : List ι}

omit [DecidableEq α] [DecidableEq ι] in
theorem accounted_empty :
    Accounted (⟨∅, fun _ => none⟩ : Leases α ι) [] where
  toSound := exact_empty.toSound
  lost_active := by simp
  lost_unheld := by simp
  found := by simp

omit [DecidableEq α] [DecidableEq ι] in
theorem Accounted.active_iff (hl : Accounted l lost) :
    i ∈ l.active ↔ i ∈ lost ∨ ∃ a, l.holder a = some i := by
  refine ⟨hl.found i, ?_⟩
  rintro (hlost | ⟨a, ha⟩)
  · exact hl.lost_active i hlost
  · exact hl.active a i ha

theorem Accounted.acquire (hl : Accounted l lost) (hfresh : i ∉ l.active)
    (hnone : l.holder a = none) : Accounted (l.acquire a i) lost where
  toSound := hl.toSound.acquire hfresh
  lost_active j hj := Finset.mem_insert_of_mem (hl.lost_active j hj)
  lost_unheld := by
    intro j hj b hb
    by_cases hba : b = a
    · simp only [Leases.acquire, hba, Function.update_self,
        Option.some.injEq] at hb
      exact hfresh (hb ▸ hl.lost_active j hj)
    · simp only [Leases.acquire, Function.update_of_ne hba] at hb
      exact hl.lost_unheld j hj b hb
  found := by
    intro j hj
    rcases Finset.mem_insert.mp hj with rfl | hj
    · exact Or.inr ⟨a, by simp [Leases.acquire]⟩
    · rcases hl.found j hj with hlost | ⟨b, hb⟩
      · exact Or.inl hlost
      · have hba : b ≠ a := by
          rintro rfl
          rw [hnone] at hb
          cases hb
        exact Or.inr ⟨b, by simp [Leases.acquire, hba, hb]⟩

omit [DecidableEq ι] in
theorem Accounted.abandon (hl : Accounted l lost) :
    Accounted (l.abandon a) ((l.holder a).toList ++ lost) where
  toSound := hl.toSound.abandon
  lost_active := by
    intro j hj
    rcases List.mem_append.mp hj with hj | hj
    · exact hl.active a j (by simpa using hj)
    · exact hl.lost_active j hj
  lost_unheld := by
    intro j hj b hb
    by_cases hba : b = a
    · simp [Leases.abandon, hba] at hb
    · simp only [Leases.abandon, Function.update_of_ne hba] at hb
      rcases List.mem_append.mp hj with hj | hj
      · exact hba (hl.unique b a j hb (by simpa using hj))
      · exact hl.lost_unheld j hj b hb
  found := by
    intro j hj
    rcases hl.found j hj with hlost | ⟨b, hb⟩
    · exact Or.inl (List.mem_append_right _ hlost)
    · by_cases hba : b = a
      · exact Or.inl (List.mem_append_left _ (by simp [← hba, hb]))
      · exact Or.inr ⟨b, by simp [Leases.abandon, hba, hb]⟩

omit [DecidableEq α] in
/-- What is taken out for nobody is lost. -/
theorem Accounted.strand (hl : Accounted l lost) (hfresh : i ∉ l.active) :
    Accounted (l.strand i) (i :: lost) where
  toSound := hl.toSound.strand
  lost_active := by
    intro j hj
    rcases List.mem_cons.mp hj with rfl | hj
    · exact Finset.mem_insert_self _ _
    · exact Finset.mem_insert_of_mem (hl.lost_active j hj)
  lost_unheld := by
    intro j hj a ha
    rcases List.mem_cons.mp hj with rfl | hj
    · exact hfresh (hl.active a j ha)
    · exact hl.lost_unheld j hj a ha
  found := by
    intro j hj
    rcases Finset.mem_insert.mp hj with rfl | hj
    · exact Or.inl List.mem_cons_self
    · exact (hl.found j hj).imp_left (List.mem_cons_of_mem _)

theorem Accounted.release (hl : Accounted l lost)
    (hheld : l.holder a = some i) : Accounted (l.release a i) lost where
  toSound := hl.toSound.release hheld
  lost_active j hj := by
    refine Finset.mem_erase.mpr ⟨?_, hl.lost_active j hj⟩
    rintro rfl
    exact hl.lost_unheld j hj a hheld
  lost_unheld := by
    intro j hj b hb
    by_cases hba : b = a
    · simp [Leases.release, hba] at hb
    · simp only [Leases.release, Function.update_of_ne hba] at hb
      exact hl.lost_unheld j hj b hb
  found := by
    intro j hj
    obtain ⟨hji, hj⟩ := Finset.mem_erase.mp hj
    refine (hl.found j hj).imp_right ?_
    rintro ⟨b, hb⟩
    have hba : b ≠ a := by
      rintro rfl
      rw [hheld, Option.some.injEq] at hb
      exact hji hb.symm
    exact ⟨b, by simp [Leases.release, hba, hb]⟩

end Leases
