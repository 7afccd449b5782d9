import SquidDB.Lib.Tower

/-!
# The tallest of a sequence of towers

A search that goes down level by level and stops at the first element it meets
ends at the first of the tallest elements.
-/

namespace Tower

variable {α β : Type} (height : α → ℕ)

/-- The height of the tallest element. -/
def top (l : List α) : ℕ := l.foldr (fun e t => max (height e) t) 0

/-- The first element that is as tall as all others. -/
def firstTallest (l : List α) : Option α :=
  l.find? fun e => decide (∀ x ∈ l, height x ≤ height e)

variable {height}

@[simp] theorem top_nil : top height [] = 0 := rfl

@[simp] theorem top_cons (e : α) (l : List α) :
    top height (e :: l) = max (height e) (top height l) := rfl

theorem top_append (s l : List α) :
    top height (s ++ l) = max (top height s) (top height l) := by
  induction s with
  | nil => simp
  | cons e s ih => rw [List.cons_append, top_cons, top_cons, ih, max_assoc]

@[simp] theorem firstTallest_nil : firstTallest height [] = none := rfl

theorem firstTallest_eq_some {s t : List α} {e : α}
    (hs : ∀ x ∈ s, height x < height e) (ht : ∀ x ∈ t, height x ≤ height e) :
    firstTallest height (s ++ e :: t) = some e := by
  have hall : ∀ x ∈ s ++ e :: t, height x ≤ height e := by
    intro x hx
    rcases List.mem_append.mp hx with hx | hx
    · exact (hs x hx).le
    · rcases List.mem_cons.mp hx with rfl | hx
      · exact le_rfl
      · exact ht x hx
  rw [firstTallest, List.find?_eq_some_iff_append]
  refine ⟨decide_eq_true hall, s, t, rfl, fun x hx => ?_⟩
  have hlower : ¬∀ y ∈ s ++ e :: t, height y ≤ height x :=
    fun hle => absurd (hle e (by simp)) (Nat.not_le.mpr (hs x hx))
  simpa using hlower

/-- On the highest level that any element reaches, the first element is the
first of the tallest. -/
theorem firstTallest_of_nextAt {L : ℕ} {l : List α} {e : α}
    (hnext : nextAt height L l = some e)
    (hlow : ∀ x ∈ l, height x ≤ L + 1) : firstTallest height l = some e := by
  obtain ⟨he, s, t, rfl, hs⟩ := List.find?_eq_some_iff_append.mp hnext
  have htall : height e = L + 1 :=
    le_antisymm (hlow e (by simp)) (of_decide_eq_true he)
  apply firstTallest_eq_some
  · intro x hx
    have hle := hs x hx
    rw [Bool.not_eq_true', decide_eq_false_iff_not] at hle
    omega
  · intro x hx
    exact htall ▸ hlow x (by simp [hx])

/-- Mapping the elements of a sequence, with their heights, maps the first of
the tallest. -/
theorem firstTallest_map (height' : β → ℕ) (f : β → α)
    (hheight : ∀ y, height (f y) = height' y) (l : List β) :
    firstTallest height (l.map f) = (firstTallest height' l).map f := by
  simp only [firstTallest, List.find?_map, List.forall_mem_map, hheight,
    Function.comp_def]

end Tower
