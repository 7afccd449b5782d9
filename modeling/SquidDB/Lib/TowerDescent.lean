import SquidDB.Lib.Tower

/-!
# Descending a sequence of towers

A search runs along the highest level as far as it may, goes down one level
where it stands, and so on down to the lowest one.  On each level it passes
the elements of the level that lie behind the last element of the level above.
When the search may go through the whole sequence, that is all it passes.
-/

namespace Tower

variable {α : Type} (height : α → ℕ)

/-- The number of elements on level `L` behind the last one on the level
above. -/
def passed (L : ℕ) (l : List α) : ℕ :=
  (l.reverse.takeWhile fun e => decide (height e ≤ L + 1)).countP
    fun e => decide (L < height e)

/-- The number of elements a search passes on the lowest `levels` levels. -/
def steps (levels : ℕ) (l : List α) : ℕ :=
  ∑ L ∈ Finset.range levels, passed height L l

variable {height} {L : ℕ}

theorem passed_of_le {l : List α} (h : ∀ e ∈ l, height e ≤ L + 1) :
    passed height L l = l.countP fun e => decide (L < height e) := by
  have htake : (l.reverse.takeWhile fun e => decide (height e ≤ L + 1)) =
      l.reverse :=
    List.takeWhile_eq_self_iff.mpr fun e he =>
      decide_eq_true (h e (List.mem_reverse.mp he))
  rw [passed, htake, List.countP_reverse]

theorem passed_split {p q : List α} {y : α} (hy : L + 1 < height y)
    (hq : ∀ e ∈ q, height e ≤ L + 1) :
    passed height L (p ++ y :: q) =
      q.countP fun e => decide (L < height e) := by
  have htake : ((p ++ y :: q).reverse.takeWhile
      fun e => decide (height e ≤ L + 1)) = q.reverse := by
    have hstop : decide (height y ≤ L + 1) = false :=
      decide_eq_false (Nat.not_le.mpr hy)
    rw [List.reverse_append, List.reverse_cons, List.append_assoc,
      List.takeWhile_append_of_pos fun e he =>
        decide_eq_true (hq e (List.mem_reverse.mp he)),
      List.singleton_append, List.takeWhile_cons, hstop]
    exact List.append_nil _
  rw [passed, htake, List.countP_reverse]

theorem passed_map {β : Type} (f : β → α) (l : List β) :
    passed height L (l.map f) = passed (fun b => height (f b)) L l := by
  rw [passed, ← List.map_reverse, List.takeWhile_map, List.countP_map]
  rfl

theorem steps_succ (height : α → ℕ) (levels : ℕ) (l : List α) :
    steps height (levels + 1) l =
      steps height levels l + passed height levels l :=
  Finset.sum_range_succ _ _

end Tower
