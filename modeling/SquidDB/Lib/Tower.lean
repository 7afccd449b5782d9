import Mathlib

/-!
# Sequences of towers

The combinatorics behind a multi-level linked list.  Every element of a
sequence carries a tower; on level `L` it is linked to the next element whose
tower is taller than `L`.  For one level this module describes the successor
(`nextAt`), the number of steps to it (`gap`), and the last element of a
sequence on that level together with its position (`lastAt`), and how all
three behave when the sequence is cut into pieces.
-/

namespace Tower

variable {α : Type} (height : α → ℕ)

/-- The first element on level `L`. -/
def nextAt (L : ℕ) (l : List α) : Option α :=
  l.find? fun e => decide (L < height e)

/-- The number of elements up to and including the first one on level `L`, or
up to the end when there is none. -/
def gap (L : ℕ) : List α → ℕ
  | [] => 0
  | e :: l => if L < height e then 1 else gap L l + 1

/-- The last element on level `L`, with its position. -/
def lastAt (L : ℕ) : List α → Option (ℕ × α)
  | [] => none
  | e :: l =>
      match lastAt L l with
      | some (i, y) => some (i + 1, y)
      | none => if L < height e then some (0, e) else none

variable {height} {L : ℕ}

/-! ## The next element of a level -/

@[simp] theorem nextAt_nil : nextAt height L [] = none := rfl

@[simp] theorem gap_nil : gap height L [] = 0 := rfl

theorem nextAt_cons_of_lt {e : α} (h : L < height e) (l : List α) :
    nextAt height L (e :: l) = some e := by
  simp [nextAt, h]

theorem nextAt_cons_of_le {e : α} (h : height e ≤ L) (l : List α) :
    nextAt height L (e :: l) = nextAt height L l := by
  simp [nextAt, Nat.not_lt.mpr h]

theorem gap_cons_of_lt {e : α} (h : L < height e) (l : List α) :
    gap height L (e :: l) = 1 := by
  simp [gap, h]

theorem gap_cons_of_le {e : α} (h : height e ≤ L) (l : List α) :
    gap height L (e :: l) = gap height L l + 1 := by
  simp [gap, Nat.not_lt.mpr h]

theorem nextAt_eq_none_iff {l : List α} :
    nextAt height L l = none ↔ ∀ e ∈ l, height e ≤ L := by
  simp [nextAt]

/-- Elements below level `L` are skipped. -/
theorem nextAt_append_of_le {s : List α} (h : ∀ e ∈ s, height e ≤ L)
    (l : List α) : nextAt height L (s ++ l) = nextAt height L l := by
  rw [nextAt, List.find?_append]
  rw [← nextAt, nextAt_eq_none_iff.mpr h]
  rfl

theorem gap_append_of_le {s : List α} (h : ∀ e ∈ s, height e ≤ L)
    (l : List α) : gap height L (s ++ l) = s.length + gap height L l := by
  induction s with
  | nil => simp
  | cons e s ih =>
      have htail : ∀ e ∈ s, height e ≤ L :=
        fun e he => h e (List.mem_cons_of_mem _ he)
      rw [List.cons_append, gap_cons_of_le (h e List.mem_cons_self),
        ih htail, List.length_cons]
      omega

/-- Only the part up to the first element of the level matters. -/
theorem nextAt_append_of_exists {s : List α} (h : ∃ e ∈ s, L < height e)
    (l : List α) : nextAt height L (s ++ l) = nextAt height L s := by
  have hsome : (nextAt height L s).isSome := by
    rw [Option.isSome_iff_ne_none, Ne, nextAt_eq_none_iff]
    push Not
    exact h
  rw [nextAt, List.find?_append]
  exact Option.or_of_isSome hsome

theorem gap_append_of_exists {s : List α} (h : ∃ e ∈ s, L < height e)
    (l : List α) : gap height L (s ++ l) = gap height L s := by
  induction s with
  | nil => simp at h
  | cons e s ih =>
      by_cases he : L < height e
      · simp [gap, he]
      · have htail : ∃ e ∈ s, L < height e := by
          obtain ⟨y, hy, hlt⟩ := h
          rcases List.mem_cons.mp hy with rfl | hy
          · exact absurd hlt he
          · exact ⟨y, hy, hlt⟩
        simp [gap, he, ih htail]

theorem gap_eq_length {l : List α} (h : ∀ e ∈ l, height e ≤ L) :
    gap height L l = l.length := by
  have hgap := gap_append_of_le h []
  simpa using hgap

theorem gap_pos (height : α → ℕ) (L : ℕ) {l : List α} (h : l ≠ []) :
    0 < gap height L l := by
  cases l with
  | nil => exact absurd rfl h
  | cons e l =>
      rw [gap]
      split
      · omega
      · omega

/-- A sequence either misses level `L` or splits at its first element there. -/
theorem all_le_or_split (height : α → ℕ) (L : ℕ) (l : List α) :
    (∀ e ∈ l, height e ≤ L) ∨
      ∃ s z t, l = s ++ z :: t ∧
        (∀ e ∈ s, height e ≤ L) ∧ L < height z := by
  induction l with
  | nil => exact Or.inl (by simp)
  | cons e l ih =>
      by_cases he : L < height e
      · exact Or.inr ⟨[], e, l, rfl, by simp, he⟩
      · have hle := Nat.le_of_not_lt he
        rcases ih with hall | ⟨s, z, t, rfl, hs, hz⟩
        · exact Or.inl (List.forall_mem_cons.mpr ⟨hle, hall⟩)
        · exact Or.inr ⟨e :: s, z, t, rfl,
            List.forall_mem_cons.mpr ⟨hle, hs⟩, hz⟩

theorem nextAt_split {s t : List α} {z : α} (hs : ∀ e ∈ s, height e ≤ L)
    (hz : L < height z) : nextAt height L (s ++ z :: t) = some z := by
  rw [nextAt_append_of_le hs, nextAt_cons_of_lt hz]

theorem gap_split {s t : List α} {z : α} (hs : ∀ e ∈ s, height e ≤ L)
    (hz : L < height z) : gap height L (s ++ z :: t) = s.length + 1 := by
  rw [gap_append_of_le hs, gap_cons_of_lt hz]

/-! ## The last element of a level -/

theorem lastAt_eq_none_of_le {l : List α} (h : ∀ e ∈ l, height e ≤ L) :
    lastAt height L l = none := by
  induction l with
  | nil => rfl
  | cons e l ih =>
      have hl := ih fun y hy => h y (List.mem_cons_of_mem _ hy)
      have he := h e List.mem_cons_self
      simp [lastAt, hl, Nat.not_lt.mpr he]

theorem lastAt_split {p q : List α} {y : α} (hy : L < height y)
    (hq : ∀ e ∈ q, height e ≤ L) :
    lastAt height L (p ++ y :: q) = some (p.length, y) := by
  induction p with
  | nil => simp [lastAt, lastAt_eq_none_of_le hq, hy]
  | cons e p ih => simp [lastAt, ih]

theorem all_le_or_split_last (height : α → ℕ) (L : ℕ) (l : List α) :
    (∀ e ∈ l, height e ≤ L) ∨
      ∃ p y q, l = p ++ y :: q ∧ L < height y ∧ ∀ e ∈ q, height e ≤ L := by
  induction l with
  | nil => exact Or.inl (by simp)
  | cons e l ih =>
      rcases ih with hall | ⟨p, y, q, rfl, hy, hq⟩
      · by_cases he : L < height e
        · exact Or.inr ⟨[], e, l, rfl, he, hall⟩
        · exact Or.inl (List.forall_mem_cons.mpr ⟨Nat.le_of_not_lt he, hall⟩)
      · exact Or.inr ⟨e :: p, y, q, rfl, hy, hq⟩

theorem lastAt_split_inv {l : List α} {i : ℕ} {y : α}
    (h : lastAt height L l = some (i, y)) :
    ∃ p q, l = p ++ y :: q ∧ p.length = i ∧ L < height y ∧
      ∀ e ∈ q, height e ≤ L := by
  rcases all_le_or_split_last height L l with
    hall | ⟨p, z, q, rfl, hz, hq⟩
  · rw [lastAt_eq_none_of_le hall] at h
    cases h
  · rw [lastAt_split hz hq] at h
    obtain ⟨rfl, rfl⟩ := Prod.mk.inj (Option.some.inj h)
    exact ⟨p, q, rfl, rfl, hz, hq⟩

theorem lastAt_append_of_exists {q : List α} (p : List α)
    (h : ∃ e ∈ q, L < height e) :
    ∃ i y, lastAt height L (p ++ q) = some (i, y) ∧ y ∈ q := by
  rcases all_le_or_split_last height L q with
    hall | ⟨s, y, t, rfl, hy, ht⟩
  · obtain ⟨e, he, hlt⟩ := h
    exact absurd (hall e he) (Nat.not_le.mpr hlt)
  · refine ⟨(p ++ s).length, y, ?_, by simp⟩
    rw [← List.append_assoc]
    exact lastAt_split hy ht

end Tower
