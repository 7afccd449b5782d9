import Mathlib

/-!
# Averages over independent draws

Every source of randomness draws one value, and all ways in which the sources
can draw together are equally likely.  The average of a quantity is then its
mean over the functions from sources to values.  This module computes such
averages for quantities that are put together source by source: what one
source has drawn does not depend on what the others have, so averages of
products split.
-/

namespace Draws

open Finset
open scoped BigOperators

open Classical in
/-- The part of the values that meet a condition. -/
noncomputable def chance {δ : Type} [Fintype δ] (p : δ → Prop) : ℚ :=
  𝔼 x : δ, if p x then 1 else 0

/-! ## One value -/

section Chance

variable {δ : Type} [Fintype δ] {p q : δ → Prop}

theorem chance_eq_expect (p : δ → Prop) [DecidablePred p] :
    chance p = 𝔼 x : δ, if p x then 1 else 0 :=
  expect_congr rfl fun x _ => by congr

theorem chance_congr (h : ∀ x, p x ↔ q x) : chance p = chance q :=
  congrArg chance (funext fun x => propext (h x))

theorem chance_of_forall [Nonempty δ] (h : ∀ x, p x) : chance p = 1 :=
  calc chance p = 𝔼 _x : δ, (1 : ℚ) :=
        expect_congr rfl fun x _ => if_pos (h x)
    _ = 1 := Fintype.expect_one

theorem chance_not [Nonempty δ] :
    chance (fun x => ¬p x) = 1 - chance p := by
  have hwhole : chance p + chance (fun x => ¬p x) =
      chance fun _ : δ => True := by
    refine (expect_add_distrib _ _ _).symm.trans ?_
    refine expect_congr rfl fun x _ => ?_
    by_cases hx : p x
    · simp [hx]
    · simp [hx]
  rw [chance_of_forall fun _ => trivial] at hwhole
  exact eq_sub_of_add_eq' hwhole

theorem chance_and_not (h : ∀ x, q x → p x) :
    chance (fun x => p x ∧ ¬q x) = chance p - chance q := by
  classical
  rw [chance_eq_expect, chance_eq_expect p, chance_eq_expect q,
    ← expect_sub_distrib]
  refine expect_congr rfl fun x _ => ?_
  by_cases hq : q x
  · simp [hq, h x hq]
  · simp [hq]

end Chance

theorem chance_even {n : ℕ} (hn : 0 < n) :
    chance (fun x : Fin (2 * n) => (x.val + 1) % 2 = 0) = 1 / 2 := by
  have : NeZero (2 * n) := ⟨by omega⟩
  have hrev : chance (fun x : Fin (2 * n) => (x.val + 1) % 2 = 0) =
      chance (fun x : Fin (2 * n) => ¬(x.val + 1) % 2 = 0) := by
    refine Fintype.expect_equiv Fin.revPerm _ _ fun x => ?_
    have hx := x.isLt
    have hparity : (x.val + 1) % 2 = 0 ↔
        ¬((Fin.rev x).val + 1) % 2 = 0 := by
      rw [Fin.val_rev]
      omega
    simp only [Fin.revPerm_apply, hparity]
  rw [chance_not] at hrev
  linarith

/-! ## Independent sources -/

section Independence

variable {ι δ : Type} [Fintype ι] [DecidableEq ι] [Fintype δ]

/-- Exchange the value of a source for another one. -/
def exchange (i : ι) : δ × (ι → δ) ≃ δ × (ι → δ) where
  toFun d := (d.2 i, Function.update d.2 i d.1)
  invFun d := (d.2 i, Function.update d.2 i d.1)
  left_inv := fun ⟨x, c⟩ => by simp
  right_inv := fun ⟨x, c⟩ => by simp

variable [Nonempty δ]

theorem expect_update (i : ι) (F : (ι → δ) → ℚ) :
    𝔼 x : δ, 𝔼 c : ι → δ, F (Function.update c i x) =
      𝔼 c : ι → δ, F c := by
  have hpair : 𝔼 d : δ × (ι → δ), F (Function.update d.2 i d.1) =
      𝔼 d : δ × (ι → δ), F d.2 :=
    Fintype.expect_equiv (exchange i) _ _ fun _ => rfl
  rw [← univ_product_univ, expect_product, expect_product] at hpair
  exact hpair.trans (Fintype.expect_const (𝔼 c : ι → δ, F c))

theorem expect_mul_of_unaffected (i : ι) (f : δ → ℚ) {g : (ι → δ) → ℚ}
    (hg : ∀ c x, g (Function.update c i x) = g c) :
    𝔼 c : ι → δ, f (c i) * g c = (𝔼 x, f x) * 𝔼 c : ι → δ, g c := by
  rw [← expect_update i, Fintype.expect_mul_expect]
  refine expect_congr rfl fun x _ => expect_congr rfl fun c _ => ?_
  rw [Function.update_self, hg]

theorem expect_coordinate (i : ι) (f : δ → ℚ) :
    𝔼 c : ι → δ, f (c i) = 𝔼 x, f x := by
  have h := expect_mul_of_unaffected i f (g := fun _ => (1 : ℚ))
    fun _ _ => rfl
  simpa only [mul_one, Fintype.expect_one] using h

theorem chance_and_of_unaffected (i : ι) (p : δ → Prop)
    {r : (ι → δ) → Prop} (hr : ∀ c x, r (Function.update c i x) ↔ r c) :
    chance (fun c => p (c i) ∧ r c) = chance p * chance r := by
  classical
  rw [chance_eq_expect, chance_eq_expect p, chance_eq_expect r,
    ← expect_mul_of_unaffected i _ fun c x => if_congr (hr c x) rfl rfl]
  refine expect_congr rfl fun c _ => ?_
  rw [ite_zero_mul_ite_zero, one_mul]

theorem chance_forall_mem (p : δ → Prop) (s : Finset ι) :
    chance (fun c : ι → δ => ∀ i ∈ s, p (c i)) = chance p ^ s.card := by
  induction s using Finset.induction with
  | empty =>
      rw [card_empty, pow_zero]
      exact chance_of_forall fun c i hi => absurd hi (notMem_empty i)
  | insert i s hi ih =>
      have hrest : ∀ (c : ι → δ) (x : δ),
          (∀ j ∈ s, p (Function.update c i x j)) ↔ ∀ j ∈ s, p (c j) := by
        intro c x
        refine forall₂_congr fun j hj => ?_
        rw [Function.update_of_ne (ne_of_mem_of_not_mem hj hi)]
      rw [card_insert_of_notMem hi, pow_succ', ← ih,
        ← chance_and_of_unaffected i p hrest]
      exact chance_congr fun c => forall_mem_insert _ _ _

theorem expect_countP (p : δ → Prop) [DecidablePred p] (l : List ι) :
    𝔼 c : ι → δ, (l.countP fun i => decide (p (c i)) : ℚ) =
      l.length * chance p := by
  induction l with
  | nil => simp
  | cons i l ih =>
      have hsplit : ∀ c : ι → δ,
          ((i :: l).countP fun i => decide (p (c i)) : ℚ) =
            (l.countP fun i => decide (p (c i)) : ℚ) +
              if p (c i) then 1 else 0 := by
        intro c
        rw [List.countP_cons]
        by_cases hp : p (c i)
        · simp [hp]
        · simp [hp]
      rw [expect_congr rfl fun c _ => hsplit c, expect_add_distrib, ih,
        expect_coordinate i fun x => if p x then (1 : ℚ) else 0,
        List.length_cons, Nat.cast_add, Nat.cast_one, add_mul, one_mul,
        chance_eq_expect]

omit [Fintype ι] [DecidableEq ι] [Fintype δ] [Nonempty δ] in
theorem takeWhile_eq_of_forall {p q : ι → Bool} {l : List ι}
    (h : ∀ i ∈ l, p i = q i) : l.takeWhile p = l.takeWhile q := by
  induction l with
  | nil => rfl
  | cons i l ih =>
      obtain ⟨hi, hl⟩ := List.forall_mem_cons.mp h
      rw [List.takeWhile_cons, List.takeWhile_cons, hi, ih hl]

omit [Fintype ι] [Fintype δ] [Nonempty δ] in
theorem countP_takeWhile_update (p q : δ → Prop) [DecidablePred p]
    [DecidablePred q] {l : List ι} {i : ι} (hi : i ∉ l) (c : ι → δ) (x : δ) :
    ((l.takeWhile fun j => decide (q (Function.update c i x j))).countP
        fun j => decide (p (Function.update c i x j))) =
      (l.takeWhile fun j => decide (q (c j))).countP
        fun j => decide (p (c j)) := by
  have hne : ∀ j ∈ l, Function.update c i x j = c j :=
    fun j hj => Function.update_of_ne (ne_of_mem_of_not_mem hj hi) _ _
  have htake : (l.takeWhile fun j =>
      decide (q (Function.update c i x j))) =
        l.takeWhile fun j => decide (q (c j)) :=
    takeWhile_eq_of_forall fun j hj => by rw [hne j hj]
  rw [htake]
  refine List.countP_congr fun j hj => ?_
  rw [hne j (List.takeWhile_subset _ hj)]

/-- How many of the listed sources meet `p` before the first one that fails
`q`: every source in front of it has passed `q`. -/
theorem expect_countP_takeWhile (p q : δ → Prop) [DecidablePred p]
    [DecidablePred q] {l : List ι} (hl : l.Nodup) :
    𝔼 c : ι → δ, ((l.takeWhile fun i => decide (q (c i))).countP
        fun i => decide (p (c i)) : ℚ) =
      chance (fun x => p x ∧ q x) *
        ∑ j ∈ range l.length, chance q ^ j := by
  induction l with
  | nil => simp
  | cons i l ih =>
      obtain ⟨hi, hl⟩ := List.nodup_cons.mp hl
      -- what is counted behind `i` does not depend on what `i` has drawn
      have hrest : ∀ (c : ι → δ) (x : δ),
          ((l.takeWhile fun j => decide (q (Function.update c i x j))).countP
            fun j => decide (p (Function.update c i x j)) : ℚ) =
          ((l.takeWhile fun j => decide (q (c j))).countP
            fun j => decide (p (c j)) : ℚ) :=
        fun c x => congrArg _ (countP_takeWhile_update p q hi c x)
      have hsplit : ∀ c : ι → δ,
          (((i :: l).takeWhile fun j => decide (q (c j))).countP
            fun j => decide (p (c j)) : ℚ) =
          (if p (c i) ∧ q (c i) then 1 else 0) +
            (if q (c i) then 1 else 0) *
              ((l.takeWhile fun j => decide (q (c j))).countP
                fun j => decide (p (c j)) : ℚ) := by
        intro c
        by_cases hq : q (c i)
        · by_cases hp : p (c i)
          · simp [hq, hp, add_comm]
          · simp [hq, hp]
        · simp [hq]
      rw [expect_congr rfl fun c _ => hsplit c, expect_add_distrib,
        expect_coordinate i fun x => if p x ∧ q x then (1 : ℚ) else 0,
        expect_mul_of_unaffected i (fun x => if q x then (1 : ℚ) else 0)
          hrest, ih hl, List.length_cons, geom_sum_succ]
      rw [← chance_eq_expect, ← chance_eq_expect]
      ring

end Independence

end Draws
