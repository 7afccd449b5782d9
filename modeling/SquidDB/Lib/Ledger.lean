import Mathlib

/-!
# Ledgers

A keeper is handed items and lets items go.  The books balance when what it
was handed is what it holds together with what it has let go, item by item.
An item that was handed over once is then in exactly one of the two places,
and there once.
-/

namespace Ledger

variable {α : Type}

/-- What was received is what is held together with what was released. -/
def Balanced (received held released : List α) : Prop :=
  received.Perm (held ++ released)

theorem balanced_nil : Balanced ([] : List α) [] [] := .nil

variable {received held released lo hi : List α}

theorem Balanced.receive (h : Balanced received (lo ++ hi) released)
    (new : List α) :
    Balanced (received ++ new) (lo ++ (new ++ hi)) released := by
  classical
  rw [Balanced, List.perm_iff_count] at h ⊢
  intro d
  have hd := h d
  simp only [List.count_append] at hd ⊢
  omega

/-- Some of the items held are let go. -/
theorem Balanced.release {old : List α}
    (h : Balanced received (lo ++ (old ++ hi)) released) :
    Balanced received (lo ++ hi) (released ++ old) := by
  classical
  rw [Balanced, List.perm_iff_count] at h ⊢
  intro d
  have hd := h d
  simp only [List.count_append] at hd ⊢
  omega

/-- New items take the place of some that are let go. -/
theorem Balanced.exchange {old : List α}
    (h : Balanced received (lo ++ (old ++ hi)) released) (new : List α) :
    Balanced (received ++ new) (lo ++ (new ++ hi)) (released ++ old) :=
  h.release.receive new

theorem Balanced.releaseAll (h : Balanced received held released) :
    Balanced received [] (released ++ held) :=
  h.trans List.perm_append_comm

variable {d : α}

theorem Balanced.of_not_mem (h : Balanced received held released)
    (hd : d ∉ received) : d ∉ held ∧ d ∉ released := by
  rw [h.mem_iff, List.mem_append, not_or] at hd
  exact hd

theorem Balanced.nodup_held (h : Balanced received held released)
    (hnodup : received.Nodup) : held.Nodup :=
  (List.nodup_append.mp (h.nodup_iff.mp hnodup)).1

theorem Balanced.held_or_released [DecidableEq α]
    (h : Balanced received held released) (hnodup : received.Nodup)
    (hd : d ∈ received) :
    d ∈ held ∧ d ∉ released ∨ d ∉ held ∧ released.count d = 1 := by
  obtain ⟨-, hreleased, hdisjoint⟩ :=
    List.nodup_append.mp (h.nodup_iff.mp hnodup)
  rcases List.mem_append.mp (h.mem_iff.mp hd) with hheld | hgone
  · exact .inl ⟨hheld, fun hgone => hdisjoint d hheld d hgone rfl⟩
  · exact .inr ⟨fun hheld => hdisjoint d hheld d hgone rfl,
      List.count_eq_one_of_mem hreleased hgone⟩

theorem Balanced.perm_held [DecidableEq α]
    (h : Balanced received held released) (hnodup : received.Nodup) :
    (received.filter fun d => d ∉ released).Perm held := by
  obtain ⟨-, -, hdisjoint⟩ := List.nodup_append.mp (h.nodup_iff.mp hnodup)
  have hheld : held.filter (fun d => decide (d ∉ released)) = held := by
    refine List.filter_eq_self.mpr fun d hd => decide_eq_true fun hgone => ?_
    exact hdisjoint d hd d hgone rfl
  have hreleased : released.filter (fun d => decide (d ∉ released)) = [] :=
    List.filter_eq_nil_iff.mpr fun d hd hnot => of_decide_eq_true hnot hd
  have hperm := List.Perm.filter (fun d => decide (d ∉ released)) h
  rwa [List.filter_append, hheld, hreleased, List.append_nil] at hperm

theorem sum_filterMap {β : Type} (f : β → Option α) (weight : α → ℕ)
    (l : List β) :
    ((l.filterMap f).map weight).sum =
      (l.map fun b => (f b).elim 0 weight).sum := by
  induction l with
  | nil => rfl
  | cons b l ih => cases hb : f b <;> simp [hb, ih]

/-- The items of a history, one event after another. -/
theorem filterMap_cons_toList {β : Type} (f : β → Option α) (b : β)
    (history : List β) :
    (b :: history).filterMap f = (f b).toList ++ history.filterMap f := by
  cases hb : f b <;> simp [hb]

end Ledger
