import Mathlib

/-!
# Lists that match element by element

Two lists are built from the same items, each item adding an element to either
of them or not.  When no element that is added on the right alone has a partner
on the left, the lists match exactly when every item adds a pair or nothing.
-/

namespace Matching

variable {α β γ : Type} {R : β → γ → Prop}

/-- An element on the right has a partner on the left. -/
theorem exists_left {l : List β} {l' : List γ} (h : List.Forall₂ R l l')
    {c : γ} (hc : c ∈ l') : ∃ b ∈ l, R b c := by
  induction h with
  | nil => cases hc
  | cons hbc _ ih =>
      rcases List.mem_cons.mp hc with rfl | hc
      · exact ⟨_, List.mem_cons_self, hbc⟩
      · obtain ⟨b, hb, hR⟩ := ih hc
        exact ⟨b, List.mem_cons_of_mem _ hb, hR⟩

theorem exists_right {l : List β} {l' : List γ} (h : List.Forall₂ R l l')
    {b : β} (hb : b ∈ l) : ∃ c ∈ l', R b c :=
  exists_left h.flip hb

variable {f : α → Option β} {g : α → Option γ} {items : List α}

theorem length_filterMap_le
    (hnone : ∀ a ∈ items, f a = none → g a = none) :
    (items.filterMap g).length ≤ (items.filterMap f).length := by
  rw [List.length_filterMap_eq_countP, List.length_filterMap_eq_countP]
  apply List.countP_mono_left
  intro a ha hsome
  by_contra hf
  rw [Option.not_isSome_iff_eq_none] at hf
  rw [hnone a ha hf] at hsome
  cases hsome

theorem forall₂_of_rel (hrel : ∀ a ∈ items, Option.Rel R (f a) (g a)) :
    List.Forall₂ R (items.filterMap f) (items.filterMap g) := by
  induction items with
  | nil => exact .nil
  | cons a items ih =>
      obtain ⟨ha, hrel⟩ := List.forall_mem_cons.mp hrel
      rw [List.filterMap_cons, List.filterMap_cons]
      generalize f a = x, g a = y at ha ⊢
      cases ha with
      | some hbc => exact .cons hbc (ih hrel)
      | none => exact ih hrel

theorem rel_of_forall₂ (hnone : ∀ a ∈ items, f a = none → g a = none)
    (hall : List.Forall₂ R (items.filterMap f) (items.filterMap g)) :
    ∀ a ∈ items, Option.Rel R (f a) (g a) := by
  induction items with
  | nil => simp
  | cons a items ih =>
      obtain ⟨ha, hnone⟩ := List.forall_mem_cons.mp hnone
      refine List.forall_mem_cons.mpr ?_
      rcases hf : f a with _ | b
      · have hg := ha hf
        rw [List.filterMap_cons_none hf, List.filterMap_cons_none hg] at hall
        exact ⟨hg ▸ .none, ih hnone hall⟩
      · rcases hg : g a with _ | c
        · -- one element too many on the left
          rw [List.filterMap_cons_some hf, List.filterMap_cons_none hg]
            at hall
          have hlength := hall.length_eq
          have hle := length_filterMap_le hnone
          rw [List.length_cons] at hlength
          omega
        · rw [List.filterMap_cons_some hf, List.filterMap_cons_some hg]
            at hall
          obtain ⟨hbc, hall⟩ := List.forall₂_cons.mp hall
          exact ⟨.some hbc, ih hnone hall⟩

theorem forall₂_filterMap_iff
    (hextra : ∀ a ∈ items, f a = none → ∀ c, g a = some c →
      ∀ b ∈ items.filterMap f, ¬R b c) :
    List.Forall₂ R (items.filterMap f) (items.filterMap g) ↔
      ∀ a ∈ items, Option.Rel R (f a) (g a) := by
  refine ⟨fun hall => rel_of_forall₂ (fun a ha hf => ?_) hall,
    forall₂_of_rel⟩
  by_contra hg
  obtain ⟨c, hc⟩ := Option.ne_none_iff_exists'.mp hg
  obtain ⟨b, hb, hR⟩ :=
    exists_left hall (List.mem_filterMap.mpr ⟨a, ha, hc⟩)
  exact hextra a ha hf c hc b hb hR

end Matching
