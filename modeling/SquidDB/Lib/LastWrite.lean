import Mathlib

/-!
# Last writes

A state has fields under keys, and each item of a list is put into the field
that its key names.  What a field holds behind the list was put there by the
last item with its key, whatever the other items are.
-/

namespace LastWrite

variable {ι κ ν σ : Type} [DecidableEq κ]

/-- The last item with a key. -/
def last (key : ι → κ) (k : κ) (items : List ι) : Option ι :=
  (items.filter fun i => key i = k).getLast?

/-- An item is put into the field under its key and into no other. -/
structure Writes (get : σ → κ → ν) (put : σ → ι → σ) (key : ι → κ)
    (value : ι → ν) (i : ι) : Prop where
  get_put : ∀ s, get (put s i) (key i) = value i
  frame : ∀ s k, k ≠ key i → get (put s i) k = get s k

variable {key : ι → κ} {k : κ} {items : List ι} {i : ι} {p : ι → Bool}

theorem last_append_singleton (key : ι → κ) (k : κ) (items : List ι) (i : ι) :
    last key k (items ++ [i]) =
      if key i = k then some i else last key k items := by
  rw [last, List.filter_append, List.getLast?_append]
  by_cases hi : key i = k
  · simp [hi]
  · simp [hi, last]

theorem mem_of_last (h : last key k items = some i) :
    i ∈ items ∧ key i = k := by
  have hmem := List.mem_of_getLast? h
  rwa [List.mem_filter, decide_eq_true_eq] at hmem

theorem last_filter_of_pos (h : last key k items = some i) (hi : p i = true) :
    last key k (items.filter p) = some i := by
  induction items using List.reverseRecOn with
  | nil => cases h
  | append_singleton items j ih =>
      rw [last_append_singleton] at h
      by_cases hj : key j = k
      · rw [if_pos hj, Option.some.injEq] at h
        subst h
        rw [List.filter_append, List.filter_cons_of_pos hi, List.filter_nil,
          last_append_singleton, if_pos hj]
      · rw [if_neg hj] at h
        by_cases hp : p j = true
        · rw [List.filter_append, List.filter_cons_of_pos hp, List.filter_nil,
            last_append_singleton, if_neg hj, ih h]
        · rw [List.filter_append, List.filter_cons_of_neg hp, List.filter_nil,
            List.append_nil, ih h]

theorem last_filter_of_none (p : ι → Bool) (h : last key k items = none) :
    last key k (items.filter p) = none := by
  rw [last, List.getLast?_eq_none_iff, List.filter_eq_nil_iff] at h ⊢
  intro i hi
  exact h i (List.mem_of_mem_filter hi)

/-- The last write to a field is what it holds; without one it is as it
was. -/
theorem get_foldl {get : σ → κ → ν} {put : σ → ι → σ} {value : ι → ν}
    (h : ∀ i ∈ items, Writes get put key value i) (s : σ) (k : κ) :
    get (items.foldl put s) k =
      ((last key k items).map value).getD (get s k) := by
  induction items using List.reverseRecOn with
  | nil => rfl
  | append_singleton items i ih =>
      have hi : Writes get put key value i := h i (by simp)
      rw [List.foldl_concat, last_append_singleton]
      by_cases hk : key i = k
      · subst hk
        rw [if_pos rfl, hi.get_put, Option.map_some, Option.getD_some]
      · rw [if_neg hk, hi.frame _ _ (Ne.symm hk),
          ih fun j hj => h j (List.mem_append_left _ hj)]

end LastWrite
