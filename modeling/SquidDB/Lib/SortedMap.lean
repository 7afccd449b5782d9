import Mathlib

/-!
# Finite maps in key order

A finite map from a linearly ordered type of keys, kept as the list of its
bindings in strictly ascending key order.  The list determines the map, so two
maps with the same bindings are equal, and an ordered traversal of the map is
the list itself.
-/

/-- A finite map, given by its bindings in ascending key order. -/
@[ext] structure SortedMap (K V : Type) [LinearOrder K] where
  entries : List (K × V)
  sorted : entries.Pairwise fun a b => a.1 < b.1

namespace SortedMap

variable {K V : Type} [LinearOrder K]

/-- The map without bindings. -/
def empty : SortedMap K V := ⟨[], List.Pairwise.nil⟩

/-- The value bound to a key. -/
def lookup (m : SortedMap K V) (k : K) : Option V :=
  (m.entries.find? fun e => e.1 = k).map Prod.snd

/-- Bind a key, replacing the binding it had. -/
def put (m : SortedMap K V) (k : K) (v : V) : SortedMap K V where
  entries := (m.entries.filter fun e => e.1 < k) ++
    (k, v) :: m.entries.filter fun e => k < e.1
  sorted := by
    rw [List.pairwise_append, List.pairwise_cons]
    refine ⟨m.sorted.filter _, ⟨?_, m.sorted.filter _⟩, ?_⟩
    · intro e he
      simpa using (List.mem_filter.mp he).2
    · intro a ha b hb
      have hak : a.1 < k := by simpa using (List.mem_filter.mp ha).2
      rcases List.mem_cons.mp hb with rfl | hb
      · exact hak
      · have hkb : k < b.1 := by simpa using (List.mem_filter.mp hb).2
        exact hak.trans hkb

/-- Remove the binding of a key. -/
def erase (m : SortedMap K V) (k : K) : SortedMap K V where
  entries := m.entries.filter fun e => e.1 ≠ k
  sorted := m.sorted.filter _

/-- The number of bindings. -/
def card (m : SortedMap K V) : ℕ := m.entries.length

@[simp] theorem entries_empty : (empty : SortedMap K V).entries = [] := rfl

theorem mem_entries_put {m : SortedMap K V} {k : K} {v : V} {e : K × V} :
    e ∈ (m.put k v).entries ↔ e = (k, v) ∨ (e.1 ≠ k ∧ e ∈ m.entries) := by
  have hne : e.1 ≠ k ↔ e.1 < k ∨ k < e.1 := ne_iff_lt_or_gt
  simp only [put, List.mem_append, List.mem_cons, List.mem_filter,
    decide_eq_true_eq, hne]
  tauto

theorem mem_entries_erase {m : SortedMap K V} {k : K} {e : K × V} :
    e ∈ (m.erase k).entries ↔ e.1 ≠ k ∧ e ∈ m.entries := by
  simp [erase, and_comm]

theorem eq_of_mem_entries {m : SortedMap K V} {k : K} {v w : V}
    (hv : (k, v) ∈ m.entries) (hw : (k, w) ∈ m.entries) : v = w := by
  have hsorted := List.pairwise_iff_getElem.mp m.sorted
  obtain ⟨i, hi, hiv⟩ := List.getElem_of_mem hv
  obtain ⟨j, hj, hjw⟩ := List.getElem_of_mem hw
  rcases lt_trichotomy i j with hij | rfl | hij
  · have := hsorted i j hi hj hij
    simp [hiv, hjw] at this
  · rw [hiv] at hjw
    exact (Prod.mk.inj hjw).2
  · have := hsorted j i hj hi hij
    simp [hiv, hjw] at this

theorem lookup_eq_some_iff {m : SortedMap K V} {k : K} {v : V} :
    m.lookup k = some v ↔ (k, v) ∈ m.entries := by
  constructor
  · intro h
    rw [lookup, Option.map_eq_some_iff] at h
    obtain ⟨⟨k', v'⟩, hfind, rfl⟩ := h
    have hk : k' = k := by simpa using List.find?_some hfind
    exact hk ▸ List.mem_of_find?_eq_some hfind
  · intro h
    rcases hfind : m.entries.find? (fun e => e.1 = k) with _ | ⟨k', v'⟩
    · rw [List.find?_eq_none] at hfind
      simpa using hfind (k, v) h
    · have hk : k' = k := by simpa using List.find?_some hfind
      have hmem := List.mem_of_find?_eq_some hfind
      subst hk
      rw [eq_of_mem_entries h hmem]
      simp [lookup, hfind]

theorem lookup_put (m : SortedMap K V) (k : K) (v : V) (k' : K) :
    (m.put k v).lookup k' = if k' = k then some v else m.lookup k' := by
  apply Option.ext
  intro w
  rw [lookup_eq_some_iff, mem_entries_put]
  split
  · next h =>
    subst h
    simp [eq_comm]
  · next h => simp [h, lookup_eq_some_iff]

theorem lookup_erase (m : SortedMap K V) (k k' : K) :
    (m.erase k).lookup k' = if k' = k then none else m.lookup k' := by
  apply Option.ext
  intro w
  rw [lookup_eq_some_iff, mem_entries_erase]
  split
  · next h => simp [h]
  · next h => simp [h, lookup_eq_some_iff]

/-! ## Maps cut at a key -/

section Cut

variable {m : SortedMap K V} {lo hi : List (K × V)} {k : K} {v w : V}

/-- No binding of the key: its place is between the smaller and the greater
keys. -/
theorem entries_put_of_absent (hm : m.entries = lo ++ hi)
    (hlo : ∀ e ∈ lo, e.1 < k) (hhi : ∀ e ∈ hi, k < e.1) :
    (m.put k v).entries = lo ++ (k, v) :: hi := by
  have hlow : lo.filter (fun e => e.1 < k) = lo :=
    List.filter_eq_self.mpr fun e he => decide_eq_true (hlo e he)
  have hlow' : lo.filter (fun e => k < e.1) = [] :=
    List.filter_eq_nil_iff.mpr fun e he => by simpa using (hlo e he).le
  have hhigh : hi.filter (fun e => k < e.1) = hi :=
    List.filter_eq_self.mpr fun e he => decide_eq_true (hhi e he)
  have hhigh' : hi.filter (fun e => e.1 < k) = [] :=
    List.filter_eq_nil_iff.mpr fun e he => by simpa using (hhi e he).le
  simp [put, hm, hlow, hlow', hhigh, hhigh']

theorem lookup_of_absent (hm : m.entries = lo ++ hi)
    (hlo : ∀ e ∈ lo, e.1 < k) (hhi : ∀ e ∈ hi, k < e.1) :
    m.lookup k = none := by
  have hnone : m.entries.find? (fun e => e.1 = k) = none := by
    rw [List.find?_eq_none, hm]
    intro e he
    rw [decide_eq_true_eq]
    rcases List.mem_append.mp he with he | he
    · exact (hlo e he).ne
    · exact (hhi e he).ne'
  rw [lookup, hnone, Option.map_none]

theorem lookup_of_present (hm : m.entries = lo ++ (k, v) :: hi) :
    m.lookup k = some v :=
  lookup_eq_some_iff.mpr (by simp [hm])

theorem lt_of_present (hm : m.entries = lo ++ (k, v) :: hi) :
    (∀ e ∈ lo, e.1 < k) ∧ ∀ e ∈ hi, k < e.1 := by
  have hsorted := m.sorted
  rw [hm, List.pairwise_append, List.pairwise_cons] at hsorted
  exact ⟨fun e he => hsorted.2.2 e he _ List.mem_cons_self,
    hsorted.2.1.1⟩

theorem entries_put_of_present (hm : m.entries = lo ++ (k, v) :: hi) :
    (m.put k w).entries = lo ++ (k, w) :: hi := by
  obtain ⟨hlo, hhi⟩ := lt_of_present hm
  have hlow : lo.filter (fun e => e.1 < k) = lo :=
    List.filter_eq_self.mpr fun e he => decide_eq_true (hlo e he)
  have hlow' : lo.filter (fun e => k < e.1) = [] :=
    List.filter_eq_nil_iff.mpr fun e he => by simpa using (hlo e he).le
  have hhigh : hi.filter (fun e => k < e.1) = hi :=
    List.filter_eq_self.mpr fun e he => decide_eq_true (hhi e he)
  have hhigh' : hi.filter (fun e => e.1 < k) = [] :=
    List.filter_eq_nil_iff.mpr fun e he => by simpa using (hhi e he).le
  simp [put, hm, hlow, hlow', hhigh, hhigh']

theorem entries_erase_of_present (hm : m.entries = lo ++ (k, v) :: hi) :
    (m.erase k).entries = lo ++ hi := by
  obtain ⟨hlo, hhi⟩ := lt_of_present hm
  have hlow : lo.filter (fun e => e.1 ≠ k) = lo :=
    List.filter_eq_self.mpr fun e he => decide_eq_true (hlo e he).ne
  have hhigh : hi.filter (fun e => e.1 ≠ k) = hi :=
    List.filter_eq_self.mpr fun e he => decide_eq_true (hhi e he).ne'
  simp only [ne_eq, decide_not] at hlow hhigh
  simp [erase, hm, hlow, hhigh]

end Cut

/-! ## Counting bindings -/

theorem countP_key (m : SortedMap K V) (k : K) :
    (m.entries.countP fun e => decide (e.1 = k)) =
      if (m.lookup k).isSome then 1 else 0 := by
  rcases hk : m.lookup k with _ | v
  · have hnone : ∀ e ∈ m.entries, ¬decide (e.1 = k) = true := by
      rw [lookup, Option.map_eq_none_iff, List.find?_eq_none] at hk
      exact hk
    simpa using hnone
  · obtain ⟨lo, hi, hm⟩ :=
      List.append_of_mem (lookup_eq_some_iff.mp hk)
    obtain ⟨hlo, hhi⟩ := lt_of_present hm
    have hlow : (lo.countP fun e => decide (e.1 = k)) = 0 :=
      List.countP_eq_zero.mpr fun e he => by simpa using (hlo e he).ne
    have hhigh : (hi.countP fun e => decide (e.1 = k)) = 0 :=
      List.countP_eq_zero.mpr fun e he => by simpa using (hhi e he).ne'
    simp [hm, hlow, hhigh]

/-- A closed interval of keys holds one binding more than the half-open one
exactly when its upper end is bound. -/
theorem countP_closed (m : SortedMap K V) {low high : K} (hle : low ≤ high) :
    (m.entries.countP fun e => decide (low ≤ e.1 ∧ e.1 ≤ high)) =
      (m.entries.countP fun e => decide (low ≤ e.1 ∧ e.1 < high)) +
        if (m.lookup high).isSome then 1 else 0 := by
  rw [← countP_key]
  induction m.entries with
  | nil => rfl
  | cons e entries ih =>
      rw [List.countP_cons, List.countP_cons, List.countP_cons, ih]
      rcases lt_trichotomy e.1 high with hlt | heq | hgt
      · have hne : e.1 ≠ high := hlt.ne
        simp only [hlt, hlt.le, hne, and_true, decide_false,
          Bool.false_eq_true, if_false]
        omega
      · simp only [heq, hle, le_refl, lt_irrefl, and_true, and_false,
          decide_true, decide_false, Bool.false_eq_true, if_true, if_false]
        omega
      · have hle' : ¬e.1 ≤ high := not_le.mpr hgt
        have hlt : ¬e.1 < high := not_lt.mpr hgt.le
        have hne : e.1 ≠ high := hgt.ne'
        simp only [hle', hlt, hne, and_false, decide_false,
          Bool.false_eq_true, if_false]
        omega

end SortedMap
