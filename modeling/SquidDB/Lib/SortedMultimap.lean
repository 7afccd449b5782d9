import Mathlib

/-!
# Multimaps in key order, newest first

A multimap keeps every value that was ever added under a key and not removed
since.  Its entries carry the time at which they were added and stand in key
order, those of one key newest first.  Adding a value puts it in front of the
entries of its key, and removing a key takes away the newest entry only, so
every key behaves like a stack.
-/

/-- An entry with the time it was added. -/
structure Stamped (K V : Type) where
  key : K
  stamp : ℕ
  value : V

/-- The order of the entries: by key, and newest first for one key. -/
def Stamped.Precedes {K V : Type} [LinearOrder K] (a b : Stamped K V) :
    Prop :=
  a.key < b.key ∨ a.key = b.key ∧ b.stamp < a.stamp

/-- A multimap, given by its entries in order and the time of the next
one. -/
structure SortedMultimap (K V : Type) [LinearOrder K] where
  entries : List (Stamped K V)
  clock : ℕ
  sorted : entries.Pairwise Stamped.Precedes
  fresh : ∀ e ∈ entries, e.stamp < clock

namespace SortedMultimap

variable {K V : Type} [LinearOrder K]

/-- The multimap without entries, at a given time. -/
def empty (clock : ℕ) : SortedMultimap K V := ⟨[], clock, .nil, by simp⟩

/-- Add a value under a key, in front of the other ones of the key. -/
def push (m : SortedMultimap K V) (k : K) (v : V) : SortedMultimap K V where
  entries := (m.entries.filter fun e => e.key < k) ++
    ⟨k, m.clock, v⟩ :: m.entries.filter fun e => k ≤ e.key
  clock := m.clock + 1
  sorted := by
    rw [List.pairwise_append, List.pairwise_cons]
    refine ⟨m.sorted.filter _, ⟨?_, m.sorted.filter _⟩, ?_⟩
    · intro e he
      obtain ⟨he, hk⟩ := List.mem_filter.mp he
      rcases (of_decide_eq_true hk).lt_or_eq with hlt | heq
      · exact Or.inl hlt
      · exact Or.inr ⟨heq, m.fresh e he⟩
    · intro a ha b hb
      have hak : a.key < k := by simpa using (List.mem_filter.mp ha).2
      rcases List.mem_cons.mp hb with rfl | hb
      · exact Or.inl hak
      · have hkb : k ≤ b.key := by simpa using (List.mem_filter.mp hb).2
        exact Or.inl (hak.trans_le hkb)
  fresh := by
    intro e he
    rcases List.mem_append.mp he with he | he
    · exact (m.fresh e (List.mem_filter.mp he).1).trans (Nat.lt_succ_self _)
    · rcases List.mem_cons.mp he with rfl | he
      · exact Nat.lt_succ_self _
      · exact (m.fresh e (List.mem_filter.mp he).1).trans
          (Nat.lt_succ_self _)

/-- The newest entry of a key. -/
def newest (m : SortedMultimap K V) (k : K) : Option (Stamped K V) :=
  m.entries.find? fun e => e.key = k

/-- Take away the newest entry of a key. -/
def pop (m : SortedMultimap K V) (k : K) : SortedMultimap K V where
  entries := m.entries.eraseP fun e => e.key = k
  clock := m.clock
  sorted := m.sorted.sublist List.eraseP_sublist
  fresh := fun e he => m.fresh e (List.mem_of_mem_eraseP he)

@[simp] theorem entries_empty (clock : ℕ) :
    (empty clock : SortedMultimap K V).entries = [] := rfl

@[simp] theorem clock_push (m : SortedMultimap K V) (k : K) (v : V) :
    (m.push k v).clock = m.clock + 1 := rfl

@[simp] theorem clock_pop (m : SortedMultimap K V) (k : K) :
    (m.pop k).clock = m.clock := rfl

theorem newest_eq_none_iff {m : SortedMultimap K V} {k : K} :
    m.newest k = none ↔ ∀ x ∈ m.entries, x.key ≠ k := by
  simp [newest]

/-! ## Multimaps cut at a key -/

section Cut

variable {m : SortedMultimap K V} {lo hi : List (Stamped K V)}
  {e : Stamped K V} {k : K} {v : V}

theorem entries_push (hm : m.entries = lo ++ hi)
    (hlo : ∀ x ∈ lo, x.key < k) (hhi : ∀ x ∈ hi, k ≤ x.key) :
    (m.push k v).entries = lo ++ ⟨k, m.clock, v⟩ :: hi := by
  have hlow : lo.filter (fun x => x.key < k) = lo :=
    List.filter_eq_self.mpr fun x hx => decide_eq_true (hlo x hx)
  have hlow' : lo.filter (fun x => k ≤ x.key) = [] :=
    List.filter_eq_nil_iff.mpr fun x hx => by simpa using hlo x hx
  have hhigh : hi.filter (fun x => k ≤ x.key) = hi :=
    List.filter_eq_self.mpr fun x hx => decide_eq_true (hhi x hx)
  have hhigh' : hi.filter (fun x => x.key < k) = [] :=
    List.filter_eq_nil_iff.mpr fun x hx => by simpa using hhi x hx
  simp [push, hm, hlow, hlow', hhigh, hhigh']

theorem newest_of_cut (hm : m.entries = lo ++ e :: hi)
    (hlo : ∀ x ∈ lo, x.key < k) (he : e.key = k) : m.newest k = some e := by
  have hnone : lo.find? (fun x => x.key = k) = none :=
    List.find?_eq_none.mpr fun x hx => by simpa using (hlo x hx).ne
  simp [newest, hm, List.find?_append, hnone, he]

theorem entries_pop (hm : m.entries = lo ++ e :: hi)
    (hlo : ∀ x ∈ lo, x.key < k) (he : e.key = k) :
    (m.pop k).entries = lo ++ hi := by
  have hnone : ∀ x ∈ lo, ¬decide (x.key = k) = true :=
    fun x hx => by simpa using (hlo x hx).ne
  simp [pop, hm, List.eraseP_append_right _ hnone, he]

end Cut

/-! ## Changing values -/

/-- Change the values of the entries; what becomes of one may depend on its
key and on when it was added. -/
def mapValues (m : SortedMultimap K V) (f : Stamped K V → V) :
    SortedMultimap K V where
  entries := m.entries.map fun e => ⟨e.key, e.stamp, f e⟩
  clock := m.clock
  sorted := List.pairwise_map.mpr m.sorted
  fresh := List.forall_mem_map.mpr m.fresh

/-- The entries of a key that were added after a time. -/
def newer (m : SortedMultimap K V) (k : K) (time : ℕ) : List (Stamped K V) :=
  m.entries.filter fun e => e.key = k ∧ time < e.stamp

/-- The entries of a key that are not newer than a time, and those of the
greater keys. -/
def fromTime (m : SortedMultimap K V) (k : K) (time : ℕ) :
    List (Stamped K V) :=
  m.entries.filter fun e => k < e.key ∨ e.key = k ∧ e.stamp ≤ time

@[simp] theorem entries_mapValues (m : SortedMultimap K V)
    (f : Stamped K V → V) : (m.mapValues f).entries =
      m.entries.map fun e => ⟨e.key, e.stamp, f e⟩ := rfl

@[simp] theorem clock_mapValues (m : SortedMultimap K V)
    (f : Stamped K V → V) : (m.mapValues f).clock = m.clock := rfl

theorem filter_key_of_cut {m : SortedMultimap K V} {k : K}
    {lo s gt : List (Stamped K V)} (hm : m.entries = lo ++ (s ++ gt))
    (hlo : ∀ x ∈ lo, x.key < k) (hs : ∀ x ∈ s, x.key = k)
    (hgt : ∀ x ∈ gt, k < x.key) :
    (m.entries.filter fun x => x.key = k) = s := by
  have hlow : lo.filter (fun x => x.key = k) = [] :=
    List.filter_eq_nil_iff.mpr fun x hx => by simpa using (hlo x hx).ne
  have hhigh : gt.filter (fun x => x.key = k) = [] :=
    List.filter_eq_nil_iff.mpr fun x hx => by simpa using (hgt x hx).ne'
  have hequal : s.filter (fun x => x.key = k) = s :=
    List.filter_eq_self.mpr fun x hx => decide_eq_true (hs x hx)
  rw [hm, List.filter_append, List.filter_append, hlow, hequal, hhigh,
    List.nil_append, List.append_nil]

section CutTwice

variable {m : SortedMultimap K V} {lo s t gt : List (Stamped K V)}
  {e : Stamped K V} {k : K}

theorem stamp_of_cut (hm : m.entries = lo ++ (s ++ e :: t ++ gt))
    (hkey : ∀ x ∈ s ++ e :: t, x.key = k) :
    (∀ x ∈ s, e.stamp < x.stamp) ∧ ∀ x ∈ t, x.stamp < e.stamp := by
  have hsorted := m.sorted
  rw [hm, List.pairwise_append, List.pairwise_append] at hsorted
  obtain ⟨-, hback, hfront⟩ := List.pairwise_append.mp hsorted.2.1.1
  have he := hkey e (by simp)
  constructor
  · intro x hx
    have hxk := hkey x (List.mem_append_left _ hx)
    rcases hfront x hx e List.mem_cons_self with hlt | ⟨-, hlt⟩
    · rw [hxk, he] at hlt
      exact absurd hlt (lt_irrefl k)
    · exact hlt
  · intro x hx
    have hxk := hkey x (by simp [hx])
    rcases (List.pairwise_cons.mp hback).1 x hx with hlt | ⟨-, hlt⟩
    · rw [hxk, he] at hlt
      exact absurd hlt (lt_irrefl k)
    · exact hlt

theorem newer_of_cut (hm : m.entries = lo ++ (s ++ e :: t ++ gt))
    (hlo : ∀ x ∈ lo, x.key < k) (hkey : ∀ x ∈ s ++ e :: t, x.key = k)
    (hgt : ∀ x ∈ gt, k < x.key) : m.newer k e.stamp = s := by
  obtain ⟨hnewer, holder⟩ := stamp_of_cut hm hkey
  have hlow : lo.filter (fun x => x.key = k ∧ e.stamp < x.stamp) = [] :=
    List.filter_eq_nil_iff.mpr fun x hx => by simp [(hlo x hx).ne]
  have hhigh : gt.filter (fun x => x.key = k ∧ e.stamp < x.stamp) = [] :=
    List.filter_eq_nil_iff.mpr fun x hx => by simp [(hgt x hx).ne']
  have hfront : s.filter (fun x => x.key = k ∧ e.stamp < x.stamp) = s :=
    List.filter_eq_self.mpr fun x hx => decide_eq_true
      ⟨hkey x (List.mem_append_left _ hx), hnewer x hx⟩
  have hback : (e :: t).filter (fun x => x.key = k ∧ e.stamp < x.stamp) =
      [] := by
    refine List.filter_eq_nil_iff.mpr (List.forall_mem_cons.mpr
      ⟨by simp, fun x hx => ?_⟩)
    simp [(holder x hx).le]
  rw [newer, hm, List.filter_append, List.filter_append, List.filter_append,
    hlow, hfront, hback, hhigh, List.nil_append, List.append_nil,
    List.append_nil]

/-- From an entry on, its key stands with the older entries in front of the
greater keys. -/
theorem fromTime_of_cut (hm : m.entries = lo ++ (s ++ e :: t ++ gt))
    (hlo : ∀ x ∈ lo, x.key < k) (hkey : ∀ x ∈ s ++ e :: t, x.key = k)
    (hgt : ∀ x ∈ gt, k < x.key) :
    m.fromTime k e.stamp = e :: t ++ gt := by
  obtain ⟨hnewer, holder⟩ := stamp_of_cut hm hkey
  have hlow : lo.filter
      (fun x => k < x.key ∨ x.key = k ∧ x.stamp ≤ e.stamp) = [] :=
    List.filter_eq_nil_iff.mpr fun x hx => by
      simp [(hlo x hx).ne, (hlo x hx).le]
  have hhigh : gt.filter
      (fun x => k < x.key ∨ x.key = k ∧ x.stamp ≤ e.stamp) = gt :=
    List.filter_eq_self.mpr fun x hx => decide_eq_true (.inl (hgt x hx))
  have hfront : s.filter
      (fun x => k < x.key ∨ x.key = k ∧ x.stamp ≤ e.stamp) = [] :=
    List.filter_eq_nil_iff.mpr fun x hx => by
      simp [hkey x (List.mem_append_left _ hx), hnewer x hx]
  have hback : (e :: t).filter
      (fun x => k < x.key ∨ x.key = k ∧ x.stamp ≤ e.stamp) = e :: t := by
    refine List.filter_eq_self.mpr (List.forall_mem_cons.mpr
      ⟨decide_eq_true (.inr ⟨hkey e (by simp), le_rfl⟩), fun x hx => ?_⟩)
    exact decide_eq_true (.inr ⟨hkey x (by simp [hx]), (holder x hx).le⟩)
  rw [fromTime, hm, List.filter_append, List.filter_append,
    List.filter_append, hlow, hfront, hback, hhigh, List.nil_append,
    List.nil_append]

end CutTwice

end SortedMultimap
