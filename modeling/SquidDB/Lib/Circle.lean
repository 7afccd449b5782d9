import Mathlib

/-!
# Numbers on a circle

One-byte numbers follow each other around a circle: the number behind 255
is 0.  A set of numbers has no hole when at most one of its members is not
followed by another one.  Such a set, listed in increasing order, is put into
the order of the circle by turning the list at its gap.
-/

namespace Circle

/-- A member whose successor is not a member. -/
def IsEnd (S : Set UInt8) (n : UInt8) : Prop :=
  n ∈ S ∧ n + 1 ∉ S

/-- A set without a hole. -/
def Contiguous (S : Set UInt8) : Prop :=
  ∀ m n, IsEnd S m → IsEnd S n → m = n

/-- The second number is the successor of the first. -/
def Follows (a b : UInt8) : Prop :=
  b = a + 1

/-- The numbers stand in increasing order. -/
def Increasing (numbers : List UInt8) : Prop :=
  numbers.Pairwise fun a b => a.toNat < b.toNat

theorem Contiguous.congr {S T : Set UInt8} (h : ∀ n, n ∈ S ↔ n ∈ T) :
    Contiguous S ↔ Contiguous T := by
  rw [Set.ext h]

theorem toNat_add_one {n : UInt8} (hn : n.toNat < 255) :
    (n + 1).toNat = n.toNat + 1 := by
  rw [UInt8.toNat_add, UInt8.toNat_one]
  omega

theorem follows_of_toNat {a b : UInt8} (h : b.toNat = a.toNat + 1) :
    Follows a b := by
  have hlt := b.toNat_lt
  have hsucc := toNat_add_one (n := a) (by omega)
  exact UInt8.toNat_inj.mp (h.trans hsucc.symm)

variable {numbers front back part : List UInt8} {a b n : UInt8}

/-! ## Lists in the order of the circle -/

/-- Only the last number of such a list can lack its successor. -/
theorem getLast?_of_isEnd (h : numbers.IsChain Follows)
    (hend : IsEnd {n | n ∈ numbers} n) : numbers.getLast? = some n := by
  induction numbers with
  | nil => cases hend.1
  | cons x numbers ih =>
      rcases numbers with _ | ⟨y, numbers⟩
      · obtain rfl := List.mem_singleton.mp hend.1
        rfl
      · rw [List.isChain_cons_cons] at h
        have hne : n ≠ x := by
          rintro rfl
          apply hend.2
          rw [← h.1]
          exact List.mem_cons_of_mem _ List.mem_cons_self
        rw [List.getLast?_cons_cons]
        apply ih h.2
        constructor
        · exact (List.mem_cons.mp hend.1).resolve_left hne
        · intro hmem
          exact hend.2 (List.mem_cons_of_mem _ hmem)

theorem contiguous_of_isChain (h : numbers.IsChain Follows) :
    Contiguous {n | n ∈ numbers} := by
  intro m n hm hn
  have hlast := (getLast?_of_isEnd h hm).symm.trans (getLast?_of_isEnd h hn)
  exact Option.some.inj hlast

/-! ## Increasing lists -/

theorem Increasing.le_last (h : Increasing (numbers ++ [b]))
    (hn : n ∈ numbers ++ [b]) : n.toNat ≤ b.toNat := by
  rcases List.mem_append.mp hn with hn | hn
  · have hlt := (List.pairwise_append.mp h).2.2 n hn b List.mem_cons_self
    exact Nat.le_of_lt hlt
  · rw [List.mem_singleton.mp hn]

theorem Increasing.first_le (h : Increasing (a :: numbers))
    (hn : n ∈ a :: numbers) : a.toNat ≤ n.toNat := by
  rcases List.mem_cons.mp hn with rfl | hn
  · exact le_rfl
  · exact Nat.le_of_lt ((List.pairwise_cons.mp h).1 n hn)

theorem isEnd_of_gap (h : Increasing (front ++ a :: b :: back))
    (hgap : ¬Follows a b) :
    IsEnd {n | n ∈ front ++ a :: b :: back} a := by
  refine ⟨by simp, fun hmem => ?_⟩
  obtain ⟨-, hrest, hfront⟩ := List.pairwise_append.mp h
  obtain ⟨ha, hrest⟩ := List.pairwise_cons.mp hrest
  obtain ⟨hb, -⟩ := List.pairwise_cons.mp hrest
  have hab : a.toNat < b.toNat := ha b List.mem_cons_self
  have hsucc := toNat_add_one (n := a) (by have := b.toNat_lt; omega)
  rcases List.mem_append.mp hmem with hmem | hmem
  · have := hfront _ hmem a List.mem_cons_self
    omega
  rcases List.mem_cons.mp hmem with heq | hmem
  · rw [heq] at hsucc
    omega
  rcases List.mem_cons.mp hmem with heq | hmem
  · exact hgap heq.symm
  · have := hb _ hmem
    exact hgap (follows_of_toNat (by omega))

theorem isChain_of_infix (h : Increasing numbers) (hpart : part <:+: numbers)
    (hends : ∀ x ∈ part.dropLast, ¬IsEnd {n | n ∈ numbers} x) :
    part.IsChain Follows := by
  rw [List.isChain_iff_forall_rel_of_append_cons_cons]
  intro x y before after hsplit
  obtain ⟨front, back, rfl⟩ := hpart
  by_contra hgap
  apply hends x (by simp [hsplit])
  have hnumbers : front ++ part ++ back =
      (front ++ before) ++ x :: y :: (after ++ back) := by
    simp [hsplit]
  rw [hnumbers] at h ⊢
  exact isEnd_of_gap h hgap

theorem mem_of_length_eq (h : Increasing numbers)
    (hlength : numbers.length = 256) (n : UInt8) : n ∈ numbers := by
  have hnodup : (numbers.map UInt8.toNat).Nodup := by
    apply List.Pairwise.imp Nat.ne_of_lt
    exact List.pairwise_map.mpr h
  have hsubset : numbers.map UInt8.toNat ⊆ List.range 256 := by
    intro m hm
    obtain ⟨n, -, rfl⟩ := List.mem_map.mp hm
    exact List.mem_range.mpr n.toNat_lt
  have hperm := (hnodup.subperm hsubset).perm_of_length_le (by simp [hlength])
  have hmem := hperm.mem_iff.mpr (List.mem_range.mpr n.toNat_lt)
  obtain ⟨m, hm, heq⟩ := List.mem_map.mp hmem
  exact UInt8.toNat_inj.mp heq ▸ hm

theorem isChain_of_length_eq (h : Increasing numbers)
    (hlength : numbers.length = 256) : numbers.IsChain Follows := by
  apply isChain_of_infix h (List.infix_refl numbers)
  intro x _ hend
  exact hend.2 (mem_of_length_eq h hlength (x + 1))

/-- Turned at its gap, an increasing list without a hole follows the
circle. -/
theorem isChain_turned (h : Increasing (front ++ a :: b :: back))
    (hgap : ¬Follows a b)
    (hwhole : Contiguous {n | n ∈ front ++ a :: b :: back}) :
    ((b :: back) ++ (front ++ [a])).IsChain Follows := by
  have hend := isEnd_of_gap h hgap
  have hne : ∀ x, x ≠ a → ¬IsEnd {n | n ∈ front ++ a :: b :: back} x :=
    fun x hx hx' => hx (hwhole x a hx' hend)
  obtain ⟨-, hrest, hfront⟩ := List.pairwise_append.mp h
  obtain ⟨ha, hback⟩ := List.pairwise_cons.mp hrest
  have hafter : ∀ x ∈ b :: back, x ≠ a := by
    rintro x hx rfl
    exact Nat.lt_irrefl _ (ha x hx)
  rw [List.isChain_append]
  refine ⟨?_, ?_, ?_⟩
  · apply isChain_of_infix h ⟨front ++ [a], [], by simp⟩
    intro x hx
    exact hne x (hafter x (List.mem_of_mem_dropLast hx))
  · apply isChain_of_infix h ⟨[], b :: back, by simp⟩
    intro x hx
    rw [List.dropLast_concat] at hx
    apply hne
    rintro rfl
    exact Nat.lt_irrefl _ (hfront x hx x List.mem_cons_self)
  · intro z hz y hy
    have hzmem : z ∈ b :: back := List.mem_of_getLast? hz
    have hsucc : z + 1 ∈ front ++ a :: b :: back := by
      by_contra hmissing
      exact hne z (hafter z hzmem)
        ⟨List.mem_append_right _ (List.mem_cons_of_mem _ hzmem), hmissing⟩
    obtain ⟨rest, hlast⟩ := List.getLast?_eq_some_iff.mp hz
    obtain ⟨tail, hhead⟩ := List.head?_eq_some_iff.mp hy
    have hfirst : front ++ a :: b :: back = y :: (tail ++ b :: back) := by
      rw [List.append_cons, hhead, List.cons_append]
    have hfinal : front ++ a :: b :: back = (front ++ a :: rest) ++ [z] := by
      rw [hlast]
      simp
    have hle : (z + 1).toNat ≤ z.toNat := by
      rw [hfinal] at h hsucc
      exact h.le_last hsucc
    have hge : y.toNat ≤ (z + 1).toNat := by
      rw [hfirst] at h hsucc
      exact h.first_le hsucc
    have hzero : (z + 1).toNat = 0 := by
      by_cases hz255 : z.toNat < 255
      · rw [toNat_add_one hz255] at hle
        omega
      · have hlt := z.toNat_lt
        rw [UInt8.toNat_add, UInt8.toNat_one]
        omega
    exact UInt8.toNat_inj.mp (by omega)

/-! ## Arcs -/

/-- So many numbers in the order of the circle, from `s` on. -/
def arc (s : UInt8) (n : ℕ) : List UInt8 :=
  (List.range n).map fun i => UInt8.ofNat (s.toNat + i)

variable {s : UInt8} {k : ℕ}

@[simp] theorem length_arc (s : UInt8) (n : ℕ) : (arc s n).length = n := by
  simp [arc]

theorem ofNat_toNat_add_eq {a b : UInt8} {i j : ℕ}
    (h : (a.toNat + i) % 256 = (b.toNat + j) % 256) :
    UInt8.ofNat (a.toNat + i) = UInt8.ofNat (b.toNat + j) := by
  apply UInt8.toNat_inj.mp
  rw [UInt8.toNat_ofNat', UInt8.toNat_ofNat']
  exact h

theorem toNat_add_of_ofNat_eq {m n : ℕ}
    (h : UInt8.ofNat m = UInt8.ofNat n) : m % 256 = n % 256 := by
  have hnat := congrArg UInt8.toNat h
  rwa [UInt8.toNat_ofNat', UInt8.toNat_ofNat'] at hnat

theorem arc_succ (s : UInt8) (n : ℕ) : arc s (n + 1) = s :: arc (s + 1) n := by
  rw [arc, List.range_succ_eq_map, List.map_cons, List.map_map]
  congr 1
  · simp
  · apply List.map_congr_left
    intro i _
    apply ofNat_toNat_add_eq
    rw [UInt8.toNat_add, UInt8.toNat_one]
    omega

theorem isChain_arc (s : UInt8) (n : ℕ) : (arc s n).IsChain Follows := by
  induction n generalizing s with
  | zero => exact List.isChain_nil
  | succ n ih =>
      cases n with
      | zero =>
          rw [arc_succ]
          exact List.isChain_singleton s
      | succ n =>
          have hrest := ih (s + 1)
          rw [arc_succ] at hrest
          rw [arc_succ, arc_succ, List.isChain_cons_cons]
          exact ⟨rfl, hrest⟩

theorem eq_arc_of_isChain (h : (a :: numbers).IsChain Follows) :
    a :: numbers = arc a (numbers.length + 1) := by
  induction numbers generalizing a with
  | nil => simp [arc]
  | cons b numbers ih =>
      rw [List.isChain_cons_cons] at h
      obtain ⟨hfollows, h⟩ := h
      rw [List.length_cons, arc_succ, ih h, hfollows]

theorem getLast?_arc (s : UInt8) (k : ℕ) :
    (arc s (k + 1)).getLast? = some (UInt8.ofNat (s.toNat + k)) := by
  rw [arc, List.range_succ, List.map_append, List.map_singleton,
    List.getLast?_concat]

theorem isEnd_arc (s : UInt8) (hk : k < 255) :
    IsEnd {n | n ∈ arc s (k + 1)} (UInt8.ofNat (s.toNat + k)) := by
  refine ⟨List.mem_of_getLast? (getLast?_arc s k), ?_⟩
  intro hmem
  obtain ⟨i, hi, heq⟩ := List.mem_map.mp hmem
  rw [List.mem_range] at hi
  have hnat := congrArg UInt8.toNat heq
  rw [UInt8.toNat_add, UInt8.toNat_ofNat', UInt8.toNat_ofNat',
    UInt8.toNat_one] at hnat
  omega

theorem nodup_arc (s : UInt8) (hn : k ≤ 256) : (arc s k).Nodup := by
  apply List.nodup_range.map_on
  intro i hi j hj heq
  rw [List.mem_range] at hi hj
  have hmod := toNat_add_of_ofNat_eq heq
  omega

/-- In the order of the circle the numbers of such an arc can only stand as in
the arc. -/
theorem eq_arc_of_perm (hk : k ≤ 255) (hchain : numbers.IsChain Follows)
    (hperm : numbers.Perm (arc s k)) : numbers = arc s k := by
  have hlength := hperm.length_eq
  rw [length_arc] at hlength
  rcases numbers with _ | ⟨a, numbers⟩
  · rw [← hlength]
    rfl
  obtain rfl : k = numbers.length + 1 := hlength.symm
  have harc := eq_arc_of_isChain hchain
  have hend : IsEnd {n | n ∈ a :: numbers}
      (UInt8.ofNat (s.toNat + numbers.length)) := by
    obtain ⟨hmem, hmissing⟩ := isEnd_arc s (k := numbers.length) (by omega)
    exact ⟨hperm.mem_iff.mpr hmem, fun h => hmissing (hperm.mem_iff.mp h)⟩
  have hlast := getLast?_of_isEnd hchain hend
  rw [harc, getLast?_arc, Option.some.injEq] at hlast
  have hmod := toNat_add_of_ofNat_eq hlast
  have ha := a.toNat_lt
  have hs := s.toNat_lt
  obtain rfl : a = s := UInt8.toNat_inj.mp (by omega)
  exact harc

end Circle
