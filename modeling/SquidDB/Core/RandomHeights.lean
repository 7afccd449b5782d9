import SquidDB.Lib.Draws
import SquidDB.Core.SearchSteps

/-!
# Random heights

`insert` draws the height of a new node.  For any sequence of calls that is
fixed before anything is drawn, this module averages over everything the
random engine can return: how many nodes each level of the list has, and how
many nodes a search moves to.  What the calls do to the keys does not depend
on the draws; each key of the list carries the height drawn by the call that
inserted it.
-/

namespace SquidDB.Core

open Checked Draws Finset
open scoped BigOperators

/-! ## The draws of one call -/

/-- The values of `std::minstd_rand0`, which run from 1 to 2147483646,
counted from 0. -/
abbrev EngineValue := Fin (2 * 1073741823)

/-- The values a call may draw for the height of a node. -/
abbrev HeightDraw (maxNodeHeight : ℕ) := Fin (maxNodeHeight - 1) → EngineValue

namespace HeightDraw

variable {M : ℕ}

/-- The draws as `generateNodeHeight` reads them, from height 1 on. -/
def values (d : HeightDraw M) (nodeHeight : ℕ) : ℕ :=
  if h : nodeHeight - 1 < M - 1 then (d ⟨nodeHeight - 1, h⟩).val + 1 else 0

/-- The height that is drawn. -/
def height (d : HeightDraw M) : ℕ := SkipList.generateNodeHeight M d.values

end HeightDraw

namespace SkipList

theorem lt_generateNodeHeightFrom {draw : ℕ → ℕ} {remaining nodeHeight L : ℕ} :
    L < generateNodeHeightFrom draw remaining nodeHeight ↔
      L < nodeHeight + remaining ∧
        ∀ k, nodeHeight ≤ k → k ≤ L → draw k % 2 = 0 := by
  induction remaining generalizing nodeHeight with
  | zero =>
      refine ⟨fun h => ⟨h, fun k hk hL => ?_⟩, And.left⟩
      rw [generateNodeHeightFrom] at h
      omega
  | succ remaining ih =>
      rw [generateNodeHeightFrom]
      split
      · next hodd =>
        constructor
        · intro h
          exact ⟨by omega, fun k hk hL => by omega⟩
        · rintro ⟨-, heven⟩
          by_contra hge
          have := heven nodeHeight le_rfl (Nat.le_of_not_lt hge)
          omega
      · next heven =>
        rw [ih]
        constructor
        · rintro ⟨hlt, hrest⟩
          refine ⟨by omega, fun k hk hL => ?_⟩
          rcases Nat.eq_or_lt_of_le hk with rfl | hk
          · omega
          · exact hrest k hk hL
        · rintro ⟨hlt, hall⟩
          exact ⟨by omega, fun k hk hL => hall k (by omega) hL⟩

end SkipList

namespace HeightDraw

variable {M L : ℕ}

theorem values_succ (d : HeightDraw M) (i : Fin (M - 1)) :
    d.values (i.val + 1) = (d i).val + 1 :=
  dif_pos (Nat.add_sub_cancel i.val 1 ▸ i.isLt)

theorem lt_height_iff (hL : L < M) (d : HeightDraw M) :
    L < d.height ↔
      ∀ i ∈ univ.filter (fun i : Fin (M - 1) => i.val < L),
        ((d i).val + 1) % 2 = 0 := by
  rw [height, SkipList.generateNodeHeight, SkipList.lt_generateNodeHeightFrom]
  constructor
  · rintro ⟨-, heven⟩ i hi
    have hlt := (mem_filter.mp hi).2
    rw [← values_succ]
    exact heven (i.val + 1) (by omega) (by omega)
  · intro hall
    refine ⟨by omega, fun k hk hkL => ?_⟩
    obtain ⟨i, rfl⟩ : ∃ i, k = i + 1 := ⟨k - 1, by omega⟩
    have hlt : i < M - 1 := by omega
    rw [values_succ d ⟨i, hlt⟩]
    exact hall ⟨i, hlt⟩ (mem_filter.mpr ⟨mem_univ _, hkL⟩)

theorem height_le (hmax : 0 < M) (d : HeightDraw M) : d.height ≤ M := by
  have := (SkipList.generateNodeHeightFrom_bounds d.values (M - 1) 1).2
  rw [height, SkipList.generateNodeHeight]
  omega

theorem chance_lt_height (hL : L < M) :
    chance (fun d : HeightDraw M => L < d.height) = (1 / 2) ^ L := by
  have hcard : (univ.filter fun i : Fin (M - 1) => i.val < L).card = L := by
    rw [Fin.card_filter_val_lt]
    omega
  have heven := chance_forall_mem
    (fun x : EngineValue => (x.val + 1) % 2 = 0)
    (univ.filter fun i : Fin (M - 1) => i.val < L)
  rw [hcard, chance_even (by norm_num)] at heven
  exact (chance_congr fun d => lt_height_iff hL d).trans heven

theorem chance_height_le (hL : L + 1 < M) :
    chance (fun d : HeightDraw M => d.height ≤ L + 1) =
      1 - (1 / 2) ^ (L + 1) := by
  rw [← chance_lt_height hL, ← chance_not]
  exact chance_congr fun d => Nat.not_lt.symm

end HeightDraw

/-! ## The average descent -/

section Descent

variable {ι : Type} {M L : ℕ}

/-- The nodes a descent passes on level `L`, when node `i` has the height that
`i` has drawn. -/
def passedBy (L : ℕ) (l : List ι) (draws : ι → HeightDraw M) : ℕ :=
  Tower.passed (fun i => (draws i).height) L l

/-- On level `L` the search has not stopped at the node with the key on a
higher level. -/
def unseenAbove (L : ℕ) (origin : Option ι) (draws : ι → HeightDraw M) :
    Bool :=
  origin.all fun i => decide ((draws i).height ≤ L + 1)

/-- The rounds of a search past the nodes of `l`, when `origin` stands for the
node with the key. -/
def searchRounds (M : ℕ) (origin : Option ι) (l : List ι)
    (draws : ι → HeightDraw M) : ℕ :=
  ∑ L ∈ range M,
    if unseenAbove L origin draws then passedBy L l draws else 0

variable [Fintype ι] [DecidableEq ι]

theorem expect_passedBy {l : List ι} (hl : l.Nodup) (hL : L + 1 < M) :
    𝔼 draws : ι → HeightDraw M, (passedBy L l draws : ℚ) =
      1 - (1 - (1 / 2) ^ (L + 1)) ^ l.length := by
  have hlast : chance (fun d : HeightDraw M =>
      L < d.height ∧ d.height ≤ L + 1) = (1 / 2) ^ (L + 1) := by
    have hdiff := chance_and_not
      (p := fun d : HeightDraw M => L < d.height)
      (q := fun d : HeightDraw M => L + 1 < d.height)
      fun d hd => (Nat.lt_succ_self L).trans hd
    rw [HeightDraw.chance_lt_height (by omega),
      HeightDraw.chance_lt_height hL] at hdiff
    rw [chance_congr (q := fun d : HeightDraw M =>
      L < d.height ∧ ¬L + 1 < d.height) fun d => and_congr_right fun _ =>
        Nat.not_lt.symm, hdiff]
    ring
  have hpassed := expect_countP_takeWhile
    (fun d : HeightDraw M => L < d.height)
    (fun d : HeightDraw M => d.height ≤ L + 1) (List.nodup_reverse.mpr hl)
  rw [hlast, HeightDraw.chance_height_le hL, List.length_reverse] at hpassed
  have hgeometric := mul_neg_geom_sum (1 - (1 / 2 : ℚ) ^ (L + 1)) l.length
  rw [sub_sub_cancel] at hgeometric
  exact hpassed.trans hgeometric

theorem expect_passedBy_top {l : List ι} (hl : l.Nodup) :
    𝔼 draws : ι → HeightDraw (L + 1), (passedBy L l draws : ℚ) =
      l.length * (1 / 2) ^ L := by
  have hle : ∀ d : HeightDraw (L + 1), d.height ≤ L + 1 :=
    HeightDraw.height_le (Nat.succ_pos L)
  have hpassed := expect_countP_takeWhile
    (fun d : HeightDraw (L + 1) => L < d.height)
    (fun d : HeightDraw (L + 1) => d.height ≤ L + 1)
    (List.nodup_reverse.mpr hl)
  rw [chance_congr fun d => and_iff_left (hle d), chance_of_forall hle,
    HeightDraw.chance_lt_height (Nat.lt_succ_self L),
    List.length_reverse] at hpassed
  refine hpassed.trans ?_
  simp [mul_comm]

/-- The average number of rounds past `n` smaller keys; `present` tells
whether the key is in the list. -/
def averageRounds (M n : ℕ) (present : Bool) : ℚ :=
  n * (1 / 2) ^ (M - 1) + ∑ L ∈ range (M - 1),
    (if present then 1 - (1 / 2) ^ (L + 1) else 1) *
      (1 - (1 - (1 / 2) ^ (L + 1)) ^ n)

theorem averageRounds_succ (top n : ℕ) (present : Bool) :
    averageRounds (top + 1) n present =
      n * (1 / 2) ^ top + ∑ L ∈ range top,
        (if present then 1 - (1 / 2) ^ (L + 1) else 1) *
          (1 - (1 - (1 / 2) ^ (L + 1)) ^ n) := rfl

theorem averageRounds_le (M n : ℕ) (present : Bool) :
    averageRounds M n present ≤ n * (1 / 2) ^ (M - 1) + (M - 1 : ℕ) := by
  have hpart : ∀ L : ℕ, (0 : ℚ) ≤ 1 - (1 / 2) ^ (L + 1) ∧
      1 - (1 / 2 : ℚ) ^ (L + 1) ≤ 1 := by
    intro L
    have hpos : (0 : ℚ) < (1 / 2) ^ (L + 1) := by positivity
    have hle : (1 / 2 : ℚ) ^ (L + 1) ≤ 1 :=
      pow_le_one₀ (by norm_num) (by norm_num)
    constructor
    · linarith
    · linarith
  have hlevel : ∀ L ∈ range (M - 1),
      (if present then 1 - (1 / 2 : ℚ) ^ (L + 1) else 1) *
        (1 - (1 - (1 / 2) ^ (L + 1)) ^ n) ≤ 1 := by
    intro L _
    obtain ⟨hnonneg, hle⟩ := hpart L
    have hpow : (0 : ℚ) ≤ (1 - (1 / 2) ^ (L + 1)) ^ n := pow_nonneg hnonneg n
    have hpow' : (1 - (1 / 2 : ℚ) ^ (L + 1)) ^ n ≤ 1 :=
      pow_le_one₀ hnonneg hle
    refine mul_le_one₀ ?_ (by linarith) (by linarith)
    split
    · exact hle
    · exact le_rfl
  have hsum := sum_le_card_nsmul _ _ _ hlevel
  rw [card_range, nsmul_one] at hsum
  rw [averageRounds]
  linarith

theorem expect_unseen {origin : Option ι} {l : List ι}
    (horigin : ∀ i ∈ origin, i ∉ l) (L : ℕ) :
    𝔼 draws : ι → HeightDraw M, ((if unseenAbove L origin draws then
        passedBy L l draws else 0 : ℕ) : ℚ) =
      (if origin.isSome then chance (fun d : HeightDraw M =>
        d.height ≤ L + 1) else 1) *
        𝔼 draws : ι → HeightDraw M, (passedBy L l draws : ℚ) := by
  cases origin with
  | none => simp [unseenAbove]
  | some i =>
      have hi : i ∉ l.reverse := by
        rw [List.mem_reverse]
        exact horigin i rfl
      have hrest : ∀ (draws : ι → HeightDraw M) (d : HeightDraw M),
          (passedBy L l (Function.update draws i d) : ℚ) =
            passedBy L l draws :=
        fun draws d => congrArg _ (countP_takeWhile_update
          (fun d : HeightDraw M => L < d.height)
          (fun d : HeightDraw M => d.height ≤ L + 1) hi draws d)
      rw [Option.isSome_some, if_pos rfl, chance_eq_expect,
        ← expect_mul_of_unaffected i _ hrest]
      refine expect_congr rfl fun draws _ => ?_
      by_cases hunseen : (draws i).height ≤ L + 1
      · simp [unseenAbove, hunseen]
      · simp [unseenAbove, hunseen]

theorem expect_searchRounds (hmax : 0 < M) {origin : Option ι} {l : List ι}
    (hl : l.Nodup) (horigin : ∀ i ∈ origin, i ∉ l) :
    𝔼 draws, (searchRounds M origin l draws : ℚ) =
      averageRounds M l.length origin.isSome := by
  obtain ⟨top, rfl⟩ : ∃ top, M = top + 1 := ⟨M - 1, by omega⟩
  have hle : ∀ d : HeightDraw (top + 1), d.height ≤ top + 1 :=
    HeightDraw.height_le hmax
  simp only [searchRounds, Nat.cast_sum]
  rw [expect_sum_comm, sum_range_succ, averageRounds_succ,
    expect_unseen horigin, expect_passedBy_top hl, chance_of_forall hle,
    ite_self, one_mul, add_comm]
  refine congrArg _ (sum_congr rfl fun L hL => ?_)
  have hL' : L + 1 < top + 1 := Nat.succ_lt_succ (mem_range.mp hL)
  rw [expect_unseen horigin, expect_passedBy hl hL',
    HeightDraw.chance_height_le hL']

end Descent

end SquidDB.Core
