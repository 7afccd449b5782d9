import SquidDB.Core.SkipListScan

/-!
# The self check accepts well-formed lists

`validate` walks every level beside level 0 and counts the steps, and then
compares every key with the keys its pointers lead to.
-/

namespace SquidDB.Core

open Checked Heap SkipList

variable {K D : Type} {h : Heap K D}

/-! ## Widths -/

/-- Walking along level 0 from an entry up to the first one of `rest`, or to
the end, passes the entries in between. -/
theorem measure_spec {y : Entry K} {s l : List (Entry K)}
    (ht : Threaded h (y :: (s ++ l)))
    (hpos : ∀ e ∈ y :: (s ++ l), 0 < e.tower)
    (hdistinct : ((y :: (s ++ l)).map Entry.ref).Nodup)
    {fuel : ℕ} (hfuel : s.length + 1 < fuel) (width : ℕ) :
    SkipList.measure h (l.head?.map Entry.ref) fuel (some y.ref) width =
      .ok (width + s.length + if l = [] then 0 else 1) := by
  induction s generalizing y fuel width with
  | nil =>
      obtain ⟨fuel, rfl⟩ : ∃ n, fuel = n + 2 := ⟨fuel - 2, by
        rw [List.length_nil] at hfuel
        omega⟩
      rw [List.nil_append] at ht hpos hdistinct
      have hy := hpos y List.mem_cons_self
      have hnext := getNext_of_node ht.1.live
        (lt_of_lt_of_le hy ht.1.tower_le)
      rw [ht.1.next 0 hy, nextAt_zero fun x hx =>
        hpos x (List.mem_cons_of_mem _ hx)] at hnext
      cases l with
      | nil => simp [SkipList.measure, hnext]
      | cons w t =>
          have hne : y.ref ≠ w.ref := by
            intro heq
            simp [heq] at hdistinct
          simp [SkipList.measure, hnext, hne]
  | cons z s ih =>
      obtain ⟨fuel, rfl⟩ : ∃ n, fuel = n + 1 := ⟨fuel - 1, by omega⟩
      rw [List.length_cons] at hfuel
      have hy := hpos y List.mem_cons_self
      have hnext := getNext_of_node ht.1.live
        (lt_of_lt_of_le hy ht.1.tower_le)
      rw [ht.1.next 0 hy, nextAt_zero fun x hx =>
        hpos x (List.mem_cons_of_mem _ hx)] at hnext
      have hne : some y.ref ≠ l.head?.map Entry.ref := by
        cases l with
        | nil => simp
        | cons w t =>
            intro heq
            simp only [List.head?_cons, Option.map_some,
              Option.some.injEq] at heq
            simp [heq] at hdistinct
      have hrest := ih ht.2 (fun x hx => hpos x (List.mem_cons_of_mem _ hx))
        (List.nodup_cons.mp hdistinct).2 (show s.length + 1 < fuel by omega)
        (width + 1)
      rw [SkipList.measure, if_neg hne, hnext, ok_bind]
      simp only [List.cons_append, List.head?_cons, Option.map_some,
        Option.isSome_some, if_true]
      rw [hrest, List.length_cons]
      congr 1
      omega

/-- The loop over the nodes of a level, by induction on the fuel. -/
theorem validateLevel_spec (ndebug : Bool) {L : ℕ} {y : Entry K}
    {rest : List (Entry K)} (ht : Threaded h (y :: rest))
    (hpos : ∀ e ∈ y :: rest, 0 < e.tower)
    (hdistinct : ((y :: rest).map Entry.ref).Nodup) (hy : L < y.tower)
    (hcount : rest.length < h.nodeCount) {fuel : ℕ}
    (hfuel : rest.length < fuel) :
    validateLevel ndebug h L fuel (some y.ref)
        ((Tower.nextAt Entry.tower L rest).map Entry.ref) true =
      .ok true := by
  induction fuel generalizing y rest with
  | zero => omega
  | succ fuel ih =>
      have hyl := lt_of_lt_of_le hy ht.1.tower_le
      have hwidth := getWidth_of_node ht.1.live hyl
      rw [ht.1.width L hy] at hwidth
      rcases Tower.all_le_or_split Entry.tower L rest with
        hall | ⟨s, w, t, rfl, hs, hw⟩
      · have hmeasure := measure_spec (s := rest) (l := [])
          (by simpa using ht) (by simpa using hpos) (by simpa using hdistinct)
          (show rest.length + 1 < h.nodeCount + 1 by omega) 0
        simp only [List.head?_nil, Option.map_none, if_true, Nat.add_zero,
          Nat.zero_add] at hmeasure
        rw [Tower.gap_eq_length hall] at hwidth
        rw [Tower.nextAt_eq_none_iff.mpr hall, Option.map_none]
        simp [validateLevel, hmeasure, hwidth]
      · have hlen : (s ++ w :: t).length = s.length + t.length + 1 := by
          simp
          omega
        have hmeasure := measure_spec (l := w :: t) ht hpos hdistinct
          (show s.length + 1 < h.nodeCount + 1 by omega) 0
        simp only [List.head?_cons, Option.map_some, reduceCtorEq, if_false,
          Nat.zero_add] at hmeasure
        rw [Tower.gap_split hs hw] at hwidth
        have htw : Threaded h (w :: t) := ht.2.tail
        have hnext := getNext_of_node htw.1.live
          (lt_of_lt_of_le hw htw.1.tower_le)
        rw [htw.1.next L hw] at hnext
        have hdistinct' : ((w :: t).map Entry.ref).Nodup := by
          rw [List.map_cons, List.map_append] at hdistinct
          exact (List.nodup_append.mp (List.nodup_cons.mp hdistinct).2).2.1
        have hrest := ih htw (fun x hx => hpos x (by
          simp only [List.mem_cons, List.mem_append] at hx ⊢
          tauto)) hdistinct' hw (by omega) (by omega)
        rw [Tower.nextAt_split hs hw, Option.map_some]
        simp [validateLevel, hmeasure, hwidth, hnext, hrest]

/-- The loop over level 0. -/
theorem validateLevelZero_spec (ndebug : Bool) {l : List (Entry K)}
    (ht : Threaded h l) (hpos : ∀ e ∈ l, 0 < e.tower) {fuel : ℕ}
    (hfuel : l.length < fuel) :
    validateLevelZero ndebug h fuel (l.head?.map Entry.ref) true =
      .ok true := by
  induction l generalizing fuel with
  | nil =>
      obtain ⟨fuel, rfl⟩ : ∃ n, fuel = n + 1 := ⟨fuel - 1, by omega⟩
      rfl
  | cons e l ih =>
      obtain ⟨fuel, rfl⟩ : ∃ n, fuel = n + 1 := ⟨fuel - 1, by omega⟩
      rw [List.length_cons] at hfuel
      have he := hpos e List.mem_cons_self
      have hl : ∀ x ∈ l, 0 < x.tower :=
        fun x hx => hpos x (List.mem_cons_of_mem _ hx)
      have hel := lt_of_lt_of_le he ht.1.tower_le
      have hnext := getNext_of_node ht.1.live hel
      have hwidth := getWidth_of_node ht.1.live hel
      rw [ht.1.next 0 he, nextAt_zero hl] at hnext
      rw [ht.1.width 0 he] at hwidth
      have hrest := ih ht.2 hl (show l.length < fuel by omega)
      rw [List.head?_cons, Option.map_some]
      cases l with
      | nil => simp [validateLevelZero, hnext, hwidth]
      | cons x l =>
          rw [Tower.gap_cons_of_lt (hl x List.mem_cons_self)] at hwidth
          simp only [List.head?_cons, Option.map_some] at hnext hrest
          simp [validateLevelZero, hnext, hwidth, hrest]

/-- The loop over all levels. -/
theorem validateWidths_spec (ndebug : Bool) {head : Entry K}
    {spine : List (Entry K)} (ht : Threaded h (head :: spine))
    (hpos : ∀ e ∈ head :: spine, 0 < e.tower)
    (hdistinct : ((head :: spine).map Entry.ref).Nodup)
    (hcount : spine.length < h.nodeCount) {levels : ℕ}
    (hlevels : levels ≤ head.tower) :
    validateWidths ndebug h (some head.ref) levels true = .ok true := by
  induction levels with
  | zero => rfl
  | succ level ih =>
      have hhead : level < head.tower := by omega
      have hnext := getNext_of_node ht.1.live
        (lt_of_lt_of_le hhead ht.1.tower_le)
      rw [ht.1.next level hhead] at hnext
      rw [validateWidths, hnext, ok_bind]
      by_cases hlevel : 1 ≤ level
      · rw [if_pos hlevel, validateLevel_spec ndebug ht hpos hdistinct hhead
          hcount (by omega), ok_bind]
        exact ih (by omega)
      · have hzero := validateLevelZero_spec ndebug ht hpos
          (show (head :: spine).length < h.nodeCount + 1 by
            rw [List.length_cons]
            omega)
        rw [List.head?_cons, Option.map_some] at hzero
        rw [if_neg hlevel, hzero, ok_bind]
        exact ih (by omega)

/-! ## Keys -/

variable [LinearOrder K]

/-- An entry's key against the keys its pointers lead to; levels above the
tower lead nowhere. -/
theorem validateKey_spec (ndebug : Bool) {e : Entry K}
    {rest : List (Entry K)} (ht : Threaded h (e :: rest))
    (hle : ∀ x ∈ rest, e.key ≤ x.key) {levels : ℕ}
    (hlevels : levels ≤ e.node.height) :
    validateKey ndebug h e.key (some e.ref) levels true = .ok true := by
  induction levels with
  | zero => rfl
  | succ level ih =>
      have hheight : level < e.node.height := by omega
      have hnext := getNext_of_node ht.1.live hheight
      have hlower := ih (by omega)
      by_cases htower : level < e.tower
      · rw [ht.1.next level htower] at hnext
        rcases hw : Tower.nextAt Entry.tower level rest with _ | w
        · rw [hw, Option.map_none] at hnext
          simp [validateKey, hnext, hlower]
        · have hmem : w ∈ rest := List.mem_of_find?_eq_some hw
          rw [hw, Option.map_some] at hnext
          have hkey := getKey_of_node (ht.2.live hmem)
          simp [validateKey, hnext, hkey, hle w hmem, hlower]
      · rw [ht.1.above level (Nat.le_of_not_lt htower) hheight] at hnext
        simp [validateKey, hnext, hlower]

/-- The loop over all entries. -/
theorem validateKeys_spec (ndebug : Bool) {l : List (Entry K)}
    (ht : Threaded h l) (hpos : ∀ e ∈ l, 0 < e.tower)
    (hsorted : l.Pairwise fun a b => a.key ≤ b.key) {fuel : ℕ}
    (hfuel : l.length < fuel) :
    validateKeys ndebug h fuel (l.head?.map Entry.ref) true = .ok true := by
  induction l generalizing fuel with
  | nil =>
      obtain ⟨fuel, rfl⟩ : ∃ n, fuel = n + 1 := ⟨fuel - 1, by omega⟩
      rfl
  | cons e l ih =>
      obtain ⟨fuel, rfl⟩ : ∃ n, fuel = n + 1 := ⟨fuel - 1, by omega⟩
      rw [List.length_cons] at hfuel
      obtain ⟨hle, hsorted⟩ := List.pairwise_cons.mp hsorted
      have he := hpos e List.mem_cons_self
      have hl : ∀ x ∈ l, 0 < x.tower :=
        fun x hx => hpos x (List.mem_cons_of_mem _ hx)
      have hnext := getNext_of_node ht.1.live
        (lt_of_lt_of_le he ht.1.tower_le)
      rw [ht.1.next 0 he, nextAt_zero hl] at hnext
      rw [List.head?_cons, Option.map_some, validateKeys,
        getKey_of_node ht.1.live, ok_bind, getHeight_of_node ht.1.live,
        ok_bind, validateKey_spec ndebug ht hle le_rfl, ok_bind, hnext,
        ok_bind]
      exact ih ht.2 hl hsorted (by omega)

/-- `validate` returns true, and no assertion in it fails. -/
theorem WellFormed.validate_spec {sl : SkipList K D} {head : Entry K}
    {spine : List (Entry K)} (wf : WellFormed sl head spine)
    (ndebug : Bool) : sl.validate ndebug = .ok true := by
  have hlen := wf.length_lt_nodeCount
  have hpos : ∀ e ∈ head :: spine, 0 < e.tower :=
    List.forall_mem_cons.mpr ⟨wf.headTower ▸ wf.levels, wf.towers_pos⟩
  have hwidths := validateWidths_spec ndebug wf.threaded hpos wf.distinct
    hlen wf.headTower.ge
  have hkeys := validateKeys_spec ndebug wf.threaded.2 wf.towers_pos
    wf.sorted (show spine.length < sl.heap.nodeCount + 1 by omega)
  rw [← wf.headRef] at hwidths
  rw [SkipList.validate, hwidths, ok_bind, wf.getNext_head, ok_bind, hkeys]

end SquidDB.Core
