import SquidDB.Core.SkipListDescent
import SquidDB.Core.SkipListValidate

/-!
# What the self check decides

`validate` on lists whose pointers are as they should be, but whose widths and
keys are arbitrary: it accepts exactly the well-linked ones.  Each loop
compares values of the list with what they should be, and ends as `judge` says
for the conjunction of its comparisons.
-/

namespace SquidDB.Core

open Checked Heap SkipList

variable {K D : Type}

/-! ## Comparisons and their verdict -/

/-- The flag `valid` after a comparison: kept if it passes, else cleared,
unless assertions are compiled in. -/
def judge (ndebug valid passed : Bool) : Checked Bool :=
  if passed then .ok valid
  else if ndebug then .ok false
  else .error .assertFailed

@[simp] theorem judge_true (ndebug valid : Bool) :
    judge ndebug valid true = .ok valid := rfl

theorem assert_eq_judge {β : Type} (ndebug valid passed : Bool)
    (f : Bool → Checked β) :
    (assert ndebug (.ok passed) >>= fun _ => f (valid && passed)) =
      judge ndebug valid passed >>= f := by
  cases passed with
  | true => simp
  | false => cases ndebug <;> simp [judge, assert]

theorem judge_and (ndebug valid first second : Bool) :
    (judge ndebug valid first >>= fun v => judge ndebug v second) =
      judge ndebug valid (first && second) := by
  cases first with
  | true => simp
  | false =>
      cases ndebug with
      | true => cases second <;> simp [judge]
      | false => simp [judge]

/-! ## Lists with arbitrary widths and keys -/

/-- The pointers of every level run through the nodes taller than the level, in
the order of level 0; widths and keys are arbitrary. -/
structure Chained (sl : SkipList K D) (head : NodeRef)
    (nodes : List NodeRef) : Prop where
  levels : 0 < sl.maxNodeHeight
  headRef : sl.head = some head
  headHeight : sl.heap.heightOf head = sl.maxNodeHeight
  heights : ∀ a ∈ nodes, sl.heap.heightOf a ≤ sl.maxNodeHeight
  bottom : Chain sl.heap 0 (sl.heap.next head 0) nodes
  chain : ∀ L < sl.maxNodeHeight, Chain sl.heap L (sl.heap.next head L)
    (nodes.filter fun a => decide (L < sl.heap.heightOf a))
  allocated : ∀ a n, sl.heap.node a = some n → a < sl.heap.nodeCount

/-- The entries behind an address. -/
def entriesBehind (a : NodeRef) (l : List (Entry K)) : List (Entry K) :=
  (l.dropWhile fun e => decide (e.ref ≠ a)).tail

/-- The widths a sequence of entries should have. -/
def exactWidth (l : List (Entry K)) (a : NodeRef) (L : ℕ) : ℕ :=
  Tower.gap Entry.tower L (entriesBehind a l)

theorem entriesBehind_of_split {s t : List (Entry K)} {e : Entry K}
    (hdistinct : ((s ++ e :: t).map Entry.ref).Nodup) :
    entriesBehind e.ref (s ++ e :: t) = t := by
  have hs : ∀ x ∈ s, decide (x.ref ≠ e.ref) = true := by
    intro x hx
    rw [List.map_append, List.map_cons, List.nodup_append] at hdistinct
    exact decide_eq_true (hdistinct.2.2 _ (List.mem_map_of_mem hx) _
      List.mem_cons_self)
  rw [entriesBehind, List.dropWhile_append_of_pos hs,
    List.dropWhile_cons_of_neg (by simp), List.tail_cons]

/-- The nodes of a chained list as entries, which exact widths would
thread. -/
structure Laid (sl : SkipList K D) (e : Entry K) (spine : List (Entry K)) :
    Prop where
  top : e.tower = sl.maxNodeHeight
  full : ∀ x ∈ e :: spine, x.IsFull sl.heap
  threaded : Threaded (sl.heap.withLinks sl.heap.next
    (exactWidth (e :: spine))) (e :: spine)
  distinct : ((e :: spine).map Entry.ref).Nodup
  towers : ∀ x ∈ e :: spine, 0 < x.tower
  heights : ∀ x ∈ e :: spine, x.tower ≤ sl.maxNodeHeight
  count : spine.length < sl.heap.nodeCount

namespace Chained

variable {sl : SkipList K D} {head : NodeRef} {nodes : List NodeRef}

theorem head_live (hc : Chained sl head nodes) :
    ∃ n, sl.heap.node head = some n := by
  rcases hn : sl.heap.node head with _ | n
  · have hheight := hc.headHeight
    rw [Heap.heightOf, hn] at hheight
    exact absurd hc.levels (by simp [← hheight])
  · exact ⟨n, rfl⟩

theorem live (hc : Chained sl head nodes) {a : NodeRef}
    (ha : a ∈ head :: nodes) :
    ∃ n, sl.heap.node a = some n ∧ 0 < n.height := by
  rcases List.mem_cons.mp ha with rfl | ha
  · obtain ⟨n, hn⟩ := hc.head_live
    have hheight := hc.headHeight
    rw [heightOf_of_node hn] at hheight
    exact ⟨n, hn, hheight ▸ hc.levels⟩
  · exact hc.bottom.live ha

theorem nodup (hc : Chained sl head nodes) : (head :: nodes).Nodup :=
  List.nodup_cons.mpr ⟨hc.bottom.notMem, hc.bottom.nodup⟩

theorem next_eq (hc : Chained sl head nodes) {before after : List NodeRef}
    {a : NodeRef} (hsplit : head :: nodes = before ++ a :: after) {L : ℕ}
    (hL : L < sl.heap.heightOf a) :
    sl.heap.next a L =
      (after.filter fun b => decide (L < sl.heap.heightOf b)).head? := by
  cases before with
  | nil =>
      obtain ⟨rfl, rfl⟩ := List.cons_eq_cons.mp hsplit
      exact (hc.chain L (hc.headHeight ▸ hL)).eq_head?
  | cons b before =>
      rw [List.cons_append, List.cons_eq_cons] at hsplit
      obtain ⟨rfl, rfl⟩ := hsplit
      have hmax := hL.trans_le (hc.heights a (by simp))
      have hchain := hc.chain L hmax
      rw [List.filter_append,
        List.filter_cons_of_pos (by simpa using hL)] at hchain
      exact hchain.rest.eq_head?

theorem length_lt (hc : Chained sl head nodes) :
    nodes.length < sl.heap.nodeCount := by
  have hsubset : head :: nodes ⊆ List.range sl.heap.nodeCount := by
    intro a ha
    obtain ⟨n, hn, -⟩ := hc.live ha
    exact List.mem_range.mpr (hc.allocated a n hn)
  have hlength := (hc.nodup.subperm hsubset).length_le
  rw [List.length_cons, List.length_range] at hlength
  omega

theorem exists_laid (hc : Chained sl head nodes) :
    ∃ (e : Entry K) (spine : List (Entry K)), e.ref = head ∧
      spine.map Entry.ref = nodes ∧ Laid sl e spine := by
  have hlive : ∀ a ∈ head :: nodes, ∃ n, sl.heap.node a = some n := by
    intro a ha
    obtain ⟨n, hn, -⟩ := hc.live ha
    exact ⟨n, hn⟩
  obtain ⟨all, hall, hfull⟩ := exists_entries hlive
  obtain ⟨e, spine, rfl, rfl, rfl⟩ := List.map_eq_cons_iff.mp hall
  refine ⟨e, spine, rfl, rfl, ?_, hfull, threaded_of_linked ?_, hc.nodup,
    ?_, ?_, ?_⟩
  · rw [← (hfull e List.mem_cons_self).heightOf_eq, hc.headHeight]
  · intro s x t hsplit
    have hx := hfull x (by simp [hsplit])
    have ht : ∀ y ∈ t, y.IsFull sl.heap :=
      fun y hy => hfull y (by simp [hsplit, hy])
    have hnodes := congrArg (List.map Entry.ref) hsplit
    rw [List.map_append, List.map_cons, List.map_cons] at hnodes
    have hdistinct : ((s ++ x :: t).map Entry.ref).Nodup :=
      hsplit ▸ hc.nodup
    refine ⟨hx.1, hx.2.le, fun L hL => ?_, fun L _ => ?_,
      fun L hle hlt => ?_⟩
    · rw [← hx.heightOf_eq] at hL
      exact (hc.next_eq hnodes hL).trans (head?_filter_height ht L)
    · rw [withLinks_width, exactWidth, hsplit,
        entriesBehind_of_split hdistinct]
    · have := hx.2
      omega
  · intro x hx
    obtain ⟨n, hn, hpos⟩ := hc.live (List.mem_map_of_mem hx)
    rwa [← (hfull x hx).heightOf_eq, heightOf_of_node hn]
  · intro x hx
    rw [← (hfull x hx).heightOf_eq]
    rcases List.mem_cons.mp hx with rfl | hx
    · exact hc.headHeight.le
    · exact hc.heights _ (List.mem_map_of_mem hx)
  · simpa using hc.length_lt

end Chained

/-! ## Widths -/

section Widths

variable {h : Heap K D} {w : NodeRef → ℕ → ℕ} {L : ℕ}

/-- The widths of a level are the numbers of steps to the next entry. -/
def widthsExact (h : Heap K D) (L : ℕ) : List (Entry K) → Bool
  | [] => true
  | e :: rest =>
      (decide (e.tower ≤ L) ||
        decide (h.width e.ref L = Tower.gap Entry.tower L rest)) &&
      widthsExact h L rest

theorem widthsExact_iff {l : List (Entry K)} :
    widthsExact h L l = true ↔ ∀ (s t : List (Entry K)) e,
      l = s ++ e :: t → L < e.tower →
      h.width e.ref L = Tower.gap Entry.tower L t := by
  induction l with
  | nil => simp [widthsExact]
  | cons x l ih =>
      rw [widthsExact, Bool.and_eq_true, Bool.or_eq_true, decide_eq_true_iff,
        decide_eq_true_iff, ih]
      constructor
      · rintro ⟨hx, hl⟩ s t e hsplit hL
        rcases s with _ | ⟨y, s⟩
        · obtain ⟨rfl, rfl⟩ := List.cons_eq_cons.mp hsplit
          exact hx.resolve_left (by omega)
        · exact hl s t e (List.cons_eq_cons.mp hsplit).2 hL
      · intro hall
        refine ⟨?_, fun s t e hsplit hL => ?_⟩
        · by_cases hx : x.tower ≤ L
          · exact Or.inl hx
          · exact Or.inr (hall [] l x rfl (by omega))
        · exact hall (x :: s) t e (by rw [hsplit, List.cons_append]) hL

theorem widthsExact_skip {s : List (Entry K)} (hs : ∀ x ∈ s, x.tower ≤ L)
    (l : List (Entry K)) :
    widthsExact h L (s ++ l) = widthsExact h L l := by
  induction s with
  | nil => rfl
  | cons x s ih =>
      obtain ⟨hx, hs⟩ := List.forall_mem_cons.mp hs
      rw [List.cons_append, widthsExact, decide_eq_true hx, Bool.true_or,
        Bool.true_and, ih hs]

theorem measure_withLinks (node : Option NodeRef) (fuel : ℕ)
    (level0 : Option NodeRef) (width : ℕ) :
    SkipList.measure (h.withLinks h.next w) node fuel level0 width =
      SkipList.measure h node fuel level0 width := by
  induction fuel generalizing level0 width with
  | zero => rfl
  | succ fuel ih =>
      have hnext : (h.withLinks h.next w).getNext level0 0 =
          h.getNext level0 0 := rfl
      simp only [SkipList.measure, hnext, ih]

/-- The loop over the nodes of a level compares its widths. -/
theorem validateLevel_eq_judge (ndebug : Bool) {y : Entry K}
    {rest : List (Entry K)}
    (ht : Threaded (h.withLinks h.next w) (y :: rest))
    (hpos : ∀ e ∈ y :: rest, 0 < e.tower)
    (hdistinct : ((y :: rest).map Entry.ref).Nodup) (hy : L < y.tower)
    (hcount : rest.length < h.nodeCount) {fuel : ℕ}
    (hfuel : rest.length < fuel) (valid : Bool) :
    validateLevel ndebug h L fuel (some y.ref)
        ((Tower.nextAt Entry.tower L rest).map Entry.ref) valid =
      judge ndebug valid (widthsExact h L (y :: rest)) := by
  induction fuel generalizing y rest valid with
  | zero => omega
  | succ fuel ih =>
      have hlive : h.node y.ref = some y.node := ht.1.live
      have hyl := lt_of_lt_of_le hy ht.1.tower_le
      have hwidth := getWidth_of_node hlive hyl
      have hy' : decide (y.tower ≤ L) = false :=
        decide_eq_false (Nat.not_le.mpr hy)
      rw [widthsExact, hy', Bool.false_or]
      rcases Tower.all_le_or_split Entry.tower L rest with
        hall | ⟨s, z, t, rfl, hs, hz⟩
      · -- `y` is the last entry of the level
        have hmeasure := measure_spec (s := rest) (l := [])
          (by simpa using ht) (by simpa using hpos) (by simpa using hdistinct)
          (show rest.length + 1 < h.nodeCount + 1 by omega) 0
        rw [measure_withLinks] at hmeasure
        simp only [List.head?_nil, Option.map_none, if_true, Nat.add_zero,
          Nat.zero_add] at hmeasure
        have hrest := widthsExact_skip (h := h) hall []
        rw [List.append_nil] at hrest
        rw [Tower.nextAt_eq_none_iff.mpr hall, Option.map_none, hrest,
          Tower.gap_eq_length hall, validateLevel, hmeasure, ok_bind, hwidth,
          ok_bind, ← judge_and]
        exact assert_eq_judge ndebug valid
          (decide (h.width y.ref L = rest.length)) Except.ok
      · have hlen : (s ++ z :: t).length = s.length + t.length + 1 := by
          simp
          omega
        have hmeasure := measure_spec (l := z :: t) ht hpos hdistinct
          (show s.length + 1 < h.nodeCount + 1 by omega) 0
        rw [measure_withLinks] at hmeasure
        simp only [List.head?_cons, Option.map_some, reduceCtorEq, if_false,
          Nat.zero_add] at hmeasure
        have htz : Threaded (h.withLinks h.next w) (z :: t) := ht.2.tail
        have hlivez : h.node z.ref = some z.node := htz.1.live
        have hnext := getNext_of_node hlivez
          (lt_of_lt_of_le hz htz.1.tower_le)
        rw [show h.next z.ref L = _ from htz.1.next L hz] at hnext
        have hdistinct' : ((z :: t).map Entry.ref).Nodup := by
          rw [List.map_cons, List.map_append] at hdistinct
          exact (List.nodup_append.mp (List.nodup_cons.mp hdistinct).2).2.1
        have hpos' : ∀ e ∈ z :: t, 0 < e.tower := by
          intro e he
          refine hpos e (List.mem_cons_of_mem _ ?_)
          exact List.mem_append_right _ he
        have hrest := ih htz hpos' hdistinct' hz (by omega) (by omega)
        rw [Tower.nextAt_split hs hz, Option.map_some, widthsExact_skip hs,
          Tower.gap_split hs hz, ← judge_and, validateLevel, hmeasure,
          ok_bind, hwidth, ok_bind]
        simp only [hnext, ok_bind, hrest]
        exact assert_eq_judge ndebug valid _
          fun v => judge ndebug v (widthsExact h L (z :: t))

theorem validateLevelZero_eq_judge (ndebug : Bool) {l : List (Entry K)}
    (ht : Threaded (h.withLinks h.next w) l) (hpos : ∀ e ∈ l, 0 < e.tower)
    {fuel : ℕ} (hfuel : l.length < fuel) (valid : Bool) :
    validateLevelZero ndebug h fuel (l.head?.map Entry.ref) valid =
      judge ndebug valid (widthsExact h 0 l) := by
  induction l generalizing fuel valid with
  | nil =>
      obtain ⟨fuel, rfl⟩ : ∃ n, fuel = n + 1 := ⟨fuel - 1, by omega⟩
      rfl
  | cons e l ih =>
      obtain ⟨fuel, rfl⟩ : ∃ n, fuel = n + 1 := ⟨fuel - 1, by omega⟩
      rw [List.length_cons] at hfuel
      obtain ⟨he, hl⟩ := List.forall_mem_cons.mp hpos
      have hlive : h.node e.ref = some e.node := ht.1.live
      have hel := lt_of_lt_of_le he ht.1.tower_le
      have hnext := getNext_of_node hlive hel
      have hwidth := getWidth_of_node hlive hel
      rw [show h.next e.ref 0 = _ from ht.1.next 0 he,
        nextAt_zero hl] at hnext
      have hexpected : (if l.head?.map Entry.ref = none then 0 else 1) =
          Tower.gap Entry.tower 0 l := by
        cases l with
        | nil => rfl
        | cons x l => simp [Tower.gap, hl x List.mem_cons_self]
      have he' : decide (e.tower ≤ 0) = false :=
        decide_eq_false (Nat.not_le.mpr he)
      have hrest := fun valid =>
        ih ht.2 hl (show l.length < fuel by omega) valid
      rw [List.head?_cons, Option.map_some, validateLevelZero, hnext, ok_bind,
        hwidth, ok_bind, widthsExact, he', Bool.false_or, ← judge_and]
      simp only [hexpected, hrest]
      exact assert_eq_judge ndebug valid _
        fun v => judge ndebug v (widthsExact h 0 l)

end Widths

theorem validateWidths_eq_judge {sl : SkipList K D} {e : Entry K}
    {spine : List (Entry K)} (hlaid : Laid sl e spine) (ndebug : Bool)
    {levels : ℕ} (hlevels : levels ≤ e.tower) (valid : Bool) :
    validateWidths ndebug sl.heap (some e.ref) levels valid =
      judge ndebug valid ((List.range levels).all fun L =>
        widthsExact sl.heap L (e :: spine)) := by
  induction levels generalizing valid with
  | zero => rfl
  | succ level ih =>
      have ht := hlaid.threaded
      have hlength := hlaid.count
      have hlevel : level < e.tower := by omega
      have hlive : sl.heap.node e.ref = some e.node := ht.1.live
      have hnext := getNext_of_node hlive
        (lt_of_lt_of_le hlevel ht.1.tower_le)
      rw [show sl.heap.next e.ref level = _ from ht.1.next level hlevel]
        at hnext
      have hlower := fun valid => ih (show level ≤ e.tower by omega) valid
      rw [validateWidths, hnext, ok_bind, List.range_succ, List.all_append,
        Bool.and_comm, ← judge_and]
      simp only [hlower, List.all_cons, List.all_nil, Bool.and_true]
      by_cases hzero : 1 ≤ level
      · rw [if_pos hzero, validateLevel_eq_judge ndebug ht hlaid.towers
          hlaid.distinct hlevel hlength (by omega)]
      · obtain rfl : level = 0 := by omega
        have hlevelZero := validateLevelZero_eq_judge ndebug ht hlaid.towers
          (show (e :: spine).length < sl.heap.nodeCount + 1 by
            rw [List.length_cons]
            omega) valid
        rw [List.head?_cons, Option.map_some] at hlevelZero
        rw [if_neg hzero, hlevelZero]

/-! ## Keys -/

variable [LinearOrder K]

/-- An entry's key is at most the keys its pointers lead to. -/
def keyAtMostNext (key : K) (rest : List (Entry K)) (levels : ℕ) : Bool :=
  (List.range levels).all fun L =>
    (Tower.nextAt Entry.tower L rest).all fun z => decide (key ≤ z.key)

/-- `keyAtMostNext` for all entries of a sequence. -/
def keysInOrder : List (Entry K) → Bool
  | [] => true
  | e :: rest => keyAtMostNext e.key rest e.node.height && keysInOrder rest

theorem keysInOrder_iff {l : List (Entry K)}
    (hpos : ∀ e ∈ l, 0 < e.tower ∧ e.tower ≤ e.node.height) :
    keysInOrder l = true ↔ l.Pairwise fun a b => a.key ≤ b.key := by
  induction l with
  | nil => simp [keysInOrder]
  | cons e l ih =>
      obtain ⟨he, hl⟩ := List.forall_mem_cons.mp hpos
      rw [keysInOrder, Bool.and_eq_true, ih hl, List.pairwise_cons]
      refine and_congr_left fun hsorted => ?_
      rw [keyAtMostNext, List.all_eq_true]
      constructor
      · intro hnext x hx
        have hzero := hnext 0 (List.mem_range.mpr (by omega))
        rw [nextAt_zero fun z hz => (hl z hz).1] at hzero
        cases l with
        | nil => cases hx
        | cons z l =>
            have hez : e.key ≤ z.key := by simpa using hzero
            rcases List.mem_cons.mp hx with rfl | hx
            · exact hez
            · exact hez.trans ((List.pairwise_cons.mp hsorted).1 x hx)
      · intro hle L _
        rcases hz : Tower.nextAt Entry.tower L l with _ | z
        · rfl
        · simpa using hle z (List.mem_of_find?_eq_some hz)

theorem validateKey_eq_judge {h : Heap K D} {w : NodeRef → ℕ → ℕ}
    (ndebug : Bool) {e : Entry K} {rest : List (Entry K)}
    (ht : Threaded (h.withLinks h.next w) (e :: rest))
    {levels : ℕ} (hlevels : levels ≤ e.tower) (valid : Bool) :
    validateKey ndebug h e.key (some e.ref) levels valid =
      judge ndebug valid (keyAtMostNext e.key rest levels) := by
  induction levels generalizing valid with
  | zero => rfl
  | succ level ih =>
      have hlevel : level < e.tower := by omega
      have hlive : h.node e.ref = some e.node := ht.1.live
      have hnext := getNext_of_node hlive
        (lt_of_lt_of_le hlevel ht.1.tower_le)
      rw [show h.next e.ref level = _ from ht.1.next level hlevel] at hnext
      have hlower := fun valid => ih (show level ≤ e.tower by omega) valid
      rw [validateKey, hnext, ok_bind, keyAtMostNext, List.range_succ,
        List.all_append, Bool.and_comm, ← keyAtMostNext, ← judge_and]
      rcases hz : Tower.nextAt Entry.tower level rest with _ | z
      · simp [hz, hlower]
      · have hlivez : h.node z.ref = some z.node :=
          ht.2.live (List.mem_of_find?_eq_some hz)
        have hkey := getKey_of_node hlivez
        simp only [Option.map_some, hkey, ok_bind, hlower, List.all_cons, hz,
          Option.all_some, List.all_nil, Bool.and_true]
        exact assert_eq_judge ndebug valid _
          fun v => judge ndebug v (keyAtMostNext e.key rest level)

theorem validateKeys_eq_judge {h : Heap K D} {w : NodeRef → ℕ → ℕ}
    (ndebug : Bool) {l : List (Entry K)}
    (ht : Threaded (h.withLinks h.next w) l)
    (hpos : ∀ e ∈ l, 0 < e.tower ∧ e.tower = e.node.height) {fuel : ℕ}
    (hfuel : l.length < fuel) (valid : Bool) :
    validateKeys ndebug h fuel (l.head?.map Entry.ref) valid =
      judge ndebug valid (keysInOrder l) := by
  induction l generalizing fuel valid with
  | nil =>
      obtain ⟨fuel, rfl⟩ : ∃ n, fuel = n + 1 := ⟨fuel - 1, by omega⟩
      rfl
  | cons e l ih =>
      obtain ⟨fuel, rfl⟩ : ∃ n, fuel = n + 1 := ⟨fuel - 1, by omega⟩
      rw [List.length_cons] at hfuel
      obtain ⟨⟨he, hfull⟩, hl⟩ := List.forall_mem_cons.mp hpos
      have hlive : h.node e.ref = some e.node := ht.1.live
      have hnext := getNext_of_node hlive
        (lt_of_lt_of_le he ht.1.tower_le)
      rw [show h.next e.ref 0 = _ from ht.1.next 0 he,
        nextAt_zero fun x hx => (hl x hx).1] at hnext
      rw [List.head?_cons, Option.map_some, validateKeys,
        getKey_of_node hlive, ok_bind, getHeight_of_node hlive,
        ok_bind, validateKey_eq_judge ndebug ht hfull.ge, keysInOrder,
        ← judge_and]
      simp only [hnext, ok_bind, ih ht.2 hl (show l.length < fuel by omega)]

/-! ## The verdict -/

section Verdict

variable {sl : SkipList K D}

/-- All comparisons of the self check. -/
def selfCheck (sl : SkipList K D) (e : Entry K) (spine : List (Entry K)) :
    Bool :=
  ((List.range sl.maxNodeHeight).all fun L =>
    widthsExact sl.heap L (e :: spine)) && keysInOrder spine

theorem Laid.validate_eq_judge {e : Entry K} {spine : List (Entry K)}
    (hlaid : Laid sl e spine) (href : sl.head = some e.ref)
    (ndebug : Bool) :
    sl.validate ndebug = judge ndebug true (selfCheck sl e spine) := by
  have hlength := hlaid.count
  obtain ⟨hpos, htowers⟩ := List.forall_mem_cons.mp hlaid.towers
  have hfull := (List.forall_mem_cons.mp hlaid.full).2
  have hwidths := validateWidths_eq_judge hlaid ndebug hlaid.top.ge true
  have hkeys := fun valid => validateKeys_eq_judge ndebug hlaid.threaded.2
    (fun x hx => ⟨htowers x hx, (hfull x hx).2⟩)
    (show spine.length < sl.heap.nodeCount + 1 by omega) valid
  have hlive : sl.heap.node e.ref = some e.node := hlaid.threaded.1.live
  have hnext := getNext_of_node hlive
    (lt_of_lt_of_le hpos hlaid.threaded.1.tower_le)
  rw [show sl.heap.next e.ref 0 = _ from hlaid.threaded.1.next 0 hpos,
    nextAt_zero htowers] at hnext
  rw [SkipList.validate, href, hwidths, selfCheck, ← judge_and]
  simp only [hnext, ok_bind]
  exact congrArg _ (funext hkeys)

omit [LinearOrder K] in
/-- With exact widths the entries are linked as they are in a well-formed
list. -/
theorem Laid.linked {e : Entry K} {spine : List (Entry K)}
    (hlaid : Laid sl e spine)
    (hwidths : ∀ L < sl.maxNodeHeight, ∀ (s t : List (Entry K)) x,
      e :: spine = s ++ x :: t → L < x.tower →
      sl.heap.width x.ref L = Tower.gap Entry.tower L t)
    {s t : List (Entry K)} {x : Entry K} (hsplit : e :: spine = s ++ x :: t) :
    Linked sl.heap x t := by
  have ht := hlaid.threaded
  rw [hsplit] at ht
  obtain ⟨hlive, hle, hnext, -, habove⟩ := ht.linked
  exact ⟨hlive, hle, hnext,
    fun L hL => hwidths L (hL.trans_le (hlaid.heights x (by simp [hsplit])))
      s t x hsplit hL, habove⟩

/-- The comparisons all pass exactly when the list is well linked. -/
theorem Laid.selfCheck_iff {e : Entry K} {spine : List (Entry K)}
    (hlaid : Laid sl e spine)
    (hc : Chained sl e.ref (spine.map Entry.ref)) :
    selfCheck sl e spine = true ↔
      WellLinked sl e.ref (spine.map Entry.ref) := by
  have htowers := (List.forall_mem_cons.mp hlaid.towers).2
  have hfull := (List.forall_mem_cons.mp hlaid.full).2
  rw [selfCheck, Bool.and_eq_true, List.all_eq_true,
    keysInOrder_iff fun x hx => ⟨htowers x hx, (hfull x hx).2.le⟩]
  simp only [widthsExact_iff, List.mem_range]
  constructor
  · rintro ⟨hwidths, hsorted⟩
    refine ⟨hc.levels, hc.headRef, hc.headHeight, hc.heights, hc.bottom,
      hc.chain, ?_, ?_, hc.allocated⟩
    · refine List.pairwise_map.mpr (hsorted.imp_of_mem ?_)
      intro a b ha hb hle
      exact ⟨a.node, b.node, (hfull a ha).1, (hfull b hb).1, hle⟩
    · intro before a after hsplit L hL
      rw [← List.map_cons] at hsplit
      obtain ⟨p, q, hpq, rfl, hq⟩ := List.map_eq_append_iff.mp hsplit
      obtain ⟨x, t, rfl, rfl, rfl⟩ := List.map_eq_cons_iff.mp hq
      have hx := hlaid.full x (by simp [hpq])
      have hdistinct := hlaid.distinct
      rw [hpq, List.map_append, List.map_cons] at hdistinct
      have hafter := List.nodup_cons.mp (List.nodup_append.mp hdistinct).2.1
      rw [hx.heightOf_eq] at hL
      exact width_of_linked (hlaid.linked hwidths hpq) hafter.2 hL
  · intro wl
    refine ⟨fun L _ s t x hsplit hL => ?_, ?_⟩
    · have hx := hlaid.full x (by simp [hsplit])
      have hdistinct := hlaid.distinct
      rw [hsplit, List.map_append, List.map_cons] at hdistinct
      have hafter := List.nodup_cons.mp (List.nodup_append.mp hdistinct).2.1
      have ht := hlaid.threaded
      rw [hsplit] at ht
      have hnodes := congrArg (List.map Entry.ref) hsplit
      rw [List.map_append, List.map_cons, List.map_cons] at hnodes
      refine gap_of_width hafter.2 (ht.linked.next L hL) ?_
      rw [← hx.heightOf_eq] at hL
      exact wl.width _ _ _ hnodes L hL
    · refine (List.pairwise_map.mp wl.ascending).imp_of_mem ?_
      rintro a b ha hb ⟨m, n, hm, hn, hle⟩
      rw [(hfull a ha).1, Option.some.injEq] at hm
      rw [(hfull b hb).1, Option.some.injEq] at hn
      subst hm hn
      exact hle

/-- On a list whose pointers are right, the self check decides whether the
widths are exact and the keys ascend; with assertions it stops where they are
not. -/
theorem Chained.validate_decides {head : NodeRef} {nodes : List NodeRef}
    (hc : Chained sl head nodes) :
    (∀ ndebug, sl.validate ndebug = .ok true ↔ WellLinked sl head nodes) ∧
      (sl.validate true = .ok false ↔ ¬WellLinked sl head nodes) ∧
      (sl.validate false = .error .assertFailed ↔
        ¬WellLinked sl head nodes) := by
  obtain ⟨e, spine, rfl, rfl, hlaid⟩ := hc.exists_laid
  simp only [hlaid.validate_eq_judge hc.headRef, ← hlaid.selfCheck_iff hc]
  cases selfCheck sl e spine with
  | true => simp
  | false => simp [judge]

/-- Two keys out of order, linked on level 0. -/
def swappedList : SkipList ℤ Unit where
  primaryIndex := true
  maxNodeHeight := 1
  initialized := true
  head := some 0
  size := 2
  heap :=
    { (Heap.empty : Heap ℤ Unit) with
      node := fun a => [⟨0, none, 1⟩, ⟨5, none, 1⟩, ⟨3, none, 1⟩][a]?
      next := fun a _ => if a < 2 then some (a + 1) else none
      width := fun a _ => if a < 2 then 1 else 0
      nodeCount := 3 }

theorem swappedList_chained : Chained swappedList 0 [1, 2] where
  levels := by decide
  headRef := rfl
  headHeight := rfl
  heights := by decide
  bottom := ⟨rfl, ⟨⟨5, none, 1⟩, rfl, by decide⟩, rfl,
    ⟨⟨3, none, 1⟩, rfl, by decide⟩, rfl⟩
  chain := by
    intro L hL
    obtain rfl : L = 0 := Nat.lt_one_iff.mp hL
    exact ⟨rfl, ⟨⟨5, none, 1⟩, rfl, by decide⟩, rfl,
      ⟨⟨3, none, 1⟩, rfl, by decide⟩, rfl⟩
  allocated := by
    intro a n hn
    obtain ⟨ha, -⟩ := List.getElem?_eq_some_iff.mp hn
    exact ha

/-- The self check sees that 5 comes before 3. -/
theorem Chained.validate_decides_swapped :
    ¬WellLinked swappedList 0 [1, 2] := by
  have hdecides := Chained.validate_decides swappedList_chained
  exact hdecides.2.1.mp rfl

end Verdict

end SquidDB.Core
