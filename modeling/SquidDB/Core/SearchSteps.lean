import SquidDB.Lib.TowerDescent
import SquidDB.Core.SkipListRefinement

/-!
# How far a search goes

`findNode` with a counter for the rounds of its inner loop, in which it moves
from a node to the next one on the same level.  Without the counter it is
`findNode`.  On a well-formed primary list the rounds are those of a descent
along the towers of the smaller keys, cut off at the level on which the key
itself comes into sight.
-/

namespace SquidDB.Core

open Checked Heap

variable {K D : Type} [LinearOrder K]

namespace SkipList

/-- `skipLower`, counting its rounds. -/
def skipLowerCounted (h : Heap K D) (key : K) (level : ℕ) :
    ℕ → Option NodeRef → Option NodeRef → ℕ →
      Checked (Option NodeRef × Option NodeRef × ℕ)
  | 0, _, _, _ => .error .divergence
  | fuel + 1, trail, node, rounds => do
      if ← keyAbove h key node then
        let next ← h.getNext node level
        skipLowerCounted h key level fuel node next (rounds + 1)
      else
        pure (trail, node, rounds)

/-- `findNodeFrom`, counting the rounds on all levels. -/
def findNodeFromCounted (ndebug : Bool) (h : Heap K D) (key : K) :
    ℕ → Option NodeRef → ℕ → Checked (Option NodeRef × ℕ)
  | 0, _, rounds => .ok (none, rounds)
  | level + 1, start, rounds => do
      let first ← h.getNext start level
      let (trail, node, rounds) ←
        skipLowerCounted h key level (h.nodeCount + 1) start first rounds
      assert ndebug (.ok trail.isSome)
      if ← keyEquals h key node then
        pure (node, rounds)
      else
        assert ndebug (nullOrBelow h key node)
        findNodeFromCounted ndebug h key level trail rounds

/-- `findNode` with the number of nodes it moves to. -/
def findNodeCounted (sl : SkipList K D) (ndebug : Bool) (key : K) :
    Checked (Option NodeRef × ℕ) :=
  findNodeFromCounted ndebug sl.heap key sl.maxNodeHeight sl.head 0

/-! ## The counter changes nothing -/

theorem skipLowerCounted_fst (h : Heap K D) (key : K) (level fuel : ℕ)
    (trail node : Option NodeRef) (rounds : ℕ) :
    (skipLowerCounted h key level fuel trail node rounds).map
        (fun r => (r.1, r.2.1)) =
      skipLower h key level fuel trail node := by
  induction fuel generalizing trail node rounds with
  | zero => rfl
  | succ fuel ih =>
      rw [skipLowerCounted, skipLower]
      rcases keyAbove h key node with fault | above
      · rfl
      · cases above with
        | false => rfl
        | true =>
            simp only [ok_bind, if_true]
            rcases h.getNext node level with fault | next
            · rfl
            · exact ih node next (rounds + 1)

theorem findNodeFromCounted_fst (ndebug : Bool) (h : Heap K D) (key : K)
    (levels : ℕ) (start : Option NodeRef) (rounds : ℕ) :
    (findNodeFromCounted ndebug h key levels start rounds).map Prod.fst =
      findNodeFrom ndebug h key levels start := by
  induction levels generalizing start rounds with
  | zero => rfl
  | succ level ih =>
      rw [findNodeFromCounted, findNodeFrom]
      rcases h.getNext start level with fault | first
      · rfl
      · have hskip := skipLowerCounted_fst h key level (h.nodeCount + 1)
          start first rounds
        simp only [ok_bind]
        rw [← hskip]
        rcases skipLowerCounted h key level (h.nodeCount + 1) start first
          rounds with fault | ⟨trail, node, rounds'⟩
        · rfl
        · simp only [Except.map, ok_bind]
          rcases assert ndebug (.ok trail.isSome) with fault | _
          · rfl
          · simp only [ok_bind]
            rcases keyEquals h key node with fault | equal
            · rfl
            · cases equal with
              | true => rfl
              | false =>
                  simp only [ok_bind, Bool.false_eq_true, if_false]
                  rcases assert ndebug (nullOrBelow h key node) with
                    fault | _
                  · rfl
                  · exact ih trail rounds'

theorem findNodeCounted_fst (sl : SkipList K D) (ndebug : Bool) (key : K) :
    (sl.findNodeCounted ndebug key).map Prod.fst = sl.findNode ndebug key :=
  findNodeFromCounted_fst ndebug sl.heap key sl.maxNodeHeight sl.head 0

/-! ## One level -/

section Level

variable {h : Heap K D} {key : K} {L : ℕ}

/-- The inner loop moves to every node of the level below the key. -/
theorem skipLowerCounted_spec {y : Entry K} {q hi : List (Entry K)}
    (ht : Threaded h (y :: (q ++ hi))) (hy : L < y.tower)
    (hq : ∀ e ∈ q, e.key < key) (hhi : ∀ e ∈ hi, key ≤ e.key)
    (fuel : ℕ) (hfuel : q.length < fuel) (rounds : ℕ) :
    ∃ (s : List (Entry K)) (z : Entry K) (t : List (Entry K)),
      y :: q = s ++ z :: t ∧ L < z.tower ∧ (∀ e ∈ t, e.tower ≤ L) ∧
      skipLowerCounted h key L fuel (some y.ref) (h.next y.ref L) rounds =
        .ok (some z.ref, (Tower.nextAt Entry.tower L hi).map Entry.ref,
          rounds + q.countP fun e => decide (L < e.tower)) := by
  induction fuel generalizing y q rounds with
  | zero => omega
  | succ fuel ih =>
      rcases Tower.all_le_or_split Entry.tower L q with
        hall | ⟨s, w, t, rfl, hs, hw⟩
      · have hnext : h.next y.ref L =
            (Tower.nextAt Entry.tower L hi).map Entry.ref := by
          rw [ht.1.next L hy, Tower.nextAt_append_of_le hall]
        have hcount : q.countP (fun e => decide (L < e.tower)) = 0 :=
          List.countP_eq_zero.mpr fun e he => by simpa using hall e he
        refine ⟨[], y, q, rfl, hy, hall, ?_⟩
        simp [skipLowerCounted, hnext, keyAbove_nextAt ht.2.tail hhi, hcount]
      · have hrest : s ++ w :: t ++ hi = s ++ w :: (t ++ hi) := by simp
        rw [hrest] at ht
        have hnext : h.next y.ref L = some w.ref := by
          rw [ht.1.next L hy, Tower.nextAt_split hs hw, Option.map_some]
        have hlw := ht.2.linked
        have hwl : L < w.node.height := lt_of_lt_of_le hw hlw.tower_le
        have habove : keyAbove h key (some w.ref) = .ok true := by
          rw [keyAbove_of_live hlw.live]
          simp [hq w (by simp)]
        have hcount : (s ++ w :: t).countP (fun e => decide (L < e.tower)) =
            t.countP (fun e => decide (L < e.tower)) + 1 := by
          have hzero : s.countP (fun e => decide (L < e.tower)) = 0 :=
            List.countP_eq_zero.mpr fun e he => by simpa using hs e he
          rw [List.countP_append, hzero, List.countP_cons_of_pos (by simpa),
            Nat.zero_add]
        obtain ⟨s', z, t', hsplit, hz, ht', hrun⟩ :=
          ih (y := w) (q := t) ht.2.tail hw
            (fun e he => hq e (by simp [he]))
            (by simp only [List.length_append, List.length_cons] at hfuel
                omega)
            (rounds + 1)
        refine ⟨y :: (s ++ s'), z, t', by simp [hsplit], hz, ht', ?_⟩
        rw [hnext, skipLowerCounted, habove]
        simp only [ok_bind, if_true, getNext_of_node hlw.live hwl, hrun,
          hcount]
        congr 3
        omega

variable {head : Entry K} {lo hi : List (Entry K)}

omit [LinearOrder K] in
theorem passed_of_split {p q : List (Entry K)} {y : Entry K}
    (hsplit : head :: lo = p ++ y :: q) (hq : ∀ e ∈ q, e.tower ≤ L + 1)
    (hy : p ≠ [] → L + 1 < y.tower) :
    q.countP (fun e => decide (L < e.tower)) =
      Tower.passed Entry.tower L lo := by
  cases p with
  | nil =>
      obtain ⟨rfl, rfl⟩ := List.cons_eq_cons.mp hsplit
      exact (Tower.passed_of_le hq).symm
  | cons x p =>
      obtain ⟨rfl, rfl⟩ := List.cons_eq_cons.mp hsplit
      exact (Tower.passed_split (hy (by simp)) hq).symm

theorem searchCounted_level (ht : Threaded h ((head :: lo) ++ hi))
    (hlo : ∀ e ∈ lo, e.key < key) (hhi : ∀ e ∈ hi, key ≤ e.key)
    (hcount : lo.length ≤ h.nodeCount)
    {p q : List (Entry K)} {y : Entry K} (hsplit : head :: lo = p ++ y :: q)
    (hy : L < y.tower) (hq : ∀ e ∈ q, e.tower ≤ L + 1)
    (hp : p ≠ [] → L + 1 < y.tower) (rounds : ℕ) :
    ∃ (p' : List (Entry K)) (z : Entry K) (q' : List (Entry K)),
      head :: lo = p' ++ z :: q' ∧ L < z.tower ∧
      (∀ e ∈ q', e.tower ≤ L) ∧
      h.getNext (some y.ref) L = .ok (h.next y.ref L) ∧
      skipLowerCounted h key L (h.nodeCount + 1) (some y.ref)
          (h.next y.ref L) rounds =
        .ok (some z.ref, (Tower.nextAt Entry.tower L hi).map Entry.ref,
          rounds + Tower.passed Entry.tower L lo) := by
  have hty : Threaded h (y :: (q ++ hi)) := by
    rw [hsplit, List.append_assoc] at ht
    exact ht.tail
  have hlen := length_of_split hsplit
  obtain ⟨s, z, t, hzt, hz, ht', hrun⟩ :=
    skipLowerCounted_spec hty hy
      (fun e he => hlo e (mem_of_split hsplit he)) hhi (h.nodeCount + 1)
      (by omega) rounds
  rw [passed_of_split hsplit hq hp] at hrun
  refine ⟨p ++ s, z, t, ?_, hz, ht', ?_, hrun⟩
  · rw [hsplit, hzt, List.append_assoc]
  · exact getNext_of_node hty.1.live (lt_of_lt_of_le hy hty.1.tower_le)

end Level

/-! ## All levels -/

section Search

variable {h : Heap K D} {key : K} {head : Entry K} {lo hi : List (Entry K)}

theorem findNodeFromCounted_absent (ndebug : Bool)
    (ht : Threaded h ((head :: lo) ++ hi))
    (hlo : ∀ e ∈ lo, e.key < key) (hhi : ∀ e ∈ hi, key < e.key)
    (hcount : lo.length ≤ h.nodeCount) {levels : ℕ}
    {p q : List (Entry K)} {y : Entry K} (hsplit : head :: lo = p ++ y :: q)
    (hy : levels ≤ y.tower) (hq : ∀ e ∈ q, e.tower ≤ levels)
    (hp : p ≠ [] → levels < y.tower) (rounds : ℕ) :
    findNodeFromCounted ndebug h key levels (some y.ref) rounds =
      .ok (none, rounds + Tower.steps Entry.tower levels lo) := by
  induction levels generalizing p q y rounds with
  | zero => rfl
  | succ level ih =>
      have hle : ∀ e ∈ hi, key ≤ e.key := fun e he => (hhi e he).le
      obtain ⟨p', z, q', hsplit', hz, hq', hnext, hrun⟩ :=
        searchCounted_level ht hlo hle hcount hsplit
          (Nat.lt_of_succ_le hy) hq hp rounds
      have hkey : ¬∃ e, Tower.nextAt Entry.tower level hi = some e ∧
          key = e.key := by
        rintro ⟨e, he, heq⟩
        exact (hhi e (List.mem_of_find?_eq_some he)).ne heq
      have hequals := keyEquals_nextAt key ht.tail level
      rw [decide_eq_false hkey] at hequals
      have hrest := ih hsplit' hz.le hq' (fun _ => hz)
        (rounds + Tower.passed Entry.tower level lo)
      simp only [findNodeFromCounted, hnext, ok_bind, hrun,
        Option.isSome_some, assert_ok_true, hequals, Bool.false_eq_true,
        if_false, nullOrBelow_nextAt ht.tail hle hkey, hrest,
        Tower.steps_succ]
      congr 2
      omega

/-- An entry carries the key: the search ends on the highest level of its
tower. -/
theorem findNodeFromCounted_present (ndebug : Bool) {e : Entry K}
    (ht : Threaded h ((head :: lo) ++ e :: hi))
    (hlo : ∀ x ∈ lo, x.key < e.key) (hhi : ∀ x ∈ hi, e.key < x.key)
    (hcount : lo.length ≤ h.nodeCount) {levels : ℕ} (hpos : 0 < e.tower)
    (htower : e.tower ≤ levels)
    {p q : List (Entry K)} {y : Entry K} (hsplit : head :: lo = p ++ y :: q)
    (hy : levels ≤ y.tower) (hq : ∀ x ∈ q, x.tower ≤ levels)
    (hp : p ≠ [] → levels < y.tower) (rounds : ℕ) :
    findNodeFromCounted ndebug h e.key levels (some y.ref) rounds =
      .ok (some e.ref, rounds + ∑ L ∈ Finset.range levels,
        if e.tower ≤ L + 1 then Tower.passed Entry.tower L lo else 0) := by
  induction levels generalizing p q y rounds with
  | zero => omega
  | succ level ih =>
      have hle : ∀ x ∈ e :: hi, e.key ≤ x.key :=
        List.forall_mem_cons.mpr ⟨le_rfl, fun x hx => (hhi x hx).le⟩
      obtain ⟨p', z, q', hsplit', hz, hq', hnext, hrun⟩ :=
        searchCounted_level ht hlo hle hcount hsplit
          (Nat.lt_of_succ_le hy) hq hp rounds
      have hequals := keyEquals_nextAt e.key ht.tail level
      rw [Finset.sum_range_succ, if_pos htower]
      rcases Nat.lt_or_eq_of_le htower with hlower | hlast
      · have hlevel : e.tower ≤ level := Nat.le_of_lt_succ hlower
        have hkey : ¬∃ x, Tower.nextAt Entry.tower level (e :: hi) =
            some x ∧ e.key = x.key := by
          rw [Tower.nextAt_cons_of_le hlevel]
          rintro ⟨x, hx, heq⟩
          exact (hhi x (List.mem_of_find?_eq_some hx)).ne heq
        rw [decide_eq_false hkey] at hequals
        have hrest := ih hlevel hsplit' hz.le hq' (fun _ => hz)
          (rounds + Tower.passed Entry.tower level lo)
        simp only [findNodeFromCounted, hnext, ok_bind, hrun,
          Option.isSome_some, assert_ok_true, hequals, Bool.false_eq_true,
          if_false, nullOrBelow_nextAt ht.tail hle hkey, hrest]
        congr 2
        omega
      · have hseen : Tower.nextAt Entry.tower level (e :: hi) = some e :=
          Tower.nextAt_cons_of_lt (by omega) hi
        have hlower : ∑ L ∈ Finset.range level,
            (if e.tower ≤ L + 1 then Tower.passed Entry.tower L lo
              else 0) = 0 := by
          refine Finset.sum_eq_zero fun L hL => if_neg ?_
          have := Finset.mem_range.mp hL
          omega
        rw [decide_eq_true ⟨e, hseen, rfl⟩, hseen, Option.map_some] at hequals
        rw [hseen, Option.map_some] at hrun
        simp only [findNodeFromCounted, hnext, ok_bind, hrun,
          Option.isSome_some, assert_ok_true, hequals, if_true, hlower,
          Nat.zero_add, pure_eq_ok]

end Search

end SkipList

namespace PrimaryWellFormed

variable {sl : SkipList K D} {head : Entry K} {lo hi : List (Entry K)}

theorem tower_le (wf : PrimaryWellFormed sl head (lo ++ hi)) {x : Entry K}
    (hx : x ∈ lo ++ hi) : x.tower ≤ sl.maxNodeHeight :=
  (wf.full x hx).le.trans (wf.towers x hx).2

theorem length_le (wf : PrimaryWellFormed sl head (lo ++ hi)) :
    lo.length ≤ sl.heap.nodeCount := by
  have hlength := wf.length_lt_nodeCount
  rw [List.length_append] at hlength
  omega

theorem findNodeCounted_absent (wf : PrimaryWellFormed sl head (lo ++ hi))
    {key : K} (hlo : ∀ e ∈ lo, e.key < key) (hhi : ∀ e ∈ hi, key < e.key)
    (ndebug : Bool) :
    sl.findNodeCounted ndebug key =
      .ok (none, Tower.steps Entry.tower sl.maxNodeHeight lo) := by
  rw [SkipList.findNodeCounted, wf.headRef]
  have hrun := SkipList.findNodeFromCounted_absent (p := []) (q := lo)
    (y := head) ndebug wf.threaded hlo hhi wf.length_le rfl wf.headTower.ge
    (fun e he => wf.tower_le (List.mem_append_left hi he))
    (fun h => absurd rfl h) 0
  rwa [Nat.zero_add] at hrun

theorem findNodeCounted_present {e : Entry K}
    (wf : PrimaryWellFormed sl head (lo ++ e :: hi)) (ndebug : Bool) :
    sl.findNodeCounted ndebug e.key =
      .ok (some e.ref, ∑ L ∈ Finset.range sl.maxNodeHeight,
        if e.tower ≤ L + 1 then Tower.passed Entry.tower L lo else 0) := by
  have hstrict := List.pairwise_append.mp wf.strict
  have hmem : e ∈ lo ++ e :: hi := by simp
  rw [SkipList.findNodeCounted, wf.headRef]
  have hrun := SkipList.findNodeFromCounted_present (p := []) (q := lo)
    (y := head) ndebug wf.threaded
    (fun x hx => hstrict.2.2 x hx e List.mem_cons_self)
    (List.pairwise_cons.mp hstrict.2.1).1 wf.length_le
    (wf.towers e hmem).1 (wf.tower_le hmem) rfl wf.headTower.ge
    (fun x hx => wf.tower_le (List.mem_append_left (e :: hi) hx))
    (fun h => absurd rfl h) 0
  rwa [Nat.zero_add] at hrun

end PrimaryWellFormed

end SquidDB.Core
