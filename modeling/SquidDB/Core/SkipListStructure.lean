import SquidDB.Core.RangeScan

/-!
# Chains and widths

The invariant in terms of the nodes alone: on every level the pointers
from the head run through exactly the nodes taller than the level, in the
order of level 0, and every width is a number of steps on level 0.
-/

namespace SquidDB.Core

open Checked SkipListIterator

variable {K D : Type}

/-- The height of a live node. -/
def Heap.heightOf (h : Heap K D) (a : NodeRef) : ℕ :=
  (h.node a).elim 0 SkipListNode.height

/-- `nodes` is the level-0 chain of the list, and the other levels and the
widths are as they should be. -/
structure Structured [LinearOrder K] (sl : SkipList K D) (head : NodeRef)
    (nodes : List NodeRef) : Prop where
  headRef : sl.head = some head
  headHeight : sl.heap.heightOf head = sl.maxNodeHeight
  bottom : Chain sl.heap 0 (sl.heap.next head 0) nodes
  heights : ∀ a ∈ nodes, sl.heap.heightOf a ≤ sl.maxNodeHeight
  chain : ∀ L < sl.maxNodeHeight, Chain sl.heap L (sl.heap.next head L)
    (nodes.filter fun a => decide (L < sl.heap.heightOf a))
  ascending : nodes.Pairwise fun a b => ∃ m n, sl.heap.node a = some m ∧
    sl.heap.node b = some n ∧ m.key < n.key
  width : ∀ before a after, head :: nodes = before ++ a :: after →
    ∀ L < sl.heap.heightOf a,
      match sl.heap.next a L with
      | some b => b ∈ after ∧ sl.heap.width a L = after.idxOf b + 1
      | none => sl.heap.width a L = after.length

/-- No call faults, no assertion of a search fails, and the self check
passes. -/
structure Safe [LinearOrder K] (ndebug : Bool) (sl : SkipList K D) :
    Prop where
  call : ∀ c, ∃ o, sl.call ndebug c = .ok o
  findNode : ∀ key, ∃ node, sl.findNode ndebug key = .ok node
  seek : ∀ key, ∃ it, sl.seek ndebug key none = .ok (.returned it sl)
  seekLoop : ∀ key, ∃ node, SkipList.seekFrom ndebug sl.heap key
    sl.maxNodeHeight sl.head = .ok node
  estimate : ∀ lowKey highKey, ∃ cardinality,
    sl.estimateRangeCardinality ndebug lowKey highKey =
      .ok (.returned cardinality sl)
  validate : sl.validate ndebug = .ok true

/-! ## From entries to nodes -/

section Nodes

variable {h : Heap K D} {spine : List (Entry K)} {e : Entry K}

theorem heightOf_of_node {a : NodeRef} {n : SkipListNode K}
    (hn : h.node a = some n) : h.heightOf a = n.height := by
  simp [Heap.heightOf, hn]

/-- An entry for a live node that is linked on all levels of its height. -/
def Entry.IsFull (h : Heap K D) (e : Entry K) : Prop :=
  h.node e.ref = some e.node ∧ e.tower = e.node.height

theorem Entry.IsFull.heightOf_eq {h : Heap K D} {e : Entry K}
    (he : e.IsFull h) : h.heightOf e.ref = e.tower := by
  rw [heightOf_of_node he.1, he.2]

theorem filter_height_map {h : Heap K D} {spine : List (Entry K)}
    (hfull : ∀ e ∈ spine, e.IsFull h) (L : ℕ) :
    (spine.map Entry.ref).filter (fun a => decide (L < h.heightOf a)) =
      (spine.filter fun e => decide (L < e.tower)).map Entry.ref := by
  rw [List.filter_map]
  refine congrArg (List.map Entry.ref) (List.filter_congr fun e he => ?_)
  rw [Function.comp_apply, (hfull e he).heightOf_eq]

theorem width_of_linked {L : ℕ} (hl : Linked h e spine)
    (hdistinct : (spine.map Entry.ref).Nodup) (hL : L < e.tower) :
    match h.next e.ref L with
    | some b => b ∈ spine.map Entry.ref ∧
        h.width e.ref L = (spine.map Entry.ref).idxOf b + 1
    | none => h.width e.ref L = (spine.map Entry.ref).length := by
  rw [hl.next L hL, hl.width L hL, List.length_map]
  rcases Tower.all_le_or_split Entry.tower L spine with
    hall | ⟨s, w, t, rfl, hs, hw⟩
  · rw [Tower.nextAt_eq_none_iff.mpr hall]
    exact Tower.gap_eq_length hall
  · rw [Tower.nextAt_split hs hw, Tower.gap_split hs hw]
    refine ⟨by simp, ?_⟩
    have hnot : w.ref ∉ s.map Entry.ref := by
      rw [List.map_append, List.map_cons, List.nodup_append] at hdistinct
      exact fun hin => hdistinct.2.2 _ hin _ List.mem_cons_self rfl
    rw [List.map_append, List.map_cons, List.idxOf_append_of_notMem hnot,
      List.idxOf_cons_self, List.length_map, Nat.add_zero]

end Nodes

section Invariant

variable [LinearOrder K] {sl : SkipList K D} {head : Entry K}
  {spine : List (Entry K)}

namespace WellFormed

theorem isFull (wf : WellFormed sl head spine)
    (hfull : ∀ e ∈ spine, e.tower = e.node.height) :
    ∀ e ∈ head :: spine, e.IsFull sl.heap := by
  intro e he
  refine ⟨wf.threaded.live he, ?_⟩
  rcases List.mem_cons.mp he with rfl | he
  · rw [wf.headTower, wf.headHeight]
  · exact hfull e he

theorem chain_of_full (wf : WellFormed sl head spine)
    (hfull : ∀ e ∈ spine, e.tower = e.node.height) {L : ℕ}
    (hL : L < sl.maxNodeHeight) :
    Chain sl.heap L (sl.heap.next head.ref L)
      ((spine.map Entry.ref).filter fun a =>
        decide (L < sl.heap.heightOf a)) := by
  have hspine := (List.forall_mem_cons.mp (wf.isFull hfull)).2
  rw [filter_height_map hspine, wf.threaded.1.next L (wf.headTower ▸ hL)]
  exact chain_of_threaded wf.threaded.2

theorem width_of_full (wf : WellFormed sl head spine)
    (hfull : ∀ e ∈ spine, e.tower = e.node.height)
    {before after : List NodeRef} {a : NodeRef}
    (hsplit : head.ref :: spine.map Entry.ref = before ++ a :: after)
    {L : ℕ} (hL : L < sl.heap.heightOf a) :
    match sl.heap.next a L with
    | some b => b ∈ after ∧ sl.heap.width a L = after.idxOf b + 1
    | none => sl.heap.width a L = after.length := by
  rw [← List.map_cons] at hsplit
  obtain ⟨p, q, hpq, rfl, hq⟩ := List.map_eq_append_iff.mp hsplit
  obtain ⟨e, s, rfl, rfl, rfl⟩ := List.map_eq_cons_iff.mp hq
  have he := wf.isFull hfull e (by simp [hpq])
  have ht := wf.threaded
  have hdistinct := wf.distinct
  rw [hpq] at ht hdistinct
  rw [List.map_append, List.map_cons] at hdistinct
  rw [he.heightOf_eq] at hL
  exact width_of_linked ht.linked
    (List.nodup_cons.mp (List.nodup_append.mp hdistinct).2.1).2 hL

end WellFormed

theorem PrimaryWellFormed.structured (wf : PrimaryWellFormed sl head spine) :
    Structured sl head.ref (spine.map Entry.ref) := by
  have hfull := wf.isFull wf.full
  have hhead : sl.heap.heightOf head.ref = sl.maxNodeHeight := by
    rw [(hfull head List.mem_cons_self).heightOf_eq, wf.headTower]
  refine ⟨wf.headRef, hhead, wf.chain_bottom, ?_,
    fun L hL => wf.chain_of_full wf.full hL, ?_,
    fun before a after hsplit L hL => wf.width_of_full wf.full hsplit hL⟩
  · intro a ha
    obtain ⟨e, he, rfl⟩ := List.mem_map.mp ha
    rw [heightOf_of_node (wf.threaded.live (List.mem_cons_of_mem _ he))]
    exact (wf.towers e he).2
  · refine List.pairwise_map.mpr (wf.strict.imp_of_mem ?_)
    intro a b ha hb hlt
    exact ⟨a.node, b.node, wf.threaded.live (List.mem_cons_of_mem _ ha),
      wf.threaded.live (List.mem_cons_of_mem _ hb), hlt⟩

/-- A list that represents a map is safe to use. -/
theorem Represents.safe {maxNodeHeight : ℕ}
    {m : SortedMap K (RowData D)} (hrep : Represents maxNodeHeight sl m)
    (ndebug : Bool) : Safe ndebug sl := by
  have hrep' := hrep
  obtain ⟨head, spine, wf, -, -⟩ := hrep
  have hseek : ∀ key, ∃ node, SkipList.seekFrom ndebug sl.heap key
      sl.maxNodeHeight sl.head = .ok node := by
    intro key
    obtain ⟨lo, hi, rfl, hlo, hhi⟩ := exists_cut wf.sorted key
    exact ⟨_, wf.seekFrom_spec hlo hhi ndebug⟩
  refine ⟨?_, ?_, ?_, hseek,
    fun lowKey highKey =>
      ⟨_, wf.estimateRangeCardinality_spec ndebug lowKey highKey⟩,
    wf.validate_spec ndebug⟩
  · intro c
    obtain ⟨o, hrun, -⟩ := call_simulates ndebug hrep' c
    exact ⟨o, hrun⟩
  · intro key
    obtain ⟨lo, hi, rfl, hlo, hhi⟩ := exists_cut wf.sorted key
    rcases wf.findNode_spec hlo hhi ndebug with
      ⟨-, hnone⟩ | ⟨e, -, -, hsome⟩
    · exact ⟨_, hnone⟩
    · exact ⟨_, hsome⟩
  · intro key
    obtain ⟨node, hnode⟩ := hseek key
    exact ⟨⟨node, none⟩, wf.seek_of_seekFrom hnode⟩

end Invariant

/-- Every list reachable from `initialize` by calls has exact chains and
widths, and is safe to use in every build. -/
theorem primaryList_structured [LinearOrder K] [Inhabited K] (ndebug : Bool)
    {maxNodeHeight : ℕ} (hmax : 1 ≤ maxNodeHeight)
    (calls : List (Call K D)) :
    ∃ sl₀ sl, (SkipList.new true maxNodeHeight).initializeList ndebug =
        .ok (.returned () sl₀) ∧
      Machine.run (SkipList.step ndebug) sl₀ calls = some sl ∧
      (∃ head nodes, Structured sl head nodes) ∧ Safe ndebug sl := by
  obtain ⟨sl, hrun, hrep⟩ := run_represents ndebug hmax calls
  have hsafe := hrep.safe ndebug
  obtain ⟨head, spine, wf, -, -⟩ := hrep
  exact ⟨_, sl, initializeList_spec ndebug true hmax, hrun,
    ⟨head.ref, _, wf.structured⟩, hsafe⟩

/-- Three levels, two insertions and a removal. -/
theorem primaryList_structured_three_levels :
    1 ≤ 3 ∧ ∃ sl₀ sl : SkipList Int32 Unit,
      (SkipList.new true 3).initializeList false =
          .ok (.returned () sl₀) ∧
        Machine.run (SkipList.step false) sl₀
          [.insert 5 none 0 2 (fun _ => 0) none,
            .insert 3 none 0 3 (fun _ => 0) none, .remove 5] = some sl ∧
        (∃ head nodes, Structured sl head nodes) ∧ Safe false sl :=
  ⟨by decide, primaryList_structured false (by decide) _⟩

end SquidDB.Core
