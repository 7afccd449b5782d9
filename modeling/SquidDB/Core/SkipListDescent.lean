import SquidDB.Core.SkipListStructure

/-!
# What the descents compute

`traversePrevNodes` and `findNode` on any list whose levels and widths are as
they should be, also when keys occur more than once: the trail node and the
rank of every level, the total rank and the duplicate flag in terms of the
nodes of level 0.
-/

namespace SquidDB.Core

open Checked

variable {K D : Type}

/-- The key of a live node. -/
def Heap.keyOf (h : Heap K D) (a : NodeRef) : Option K :=
  (h.node a).map SkipListNode.key

/-- The node carries a key below the given one. -/
def Heap.below [LinearOrder K] (h : Heap K D) (key : K) (a : NodeRef) :
    Bool :=
  (h.keyOf a).any fun k => decide (k < key)

/-- The last node of the level with a key below the given one, or the
head. -/
def Heap.lastBelow [LinearOrder K] (h : Heap K D) (key : K) (head : NodeRef)
    (nodes : List NodeRef) (L : ℕ) : NodeRef :=
  ((nodes.filter fun a => decide (L < h.heightOf a)).filter
    (h.below key)).getLast?.getD head

/-- `nodes` is the level-0 chain, in the order of its keys; every other level
is the subsequence of the taller nodes, and every width is the number of steps
on level 0 to the successor or to the end.  Live nodes have been allocated. -/
structure WellLinked [LinearOrder K] (sl : SkipList K D) (head : NodeRef)
    (nodes : List NodeRef) : Prop where
  levels : 0 < sl.maxNodeHeight
  headRef : sl.head = some head
  headHeight : sl.heap.heightOf head = sl.maxNodeHeight
  heights : ∀ a ∈ nodes, sl.heap.heightOf a ≤ sl.maxNodeHeight
  bottom : Chain sl.heap 0 (sl.heap.next head 0) nodes
  chain : ∀ L < sl.maxNodeHeight, Chain sl.heap L (sl.heap.next head L)
    (nodes.filter fun a => decide (L < sl.heap.heightOf a))
  ascending : nodes.Pairwise fun a b => ∃ m n, sl.heap.node a = some m ∧
    sl.heap.node b = some n ∧ m.key ≤ n.key
  width : ∀ before a after, head :: nodes = before ++ a :: after →
    ∀ L < sl.heap.heightOf a,
      match sl.heap.next a L with
      | some b => b ∈ after ∧ sl.heap.width a L = after.idxOf b + 1
      | none => sl.heap.width a L = after.length
  allocated : ∀ a n, sl.heap.node a = some n → a < sl.heap.nodeCount

/-! ## Chains -/

section Chain

variable {h : Heap K D} {L : ℕ}

/-- A chain starts at its first node. -/
theorem Chain.eq_head? {node : Option NodeRef} {nodes : List NodeRef}
    (hc : Chain h L node nodes) : node = nodes.head? := by
  cases nodes with
  | nil => exact hc
  | cons a nodes => exact hc.1

/-- The chain behind one of its nodes. -/
theorem Chain.rest {node : Option NodeRef} {s t : List NodeRef} {a : NodeRef}
    (hc : Chain h L node (s ++ a :: t)) : Chain h L (h.next a L) t := by
  induction s generalizing node with
  | nil => exact hc.2.2
  | cons b s ih => exact ih hc.2.2

/-- The nodes of a chain are live and reach above its level. -/
theorem Chain.live {node : Option NodeRef} {nodes : List NodeRef}
    (hc : Chain h L node nodes) {a : NodeRef} (ha : a ∈ nodes) :
    ∃ n, h.node a = some n ∧ L < n.height := by
  induction nodes generalizing node with
  | nil => cases ha
  | cons b nodes ih =>
      rcases List.mem_cons.mp ha with rfl | ha
      · exact hc.2.1
      · exact ih hc.2.2 ha

theorem Chain.notMem {nodes : List NodeRef} {a : NodeRef}
    (hc : Chain h L (h.next a L) nodes) : a ∉ nodes := by
  intro ha
  obtain ⟨s, t, rfl⟩ := List.append_of_mem ha
  have hlength := congrArg List.length (hc.unique hc.rest)
  simp only [List.length_append, List.length_cons] at hlength
  omega

/-- A chain visits no node twice. -/
theorem Chain.nodup {node : Option NodeRef} {nodes : List NodeRef}
    (hc : Chain h L node nodes) : nodes.Nodup := by
  induction nodes generalizing node with
  | nil => exact List.nodup_nil
  | cons a nodes ih =>
      exact List.nodup_cons.mpr ⟨Chain.notMem hc.2.2, ih hc.2.2⟩

end Chain

/-! ## From nodes to entries -/

theorem exists_entries {h : Heap K D} {nodes : List NodeRef}
    (hlive : ∀ a ∈ nodes, ∃ n, h.node a = some n) :
    ∃ spine : List (Entry K), spine.map Entry.ref = nodes ∧
      ∀ e ∈ spine, e.IsFull h := by
  induction nodes with
  | nil => exact ⟨[], rfl, by simp⟩
  | cons a nodes ih =>
      obtain ⟨⟨n, hn⟩, hlive⟩ := List.forall_mem_cons.mp hlive
      obtain ⟨spine, rfl, hfull⟩ := ih hlive
      exact ⟨⟨a, n, n.height⟩ :: spine, rfl,
        List.forall_mem_cons.mpr ⟨⟨hn, rfl⟩, hfull⟩⟩

theorem Entry.IsFull.keyOf_eq {h : Heap K D} {e : Entry K}
    (he : e.IsFull h) : h.keyOf e.ref = some e.key := by
  rw [Heap.keyOf, he.1, Option.map_some]

theorem threaded_of_linked {h : Heap K D} {spine : List (Entry K)}
    (hlinked : ∀ s e t, spine = s ++ e :: t → Linked h e t) :
    Threaded h spine := by
  induction spine with
  | nil => trivial
  | cons e spine ih =>
      refine ⟨hlinked [] e spine rfl, ih fun s x t hsplit => ?_⟩
      exact hlinked (e :: s) x t (by rw [hsplit, List.cons_append])

/-- The first node of a level is the next entry on it. -/
theorem head?_filter_height {h : Heap K D} {spine : List (Entry K)}
    (hfull : ∀ e ∈ spine, e.IsFull h) (L : ℕ) :
    ((spine.map Entry.ref).filter
      fun a => decide (L < h.heightOf a)).head? =
      (Tower.nextAt Entry.tower L spine).map Entry.ref := by
  rw [filter_height_map hfull, List.head?_map, List.head?_filter]
  rfl

/-- A width that is a number of steps on level 0 is the gap to the next
entry of the level. -/
theorem gap_of_width {h : Heap K D} {a : NodeRef} {L : ℕ}
    {spine : List (Entry K)} (hnodup : (spine.map Entry.ref).Nodup)
    (hnext : h.next a L = (Tower.nextAt Entry.tower L spine).map Entry.ref)
    (hwidth : match h.next a L with
      | some b => b ∈ spine.map Entry.ref ∧
          h.width a L = (spine.map Entry.ref).idxOf b + 1
      | none => h.width a L = (spine.map Entry.ref).length) :
    h.width a L = Tower.gap Entry.tower L spine := by
  rw [hnext] at hwidth
  rcases Tower.all_le_or_split Entry.tower L spine with
    hall | ⟨s, w, t, rfl, hs, hw⟩
  · rw [Tower.nextAt_eq_none_iff.mpr hall] at hwidth
    rw [Tower.gap_eq_length hall]
    simpa using hwidth
  · rw [Tower.nextAt_split hs hw] at hwidth
    have hnot : w.ref ∉ s.map Entry.ref := by
      rw [List.map_append, List.map_cons, List.nodup_append] at hnodup
      exact fun hin => hnodup.2.2 _ hin _ List.mem_cons_self rfl
    rw [Tower.gap_split hs hw]
    refine hwidth.2.trans ?_
    rw [List.map_append, List.map_cons, List.idxOf_append_of_notMem hnot,
      List.idxOf_cons_self, List.length_map, Nat.add_zero]

section WellLinked

variable [LinearOrder K] {sl : SkipList K D} {head : NodeRef}
  {nodes : List NodeRef}

namespace WellLinked

theorem head_live (wl : WellLinked sl head nodes) :
    ∃ n, sl.heap.node head = some n := by
  rcases hn : sl.heap.node head with _ | n
  · have hheight := wl.headHeight
    rw [Heap.heightOf, hn] at hheight
    exact absurd wl.levels (by simp [← hheight])
  · exact ⟨n, rfl⟩

/-- The head is not one of its own nodes, and no node occurs twice. -/
theorem nodup (wl : WellLinked sl head nodes) : (head :: nodes).Nodup :=
  List.nodup_cons.mpr ⟨wl.bottom.notMem, wl.bottom.nodup⟩

theorem heightOf_le (wl : WellLinked sl head nodes) {a : NodeRef}
    (ha : a ∈ head :: nodes) : sl.heap.heightOf a ≤ sl.maxNodeHeight := by
  rcases List.mem_cons.mp ha with rfl | ha
  · exact wl.headHeight.le
  · exact wl.heights a ha

theorem next_eq (wl : WellLinked sl head nodes) {before after : List NodeRef}
    {a : NodeRef} (hsplit : head :: nodes = before ++ a :: after) {L : ℕ}
    (hL : L < sl.heap.heightOf a) :
    sl.heap.next a L =
      (after.filter fun b => decide (L < sl.heap.heightOf b)).head? := by
  have hmem : a ∈ head :: nodes := by simp [hsplit]
  have hchain := wl.chain L (hL.trans_le (wl.heightOf_le hmem))
  cases before with
  | nil =>
      obtain ⟨rfl, rfl⟩ := List.cons_eq_cons.mp hsplit
      exact hchain.eq_head?
  | cons b before =>
      rw [List.cons_append, List.cons_eq_cons] at hsplit
      obtain ⟨rfl, rfl⟩ := hsplit
      rw [List.filter_append,
        List.filter_cons_of_pos (by simpa using hL)] at hchain
      exact hchain.rest.eq_head?

theorem exists_threaded (wl : WellLinked sl head nodes) :
    ∃ (e : Entry K) (spine : List (Entry K)), e.ref = head ∧
      spine.map Entry.ref = nodes ∧
      (∀ x ∈ e :: spine, x.IsFull sl.heap) ∧
      Threaded sl.heap (e :: spine) := by
  have hlive : ∀ a ∈ head :: nodes, ∃ n, sl.heap.node a = some n := by
    refine List.forall_mem_cons.mpr ⟨wl.head_live, fun a ha => ?_⟩
    obtain ⟨n, hn, -⟩ := wl.bottom.live ha
    exact ⟨n, hn⟩
  obtain ⟨all, hall, hfull⟩ := exists_entries hlive
  obtain ⟨e, spine, rfl, rfl, rfl⟩ := List.map_eq_cons_iff.mp hall
  refine ⟨e, spine, rfl, rfl, hfull, threaded_of_linked ?_⟩
  intro s x t hsplit
  have hx := hfull x (by simp [hsplit])
  have ht : ∀ y ∈ t, y.IsFull sl.heap :=
    fun y hy => hfull y (by simp [hsplit, hy])
  have hnodes := congrArg (List.map Entry.ref) hsplit
  rw [List.map_append, List.map_cons, List.map_cons] at hnodes
  have hnext : ∀ L < x.tower, sl.heap.next x.ref L =
      (Tower.nextAt Entry.tower L t).map Entry.ref := by
    intro L hL
    rw [← hx.heightOf_eq] at hL
    rw [wl.next_eq hnodes hL, head?_filter_height ht]
  have hnodup := wl.nodup
  rw [hnodes, List.nodup_append, List.nodup_cons] at hnodup
  refine ⟨hx.1, hx.2.le, hnext, fun L hL => ?_, fun L hle hlt => ?_⟩
  · refine gap_of_width hnodup.2.1.2 (hnext L hL) ?_
    rw [← hx.heightOf_eq] at hL
    exact wl.width _ _ _ hnodes L hL
  · have := hx.2
    omega

/-- There are fewer nodes than allocations. -/
theorem length_lt (wl : WellLinked sl head nodes) :
    nodes.length < sl.heap.nodeCount := by
  have hsubset : head :: nodes ⊆ List.range sl.heap.nodeCount := by
    refine List.forall_mem_cons.mpr ⟨?_, fun a ha => ?_⟩
    · obtain ⟨n, hn⟩ := wl.head_live
      exact List.mem_range.mpr (wl.allocated head n hn)
    · obtain ⟨n, hn, -⟩ := wl.bottom.live ha
      exact List.mem_range.mpr (wl.allocated a n hn)
  have hlength := (wl.nodup.subperm hsubset).length_le
  rw [List.length_cons, List.length_range] at hlength
  omega

end WellLinked

/-- A list is well linked, whatever its keys, as long as its towers are the
heights. -/
theorem WellFormed.wellLinked {e : Entry K} {spine : List (Entry K)}
    (wf : WellFormed sl e spine)
    (hfull : ∀ x ∈ spine, x.tower = x.node.height) :
    WellLinked sl e.ref (spine.map Entry.ref) where
  levels := wf.levels
  headRef := wf.headRef
  headHeight := by
    rw [heightOf_of_node (wf.threaded.live List.mem_cons_self), wf.headHeight]
  heights := by
    intro a ha
    obtain ⟨x, hx, rfl⟩ := List.mem_map.mp ha
    rw [heightOf_of_node (wf.threaded.live (List.mem_cons_of_mem _ hx))]
    exact (wf.towers x hx).2
  bottom := wf.chain_bottom
  chain := fun L hL => wf.chain_of_full hfull hL
  ascending := by
    refine List.pairwise_map.mpr (wf.sorted.imp_of_mem ?_)
    intro a b ha hb hle
    exact ⟨a.node, b.node, wf.threaded.live (List.mem_cons_of_mem _ ha),
      wf.threaded.live (List.mem_cons_of_mem _ hb), hle⟩
  width := fun before a after hsplit L hL =>
    wf.width_of_full hfull hsplit hL
  allocated := by
    intro a n hn
    by_contra hge
    rw [wf.allocated a (Nat.le_of_not_lt hge)] at hn
    cases hn

/-! ## The cut in terms of nodes -/

/-- The head and the nodes as entries, cut at the key. -/
structure CutAt (sl : SkipList K D) (key : K) (e : Entry K)
    (lo hi : List (Entry K)) : Prop where
  top : e.tower = sl.maxNodeHeight
  full : ∀ x ∈ e :: (lo ++ hi), x.IsFull sl.heap
  threaded : Threaded sl.heap (e :: (lo ++ hi))
  distinct : ((e :: (lo ++ hi)).map Entry.ref).Nodup
  towers : ∀ x ∈ lo ++ hi, 0 < x.tower
  lower : ∀ x ∈ lo, x.key < key
  upper : ∀ x ∈ hi, key ≤ x.key
  sorted : hi.Pairwise fun a b => a.key ≤ b.key
  count : lo.length ≤ sl.heap.nodeCount

theorem WellLinked.exists_cutAt (wl : WellLinked sl head nodes) (key : K) :
    ∃ (e : Entry K) (lo hi : List (Entry K)), e.ref = head ∧
      (lo ++ hi).map Entry.ref = nodes ∧ CutAt sl key e lo hi := by
  obtain ⟨e, spine, rfl, rfl, hfull, ht⟩ := wl.exists_threaded
  obtain ⟨he, hspine⟩ := List.forall_mem_cons.mp hfull
  have hsorted : spine.Pairwise fun a b => a.key ≤ b.key := by
    refine (List.pairwise_map.mp wl.ascending).imp_of_mem ?_
    rintro a b ha hb ⟨m, n, hm, hn, hle⟩
    rw [(hspine a ha).1, Option.some.injEq] at hm
    rw [(hspine b hb).1, Option.some.injEq] at hn
    subst hm hn
    exact hle
  have htowers : ∀ x ∈ spine, 0 < x.tower := by
    intro x hx
    obtain ⟨n, hn, hheight⟩ := wl.bottom.live (List.mem_map_of_mem hx)
    rwa [← (hspine x hx).heightOf_eq, heightOf_of_node hn]
  have hlength := wl.length_lt
  obtain ⟨lo, hi, rfl, hlo, hhi⟩ := exists_cut hsorted key
  rw [List.length_map, List.length_append] at hlength
  refine ⟨e, lo, hi, rfl, rfl, ?_, hfull, ht, wl.nodup, htowers, hlo, hhi,
    (List.pairwise_append.mp hsorted).2.1, by omega⟩
  rw [← he.heightOf_eq, wl.headHeight]

namespace CutAt

variable {key : K} {e : Entry K} {lo hi : List (Entry K)}

theorem below_iff (hc : CutAt sl key e lo hi) {x : Entry K}
    (hx : x ∈ lo ++ hi) :
    sl.heap.below key x.ref = true ↔ x.key < key := by
  rw [Heap.below, (hc.full x (List.mem_cons_of_mem _ hx)).keyOf_eq,
    Option.any_some, decide_eq_true_iff]

theorem countP_below (hc : CutAt sl key e lo hi) :
    ((lo ++ hi).map Entry.ref).countP (sl.heap.below key) = lo.length := by
  rw [List.countP_map, WellFormed.length_eq_countP hc.lower hc.upper]
  refine List.countP_congr fun x hx => ?_
  rw [Function.comp_apply, hc.below_iff hx, decide_eq_true_iff]

theorem filter_below (hc : CutAt sl key e lo hi) (L : ℕ) :
    (((lo ++ hi).map Entry.ref).filter
      fun a => decide (L < sl.heap.heightOf a)).filter (sl.heap.below key) =
      (lo.filter fun x => decide (L < x.tower)).map Entry.ref := by
  have hfull : ∀ x ∈ lo ++ hi, x.IsFull sl.heap :=
    fun x hx => hc.full x (List.mem_cons_of_mem _ hx)
  rw [filter_height_map hfull, List.filter_map, List.filter_append,
    List.filter_append]
  have hlo : (lo.filter fun x => decide (L < x.tower)).filter
      (sl.heap.below key ∘ Entry.ref) =
        lo.filter fun x => decide (L < x.tower) := by
    refine List.filter_eq_self.mpr fun x hx => ?_
    have hmem := (List.mem_filter.mp hx).1
    exact (hc.below_iff (List.mem_append_left _ hmem)).mpr (hc.lower x hmem)
  have hhi : (hi.filter fun x => decide (L < x.tower)).filter
      (sl.heap.below key ∘ Entry.ref) = [] := by
    refine List.filter_eq_nil_iff.mpr fun x hx => ?_
    have hmem := (List.mem_filter.mp hx).1
    rw [Function.comp_apply, hc.below_iff (List.mem_append_right _ hmem)]
    exact not_lt.mpr (hc.upper x hmem)
  rw [hlo, hhi, List.append_nil]

/-- The trail node of a level, as a node of level 0, and its position. -/
theorem lastBelow_of_lastAt (hc : CutAt sl key e lo hi) {L i : ℕ}
    {y : Entry K}
    (hlast : Tower.lastAt Entry.tower L (e :: lo) = some (i, y)) :
    sl.heap.lastBelow key e.ref ((lo ++ hi).map Entry.ref) L = y.ref ∧
      (e.ref :: (lo ++ hi).map Entry.ref).idxOf y.ref = i := by
  obtain ⟨p, q, hsplit, rfl, hy, hq⟩ := Tower.lastAt_split_inv hlast
  have hqnil : q.filter (fun x => decide (L < x.tower)) = [] := by
    refine List.filter_eq_nil_iff.mpr fun x hx => ?_
    have := hq x hx
    simp only [decide_eq_true_eq]
    omega
  have hdistinct := hc.distinct
  constructor
  · rw [Heap.lastBelow, hc.filter_below]
    cases p with
    | nil =>
        obtain ⟨rfl, rfl⟩ := List.cons_eq_cons.mp hsplit
        rw [hqnil]
        rfl
    | cons x p =>
        rw [List.cons_append, List.cons_eq_cons] at hsplit
        obtain ⟨rfl, rfl⟩ := hsplit
        rw [List.filter_append, List.filter_cons_of_pos (by simpa using hy),
          hqnil]
        simp
  · rw [← List.cons_append, hsplit] at hdistinct
    rw [← List.map_cons, ← List.cons_append, hsplit]
    simp only [List.append_assoc, List.cons_append, List.map_append,
      List.map_cons] at hdistinct ⊢
    have hnot : y.ref ∉ p.map Entry.ref := by
      rw [List.nodup_append] at hdistinct
      exact fun hin => hdistinct.2.2 _ hin _ List.mem_cons_self rfl
    rw [List.idxOf_append_of_notMem hnot, List.idxOf_cons_self,
      List.length_map, Nat.add_zero]

theorem exists_keyOf_iff (hc : CutAt sl key e lo hi) :
    (∃ a ∈ (lo ++ hi).map Entry.ref, sl.heap.keyOf a = some key) ↔
      ∃ x ∈ hi, key = x.key := by
  have hkeyOf : ∀ x ∈ lo ++ hi, sl.heap.keyOf x.ref = some x.key :=
    fun x hx => (hc.full x (List.mem_cons_of_mem _ hx)).keyOf_eq
  constructor
  · rintro ⟨a, ha, hkey⟩
    obtain ⟨x, hx, rfl⟩ := List.mem_map.mp ha
    rw [hkeyOf x hx, Option.some.injEq] at hkey
    rcases List.mem_append.mp hx with hx | hx
    · exact absurd hkey (hc.lower x hx).ne
    · exact ⟨x, hx, hkey.symm⟩
  · rintro ⟨x, hx, rfl⟩
    have hmem := List.mem_append_right lo hx
    exact ⟨x.ref, List.mem_map_of_mem hmem, hkeyOf x hmem⟩

theorem exists_traverse (hc : CutAt sl key e lo hi)
    (hhead : sl.head = some e.ref) (hlevels : 0 < sl.maxNodeHeight)
    (ndebug duplicateKey : Bool) :
    ∃ ctx : TraverseContext,
      sl.traversePrevNodes ndebug key duplicateKey =
        .ok (ctx, duplicateKey || decide (∃ x ∈ hi, key = x.key)) ∧
      ctx.rank = lo.length ∧
      SkipList.Locates ctx (e :: lo) sl.maxNodeHeight := by
  obtain ⟨ctx, hrun, hrank, hloc, -⟩ :=
    SkipList.traverseFrom_spec (p := []) (q := lo) (y := e) ndebug hc.threaded
      hc.lower hc.upper hc.count
      (fun x hx => hc.towers x (List.mem_append_left hi hx))
      (fun x hx => hc.towers x (List.mem_append_right lo hx)) hc.sorted rfl
      hc.top.ge (fun h => absurd h hlevels.ne') duplicateKey
      TraverseContext.new
  refine ⟨ctx, ?_, hrank, hloc⟩
  rw [SkipList.traversePrevNodes, hhead]
  simpa [hlevels] using hrun

theorem exists_findNode (hc : CutAt sl key e lo hi)
    (hhead : sl.head = some e.ref) (hlevels : 0 < sl.maxNodeHeight)
    (ndebug : Bool) :
    ∃ found : Option NodeRef, sl.findNode ndebug key = .ok found ∧
      (found.isSome ↔ ∃ x ∈ hi, key = x.key) ∧
      ∀ a, found = some a → ∃ x ∈ hi, key = x.key ∧ x.ref = a := by
  have hfind := SkipList.findNodeFrom_spec (p := []) (q := lo) (y := e) ndebug
    hc.threaded hc.lower hc.upper hc.count
    (fun x hx => hc.towers x (List.mem_append_right lo hx)) hc.sorted rfl
    hc.top.ge
  rw [SkipList.findNode, hhead]
  rcases hfind with ⟨hnone, hrun⟩ | ⟨x, hx, hkey, hrun⟩
  · refine ⟨none, hrun, ?_, by simp⟩
    refine iff_of_false (by simp) ?_
    rintro ⟨x, hx, hkey⟩
    exact hnone hlevels x hx hkey
  · refine ⟨some x.ref, hrun, iff_of_true rfl ⟨x, hx, hkey⟩, ?_⟩
    intro a ha
    exact ⟨x, hx, hkey, Option.some.inj ha⟩

end CutAt

/-- On every well-linked list `traversePrevNodes` returns for each level the
last node below the key and its position, and in total the number of entries
below the key; it sets the flag exactly when some entry has the key, and
exactly then `findNode` returns a node, which has the key. -/
theorem WellLinked.descents_spec (wl : WellLinked sl head nodes)
    (ndebug duplicateKey : Bool) (key : K) :
    ∃ (ctx : TraverseContext) (found : Option NodeRef),
      sl.traversePrevNodes ndebug key duplicateKey =
        .ok (ctx, duplicateKey || found.isSome) ∧
      sl.findNode ndebug key = .ok found ∧
      (∀ L < sl.maxNodeHeight,
        ctx.prevNode L = some (sl.heap.lastBelow key head nodes L) ∧
        ctx.prevRank L =
          (head :: nodes).idxOf (sl.heap.lastBelow key head nodes L)) ∧
      ctx.rank = nodes.countP (sl.heap.below key) ∧
      (found.isSome ↔ ∃ a ∈ nodes, sl.heap.keyOf a = some key) ∧
      ∀ a, found = some a → a ∈ nodes ∧ sl.heap.keyOf a = some key := by
  obtain ⟨e, lo, hi, rfl, rfl, hc⟩ := wl.exists_cutAt key
  obtain ⟨ctx, htraverse, hrank, hloc⟩ :=
    hc.exists_traverse wl.headRef wl.levels ndebug duplicateKey
  obtain ⟨found, hfind, hsome, hfound⟩ :=
    hc.exists_findNode wl.headRef wl.levels ndebug
  have hflag : decide (∃ x ∈ hi, key = x.key) = found.isSome :=
    Bool.eq_iff_iff.mpr (decide_eq_true_iff.trans hsome.symm)
  rw [hflag] at htraverse
  refine ⟨ctx, found, htraverse, hfind, ?_, ?_, ?_, ?_⟩
  · intro L hL
    obtain ⟨i, y, hlast, hnode, hposition⟩ := hloc L hL
    obtain ⟨hbelow, hidx⟩ := hc.lastBelow_of_lastAt hlast
    rw [hbelow, hidx]
    exact ⟨hnode, hposition⟩
  · rw [hrank, hc.countP_below]
  · rw [hsome, hc.exists_keyOf_iff]
  · intro a ha
    obtain ⟨x, hx, hkey, rfl⟩ := hfound a ha
    have hmem := List.mem_append_right lo hx
    refine ⟨List.mem_map_of_mem hmem, ?_⟩
    rw [(hc.full x (List.mem_cons_of_mem _ hmem)).keyOf_eq, hkey]

end WellLinked

/-- Two nodes with the key 5, of which the second is taller. -/
def twins : SkipList ℤ Unit where
  primaryIndex := false
  maxNodeHeight := 2
  head := some 0
  initialized := true
  size := 2
  heap :=
    { (Heap.empty : Heap ℤ Unit) with
      node := fun a => [⟨0, none, 2⟩, ⟨5, none, 1⟩, ⟨5, none, 2⟩][a]?
      next := fun a L =>
        if a = 0 then [some 1, some 2].getD L none
        else if a = 1 then [some 2].getD L none
        else none
      width := fun a L =>
        if a = 0 then [1, 2].getD L 0
        else if a = 1 then [1].getD L 0
        else 0
      nodeCount := 3 }

theorem twins_wellLinked : WellLinked twins 0 [1, 2] where
  levels := Nat.zero_lt_two
  headRef := rfl
  headHeight := rfl
  heights := by decide
  bottom := ⟨rfl, ⟨⟨5, none, 1⟩, rfl, by decide⟩, rfl,
    ⟨⟨5, none, 2⟩, rfl, by decide⟩, rfl⟩
  chain := by
    intro L hL
    obtain rfl | rfl : L = 0 ∨ L = 1 := by
      have : L < 2 := hL
      omega
    · exact ⟨rfl, ⟨⟨5, none, 1⟩, rfl, by decide⟩, rfl,
        ⟨⟨5, none, 2⟩, rfl, by decide⟩, rfl⟩
    · exact ⟨rfl, ⟨⟨5, none, 2⟩, rfl, by decide⟩, rfl⟩
  ascending :=
    List.pairwise_pair.mpr ⟨⟨5, none, 1⟩, ⟨5, none, 2⟩, rfl, rfl, le_rfl⟩
  width := by
    intro before a after hsplit L hL
    have hlevel : L = 0 ∨ L = 1 := by
      have hheights : ∀ b ∈ [0, 1, 2], twins.heap.heightOf b ≤ 2 := by decide
      have htop := hheights a (by simp [hsplit])
      omega
    rcases before with _ | ⟨b, _ | ⟨c, _ | ⟨d, before⟩⟩⟩
    · obtain ⟨rfl, rfl⟩ := List.cons_eq_cons.mp hsplit
      rcases hlevel with rfl | rfl
      · exact ⟨by decide, rfl⟩
      · exact ⟨by decide, rfl⟩
    · obtain ⟨-, hsplit⟩ := List.cons_eq_cons.mp hsplit
      obtain ⟨rfl, rfl⟩ := List.cons_eq_cons.mp hsplit
      rcases hlevel with rfl | rfl
      · exact ⟨by decide, rfl⟩
      · exact absurd hL (by decide)
    · obtain ⟨-, hsplit⟩ := List.cons_eq_cons.mp hsplit
      obtain ⟨-, hsplit⟩ := List.cons_eq_cons.mp hsplit
      obtain ⟨rfl, rfl⟩ := List.cons_eq_cons.mp hsplit
      rfl
    · have hlength := congrArg List.length hsplit
      simp at hlength
  allocated := by
    intro a n hn
    exact (List.getElem?_eq_some_iff.mp hn).1

/-- Of two equal keys the search for the key stops at the one seen on the
higher level, and every level stops in front of both. -/
theorem twins_descents :
    ∃ (ctx : TraverseContext) (found : Option NodeRef),
      twins.traversePrevNodes false 5 false = .ok (ctx, true) ∧
      ctx.prevNode 1 = some 0 ∧ ctx.prevRank 1 = 0 ∧
      twins.findNode false 5 = .ok found ∧ found.isSome := by
  obtain ⟨ctx, found, htraverse, hfind, hlevels, -, hsome, -⟩ :=
    twins_wellLinked.descents_spec false false 5
  have hfound : found.isSome = true := hsome.mpr ⟨1, by decide, rfl⟩
  obtain ⟨hnode, hrank⟩ := hlevels 1 Nat.one_lt_two
  rw [hfound] at htraverse
  exact ⟨ctx, found, htraverse, hnode, hrank, hfind, hfound⟩

end SquidDB.Core
