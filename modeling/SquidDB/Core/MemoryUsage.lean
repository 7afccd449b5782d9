import SquidDB.Core.BufferOwnership

/-!
# The memory of a skip list

`memoryUsageMB` walks level 0 and adds up nodes, their arrays, rows and row
buffers, in `size_t` arithmetic.  The sizes of the types are the platform's, and
a buffer counts with the size that was recorded for it.  What the walk finds is
all that is allocated, if the recorded sizes are right: no list loses a node, a
row or a buffer.
-/

namespace SquidDB.Core

open Checked Heap Ledger

/-- `sizeof` of the types a skip list allocates. -/
structure Sizes where
  node : ℕ
  sizeType : ℕ
  pointer : ℕ
  rowInfo : ℕ

variable {K D : Type}

namespace SkipList

/-- The inner loop of `memoryUsageMB`, over the versions of a row. -/
def addRows (sizes : Sizes) (h : Heap K D) :
    ℕ → Option RowInfoRef → ℕ → Checked ℕ
  | _, none, totalBytes => .ok totalBytes
  | 0, some _, _ => .error .divergence
  | fuel + 1, some r, totalBytes => do
      let info ← h.readRowInfo (some r)
      let totalBytes := (totalBytes + sizes.rowInfo) % 2 ^ 64
      let totalBytes :=
        if info.data.isSome then (totalBytes + info.size) % 2 ^ 64
        else totalBytes
      addRows sizes h fuel info.next totalBytes

/-- The loop of `memoryUsageMB` over the nodes. -/
def addNodes (sizes : Sizes) (h : Heap K D) :
    ℕ → Option NodeRef → ℕ → Checked ℕ
  | _, none, totalBytes => .ok totalBytes
  | 0, some _, _ => .error .divergence
  | fuel + 1, some a, totalBytes => do
      let nodeHeight ← h.getHeight (some a)
      -- the node itself
      let totalBytes := (totalBytes + sizes.node) % 2 ^ 64
      -- width array
      let totalBytes := (totalBytes + nodeHeight * sizes.sizeType) % 2 ^ 64
      -- next pointer array
      let totalBytes := (totalBytes + nodeHeight * sizes.pointer) % 2 ^ 64
      let rowInfo ← h.getRowInfo (some a)
      let totalBytes ← addRows sizes h (h.rowInfoCount + 1) rowInfo totalBytes
      let next ← h.getNext (some a) 0
      addNodes sizes h fuel next totalBytes

def memoryUsageMB (sl : SkipList K D) (sizes : Sizes) :
    Checked (Outcome (SkipList K D) ℕ) :=
  if sl.initialized = false then
    .ok (.thrown "SkipList<K>::memoryUsageMB not initialized" sl)
  else do
    let totalBytes ←
      addNodes sizes sl.heap (sl.heap.nodeCount + 1) sl.head 0
    pure (.returned (totalBytes / (1024 * 1024)) sl)

end SkipList

/-! ## What is allocated -/

/-- A node with its two arrays. -/
def nodeBytes (sizes : Sizes) (n : SkipListNode K) : ℕ :=
  sizes.node + n.height * sizes.sizeType + n.height * sizes.pointer

/-- A row with its buffer, as `memoryUsageMB` counts them. -/
def rowBytes (sizes : Sizes) (info : RowInfo D) : ℕ :=
  sizes.rowInfo + if info.data.isSome then info.size else 0

/-- All nodes and row infos that were allocated and not deleted, and of the
buffers that were received those that were not freed. -/
def allocatedBytes [DecidableEq D] (sizes : Sizes) (bytes : D → ℕ)
    (received : List D) (h : Heap K D) : ℕ :=
  (∑ a ∈ Finset.range h.nodeCount, (h.node a).elim 0 (nodeBytes sizes)) +
    (∑ r ∈ Finset.range h.rowInfoCount,
      (h.rowInfo r).elim 0 fun _ => sizes.rowInfo) +
    ((received.filter fun d => d ∉ h.freed).map bytes).sum

theorem sum_live_cells {α : Type} {memory : ℕ → Option α} {cells : List ℕ}
    {count : ℕ} (size : α → ℕ) (hnodup : cells.Nodup)
    (hallocated : ∀ a, count ≤ a → memory a = none)
    (hlive : ∀ a ∈ cells, (memory a).isSome)
    (hnamed : ∀ a x, memory a = some x → a ∈ cells) :
    ∑ a ∈ Finset.range count, (memory a).elim 0 size =
      (cells.map fun a => (memory a).elim 0 size).sum := by
  rw [← List.sum_toFinset _ hnodup]
  symm
  refine Finset.sum_subset (fun a ha => ?_) fun a _ hother => ?_
  · rw [Finset.mem_range]
    by_contra hge
    have hsome := hlive a (List.mem_toFinset.mp ha)
    rw [hallocated a (by omega)] at hsome
    cases hsome
  · rcases hcell : memory a with _ | x
    · rfl
    · exact absurd (List.mem_toFinset.mpr (hnamed a x hcell)) hother

/-! ## The walk -/

section Walk

variable {h : Heap K D} {sizes : Sizes} {spine : List (Entry K)}

/-- An entry's row and buffer. -/
def entryRowBytes (sizes : Sizes) (h : Heap K D) (e : Entry K) : ℕ :=
  (h.rowOf e.node).elim 0 (rowBytes sizes)

theorem addRows_row {r : RowInfoRef} {info : RowInfo D}
    (hinfo : h.rowInfo r = some info) (hnext : info.next = none) (fuel : ℕ)
    (totalBytes : ℕ) :
    SkipList.addRows sizes h (fuel + 1) (some r) totalBytes =
      .ok ((totalBytes + rowBytes sizes info) % 2 ^ 64) := by
  rw [SkipList.addRows, readRowInfo_of_rowInfo hinfo, ok_bind, rowBytes]
  simp only [hnext, SkipList.addRows]
  congr 1
  split
  · rw [Nat.mod_add_mod, Nat.add_assoc]
  · rfl

/-- The walk adds up the entries. -/
theorem addNodes_spec (sizes : Sizes) (ht : Threaded h spine)
    (hpos : ∀ e ∈ spine, 0 < e.tower)
    (hrows : ∀ e ∈ spine, e.node.rowInfo = none ∨ ∃ r info,
      e.node.rowInfo = some r ∧ h.rowInfo r = some info ∧ info.next = none)
    {fuel : ℕ} (hfuel : spine.length < fuel) {totalBytes : ℕ}
    (htotal : totalBytes < 2 ^ 64) :
    SkipList.addNodes sizes h fuel (spine.head?.map Entry.ref) totalBytes =
      .ok ((totalBytes + (spine.map fun e =>
        nodeBytes sizes e.node + entryRowBytes sizes h e).sum) %
          2 ^ 64) := by
  induction spine generalizing fuel totalBytes with
  | nil =>
      obtain ⟨fuel, rfl⟩ : ∃ n, fuel = n + 1 := ⟨fuel - 1, by omega⟩
      simpa [SkipList.addNodes] using (Nat.mod_eq_of_lt htotal).symm
  | cons e spine ih =>
      obtain ⟨fuel, rfl⟩ : ∃ n, fuel = n + 1 := ⟨fuel - 1, by omega⟩
      rw [List.length_cons] at hfuel
      obtain ⟨he, hpos⟩ := List.forall_mem_cons.mp hpos
      obtain ⟨hrow, hrows⟩ := List.forall_mem_cons.mp hrows
      have hnext := getNext_of_node ht.1.live
        (lt_of_lt_of_le he ht.1.tower_le)
      rw [ht.1.next 0 he, SkipList.nextAt_zero hpos] at hnext
      have hadd : SkipList.addRows sizes h (h.rowInfoCount + 1)
          e.node.rowInfo ((totalBytes + nodeBytes sizes e.node) % 2 ^ 64) =
          .ok ((totalBytes + (nodeBytes sizes e.node +
            entryRowBytes sizes h e)) % 2 ^ 64) := by
        rcases hrow with hnone | ⟨r, info, hr, hinfo, hnext⟩
        · simp [hnone, SkipList.addRows, entryRowBytes, Heap.rowOf]
        · rw [hr, addRows_row hinfo hnext, entryRowBytes, Heap.rowOf, hr,
            Option.bind_some, hinfo, Option.elim_some, Nat.mod_add_mod,
            Nat.add_assoc]
      have hnode : (((totalBytes + sizes.node) % 2 ^ 64 +
          e.node.height * sizes.sizeType) % 2 ^ 64 +
          e.node.height * sizes.pointer) % 2 ^ 64 =
          (totalBytes + nodeBytes sizes e.node) % 2 ^ 64 := by
        rw [Nat.mod_add_mod, Nat.add_assoc, Nat.mod_add_mod, nodeBytes]
        simp only [Nat.add_assoc]
      have hrest := ih ht.2 hpos hrows (show spine.length < fuel by omega)
        (Nat.mod_lt (totalBytes + (nodeBytes sizes e.node +
          entryRowBytes sizes h e)) (by decide))
      rw [List.head?_cons, Option.map_some, SkipList.addNodes,
        getHeight_of_node ht.1.live, ok_bind, getRowInfo_of_node ht.1.live,
        ok_bind, hnode, hadd, ok_bind, hnext, ok_bind, hrest,
        Nat.mod_add_mod, List.map_cons, List.sum_cons, Nat.add_assoc]

theorem RowsOwned.exists_cells (hrows : RowsOwned h spine) :
    ∃ cells : List RowInfoRef,
      (spine.map fun e => e.node.rowInfo) = cells.map some := by
  refine ⟨spine.filterMap fun e => e.node.rowInfo, ?_⟩
  rw [List.map_filterMap]
  have hsome : ∀ e ∈ spine, e.node.rowInfo.map some =
      some e.node.rowInfo := by
    intro e he
    obtain ⟨r, info, hr, -⟩ := hrows.exists_row he
    rw [hr, Option.map_some]
  rw [List.filterMap_congr hsome, List.filterMap_eq_map']

end Walk

/-! ## Well-formed lists -/

section WellFormed

variable [LinearOrder K] {sl : SkipList K D} {head : Entry K}
  {spine : List (Entry K)}

theorem WellFormed.sum_nodes (wf : WellFormed sl head spine)
    (size : SkipListNode K → ℕ) :
    ∑ a ∈ Finset.range sl.heap.nodeCount, (sl.heap.node a).elim 0 size =
      ((head :: spine).map fun e => size e.node).sum := by
  rw [sum_live_cells size wf.distinct wf.allocated ?_ wf.owned]
  · rw [List.map_map]
    refine congrArg List.sum (List.map_congr_left fun e he => ?_)
    rw [Function.comp_apply, wf.threaded.live he, Option.elim_some]
  · intro a ha
    obtain ⟨e, he, rfl⟩ := List.mem_map.mp ha
    rw [wf.threaded.live he, Option.isSome_some]

theorem WellFormed.sum_rows (wf : WellFormed sl head spine)
    (size : RowInfo D → ℕ) :
    ∑ r ∈ Finset.range sl.heap.rowInfoCount,
        (sl.heap.rowInfo r).elim 0 size =
      (spine.map fun e => (sl.heap.rowOf e.node).elim 0 size).sum := by
  obtain ⟨cells, hcells⟩ := wf.rows.exists_cells
  have hdistinct := wf.rows.distinct
  rw [hcells] at hdistinct
  rw [sum_live_cells size (hdistinct.of_map _) wf.rows.allocated ?_ ?_]
  · have hmapped := congrArg (List.map fun o : Option RowInfoRef =>
      (o.bind sl.heap.rowInfo).elim 0 size) hcells
    rw [List.map_map, List.map_map] at hmapped
    exact congrArg List.sum hmapped.symm
  · intro r hr
    have hmem : some r ∈ spine.map fun e => e.node.rowInfo :=
      hcells ▸ List.mem_map_of_mem hr
    obtain ⟨e, he, heq⟩ := List.mem_map.mp hmem
    obtain ⟨r', info, hr', hinfo, -⟩ := wf.rows.exists_row he
    obtain rfl : r' = r := Option.some.inj (hr'.symm.trans heq)
    rw [hinfo, Option.isSome_some]
  · intro r info hinfo
    have hmem := wf.rows.owned r info hinfo
    rw [hcells] at hmem
    simpa using hmem

/-- When the recorded sizes are right, and no buffer was received twice, the
entries make up all that is allocated. -/
theorem Accounts.allocatedBytes_eq [DecidableEq D] {received : List D}
    (hacc : Accounts received sl head spine) (hnodup : received.Nodup)
    {bytes : D → ℕ}
    (hsizes : ∀ b ∈ contents sl.heap spine, ∀ d, b.2.data = some d →
      b.2.size = bytes d) (sizes : Sizes) :
    allocatedBytes sizes bytes received sl.heap =
      ((head :: spine).map fun e =>
        nodeBytes sizes e.node + entryRowBytes sizes sl.heap e).sum := by
  have hbuffers : ((received.filter fun d => d ∉ sl.heap.freed).map
      bytes).sum = (spine.map fun e =>
        (sl.heap.dataOf e.node).data.elim 0 bytes).sum := by
    rw [((hacc.balanced.perm_held hnodup).map bytes).sum_eq, buffers,
      sum_filterMap, contents, List.map_map]
    rfl
  have hrow : ∀ e ∈ spine, entryRowBytes sizes sl.heap e =
      ((sl.heap.rowOf e.node).elim 0 fun _ => sizes.rowInfo) +
        (sl.heap.dataOf e.node).data.elim 0 bytes := by
    intro e he
    obtain ⟨r, info, hr, hinfo, -⟩ := hacc.rows.exists_row he
    have hsize := hsizes (e.key, sl.heap.dataOf e.node)
      (List.mem_map_of_mem he)
    rw [dataOf_of_rowInfo hr hinfo] at hsize ⊢
    rw [entryRowBytes, Heap.rowOf, hr, Option.bind_some, hinfo,
      Option.elim_some, Option.elim_some, rowBytes]
    rcases hdata : info.data with _ | d
    · simp [RowInfo.rowData, hdata]
    · simpa [RowInfo.rowData, hdata] using hsize d hdata
  have hhead : entryRowBytes sizes sl.heap head = 0 := by
    rw [entryRowBytes, Heap.rowOf, hacc.headRow]
    rfl
  rw [allocatedBytes, hacc.sum_nodes, hacc.sum_rows, hbuffers,
    List.sum_map_add, List.map_cons (f := fun e =>
      entryRowBytes sizes sl.heap e), List.sum_cons, hhead, Nat.zero_add,
    Nat.add_assoc, ← List.sum_map_add, List.map_congr_left hrow]

/-- `memoryUsageMB` reports all the memory of the list. -/
theorem Accounts.memoryUsageMB_spec [DecidableEq D] {received : List D}
    (hacc : Accounts received sl head spine) (hnodup : received.Nodup)
    {bytes : D → ℕ}
    (hsizes : ∀ b ∈ contents sl.heap spine, ∀ d, b.2.data = some d →
      b.2.size = bytes d) (sizes : Sizes) :
    sl.memoryUsageMB sizes =
      .ok (.returned (allocatedBytes sizes bytes received sl.heap % 2 ^ 64 /
        (1024 * 1024)) sl) := by
  have wf := hacc.toWellFormed
  have hlength := wf.length_lt_nodeCount
  have hpos : ∀ e ∈ head :: spine, 0 < e.tower :=
    List.forall_mem_cons.mpr ⟨wf.headTower ▸ wf.levels, wf.towers_pos⟩
  have hrows : ∀ e ∈ head :: spine, e.node.rowInfo = none ∨ ∃ r info,
      e.node.rowInfo = some r ∧ sl.heap.rowInfo r = some info ∧
        info.next = none :=
    List.forall_mem_cons.mpr
      ⟨Or.inl wf.headRow, fun e he => Or.inr (wf.rows.exists_row he)⟩
  have hwalk := addNodes_spec sizes wf.threaded hpos hrows
    (show (head :: spine).length < sl.heap.nodeCount + 1 by
      rw [List.length_cons]
      omega)
    (show 0 < 2 ^ 64 by decide)
  rw [List.head?_cons, Option.map_some, ← wf.headRef, Nat.zero_add,
    ← hacc.allocatedBytes_eq hnodup hsizes] at hwalk
  rw [SkipList.memoryUsageMB, if_neg (by simp [wf.ready]), hwalk]
  rfl

end WellFormed

end SquidDB.Core
