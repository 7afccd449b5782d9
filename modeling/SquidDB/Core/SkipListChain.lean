import SquidDB.Core.SkipListValidate

/-!
# Chains of nodes

The invariant refers to a sequence of entries.  What it says about the nodes
alone is phrased with the chains of pointers, which determine that sequence;
in particular which rows are attached to the list.
-/

namespace SquidDB.Core

open Checked

variable {K D : Type}

/-- The nodes reached from `node` along level `L`, up to a null pointer. -/
def Chain (h : Heap K D) (L : ℕ) : Option NodeRef → List NodeRef → Prop
  | node, [] => node = none
  | node, a :: nodes =>
      node = some a ∧ (∃ n, h.node a = some n ∧ L < n.height) ∧
        Chain h L (h.next a L) nodes

/-- The row is attached to a node with the key on the bottom level of the
list, and it is live. -/
def SkipList.Attached (sl : SkipList K D) (key : K) (r : RowInfoRef) : Prop :=
  ∃ head nodes a n, sl.head = some head ∧
    Chain sl.heap 0 (sl.heap.next head 0) nodes ∧ a ∈ nodes ∧
    sl.heap.node a = some n ∧ n.key = key ∧ n.rowInfo = some r ∧
    (sl.heap.rowInfo r).isSome

/-- The status of a live row. -/
def SkipList.statusOf (sl : SkipList K D) (r : RowInfoRef) : Option Status :=
  (sl.heap.rowInfo r).map RowInfo.status

theorem SkipList.statusOf_update {sl sl' : SkipList K D} {r r' : RowInfoRef}
    {v : Option (RowInfo D)}
    (hrow : sl'.heap.rowInfo = Function.update sl.heap.rowInfo r v)
    (hne : r' ≠ r) : sl'.statusOf r' = sl.statusOf r' := by
  rw [statusOf, statusOf, hrow, Function.update_of_ne hne]

/-! ## From entries to chains -/

section Chain

variable {h : Heap K D} {L : ℕ} {spine : List (Entry K)}

theorem chain_of_threaded (ht : Threaded h spine) :
    Chain h L ((Tower.nextAt Entry.tower L spine).map Entry.ref)
      ((spine.filter fun e => decide (L < e.tower)).map Entry.ref) := by
  induction spine with
  | nil => rfl
  | cons e spine ih =>
      by_cases he : L < e.tower
      · rw [Tower.nextAt_cons_of_lt he,
          List.filter_cons_of_pos (by simpa using he)]
        refine ⟨rfl, ⟨e.node, ht.1.live,
          lt_of_lt_of_le he ht.1.tower_le⟩, ?_⟩
        rw [ht.1.next L he]
        exact ih ht.2
      · rw [Tower.nextAt_cons_of_le (Nat.le_of_not_lt he),
          List.filter_cons_of_neg (by simpa using he)]
        exact ih ht.2

/-- A pointer starts one chain only. -/
theorem Chain.unique {node : Option NodeRef} {nodes nodes' : List NodeRef}
    (hc : Chain h L node nodes) (hc' : Chain h L node nodes') :
    nodes = nodes' := by
  induction nodes generalizing node nodes' with
  | nil =>
      cases nodes' with
      | nil => rfl
      | cons b nodes' => cases hc.symm.trans hc'.1
  | cons a nodes ih =>
      cases nodes' with
      | nil => cases hc'.symm.trans hc.1
      | cons b nodes' =>
          obtain rfl : a = b := Option.some.inj (hc.1.symm.trans hc'.1)
          rw [ih hc.2.2 hc'.2.2]

end Chain

section WellFormed

variable [LinearOrder K] {sl : SkipList K D} {head : Entry K}
  {spine : List (Entry K)}

namespace WellFormed

/-- The bottom level runs through all entries. -/
theorem chain_bottom (wf : WellFormed sl head spine) :
    Chain sl.heap 0 (sl.heap.next head.ref 0) (spine.map Entry.ref) := by
  have hall : spine.filter (fun e => decide (0 < e.tower)) = spine :=
    List.filter_eq_self.mpr fun e he => decide_eq_true (wf.towers_pos e he)
  have hchain := chain_of_threaded (L := 0) wf.threaded.2
  rwa [hall, ← wf.threaded.1.next 0 (wf.headTower ▸ wf.levels)] at hchain

theorem attached_iff (wf : WellFormed sl head spine) {key : K}
    {r : RowInfoRef} :
    sl.Attached key r ↔
      ∃ e ∈ spine, e.key = key ∧ e.node.rowInfo = some r := by
  constructor
  · rintro ⟨head', nodes, a, n, hhead, hchain, ha, hn, hkey, hr, -⟩
    rw [wf.headRef, Option.some.injEq] at hhead
    subst hhead
    rw [hchain.unique wf.chain_bottom] at ha
    obtain ⟨e, he, rfl⟩ := List.mem_map.mp ha
    rw [wf.threaded.live (List.mem_cons_of_mem _ he), Option.some.injEq] at hn
    subst hn
    exact ⟨e, he, hkey, hr⟩
  · rintro ⟨e, he, hkey, hr⟩
    obtain ⟨r', info, hr', hinfo, -⟩ := wf.rows.exists_row he
    rw [hr, Option.some.injEq] at hr'
    subst hr'
    exact ⟨head.ref, _, e.ref, e.node, wf.headRef, wf.chain_bottom,
      List.mem_map_of_mem he,
      wf.threaded.live (List.mem_cons_of_mem _ he), hkey, hr, by simp [hinfo]⟩

end WellFormed

end WellFormed

/-- An attached row is live. -/
theorem SkipList.Attached.live {sl : SkipList K D} {key : K} {r : RowInfoRef}
    (h : sl.Attached key r) : (sl.heap.rowInfo r).isSome := by
  obtain ⟨-, -, -, -, -, -, -, -, -, -, hlive⟩ := h
  exact hlive

end SquidDB.Core
