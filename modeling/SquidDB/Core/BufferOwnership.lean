import SquidDB.Lib.Ledger
import SquidDB.Core.SkipListRefinement

/-!
# Who owns a row buffer

A call of `insert` or `update` that returns true takes its buffer over; the
buffer stays with one node until `update` replaces it, `remove` deletes the
node, or the destructor runs, and is freed then.  Any other call leaves the
buffer with the caller.
-/

namespace SquidDB.Core

open Checked Heap Ledger

variable {K D : Type}

/-! ## Held and freed buffers -/

namespace Heap

/-- The row infos reached from a pointer. -/
inductive Versions (h : Heap K D) : Option RowInfoRef → RowInfo D → Prop where
  | newest {r : RowInfoRef} {info : RowInfo D}
      (hinfo : h.rowInfo r = some info) : Versions h (some r) info
  | older {r : RowInfoRef} {info version : RowInfo D}
      (hinfo : h.rowInfo r = some info)
      (hversion : Versions h info.next version) :
      Versions h (some r) version

/-- A live node holds the buffer in one of its row infos. -/
def Holds (h : Heap K D) (a : NodeRef) (d : D) : Prop :=
  ∃ n version, h.node a = some n ∧ h.Versions n.rowInfo version ∧
    version.data = some d

/-- Held by exactly one node and not freed. -/
def Keeps (h : Heap K D) (d : D) : Prop :=
  (∃! a, h.Holds a d) ∧ d ∉ h.freed

/-- Freed exactly once and held by no node. -/
def LetGo [DecidableEq D] (h : Heap K D) (d : D) : Prop :=
  (∀ a, ¬ h.Holds a d) ∧ h.freed.count d = 1

/-- Neither held nor freed. -/
def Untouched (h : Heap K D) (d : D) : Prop :=
  (∀ a, ¬ h.Holds a d) ∧ d ∉ h.freed

theorem not_versions_none {h : Heap K D} {version : RowInfo D} :
    ¬ h.Versions none version := by
  intro hversion
  cases hversion

theorem versions_iff {h : Heap K D} {r : RowInfoRef} {info : RowInfo D}
    (hinfo : h.rowInfo r = some info) (hnext : info.next = none)
    {version : RowInfo D} : h.Versions (some r) version ↔ version = info := by
  constructor
  · intro hversion
    cases hversion with
    | newest hinfo' => exact Option.some.inj (hinfo'.symm.trans hinfo)
    | older hinfo' holder =>
        obtain rfl := Option.some.inj (hinfo'.symm.trans hinfo)
        rw [hnext] at holder
        exact absurd holder not_versions_none
  · rintro rfl
    exact .newest hinfo

end Heap

/-- The buffers of a list of bindings. -/
def buffers (entries : List (K × RowData D)) : List D :=
  entries.filterMap fun b => b.2.data

@[simp] theorem buffers_nil : buffers ([] : List (K × RowData D)) = [] := rfl

@[simp] theorem buffers_cons (b : K × RowData D)
    (entries : List (K × RowData D)) :
    buffers (b :: entries) = b.2.data.toList ++ buffers entries := by
  rcases hdata : b.2.data with _ | d
  · simp [buffers, hdata]
  · simp [buffers, hdata]

@[simp] theorem buffers_append (entries entries' : List (K × RowData D)) :
    buffers (entries ++ entries') = buffers entries ++ buffers entries' :=
  List.filterMap_append

theorem mem_buffers_contents {h : Heap K D} {spine : List (Entry K)} {d : D} :
    d ∈ buffers (contents h spine) ↔
      ∃ e ∈ spine, (h.dataOf e.node).data = some d := by
  simp [buffers, contents]

theorem eq_of_buffer {h : Heap K D} {spine : List (Entry K)}
    (hnodup : (buffers (contents h spine)).Nodup) {e e' : Entry K}
    (he : e ∈ spine) (he' : e' ∈ spine) {d : D}
    (hd : (h.dataOf e.node).data = some d)
    (hd' : (h.dataOf e'.node).data = some d) : e = e' := by
  obtain ⟨lo, hi, rfl⟩ := List.append_of_mem he
  have hperm : (buffers (contents h (lo ++ e :: hi))).Perm
      (d :: buffers (contents h (lo ++ hi))) := by
    simp [hd]
  have hnot := (List.nodup_cons.mp (hperm.nodup_iff.mp hnodup)).1
  by_contra hne
  refine hnot (mem_buffers_contents.mpr ⟨e', ?_, hd'⟩)
  have hmem := List.perm_middle.mem_iff.mp he'
  exact List.mem_of_ne_of_mem (Ne.symm hne) hmem

section Invariant

variable [LinearOrder K] {sl : SkipList K D} {head : Entry K}
  {spine : List (Entry K)}

theorem WellFormed.contents_eq {head' : Entry K} {spine' : List (Entry K)}
    (wf : WellFormed sl head spine) (wf' : WellFormed sl head' spine') :
    contents sl.heap spine = contents sl.heap spine' := by
  have hread : ∀ {head spine}, WellFormed sl head spine →
      (contents sl.heap spine).map some = (spine.map Entry.ref).map fun a =>
        (sl.heap.node a).map fun n => (n.key, sl.heap.dataOf n) := by
    intro head spine wf
    rw [contents, List.map_map, List.map_map]
    refine List.map_congr_left fun e he => ?_
    simp [wf.threaded.live (List.mem_cons_of_mem _ he)]
  have hhead : head.ref = head'.ref :=
    Option.some.inj (wf.headRef.symm.trans wf'.headRef)
  have hrefs : spine.map Entry.ref = spine'.map Entry.ref :=
    wf.chain_bottom.unique (hhead ▸ wf'.chain_bottom)
  apply List.map_injective_iff.mpr (Option.some_injective _)
  rw [hread wf, hread wf', hrefs]

/-- The nodes that hold a buffer are those of the entries. -/
theorem WellFormed.holds_iff (wf : WellFormed sl head spine) {a : NodeRef}
    {d : D} : sl.heap.Holds a d ↔
      ∃ e ∈ spine, e.ref = a ∧ (sl.heap.dataOf e.node).data = some d := by
  constructor
  · rintro ⟨n, version, hn, hversion, hdata⟩
    obtain ⟨e, he, rfl⟩ := List.mem_map.mp (wf.owned a n hn)
    have hnode := wf.threaded.live he
    obtain rfl := Option.some.inj (hn.symm.trans hnode)
    rcases List.mem_cons.mp he with rfl | he
    · rw [wf.headRow] at hversion
      exact absurd hversion not_versions_none
    · obtain ⟨r, info, hr, hinfo, hnext⟩ := wf.rows.exists_row he
      rw [hr, versions_iff hinfo hnext] at hversion
      refine ⟨e, he, rfl, ?_⟩
      rw [dataOf_of_rowInfo hr hinfo, ← hversion]
      exact hdata
  · rintro ⟨e, he, rfl, hdata⟩
    obtain ⟨r, info, hr, hinfo, hnext⟩ := wf.rows.exists_row he
    refine ⟨e.node, info, wf.threaded.live (List.mem_cons_of_mem _ he), ?_,
      ?_⟩
    · rw [hr, versions_iff hinfo hnext]
    · rwa [dataOf_of_rowInfo hr hinfo] at hdata

end Invariant

/-! ## The destructor -/

/-- The entries can be deleted one after another along level 0. -/
structure Disposable (h : Heap K D) (l : List (Entry K)) : Prop where
  threaded : Threaded h l
  towers : ∀ e ∈ l, 0 < e.tower
  distinct : (l.map Entry.ref).Nodup
  live : ∀ e ∈ l, ∀ r, e.node.rowInfo = some r →
    ∃ info, h.rowInfo r = some info ∧ info.next = none
  unshared : l.Pairwise fun x y =>
    ∀ r, x.node.rowInfo = some r → y.node.rowInfo ≠ some r
  allocated : ∀ r, h.rowInfoCount ≤ r → h.rowInfo r = none

/-- The memory after the destructor has deleted an entry. -/
def disposedHeap (h : Heap K D) (e : Entry K) : Heap K D :=
  { h with
    node := Function.update h.node e.ref none
    rowInfo := fun r =>
      if e.node.rowInfo = some r then none else h.rowInfo r
    freed := h.freed ++ (h.dataOf e.node).data.toList }

theorem disposedHeap_of_none {h : Heap K D} {e : Entry K}
    (hr : e.node.rowInfo = none) :
    disposedHeap h e = h.putNode e.ref none := by
  simp [disposedHeap, putNode, hr, Heap.dataOf, Heap.rowOf]

theorem disposedHeap_of_some {h : Heap K D} {e : Entry K} {r : RowInfoRef}
    {info : RowInfo D} (hr : e.node.rowInfo = some r)
    (hinfo : h.rowInfo r = some info) :
    disposedHeap h e = deletedHeap h e.ref r info := by
  have hrow : (fun r' => if e.node.rowInfo = some r' then none
      else h.rowInfo r') = Function.update h.rowInfo r none := by
    funext r'
    by_cases hrr : r' = r
    · simp [hr, hrr]
    · simp [hr, hrr, Ne.symm hrr]
  rw [disposedHeap, hrow, dataOf_of_rowInfo hr hinfo]
  rfl

namespace Disposable

variable {h : Heap K D} {e : Entry K} {l : List (Entry K)}

theorem deleteNodes_succ (hl : Disposable h (e :: l)) (fuel : ℕ) :
    SkipList.deleteNodes (fuel + 1) (some e.ref) h =
      SkipList.deleteNodes fuel (l.head?.map Entry.ref)
        (disposedHeap h e) := by
  have hlive := hl.threaded.1.live
  have htower := hl.towers e List.mem_cons_self
  have hheight : 0 < e.node.height :=
    htower.trans_le hl.threaded.1.tower_le
  have hnext : h.getNext (some e.ref) 0 =
      .ok (l.head?.map Entry.ref) := by
    rw [getNext_of_node hlive hheight, hl.threaded.1.next 0 htower,
      SkipList.nextAt_zero fun x hx => hl.towers x (List.mem_cons_of_mem _ hx)]
  rcases hr : e.node.rowInfo with _ | r
  · have hdelete : (h.putNode e.ref (some { e.node with rowInfo := none })
        ).deleteNode (some e.ref) = .ok (disposedHeap h e) := by
      rw [deleteNode_of_node (Function.update_self _ _ _),
        disposedHeap_of_none hr]
      simp [putNode]
    rw [SkipList.deleteNodes, hnext, ok_bind, getRowInfo_of_node hlive,
      ok_bind, setRowInfo_of_node hlive, ok_bind, hr,
      SkipList.deleteRowInfos, ok_bind, hdelete, ok_bind]
  · obtain ⟨info, hinfo, hnone⟩ := hl.live e List.mem_cons_self r hr
    have hcount : 0 < h.rowInfoCount := by
      by_contra hzero
      have hgone := hl.allocated r (by omega)
      rw [hinfo] at hgone
      cases hgone
    have hdelete := deleteEntry hlive hr hinfo hnone hcount
    obtain ⟨p, hrow, hdelete⟩ := bind_eq_ok.mp hdelete
    obtain ⟨h₁, hset, hdelete⟩ := bind_eq_ok.mp hdelete
    obtain ⟨h₂, hrows, hdelete⟩ := bind_eq_ok.mp hdelete
    rw [SkipList.deleteNodes, hnext, ok_bind, hrow, ok_bind, hset, ok_bind,
      hrows, ok_bind, hdelete, ok_bind, disposedHeap_of_some hr hinfo]

theorem rowInfo_disposedHeap (hl : Disposable h (e :: l)) {x : Entry K}
    (hx : x ∈ l) {r : RowInfoRef} (hr : x.node.rowInfo = some r) :
    (disposedHeap h e).rowInfo r = h.rowInfo r := by
  refine if_neg fun he => ?_
  exact (List.pairwise_cons.mp hl.unshared).1 x hx r he hr

/-- The entries behind can still be deleted. -/
theorem tail (hl : Disposable h (e :: l)) :
    Disposable (disposedHeap h e) l := by
  have hdistinct := List.nodup_cons.mp hl.distinct
  refine ⟨hl.threaded.2.congr ?_ (fun _ _ => rfl) fun _ _ => rfl,
    fun x hx => hl.towers x (List.mem_cons_of_mem _ hx), hdistinct.2, ?_,
    (List.pairwise_cons.mp hl.unshared).2, ?_⟩
  · intro x hx
    refine Function.update_of_ne ?_ _ _
    rintro heq
    exact hdistinct.1 (heq ▸ List.mem_map_of_mem hx)
  · intro x hx r hr
    rw [hl.rowInfo_disposedHeap hx hr]
    exact hl.live x (List.mem_cons_of_mem _ hx) r hr
  · intro r hr
    have hnone := hl.allocated r hr
    simp [disposedHeap, hnone]

theorem contents_disposedHeap (hl : Disposable h (e :: l)) :
    contents (disposedHeap h e) l = contents h l := by
  apply contents_congr
  intro x hx
  rcases hr : x.node.rowInfo with _ | r
  · simp [Heap.rowOf, hr]
  · simp [Heap.rowOf, hr, hl.rowInfo_disposedHeap hx hr]

/-- The destructor deletes the nodes of all entries and frees their buffers in
order. -/
theorem deleteNodes_spec (hl : Disposable h l) {fuel : ℕ}
    (hfuel : l.length ≤ fuel) :
    ∃ h', SkipList.deleteNodes fuel (l.head?.map Entry.ref) h = .ok h' ∧
      (∀ a, h'.node a = if a ∈ l.map Entry.ref then none else h.node a) ∧
      h'.freed = h.freed ++ buffers (contents h l) := by
  induction l generalizing h fuel with
  | nil =>
      refine ⟨h, ?_, by simp, by simp⟩
      cases fuel <;> rfl
  | cons e l ih =>
      obtain ⟨fuel, rfl⟩ := Nat.exists_eq_add_of_le' hfuel
      rw [List.length_cons, ← Nat.add_assoc]
      obtain ⟨h', hrun, hnode, hfreed⟩ := ih hl.tail (Nat.le_add_left _ fuel)
      refine ⟨h', (hl.deleteNodes_succ _).trans hrun, fun a => ?_, ?_⟩
      · rw [hnode, List.map_cons]
        by_cases ha : a = e.ref
        · simp [ha, disposedHeap]
        · simp [ha, disposedHeap]
      · rw [hfreed, hl.contents_disposedHeap, contents_cons, buffers_cons,
          ← List.append_assoc]
        rfl

end Disposable

section Destructor

variable [LinearOrder K] {sl : SkipList K D} {head : Entry K}
  {spine : List (Entry K)}

theorem WellFormed.disposable (wf : WellFormed sl head spine) :
    Disposable sl.heap (head :: spine) where
  threaded := wf.threaded
  towers := by
    refine List.forall_mem_cons.mpr ⟨?_, wf.towers_pos⟩
    rw [wf.headTower]
    exact wf.levels
  distinct := wf.distinct
  live := by
    refine List.forall_mem_cons.mpr ⟨?_, fun e he r hr => ?_⟩
    · intro r hr
      rw [wf.headRow] at hr
      cases hr
    · obtain ⟨r', info, hr', hinfo, hnext⟩ := wf.rows.exists_row he
      obtain rfl := Option.some.inj (hr.symm.trans hr')
      exact ⟨info, hinfo, hnext⟩
  unshared := by
    refine List.pairwise_cons.mpr ⟨fun e _ r hr => ?_, ?_⟩
    · rw [wf.headRow] at hr
      cases hr
    · have hdistinct := List.pairwise_map.mp wf.rows.distinct
      exact hdistinct.imp fun hne r hx hy => hne (hx.trans hy.symm)
  allocated := wf.rows.allocated

/-- The destructor leaves no node, and frees the buffers the list holds. -/
theorem WellFormed.destroy_spec (wf : WellFormed sl head spine) :
    ∃ sl', sl.destroy = .ok sl' ∧ (∀ a, sl'.heap.node a = none) ∧
      sl'.heap.freed = sl.heap.freed ++ buffers (contents sl.heap spine) := by
  have hfuel : (head :: spine).length ≤ sl.heap.nodeCount + 1 := by
    have hlength := wf.length_lt_nodeCount
    rw [List.length_cons]
    omega
  obtain ⟨h, hrun, hnode, hfreed⟩ := wf.disposable.deleteNodes_spec hfuel
  rw [List.head?_cons, Option.map_some, ← wf.headRef] at hrun
  refine ⟨_, by rw [SkipList.destroy, hrun]; rfl, fun a => ?_, ?_⟩
  · change h.node a = none
    rw [hnode]
    split
    · rfl
    · rename_i hnot
      by_contra hlive
      obtain ⟨n, hn⟩ := Option.ne_none_iff_exists'.mp hlive
      exact hnot (wf.owned a n hn)
  · change h.freed = _
    have hhead : (sl.heap.dataOf head.node).data = none := by
      simp [Heap.dataOf, Heap.rowOf, wf.headRow]
    simp [hfreed, hhead]

end Destructor

/-! ## The books of a list -/

section Books

variable [LinearOrder K] {sl : SkipList K D} {head : Entry K}
  {spine : List (Entry K)} {received : List D}

theorem WellFormed.keeps_or_letGo [DecidableEq D]
    (wf : WellFormed sl head spine)
    (hbooks : Balanced received (buffers (contents sl.heap spine))
      sl.heap.freed)
    (hnodup : received.Nodup) {d : D} (hd : d ∈ received) :
    sl.heap.Keeps d ∨ sl.heap.LetGo d := by
  rcases hbooks.held_or_released hnodup hd with
    ⟨hheld, hfreed⟩ | ⟨hheld, hfreed⟩
  · refine .inl ⟨?_, hfreed⟩
    obtain ⟨e, he, hdata⟩ := mem_buffers_contents.mp hheld
    refine ⟨e.ref, wf.holds_iff.mpr ⟨e, he, rfl, hdata⟩, fun a ha => ?_⟩
    obtain ⟨e', he', rfl, hdata'⟩ := wf.holds_iff.mp ha
    rw [eq_of_buffer (hbooks.nodup_held hnodup) he he' hdata hdata']
  · refine .inr ⟨fun a ha => hheld ?_, hfreed⟩
    obtain ⟨e, he, -, hdata⟩ := wf.holds_iff.mp ha
    exact mem_buffers_contents.mpr ⟨e, he, hdata⟩

theorem WellFormed.untouched (wf : WellFormed sl head spine)
    (hbooks : Balanced received (buffers (contents sl.heap spine))
      sl.heap.freed) {d : D} (hd : d ∉ received) : sl.heap.Untouched d := by
  obtain ⟨hheld, hfreed⟩ := hbooks.of_not_mem hd
  refine ⟨fun a ha => hheld ?_, hfreed⟩
  obtain ⟨e, he, -, hdata⟩ := wf.holds_iff.mp ha
  exact mem_buffers_contents.mpr ⟨e, he, hdata⟩

theorem WellFormed.destroy_balanced [DecidableEq D]
    (wf : WellFormed sl head spine)
    (hbooks : Balanced received (buffers (contents sl.heap spine))
      sl.heap.freed) (hnodup : received.Nodup) :
    ∃ sl', sl.destroy = .ok sl' ∧
      (∀ d ∈ received, sl'.heap.LetGo d) ∧
      ∀ d, d ∉ received → sl'.heap.Untouched d := by
  obtain ⟨sl', hrun, hnode, hfreed⟩ := wf.destroy_spec
  have hbalanced := hbooks.releaseAll
  rw [← hfreed] at hbalanced
  have hnone : ∀ a d, ¬ sl'.heap.Holds a d := by
    rintro a d ⟨n, version, hn, -, -⟩
    rw [hnode] at hn
    cases hn
  refine ⟨sl', hrun, fun d hd => ⟨fun a => hnone a d, ?_⟩,
    fun d hd => ⟨fun a => hnone a d, (hbalanced.of_not_mem hd).2⟩⟩
  rcases hbalanced.held_or_released hnodup hd with ⟨hheld, -⟩ | ⟨-, hcount⟩
  · cases hheld
  · exact hcount

end Books

/-! ## One call -/

/-- The buffer the caller passes. -/
def Call.buffer : Call K D → Option D
  | .insert _ data _ _ _ _ | .update _ data _ _ => data
  | .remove _ => none

/-- The binding the call makes when it returns true. -/
def Call.binding : Call K D → Option (K × RowData D)
  | .insert key data size _ _ _ | .update key data size _ =>
      some (key, ⟨data, size⟩)
  | .remove _ => none

theorem mem_mapCall [LinearOrder K] {maxNodeHeight : ℕ}
    {m : SortedMap K (RowData D)} {c : Call K D} {b : K × RowData D}
    (hb : b ∈ (mapCall maxNodeHeight m c).2.entries) :
    b ∈ m.entries ∨ c.binding = some b ∧
      (mapCall maxNodeHeight m c).1 = .ok true := by
  have hput : ∀ {key : K} {data : RowData D}, b ∈ (m.put key data).entries →
      b ∈ m.entries ∨ (key, data) = b := by
    intro key data hb
    rcases SortedMap.mem_entries_put.mp hb with rfl | ⟨-, hb⟩
    · exact .inr rfl
    · exact .inl hb
  cases c with
  | insert key data size nodeHeight draw transaction =>
      simp only [mapCall] at hb ⊢
      split at hb
      · exact .inl hb
      · split at hb
        · exact .inl hb
        · next hhigh hnone =>
          rw [if_neg hhigh, if_neg hnone]
          exact (hput hb).imp_right fun heq => ⟨congrArg some heq, rfl⟩
  | remove key =>
      simp only [mapCall] at hb
      split at hb
      · exact .inl (SortedMap.mem_entries_erase.mp hb).2
      · exact .inl hb
  | update key data size transaction =>
      simp only [mapCall] at hb ⊢
      split at hb
      · next hsome =>
        rw [if_pos hsome]
        exact (hput hb).imp_right fun heq => ⟨congrArg some heq, rfl⟩
      · exact .inl hb

section Calls

variable [LinearOrder K] {sl : SkipList K D} {head e : Entry K}
  {spine lo hi : List (Entry K)} {received : List D}

/-- The buffers the list was handed are those its entries hold and those it
has freed. -/
structure Accounts (received : List D) (sl : SkipList K D) (head : Entry K)
    (spine : List (Entry K)) : Prop
    extends PrimaryWellFormed sl head spine where
  balanced : Balanced received (buffers (contents sl.heap spine))
    sl.heap.freed

namespace Accounts

/-- `insert` puts the buffer into a new node. -/
theorem insert (hacc : Accounts received sl head (lo ++ hi)) {key : K}
    (hlo : ∀ x ∈ lo, x.key < key) (hhi : ∀ x ∈ hi, key < x.key)
    (ndebug : Bool) (data : Option D) (size : ℕ) {nodeHeight : ℕ}
    (hheight : nodeHeight ≤ sl.maxNodeHeight) (draw : ℕ → ℕ)
    (transaction : Option Transaction) :
    ∃ sl' spine', sl.call ndebug
        (.insert key data size nodeHeight draw transaction) =
        .ok (.returned true sl') ∧
      Accounts (received ++ data.toList) sl' head spine' := by
  obtain ⟨sl', hrun, wf', -, hrow, hfreed⟩ :=
    hacc.toPrimaryWellFormed.insert_spec hlo hhi ndebug data size hheight draw
  refine ⟨sl', _, by rw [SkipList.call, hrun]; rfl, wf', ?_⟩
  have hbalanced := hacc.balanced
  rw [contents_append, buffers_append] at hbalanced
  rw [contents_insert hacc.toWellFormed hrow, hfreed, buffers_append,
    buffers_cons]
  exact hbalanced.receive data.toList

/-- `remove` frees the buffer of the node it deletes. -/
theorem remove (hacc : Accounts received sl head (lo ++ e :: hi))
    (ndebug : Bool) :
    ∃ sl' spine', sl.call ndebug (.remove e.key) =
        .ok (.returned true sl') ∧
      Accounts received sl' head spine' := by
  obtain ⟨sl', r, info, hr, hinfo, hrun, wf', -, hrow, hfreed⟩ :=
    hacc.toPrimaryWellFormed.remove_spec ndebug
  refine ⟨sl', _, hrun, wf', ?_⟩
  have hbalanced := hacc.balanced
  rw [contents_append, contents_cons, buffers_append, buffers_cons,
    dataOf_of_rowInfo hr hinfo] at hbalanced
  rw [hacc.rows.contents_update hr hrow _ fun x hx => hx, hfreed,
    contents_append, buffers_append]
  exact hbalanced.release

/-- `update` frees the buffer it replaces. -/
theorem update (hacc : Accounts received sl head (lo ++ e :: hi))
    (ndebug : Bool) (data : Option D) (size : ℕ)
    (transaction : Option Transaction) :
    ∃ sl' spine', sl.call ndebug (.update e.key data size transaction) =
        .ok (.returned true sl') ∧
      Accounts (received ++ data.toList) sl' head spine' := by
  obtain ⟨r, info, hr, hinfo, hrun, wf'⟩ :=
    hacc.toPrimaryWellFormed.update_spec ndebug data size
  have hrow : (updatedHeap sl.heap r info data size).rowInfo =
      Function.update sl.heap.rowInfo r
        (some { info with data := data, size := size }) := rfl
  have hinfo' : (updatedHeap sl.heap r info data size).rowInfo r =
      some { info with data := data, size := size } := by
    simp [hrow]
  have hothers := hacc.rows.contents_update hr hrow
  refine ⟨_, _, by rw [SkipList.call, hrun]; rfl, wf', ?_⟩
  have hbalanced := hacc.balanced
  rw [contents_append, contents_cons, buffers_append, buffers_cons,
    dataOf_of_rowInfo hr hinfo] at hbalanced
  rw [contents_append, contents_cons, buffers_append, buffers_cons,
    dataOf_of_rowInfo hr hinfo',
    hothers lo fun x hx => List.mem_append_left _ hx,
    hothers hi fun x hx => List.mem_append_right _ hx]
  exact hbalanced.exchange data.toList

/-- A call takes the buffer over and returns true, or leaves the list
alone. -/
theorem call (hacc : Accounts received sl head spine) (ndebug : Bool)
    (c : Call K D) :
    ∃ o, sl.call ndebug c = .ok o ∧
      (o.result = .ok true → ∃ spine',
        Accounts (received ++ c.buffer.toList) o.state head spine') ∧
      (o.result ≠ .ok true → o.state = sl) := by
  obtain ⟨m, hm⟩ : ∃ m : SortedMap K (RowData D),
      contents sl.heap spine = m.entries :=
    ⟨⟨_, List.pairwise_map.mpr hacc.strict⟩, rfl⟩
  have hrep : Represents sl.maxNodeHeight sl m :=
    ⟨head, spine, hacc.toPrimaryWellFormed, hm, rfl⟩
  obtain ⟨o, hrun, hresult, -, hsame⟩ := call_simulates ndebug hrep c
  refine ⟨o, hrun, fun htrue => ?_, hsame⟩
  have hof : ∀ {sl' : SkipList K D} {spine' : List (Entry K)},
      sl.call ndebug c = .ok (.returned true sl') →
      Accounts (received ++ c.buffer.toList) sl' head spine' →
      ∃ spine', Accounts (received ++ c.buffer.toList) o.state head
        spine' := by
    intro sl' spine' hcall hacc'
    obtain rfl := Except.ok.inj (hrun.symm.trans hcall)
    exact ⟨spine', hacc'⟩
  rw [hresult] at htrue
  cases c with
  | insert key data size nodeHeight draw transaction =>
      have hheight : nodeHeight ≤ sl.maxNodeHeight := by
        by_contra hhigh
        simp [mapCall, Nat.lt_of_not_le hhigh] at htrue
      rcases hacc.cut key with
        ⟨lo, hi, rfl, hlo, hhi⟩ | ⟨lo, e, hi, rfl, rfl⟩
      · obtain ⟨sl', spine', hcall, hacc'⟩ := hacc.insert hlo hhi ndebug data
          size hheight draw transaction
        exact hof hcall hacc'
      · simp [mapCall, Nat.not_lt.mpr hheight, lookup_present hm] at htrue
  | remove key =>
      rcases hacc.cut key with
        ⟨lo, hi, rfl, hlo, hhi⟩ | ⟨lo, e, hi, rfl, rfl⟩
      · simp [mapCall, lookup_absent hm hlo hhi] at htrue
      · obtain ⟨sl', spine', hcall, hacc'⟩ := hacc.remove ndebug
        rw [← List.append_nil received] at hacc'
        exact hof hcall hacc'
  | update key data size transaction =>
      rcases hacc.cut key with
        ⟨lo, hi, rfl, hlo, hhi⟩ | ⟨lo, e, hi, rfl, rfl⟩
      · simp [mapCall, lookup_absent hm hlo hhi] at htrue
      · obtain ⟨sl', spine', hcall, hacc'⟩ := hacc.update ndebug data size
          transaction
        exact hof hcall hacc'

/-- The buffers held are those the list binds. -/
theorem balanced_of_represents (hacc : Accounts received sl head spine)
    {maxNodeHeight : ℕ} {m : SortedMap K (RowData D)}
    (hrep : Represents maxNodeHeight sl m) :
    Balanced received (buffers m.entries) sl.heap.freed := by
  obtain ⟨head', spine', wf, hm, -⟩ := hrep
  rw [← hm, wf.toWellFormed.contents_eq hacc.toWellFormed]
  exact hacc.balanced

end Accounts

end Calls

/-! ## Runs -/

/-- A primary list whose `initialize` has been called, or has not, or has
thrown. -/
def SkipList.Fresh [Inhabited K] (ndebug : Bool) (sl : SkipList K D) : Prop :=
  ∃ maxNodeHeight, sl = SkipList.new true maxNodeHeight ∨
    (SkipList.new true maxNodeHeight).initializeList ndebug =
      .ok (.returned () sl)

/-- A list with the buffers passed to calls that have returned true, and those
passed to the other calls. -/
structure Custody (K D : Type) where
  list : SkipList K D
  accepted : List D
  refused : List D

namespace Custody

/-- Before the first call. -/
def initial (sl : SkipList K D) : Custody K D := ⟨sl, [], []⟩

variable [LinearOrder K]

/-- A call on the list, with its result noted. -/
def step (ndebug : Bool) (s : Custody K D) (c : Call K D) :
    Option (Custody K D) :=
  (s.list.call ndebug c).toOption.map fun o =>
    if o.result = .ok true then
      ⟨o.state, s.accepted ++ c.buffer.toList, s.refused⟩
    else ⟨o.state, s.accepted, s.refused ++ c.buffer.toList⟩

end Custody

/-! ### Lists that keep books -/

section Books

variable [LinearOrder K]

/-- The call takes its buffer over and returns true; `books` are in order
behind it. -/
def Takes (books : List D → SkipList K D → Entry K → List (Entry K) → Prop)
    (ndebug : Bool) (received : List D) (sl : SkipList K D) (c : Call K D) :
    Prop :=
  ∃ sl' head spine, sl.call ndebug c = .ok (.returned true sl') ∧
    books (received ++ c.buffer.toList) sl' head spine

/-- The call faults, which `fails` excuses, takes its buffer over, or leaves
the list alone. -/
def Settles (books : List D → SkipList K D → Entry K → List (Entry K) → Prop)
    (fails : Prop) (ndebug : Bool) (received : List D) (sl : SkipList K D)
    (c : Call K D) : Prop :=
  (fails ∧ ∃ fault, sl.call ndebug c = .error fault) ∨
    Takes books ndebug received sl c ∨
    ∃ o, sl.call ndebug c = .ok o ∧ o.result ≠ .ok true ∧ o.state = sl

theorem Accounts.settles {received : List D} {sl : SkipList K D}
    {head : Entry K} {spine : List (Entry K)}
    (hacc : Accounts received sl head spine) (ndebug : Bool) (c : Call K D) :
    Settles Accounts False ndebug received sl c := by
  obtain ⟨o, hrun, htrue, hfalse⟩ := hacc.call ndebug c
  by_cases hresult : o.result = .ok true
  · obtain ⟨spine', hacc'⟩ := htrue hresult
    rcases o with ⟨result, sl'⟩ | ⟨message, sl'⟩
    · obtain rfl := Except.ok.inj hresult
      exact .inr (.inl ⟨sl', head, spine', hrun, hacc'⟩)
    · cases hresult
  · exact .inr (.inr ⟨o, hrun, hresult, hfalse hresult⟩)

theorem call_new (primaryIndex ndebug : Bool) (maxNodeHeight : ℕ)
    (c : Call K D) :
    ∃ message, (SkipList.new primaryIndex maxNodeHeight).call ndebug c =
      .ok (.thrown message (SkipList.new primaryIndex maxNodeHeight)) := by
  cases c with
  | insert key data size nodeHeight draw transaction => exact ⟨_, rfl⟩
  | remove key => exact ⟨_, rfl⟩
  | update key data size transaction => exact ⟨_, rfl⟩

namespace Custody

variable {books : List D → SkipList K D → Entry K → List (Entry K) → Prop}
  {fails : Prop} {primaryIndex ndebug : Bool} {s : Custody K D}

/-- Either the books are in order, or the list was never initialized and has
taken nothing. -/
def Sound (books : List D → SkipList K D → Entry K → List (Entry K) → Prop)
    (primaryIndex : Bool) (s : Custody K D) : Prop :=
  (∃ head spine, books s.accepted s.list head spine) ∨
    ∃ maxNodeHeight, s.list = SkipList.new primaryIndex maxNodeHeight ∧
      s.accepted = []

omit [LinearOrder K] in
theorem sound_initial [Inhabited K] {sl : SkipList K D} {maxNodeHeight : ℕ}
    (hbooks : ∀ maxNodeHeight, 0 < maxNodeHeight → ∃ head, books []
      (initialList primaryIndex maxNodeHeight) head [])
    (hfresh : sl = SkipList.new primaryIndex maxNodeHeight ∨
      (SkipList.new primaryIndex maxNodeHeight).initializeList ndebug =
        .ok (.returned () sl)) :
    (initial sl).Sound books primaryIndex := by
  rcases hfresh with hnew | hinit
  · exact .inr ⟨maxNodeHeight, hnew, rfl⟩
  · rcases Nat.eq_zero_or_pos maxNodeHeight with rfl | hmax
    · simp [SkipList.initializeList, SkipList.new] at hinit
    · rw [initializeList_spec ndebug primaryIndex hmax] at hinit
      cases hinit
      obtain ⟨head, hbooks⟩ := hbooks maxNodeHeight hmax
      exact .inl ⟨head, [], hbooks⟩

variable (hcall : ∀ {received sl head spine},
  books received sl head spine → ∀ c, Settles books fails ndebug received sl c)
include hcall

/-- A call faults, or its buffer is accepted or refused. -/
theorem Sound.step (hs : s.Sound books primaryIndex) (c : Call K D) :
    (fails ∧ step ndebug s c = none) ∨
      ∃ s', step ndebug s c = some s' ∧ s'.Sound books primaryIndex ∧
        (s'.accepted ++ s'.refused).Perm
          (s.accepted ++ s.refused ++ c.buffer.toList) := by
  rcases hs with ⟨head, spine, hbooks⟩ | ⟨maxNodeHeight, hnew, hnone⟩
  · rcases hcall hbooks c with
      ⟨hfails, fault, hrun⟩ | ⟨sl', head', spine', hrun, hbooks'⟩ |
        ⟨o, hrun, hresult, hsame⟩
    · exact .inl ⟨hfails, by simp [Custody.step, hrun, Except.toOption]⟩
    · refine .inr ⟨⟨sl', s.accepted ++ c.buffer.toList, s.refused⟩, ?_,
        .inl ⟨head', spine', hbooks'⟩, ?_⟩
      · simp [Custody.step, hrun, Except.toOption]
      · simp only [List.append_assoc]
        exact List.perm_append_comm.append_left _
    · refine .inr ⟨⟨o.state, s.accepted, s.refused ++ c.buffer.toList⟩, ?_,
        .inl ⟨head, spine, ?_⟩, ?_⟩
      · simp [Custody.step, hrun, Except.toOption, hresult]
      · rw [hsame]
        exact hbooks
      · rw [List.append_assoc]
  · obtain ⟨message, hrun⟩ := call_new primaryIndex ndebug maxNodeHeight c
    rw [← hnew] at hrun
    refine .inr ⟨⟨s.list, s.accepted, s.refused ++ c.buffer.toList⟩, ?_,
      .inr ⟨maxNodeHeight, hnew, hnone⟩, ?_⟩
    · simp [Custody.step, hrun, Except.toOption]
    · rw [List.append_assoc]

/-- A run stops at a fault, or every buffer passed is accepted or refused. -/
theorem Sound.run (hs : s.Sound books primaryIndex)
    (calls : List (Call K D)) :
    (fails ∧ Machine.run (Custody.step ndebug) s calls = none) ∨
      ∃ s', Machine.run (Custody.step ndebug) s calls = some s' ∧
        s'.Sound books primaryIndex ∧ (s'.accepted ++ s'.refused).Perm
          (s.accepted ++ s.refused ++ calls.filterMap Call.buffer) := by
  induction calls generalizing s with
  | nil => exact .inr ⟨s, rfl, hs, by simp⟩
  | cons c calls ih =>
      rcases hs.step hcall c with
        ⟨hfails, hstop⟩ | ⟨s₁, hstep, hs₁, hperm₁⟩
      · exact .inl ⟨hfails, by rw [Machine.run_cons, hstop]; rfl⟩
      rcases ih hs₁ with ⟨hfails, hstop⟩ | ⟨s₂, hrun, hs₂, hperm₂⟩
      · exact .inl ⟨hfails, by rw [Machine.run_cons, hstep]; exact hstop⟩
      refine .inr ⟨s₂, by rw [Machine.run_cons, hstep]; exact hrun, hs₂, ?_⟩
      rw [filterMap_cons_toList, ← List.append_assoc]
      exact hperm₂.trans (hperm₁.append_right _)

omit hcall

/-- Where the buffers are when none was passed twice. -/
theorem Sound.freed_once [DecidableEq D]
    (hs : s.Sound books primaryIndex)
    (hbooks : ∀ {received sl head spine}, books received sl head spine →
      WellFormed sl head spine ∧ Balanced received
        (buffers (contents sl.heap spine)) sl.heap.freed)
    (hnodup : (s.accepted ++ s.refused).Nodup) :
    (∀ d ∈ s.accepted, s.list.heap.Keeps d ∨ s.list.heap.LetGo d) ∧
      (∀ d ∈ s.refused, s.list.heap.Untouched d) ∧
      ∃ sl, s.list.destroy = .ok sl ∧
        (∀ d ∈ s.accepted, sl.heap.LetGo d) ∧
        ∀ d ∈ s.refused, sl.heap.Untouched d := by
  obtain ⟨haccepted, -, hdisjoint⟩ := List.nodup_append.mp hnodup
  have hnot : ∀ d ∈ s.refused, d ∉ s.accepted :=
    fun d hrefused hd => hdisjoint d hd d hrefused rfl
  rcases hs with ⟨head, spine, hkept⟩ | ⟨maxNodeHeight, hnew, hnone⟩
  · obtain ⟨wf, hbalanced⟩ := hbooks hkept
    obtain ⟨sl, hdestroy, hgone, huntouched⟩ :=
      wf.destroy_balanced hbalanced haccepted
    exact ⟨fun d hd => wf.keeps_or_letGo hbalanced haccepted hd,
      fun d hd => wf.untouched hbalanced (hnot d hd), sl, hdestroy, hgone,
      fun d hd => huntouched d (hnot d hd)⟩
  · -- nothing was ever allocated
    have huntouched : ∀ d, s.list.heap.Untouched d := by
      intro d
      rw [hnew]
      refine ⟨?_, List.not_mem_nil⟩
      rintro a ⟨n, version, hn, -⟩
      cases hn
    have hdestroy : s.list.destroy = .ok s.list := by
      rw [hnew]
      rfl
    rw [hnone]
    exact ⟨by simp, fun d _ => huntouched d, s.list, hdestroy, by simp,
      fun d _ => huntouched d⟩

end Custody

end Books

/-- When no buffer is passed twice, a primary list keeps each buffer it has
taken in one node or has freed it once, the destructor frees the rest, and the
buffers of the other calls are never stored or freed.  The calls are any
sequence, so this holds behind every prefix of one. -/
theorem buffers_freed_once [LinearOrder K] [Inhabited K] [DecidableEq D]
    {ndebug : Bool} {sl₀ : SkipList K D} (hfresh : sl₀.Fresh ndebug)
    (calls : List (Call K D))
    (hpassed : (calls.filterMap Call.buffer).Nodup) :
    ∃ s, Machine.run (Custody.step ndebug) (Custody.initial sl₀) calls =
        some s ∧
      (∀ d ∈ s.accepted, s.list.heap.Keeps d ∨ s.list.heap.LetGo d) ∧
      (∀ d ∈ s.refused, s.list.heap.Untouched d) ∧
      ∃ sl, s.list.destroy = .ok sl ∧
        (∀ d ∈ s.accepted, sl.heap.LetGo d) ∧
        ∀ d ∈ s.refused, sl.heap.Untouched d := by
  obtain ⟨maxNodeHeight, hfresh⟩ := hfresh
  have hnew : ∀ maxNodeHeight, 0 < maxNodeHeight → ∃ head, Accounts []
      (initialList true maxNodeHeight : SkipList K D) head [] :=
    fun maxNodeHeight hmax => ⟨_,
      ⟨initialList_wellFormed true hmax, rfl, .nil, by simp⟩, balanced_nil⟩
  have hsound := Custody.sound_initial hnew hfresh
  rcases hsound.run (fun hacc => hacc.settles ndebug) calls with
    ⟨hfails, -⟩ | ⟨s, hrun, hs, hperm⟩
  · exact hfails.elim
  · exact ⟨s, hrun, hs.freed_once
      (fun hacc => ⟨hacc.toWellFormed, hacc.balanced⟩)
      (hperm.nodup_iff.mpr hpassed)⟩

/-- A duplicate, an update and a removal; the buffers are numbers. -/
theorem buffers_freed_once_five_calls :
    ∃ (sl₀ : SkipList Int32 ℕ) (calls : List (Call Int32 ℕ)),
      sl₀.Fresh false ∧
      calls = [.insert 5 (some 1) 4 2 (fun _ => 0) none,
        .insert 5 (some 2) 4 1 (fun _ => 0) none,
        .update 5 (some 3) 4 none, .insert 7 (some 4) 4 0 (fun _ => 1) none,
        .remove 5] ∧
      (calls.filterMap Call.buffer).Nodup ∧
      ∃ s, Machine.run (Custody.step false) (Custody.initial sl₀) calls =
          some s ∧
        (∀ d ∈ s.accepted, s.list.heap.Keeps d ∨ s.list.heap.LetGo d) ∧
        (∀ d ∈ s.refused, s.list.heap.Untouched d) ∧
        ∃ sl, s.list.destroy = .ok sl ∧
          (∀ d ∈ s.accepted, sl.heap.LetGo d) ∧
          ∀ d ∈ s.refused, sl.heap.Untouched d := by
  have hfresh : (initialList true 2 : SkipList Int32 ℕ).Fresh false :=
    ⟨2, .inr (initializeList_spec false true (by decide))⟩
  have hpassed : ([.insert 5 (some 1) 4 2 (fun _ => 0) none,
      .insert 5 (some 2) 4 1 (fun _ => 0) none, .update 5 (some 3) 4 none,
      .insert 7 (some 4) 4 0 (fun _ => 1) none,
      .remove 5].filterMap
        (Call.buffer : Call Int32 ℕ → Option ℕ)).Nodup := by
    decide
  exact ⟨_, _, hfresh, rfl, hpassed, buffers_freed_once hfresh _ hpassed⟩

/-- The duplicate's buffer is refused; the others are freed by `update`, by
`remove` and, last, by the destructor. -/
example : ((Machine.run (Custody.step false)
      (Custody.initial (initialList true 2 : SkipList Int32 ℕ))
      [.insert 5 (some 1) 4 2 (fun _ => 0) none,
        .insert 5 (some 2) 4 1 (fun _ => 0) none,
        .update 5 (some 3) 4 none, .insert 7 (some 4) 4 0 (fun _ => 1) none,
        .remove 5]).map fun s =>
          (s.accepted, s.refused, s.list.heap.freed,
            s.list.destroy.toOption.map fun sl => sl.heap.freed)) =
    some ([1, 3, 4], [2], [1, 3], some [1, 3, 4]) := rfl

end SquidDB.Core
