import SquidDB.Core.SkipListRemove

/-!
# Lookups, updates and counters

The calls that leave the links alone.  They are specified against a cut of the
sequence at the key, like the searches they are built on.
-/

namespace SquidDB.Core

open Checked Heap

variable {K D : Type}

/-- What a caller sees of a row: the buffer and its size. -/
structure RowData (D : Type) where
  data : Option D
  size : ℕ
  deriving DecidableEq, Repr

def RowInfo.rowData (info : RowInfo D) : RowData D := ⟨info.data, info.size⟩

/-- The row data of a node. -/
def Heap.dataOf (h : Heap K D) (n : SkipListNode K) : RowData D :=
  (h.rowOf n).elim ⟨none, 0⟩ RowInfo.rowData

/-- The bindings of a sequence of entries. -/
def contents (h : Heap K D) (spine : List (Entry K)) :
    List (K × RowData D) :=
  spine.map fun e => (e.key, h.dataOf e.node)

@[simp] theorem contents_nil (h : Heap K D) :
    contents h ([] : List (Entry K)) = [] := rfl

@[simp] theorem contents_cons (h : Heap K D) (e : Entry K)
    (spine : List (Entry K)) :
    contents h (e :: spine) = (e.key, h.dataOf e.node) :: contents h spine :=
  rfl

@[simp] theorem contents_append (h : Heap K D) (lo hi : List (Entry K)) :
    contents h (lo ++ hi) = contents h lo ++ contents h hi :=
  List.map_append

@[simp] theorem length_contents (h : Heap K D) (spine : List (Entry K)) :
    (contents h spine).length = spine.length :=
  List.length_map _

theorem dataOf_of_rowInfo {h : Heap K D} {n : SkipListNode K}
    {r : RowInfoRef} {info : RowInfo D} (hr : n.rowInfo = some r)
    (hinfo : h.rowInfo r = some info) : h.dataOf n = info.rowData := by
  simp [Heap.dataOf, Heap.rowOf, hr, hinfo]

theorem contents_congr {h h' : Heap K D} {spine : List (Entry K)}
    (hrow : ∀ e ∈ spine, h'.rowOf e.node = h.rowOf e.node) :
    contents h' spine = contents h spine := by
  apply List.map_congr_left
  intro e he
  rw [Heap.dataOf, hrow e he, Heap.dataOf]

namespace RowsOwned

variable {h h' : Heap K D} {spine lo hi : List (Entry K)} {e x : Entry K}
  {r : RowInfoRef}

theorem rowInfo_ne (hrows : RowsOwned h (lo ++ e :: hi))
    (hr : e.node.rowInfo = some r) (hx : x ∈ lo ++ hi) :
    x.node.rowInfo ≠ some r := by
  have hperm : (lo ++ e :: hi).Perm (e :: (lo ++ hi)) := List.perm_middle
  have hdistinct :=
    (hperm.map fun y : Entry K => y.node.rowInfo).nodup_iff.mp hrows.distinct
  intro hxr
  exact (List.nodup_cons.mp hdistinct).1
    (List.mem_map.mpr ⟨x, hx, hxr.trans hr.symm⟩)

/-- Changing the row of one entry does not change the bindings of the
others. -/
theorem contents_update (hrows : RowsOwned h (lo ++ e :: hi))
    (hr : e.node.rowInfo = some r) {v : Option (RowInfo D)}
    (hrow : h'.rowInfo = Function.update h.rowInfo r v)
    (l : List (Entry K)) (hl : ∀ x ∈ l, x ∈ lo ++ hi) :
    contents h' l = contents h l := by
  apply contents_congr
  intro x hx
  have hne := hrows.rowInfo_ne hr (hl x hx)
  rcases hxr : x.node.rowInfo with _ | r'
  · simp [Heap.rowOf, hxr]
  · have hrr : r' ≠ r := fun heq => hne (heq ▸ hxr)
    simp [Heap.rowOf, hxr, hrow, hrr]

/-- A new row does not change the bindings of the others. -/
theorem contents_allocate (hrows : RowsOwned h spine)
    {v : Option (RowInfo D)}
    (hrow : h'.rowInfo = Function.update h.rowInfo h.rowInfoCount v)
    (l : List (Entry K)) (hl : ∀ x ∈ l, x ∈ spine) :
    contents h' l = contents h l := by
  apply contents_congr
  intro x hx
  have hne := hrows.ne_rowInfoCount (hl x hx)
  rcases hxr : x.node.rowInfo with _ | r'
  · simp [Heap.rowOf, hxr]
  · have hrr : r' ≠ h.rowInfoCount := fun heq => hne (heq ▸ hxr)
    simp [Heap.rowOf, hxr, hrow, hrr]

/-- Changing the contents of a row keeps the rows owned. -/
theorem update (hrows : RowsOwned h spine) {info info' : RowInfo D}
    (hinfo : h.rowInfo r = some info) (hnext : info'.next = none)
    (hrow : h'.rowInfo = Function.update h.rowInfo r (some info'))
    (hcount : h'.rowInfoCount = h.rowInfoCount) : RowsOwned h' spine := by
  refine ⟨?_, hrows.distinct, ?_, ?_⟩
  · intro e he
    obtain ⟨r', info₀, hr', hinfo₀, hnext₀⟩ := hrows.exists_row he
    by_cases hrr : r' = r
    · exact ⟨info', by simp [Heap.rowOf, hr', hrow, hrr], hnext⟩
    · exact ⟨info₀, by simp [Heap.rowOf, hr', hrow, hrr, hinfo₀], hnext₀⟩
  · intro r' hr'
    rw [hcount] at hr'
    have hrr : r' ≠ r := by
      rintro rfl
      rw [hrows.allocated _ hr'] at hinfo
      cases hinfo
    rw [hrow, Function.update_of_ne hrr]
    exact hrows.allocated r' hr'
  · intro r' info₀ hinfo₀
    by_cases hrr : r' = r
    · subst hrr
      exact hrows.owned r' info hinfo
    · rw [hrow, Function.update_of_ne hrr] at hinfo₀
      exact hrows.owned r' info₀ hinfo₀

end RowsOwned

/-! ## Well-formedness and rows -/

theorem WellFormed.withRows [LinearOrder K] {sl : SkipList K D}
    {head : Entry K} {spine : List (Entry K)}
    (wf : WellFormed sl head spine) {h : Heap K D}
    (hnode : h.node = sl.heap.node) (hnext : h.next = sl.heap.next)
    (hwidth : h.width = sl.heap.width)
    (hcount : h.nodeCount = sl.heap.nodeCount) (hrows : RowsOwned h spine) :
    WellFormed { sl with heap := h } head spine where
  ready := wf.ready
  headRef := wf.headRef
  headTower := wf.headTower
  headHeight := wf.headHeight
  headRow := wf.headRow
  levels := wf.levels
  threaded := wf.threaded.congr (fun _ _ => by rw [hnode])
    (fun _ _ => by rw [hnext]) fun _ _ => by rw [hwidth]
  distinct := wf.distinct
  towers := wf.towers
  sorted := wf.sorted
  allocated := by
    change ∀ a, h.nodeCount ≤ a → h.node a = none
    rw [hcount, hnode]
    exact wf.allocated
  owned := by
    change ∀ a n, h.node a = some n → _
    rw [hnode]
    exact wf.owned
  rows := hrows
  size := wf.size

section Calls

open SkipList

variable [LinearOrder K] {sl : SkipList K D} {head : Entry K}
  {lo hi spine : List (Entry K)} {key : K}

/-- The memory after `update` has replaced the data of a row. -/
def updatedHeap (h : Heap K D) (r : RowInfoRef) (info : RowInfo D)
    (data : Option D) (size : ℕ) : Heap K D :=
  { h with
    rowInfo := Function.update h.rowInfo r
      (some { info with data := data, size := size })
    freed := h.freed ++ info.data.toList }

namespace WellFormed

theorem updatedHeap_wellFormed (wf : WellFormed sl head spine)
    {e : Entry K} (he : e ∈ spine) {r : RowInfoRef} {info : RowInfo D}
    (hr : e.node.rowInfo = some r) (hinfo : sl.heap.rowInfo r = some info)
    (data : Option D) (size : ℕ) :
    WellFormed { sl with heap := updatedHeap sl.heap r info data size } head
      spine := by
  refine wf.withRows rfl rfl rfl rfl (wf.rows.update hinfo ?_ rfl rfl)
  obtain ⟨r', info', hr', hinfo', hnext⟩ := wf.rows.exists_row he
  rw [hr, Option.some.injEq] at hr'
  subst hr'
  rw [hinfo, Option.some.injEq] at hinfo'
  subst hinfo'
  exact hnext

theorem update_of_findNode (wf : WellFormed sl head spine) {e : Entry K}
    (he : e ∈ spine) {ndebug : Bool}
    (hfind : sl.findNode ndebug key = .ok (some e.ref)) (data : Option D)
    (size : ℕ) :
    ∃ r info, e.node.rowInfo = some r ∧ sl.heap.rowInfo r = some info ∧
      ∀ transaction : Option Transaction,
        sl.update ndebug key data size transaction =
          .ok (.returned (true, transaction.map fun t =>
            t.addAffectedRow e.ref r)
            { sl with heap := updatedHeap sl.heap r info data size }) := by
  obtain ⟨r, info, hr, hinfo, -⟩ := wf.rows.exists_row he
  have hlive := wf.threaded.live (List.mem_cons_of_mem _ he)
  refine ⟨r, info, hr, hinfo, fun transaction => ?_⟩
  simp only [SkipList.update, wf.ready, Bool.true_eq_false, if_false, hfind,
    ok_bind, getRowInfo_of_node hlive, hr, readRowInfo_of_rowInfo hinfo,
    setData, modifyRowInfo_of_rowInfo hinfo, nonNull_some, pure_eq_ok]
  cases hdata : info.data <;> simp [updatedHeap, free, hdata]

theorem find_of_findNode (wf : WellFormed sl head spine) {e : Entry K}
    (he : e ∈ spine) {ndebug : Bool}
    (hfind : sl.findNode ndebug key = .ok (some e.ref)) :
    sl.find ndebug key = .ok (.returned (sl.heap.dataOf e.node).data sl) := by
  obtain ⟨r, info, hr, hinfo, -⟩ := wf.rows.exists_row he
  have hlive := wf.threaded.live (List.mem_cons_of_mem _ he)
  simp [SkipList.find, wf.ready, hfind, getRowInfo_of_node hlive, hr,
    readRowInfo_of_rowInfo hinfo, dataOf_of_rowInfo hr hinfo,
    RowInfo.rowData]

/-- Calls for a key that is not there. -/
theorem find_absent (wf : WellFormed sl head (lo ++ hi))
    (hlo : ∀ x ∈ lo, x.key < key) (hhi : ∀ x ∈ hi, key < x.key)
    (ndebug : Bool) :
    sl.findNode ndebug key = .ok none := by
  rcases wf.findNode_spec hlo (fun x hx => (hhi x hx).le) ndebug with
    ⟨-, hnone⟩ | ⟨e, he, hkey, -⟩
  · exact hnone
  · exact absurd hkey (hhi e he).ne

end WellFormed

namespace PrimaryWellFormed

variable {e : Entry K}

theorem findNode_present (wf : PrimaryWellFormed sl head (lo ++ e :: hi))
    (ndebug : Bool) : sl.findNode ndebug e.key = .ok (some e.ref) := by
  have hstrict := List.pairwise_append.mp wf.strict
  have hhi := List.pairwise_cons.mp hstrict.2.1
  have hlo : ∀ x ∈ lo, x.key < e.key :=
    fun x hx => hstrict.2.2 x hx e List.mem_cons_self
  have hle : ∀ x ∈ e :: hi, e.key ≤ x.key :=
    List.forall_mem_cons.mpr ⟨le_rfl, fun x hx => (hhi.1 x hx).le⟩
  rcases wf.toWellFormed.findNode_spec hlo hle ndebug with
    ⟨hnone, -⟩ | ⟨x, hx, hkey, hfind⟩
  · exact absurd rfl (hnone e List.mem_cons_self)
  · rcases List.mem_cons.mp hx with rfl | hx
    · exact hfind
    · exact absurd hkey (hhi.1 x hx).ne

/-- A call of `update` for a key that is there. -/
theorem update_spec (wf : PrimaryWellFormed sl head (lo ++ e :: hi))
    (ndebug : Bool) (data : Option D) (size : ℕ) :
    ∃ r info, e.node.rowInfo = some r ∧ sl.heap.rowInfo r = some info ∧
      (∀ transaction : Option Transaction,
        sl.update ndebug e.key data size transaction =
          .ok (.returned (true, transaction.map fun t =>
            t.addAffectedRow e.ref r)
            { sl with heap := updatedHeap sl.heap r info data size })) ∧
      PrimaryWellFormed
        { sl with heap := updatedHeap sl.heap r info data size } head
        (lo ++ e :: hi) := by
  have hmem : e ∈ lo ++ e :: hi := by simp
  obtain ⟨r, info, hr, hinfo, hrun⟩ := wf.update_of_findNode hmem
    (wf.findNode_present ndebug) data size
  exact ⟨r, info, hr, hinfo, hrun,
    wf.updatedHeap_wellFormed hmem hr hinfo data size, wf.primary, wf.strict,
    wf.full⟩

end PrimaryWellFormed

/-! ## Counters -/

omit [LinearOrder K] in
/-- Walking along level 0 counts the entries. -/
theorem countFrom_spec {h : Heap K D} (ht : Threaded h spine)
    (hpos : ∀ e ∈ spine, 0 < e.tower) {fuel : ℕ} (hfuel : spine.length < fuel)
    (size : ℕ) :
    countFrom h fuel (spine.head?.map Entry.ref) size =
      .ok (size + spine.length) := by
  induction spine generalizing fuel size with
  | nil =>
      obtain ⟨fuel, rfl⟩ : ∃ n, fuel = n + 1 :=
        Nat.exists_eq_succ_of_ne_zero (by omega)
      rfl
  | cons e spine ih =>
      obtain ⟨fuel, rfl⟩ : ∃ n, fuel = n + 1 :=
        Nat.exists_eq_succ_of_ne_zero (by omega)
      have he := hpos e List.mem_cons_self
      have hspine : ∀ x ∈ spine, 0 < x.tower :=
        fun x hx => hpos x (List.mem_cons_of_mem _ hx)
      rw [List.length_cons] at hfuel
      rw [List.head?_cons, Option.map_some, countFrom,
        getNext_of_node ht.1.live (lt_of_lt_of_le he ht.1.tower_le), ok_bind,
        ht.1.next 0 he, nextAt_zero hspine, ih ht.2 hspine (by omega),
        List.length_cons]
      congr 1
      omega

namespace WellFormed

theorem towers_pos (wf : WellFormed sl head spine) :
    ∀ e ∈ spine, 0 < e.tower :=
  fun e he => (wf.towers e he).1

/-- The head points to the first entry. -/
theorem getNext_head (wf : WellFormed sl head spine) :
    sl.heap.getNext sl.head 0 = .ok (spine.head?.map Entry.ref) := by
  have hhead := wf.threaded.1
  have hpos : 0 < head.tower := wf.headTower ▸ wf.levels
  rw [wf.headRef, getNext_of_node hhead.live
    (lt_of_lt_of_le hpos hhead.tower_le), hhead.next 0 hpos,
    nextAt_zero wf.towers_pos]

/-- Both ways to ask for the size agree. -/
theorem getSize_spec (wf : WellFormed sl head spine) (calculate : Bool) :
    sl.getSize calculate = .ok (.returned spine.length sl) := by
  have hlen := wf.length_lt_nodeCount
  cases calculate with
  | false => simp [SkipList.getSize, wf.ready, wf.size]
  | true =>
      have hcount := countFrom_spec wf.threaded.2 wf.towers_pos
        (show spine.length < sl.heap.nodeCount + 1 by omega) 0
      simp [SkipList.getSize, wf.ready, wf.getNext_head, hcount]

theorem empty_spec (wf : WellFormed sl head spine) :
    sl.empty = .ok (.returned (decide (spine = [])) sl) := by
  have hsize : sl.size = 0 ↔ spine = [] := by
    rw [wf.size, List.length_eq_zero_iff]
  simp [SkipList.empty, wf.ready, hsize]

theorem length_eq_countP (hlo : ∀ x ∈ lo, x.key < key)
    (hhi : ∀ x ∈ hi, key ≤ x.key) :
    lo.length = (lo ++ hi).countP fun e => decide (e.key < key) := by
  have hall : (lo.countP fun e => decide (e.key < key)) = lo.length :=
    List.countP_eq_length.mpr fun x hx => decide_eq_true (hlo x hx)
  have hnone : (hi.countP fun e => decide (e.key < key)) = 0 :=
    List.countP_eq_zero.mpr fun x hx => by simpa using hhi x hx
  rw [List.countP_append, hall, hnone, Nat.add_zero]

theorem countP_between {lowKey highKey : K} (hle : lowKey ≤ highKey)
    (spine : List (Entry K)) :
    (spine.countP fun e => decide (e.key < highKey)) =
      (spine.countP fun e => decide (e.key < lowKey)) +
        spine.countP fun e => decide (lowKey ≤ e.key ∧ e.key < highKey) := by
  induction spine with
  | nil => rfl
  | cons e spine ih =>
      simp only [List.countP_cons, ih, decide_eq_true_eq]
      by_cases hlow : e.key < lowKey
      · have hhigh : e.key < highKey := hlow.trans_le hle
        simp only [hlow, hhigh, not_le.mpr hlow, if_true, false_and, if_false]
        omega
      · simp only [hlow, not_lt.mp hlow, if_false, true_and]
        omega

theorem prevRank_zero (wf : WellFormed sl head spine) (ndebug dup : Bool)
    (key : K) :
    ∃ ctx dup', sl.traversePrevNodes ndebug key dup = .ok (ctx, dup') ∧
      ctx.prevRank 0 = spine.countP fun e => decide (e.key < key) := by
  obtain ⟨lo, hi, rfl, hlo, hhi⟩ := exists_cut wf.sorted key
  obtain ⟨ctx, htraverse, -, hloc⟩ :=
    wf.traversePrevNodes_spec hlo hhi ndebug dup
  refine ⟨ctx, _, htraverse, ?_⟩
  obtain ⟨i, y, hlast, -, hrank⟩ := hloc 0 wf.levels
  obtain ⟨p, q, hsplit, rfl, -, hq⟩ := Tower.lastAt_split_inv hlast
  have hnil : q = [] := by
    apply List.eq_nil_iff_forall_not_mem.mpr
    intro e he
    have hpos := wf.towers_pos e
      (List.mem_append_left _ (mem_of_split hsplit he))
    have := hq e he
    omega
  have hlen := length_of_split hsplit
  rw [hnil, List.length_nil, Nat.add_zero] at hlen
  rw [hrank, hlen, length_eq_countP hlo hhi]

/-- `estimateRangeCardinality` counts the entries between the two cuts. -/
theorem estimateRangeCardinality_spec (wf : WellFormed sl head spine)
    (ndebug : Bool) (lowKey highKey : K) :
    sl.estimateRangeCardinality ndebug lowKey highKey =
      .ok (.returned (spine.countP fun e =>
        decide (lowKey ≤ e.key ∧ e.key < highKey)) sl) := by
  by_cases hgt : lowKey > highKey
  · have hzero : (spine.countP fun e =>
        decide (lowKey ≤ e.key ∧ e.key < highKey)) = 0 := by
      apply List.countP_eq_zero.mpr
      intro x _
      rw [decide_eq_true_eq]
      rintro ⟨hlow, hhigh⟩
      exact absurd (hlow.trans_lt hhigh) (not_lt.mpr hgt.le)
    rw [hzero]
    simp [SkipList.estimateRangeCardinality, wf.ready, hgt]
  · have hle : lowKey ≤ highKey := not_lt.mp hgt
    obtain ⟨ctxLow, dup, hlow, hlowRank⟩ := wf.prevRank_zero ndebug false
      lowKey
    obtain ⟨ctxHigh, dup', hhigh, hhighRank⟩ := wf.prevRank_zero ndebug dup
      highKey
    have hbetween := countP_between hle spine
    have hranks : ctxLow.prevRank 0 ≤ ctxHigh.prevRank 0 := by omega
    simp only [SkipList.estimateRangeCardinality, wf.ready,
      Bool.true_eq_false, if_false, hgt, hlow, hhigh, ok_bind, hranks,
      decide_true, assert_ok_true, subtract_of_le hranks, pure_eq_ok]
    congr 2
    omega

end WellFormed

end Calls

end SquidDB.Core
