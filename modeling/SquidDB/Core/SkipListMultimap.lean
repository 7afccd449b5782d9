import SquidDB.Lib.SortedMultimap
import SquidDB.Core.SkipListStructure

/-!
# A secondary list is a multimap

A list that is not primary accepts equal keys.  The multimap it stands for
keeps them newest first: `insert` puts a node in front of the nodes with its
key and `remove` deletes the first of them.  When that one is not the tallest,
the levels above it lose a node which stays on the levels below, so towers may
become lower than heights; the sequence of entries and the widths are right all
the same.
-/

namespace SquidDB.Core

open Checked Heap SkipListIterator

variable {K D : Type}

/-- The arguments of a call of `insert`. -/
structure Insertion (K D : Type) where
  key : K
  data : Option D
  size : ℕ
  nodeHeight : ℕ
  draw : ℕ → ℕ
  transaction : Option Transaction

/-- The calls that add or take away entries. -/
inductive Change (K D : Type) where
  | insert (insertion : Insertion K D)
  | remove (key : K)

def Change.call : Change K D → Call K D
  | .insert i =>
      .insert i.key i.data i.size i.nodeHeight i.draw i.transaction
  | .remove key => .remove key

/-- What the list stores for an inserted entry. -/
structure StoredRow (D : Type) where
  row : RowData D
  height : ℕ

/-- The entries of a sequence with their nodes as stamps: allocation numbers
grow with time. -/
def stamped (h : Heap K D) (spine : List (Entry K)) :
    List (Stamped K (StoredRow D)) :=
  spine.map fun e => ⟨e.key, e.ref, h.dataOf e.node, e.node.height⟩

@[simp] theorem stamped_cons (h : Heap K D) (e : Entry K)
    (spine : List (Entry K)) :
    stamped h (e :: spine) =
      ⟨e.key, e.ref, h.dataOf e.node, e.node.height⟩ :: stamped h spine :=
  rfl

@[simp] theorem stamped_append (h : Heap K D) (lo hi : List (Entry K)) :
    stamped h (lo ++ hi) = stamped h lo ++ stamped h hi :=
  List.map_append

theorem stamped_congr {h h' : Heap K D} {spine : List (Entry K)}
    (hcontents : contents h' spine = contents h spine) :
    stamped h' spine = stamped h spine := by
  apply List.map_congr_left
  intro e he
  have hdata := List.map_inj_left.mp hcontents e he
  rw [(Prod.mk.inj hdata).2]

theorem contents_lowerTowers (h : Heap K D) (cap : ℕ)
    (spine : List (Entry K)) :
    contents h (lowerTowers cap spine) = contents h spine := by
  induction spine generalizing cap with
  | nil => rfl
  | cons e spine ih =>
      rw [lowerTowers, contents_cons, contents_cons, ih]
      rfl

theorem stamped_lowerTowers (h : Heap K D) (cap : ℕ)
    (spine : List (Entry K)) :
    stamped h (lowerTowers cap spine) = stamped h spine := by
  induction spine generalizing cap with
  | nil => rfl
  | cons e spine ih =>
      rw [lowerTowers, stamped_cons, stamped_cons, ih]
      rfl

variable [LinearOrder K]

/-- What a call does to the multimap, with the result the caller sees. -/
def multimapCall (maxNodeHeight : ℕ)
    (m : SortedMultimap K (StoredRow D)) :
    Change K D → Except String Bool × SortedMultimap K (StoredRow D)
  | .insert i =>
      if i.nodeHeight > maxNodeHeight then
        (.error "SkipList<K>::insert nodeHeight > maxNodeHeight", m)
      else
        (.ok true, m.push i.key ⟨⟨i.data, i.size⟩,
          SkipList.chosenHeight maxNodeHeight i.nodeHeight i.draw⟩)
  | .remove key =>
      if (m.newest key).isSome then (.ok true, m.pop key)
      else (.ok false, m)

/-- The multimap after a sequence of calls on an empty list, whose head is
node 0. -/
def multimapAfter (maxNodeHeight : ℕ) (changes : List (Change K D)) :
    SortedMultimap K (StoredRow D) :=
  changes.foldl (fun m c => (multimapCall maxNodeHeight m c).2) (.empty 1)

/-- The sequence describes the list and stores what the multimap stores. -/
structure Stores (maxNodeHeight : ℕ) (sl : SkipList K D) (head : Entry K)
    (spine : List (Entry K)) (m : SortedMultimap K (StoredRow D)) :
    Prop where
  wf : WellFormed sl head spine
  secondary : sl.primaryIndex = false
  entries : stamped sl.heap spine = m.entries
  clock : sl.heap.nodeCount = m.clock
  height : sl.maxNodeHeight = maxNodeHeight

/-- Every entry is linked on all the levels of its height. -/
def FullTowers (spine : List (Entry K)) : Prop :=
  ∀ e ∈ spine, e.tower = e.node.height

omit [LinearOrder K] in
theorem forall_stamped (P : K → Prop) {h : Heap K D}
    {spine : List (Entry K)} (hP : ∀ e ∈ spine, P e.key) :
    ∀ x ∈ stamped h spine, P x.key := by
  simpa [stamped] using hP

/-- A sequence in key order is cut by every key into the smaller, the equal
and the greater ones. -/
theorem exists_cut_equal {spine : List (Entry K)}
    (hsorted : spine.Pairwise fun a b => a.key ≤ b.key) (key : K) :
    ∃ lo es gt, spine = lo ++ (es ++ gt) ∧ (∀ x ∈ lo, x.key < key) ∧
      (∀ x ∈ es, x.key = key) ∧ ∀ x ∈ gt, key < x.key := by
  obtain ⟨lo, hi, rfl, hlo, hhi⟩ := exists_cut hsorted key
  replace hsorted := (List.pairwise_append.mp hsorted).2.1
  suffices hcut : ∃ es gt, hi = es ++ gt ∧ (∀ x ∈ es, x.key = key) ∧
      ∀ x ∈ gt, key < x.key by
    obtain ⟨es, gt, rfl, hes, hgt⟩ := hcut
    exact ⟨lo, es, gt, rfl, hlo, hes, hgt⟩
  induction hi with
  | nil => exact ⟨[], [], rfl, by simp, by simp⟩
  | cons e hi ih =>
      obtain ⟨hle, hsorted⟩ := List.pairwise_cons.mp hsorted
      rcases (hhi e List.mem_cons_self).eq_or_lt with heq | hlt
      · obtain ⟨es, gt, rfl, hes, hgt⟩ :=
          ih (fun x hx => hhi x (List.mem_cons_of_mem _ hx)) hsorted
        exact ⟨e :: es, gt, rfl, List.forall_mem_cons.mpr ⟨heq.symm, hes⟩,
          hgt⟩
      · exact ⟨[], e :: hi, rfl, by simp, List.forall_mem_cons.mpr
          ⟨hlt, fun x hx => hlt.trans_le (hle x hx)⟩⟩

/-! ## One call -/

section Call

variable {maxNodeHeight : ℕ} {sl : SkipList K D} {head e : Entry K}
  {spine lo es gt : List (Entry K)} {m : SortedMultimap K (StoredRow D)}
  {key : K}

namespace Stores

/-- The newest entry of a key is the first one of the sequence. -/
theorem newest_of_cut
    (hst : Stores maxNodeHeight sl head (lo ++ (e :: es ++ gt)) m)
    (hlo : ∀ x ∈ lo, x.key < key) (he : e.key = key) :
    m.newest key =
      some ⟨e.key, e.ref, sl.heap.dataOf e.node, e.node.height⟩ := by
  have hm := hst.entries
  rw [stamped_append, List.cons_append, stamped_cons] at hm
  exact SortedMultimap.newest_of_cut hm.symm
    (forall_stamped (· < key) hlo) he

theorem newest_absent (hst : Stores maxNodeHeight sl head (lo ++ gt) m)
    (hlo : ∀ x ∈ lo, x.key < key) (hgt : ∀ x ∈ gt, key < x.key) :
    m.newest key = none := by
  apply SortedMultimap.newest_eq_none_iff.mpr
  rw [← hst.entries]
  apply forall_stamped (· ≠ key)
  intro x hx
  rcases List.mem_append.mp hx with hx | hx
  · exact (hlo x hx).ne
  · exact (hgt x hx).ne'

/-- A call of `insert` with an admissible height is followed by the
multimap. -/
theorem insert (hst : Stores maxNodeHeight sl head spine m) (ndebug : Bool)
    (i : Insertion K D) (hheight : i.nodeHeight ≤ maxNodeHeight) :
    ∃ sl' spine', sl.call ndebug (Change.insert i).call =
        .ok (.returned true sl') ∧
      Stores maxNodeHeight sl' head spine'
        (multimapCall maxNodeHeight m (.insert i)).2 ∧
      (FullTowers spine → FullTowers spine') := by
  obtain ⟨lo, hi, rfl, hlo, hhi⟩ := exists_cut hst.wf.sorted i.key
  have hsecondary : sl.primaryIndex = true → ∀ x ∈ hi, i.key ≠ x.key := by
    rw [hst.secondary]
    exact fun h => absurd h Bool.false_ne_true
  obtain ⟨sl', hrun, wf', hprimary, hmax, hrow, -, hcount⟩ :=
    hst.wf.insert_spec hlo hhi ndebug i.data i.size
      (hst.height ▸ hheight) i.draw hsecondary
  refine ⟨sl', _, ?_, ⟨wf', hprimary.trans hst.secondary, ?_, ?_,
    hmax.trans hst.height⟩, ?_⟩
  · rw [Change.call, SkipList.call, hrun]
    rfl
  · -- the new entry is stamped with the node it is given
    have hnew := hst.wf.rows.contents_allocate hrow
    have hlow := stamped_congr (hnew lo fun x hx => List.mem_append_left _ hx)
    have hhigh :=
      stamped_congr (hnew hi fun x hx => List.mem_append_right _ hx)
    have hinfo : sl'.heap.rowInfo sl.heap.rowInfoCount =
        some ⟨.none, none, i.data, i.size⟩ := by
      simp [hrow]
    have hm := hst.entries
    rw [stamped_append] at hm
    have hpush := SortedMultimap.entries_push (v := ⟨⟨i.data, i.size⟩,
        SkipList.chosenHeight maxNodeHeight i.nodeHeight i.draw⟩) hm.symm
      (forall_stamped (· < i.key) hlo) (forall_stamped (i.key ≤ ·) hhi)
    rw [multimapCall, if_neg (Nat.not_lt.mpr hheight), hpush, stamped_append,
      stamped_cons, hlow, hhigh, dataOf_of_rowInfo rfl hinfo, ← hst.clock,
      ← hst.height]
    rfl
  · rw [multimapCall, if_neg (Nat.not_lt.mpr hheight), hcount, hst.clock]
    rfl
  · intro hfull x hx
    rcases List.mem_append.mp hx with hx | hx
    · exact hfull x (List.mem_append_left _ hx)
    · rcases List.mem_cons.mp hx with rfl | hx
      · rfl
      · exact hfull x (List.mem_append_right _ hx)

/-- A call of `insert` with a height above the maximum throws. -/
theorem insert_too_high (hst : Stores maxNodeHeight sl head spine m)
    (ndebug : Bool) (i : Insertion K D)
    (hheight : maxNodeHeight < i.nodeHeight) :
    sl.call ndebug (Change.insert i).call =
      .ok (.thrown "SkipList<K>::insert nodeHeight > maxNodeHeight" sl) := by
  rw [Change.call, SkipList.call, hst.wf.insert_too_high ndebug i.key i.data
    i.size (hst.height ▸ hheight) i.draw i.transaction]
  rfl

/-- A call of `remove` for a stored key is followed by the multimap, when the
assertion in its loop holds or is compiled out. -/
theorem remove (hst : Stores maxNodeHeight sl head (lo ++ (e :: es ++ gt)) m)
    (hlo : ∀ x ∈ lo, x.key < key) (hes : ∀ x ∈ e :: es, x.key = key)
    (hgt : ∀ x ∈ gt, key < x.key) {ndebug : Bool}
    (hassert : ndebug = true ∨ ∀ x ∈ es, x.tower ≤ e.tower) :
    ∃ sl', sl.call ndebug (Change.remove key).call =
        .ok (.returned true sl') ∧
      Stores maxNodeHeight sl' head (lo ++ (lowerTowers e.tower es ++ gt))
        (m.pop key) := by
  obtain ⟨sl', r, info, hr, hinfo, hrun, wf', hprimary, hmax, hrow, -,
    hcount⟩ := hst.wf.remove_spec hlo hes hgt hassert
  refine ⟨sl', hrun, wf', hprimary.trans hst.secondary, ?_,
    hcount.trans hst.clock, hmax.trans hst.height⟩
  have hothers := hst.wf.rows.contents_update hr hrow
  have hm := hst.entries
  rw [stamped_append, List.cons_append, stamped_cons] at hm
  rw [SortedMultimap.entries_pop hm.symm (forall_stamped (· < key) hlo)
    (hes e List.mem_cons_self), stamped_append, stamped_append,
    stamped_lowerTowers, stamped_congr (hothers lo _),
    stamped_congr (hothers es _), stamped_congr (hothers gt _),
    stamped_append]
  · simp +contextual
  · simp +contextual
  · simp +contextual

/-- A call of `remove` for a key that is not stored. -/
theorem remove_absent (hst : Stores maxNodeHeight sl head (lo ++ gt) m)
    (hlo : ∀ x ∈ lo, x.key < key) (hgt : ∀ x ∈ gt, key < x.key)
    (ndebug : Bool) :
    sl.call ndebug (Change.remove key).call = .ok (.returned false sl) :=
  hst.wf.remove_absent hlo hgt ndebug

/-- Without assertions every call is followed by the multimap, with the same
result; a call that does not return true changes nothing. -/
theorem call_simulates (hst : Stores maxNodeHeight sl head spine m)
    (c : Change K D) :
    ∃ o spine', sl.call true c.call = .ok o ∧
      o.result = (multimapCall maxNodeHeight m c).1 ∧
      (o.result ≠ .ok true → o.state = sl) ∧
      Stores maxNodeHeight o.state head spine'
        (multimapCall maxNodeHeight m c).2 := by
  cases c with
  | insert i =>
      by_cases hhigh : i.nodeHeight > maxNodeHeight
      · refine ⟨_, spine, hst.insert_too_high true i hhigh, ?_,
          fun _ => rfl, ?_⟩
        · simp [multimapCall, hhigh]
        · simpa [multimapCall, hhigh] using hst
      · obtain ⟨sl', spine', hrun, hst', -⟩ :=
          hst.insert true i (Nat.not_lt.mp hhigh)
        refine ⟨_, spine', hrun, ?_, fun hne => absurd rfl hne, hst'⟩
        simp [multimapCall, hhigh]
  | remove key =>
      obtain ⟨lo, es, gt, rfl, hlo, hes, hgt⟩ :=
        exists_cut_equal hst.wf.sorted key
      cases es with
      | nil =>
          rw [List.nil_append] at hst
          have hnone := hst.newest_absent hlo hgt
          refine ⟨_, lo ++ gt, hst.remove_absent hlo hgt true, ?_,
            fun _ => rfl, ?_⟩
          · simp [multimapCall, hnone]
          · simpa [multimapCall, hnone] using hst
      | cons e es =>
          have hsome := hst.newest_of_cut hlo (hes e List.mem_cons_self)
          obtain ⟨sl', hrun, hst'⟩ := hst.remove hlo hes hgt (Or.inl rfl)
          refine ⟨_, lo ++ (lowerTowers e.tower es ++ gt), hrun, ?_,
            fun hne => absurd rfl hne, ?_⟩
          · simp [multimapCall, hsome]
          · simpa [multimapCall, hsome] using hst'

end Stores

end Call

/-! ## Runs -/

theorem initialList_stores [Inhabited K] {maxNodeHeight : ℕ}
    (hmax : 0 < maxNodeHeight) :
    Stores maxNodeHeight (initialList false maxNodeHeight : SkipList K D)
      ⟨0, ⟨default, none, maxNodeHeight⟩, maxNodeHeight⟩ [] (.empty 1) :=
  ⟨initialList_wellFormed false hmax, rfl, rfl, rfl, rfl⟩

/-- Every run of calls from the initialized list goes through when assertions
are compiled out, and ends in a list that stores what the multimap stores. -/
theorem run_stores [Inhabited K] {maxNodeHeight : ℕ}
    (hmax : 0 < maxNodeHeight) (changes : List (Change K D)) :
    ∃ sl head spine, Machine.run (SkipList.step true)
        (initialList false maxNodeHeight) (changes.map Change.call) =
          some sl ∧
      Stores maxNodeHeight sl head spine
        (multimapAfter maxNodeHeight changes) := by
  have hstep : ∀ (sl : SkipList K D) m (c : Change K D), True →
      (∃ head spine, Stores maxNodeHeight sl head spine m) →
      ∃ sl', SkipList.step true sl c.call = some sl' ∧
        ∃ head spine, Stores maxNodeHeight sl' head spine
          (multimapCall maxNodeHeight m c).2 := by
    rintro sl m c - ⟨head, spine, hst⟩
    obtain ⟨o, spine', hrun, -, -, hst'⟩ := hst.call_simulates c
    exact ⟨o.state, by simp [SkipList.step, hrun, Except.toOption], head,
      spine', hst'⟩
  obtain ⟨sl, hrun, head, spine, hst⟩ :=
    Machine.exists_run_of_simulation hstep ⟨_, _, initialList_stores hmax⟩
      fun c (_ : c ∈ changes) => trivial
  rw [← Machine.run_comap] at hrun
  exact ⟨sl, head, spine, hrun, hst⟩

/-! ## Observations -/

/-- `nodes` is the level-0 chain in key order, `level L` the chain of level
`L`; every level is a part of the one below, and the widths count steps on
level 0. -/
structure Layered (sl : SkipList K D) (head : NodeRef)
    (nodes : List NodeRef) (level : ℕ → List NodeRef) : Prop where
  headRef : sl.head = some head
  bottom : level 0 = nodes
  nested : ∀ L, (level (L + 1)).Sublist (level L)
  subsequence : ∀ L, (level L).Sublist nodes
  chain : ∀ L < sl.maxNodeHeight,
    Chain sl.heap L (sl.heap.next head L) (level L)
  ascending : nodes.Pairwise fun a b => ∃ m n, sl.heap.node a = some m ∧
    sl.heap.node b = some n ∧ m.key ≤ n.key
  width : ∀ L < sl.maxNodeHeight, ∀ before a after,
    head :: nodes = before ++ a :: after → a ∈ head :: level L →
      match sl.heap.next a L with
      | some b => b ∈ after ∧ sl.heap.width a L = after.idxOf b + 1
      | none => sl.heap.width a L = after.length

/-- Everything a caller can observe of the list agrees with the multimap. -/
structure AgreesMultimap (maxNodeHeight : ℕ) (sl : SkipList K D)
    (m : SortedMultimap K (StoredRow D)) : Prop where
  call : ∀ c : Change K D, ∃ o, sl.call true c.call = .ok o ∧
    o.result = (multimapCall maxNodeHeight m c).1 ∧
    (o.result ≠ .ok true → o.state = sl)
  contains : ∀ key, sl.contains true key =
    .ok (.returned (m.newest key).isSome sl)
  size : ∀ calculate, sl.getSize calculate =
    .ok (.returned m.entries.length sl)
  scan : ∀ how, SkipList.visit how sl.scan =
    .ok (.returned (m.entries.map fun x => (x.key, x.value.row.data)) sl)
  layers : ∃ head level,
    Layered sl head (m.entries.map Stamped.stamp) level
  validate : sl.validate true = .ok true

section Observe

variable {maxNodeHeight : ℕ} {sl : SkipList K D} {head : Entry K}
  {spine : List (Entry K)} {m : SortedMultimap K (StoredRow D)}

/-- The levels of a well-formed list are the entries with taller towers. -/
theorem WellFormed.layered (wf : WellFormed sl head spine) :
    Layered sl head.ref (spine.map Entry.ref) fun L =>
      (spine.filter fun e => decide (L < e.tower)).map Entry.ref := by
  have hall : spine.filter (fun e => decide (0 < e.tower)) = spine :=
    List.filter_eq_self.mpr fun e he => decide_eq_true (wf.towers_pos e he)
  refine ⟨wf.headRef, by rw [hall], ?_, ?_, ?_, ?_, ?_⟩
  · intro L
    apply List.Sublist.map
    apply List.monotone_filter_right
    intro e he
    have hlt := of_decide_eq_true he
    exact decide_eq_true (by omega)
  · intro L
    exact List.filter_sublist.map Entry.ref
  · intro L hL
    rw [wf.threaded.1.next L (wf.headTower ▸ hL)]
    exact chain_of_threaded wf.threaded.2
  · refine List.pairwise_map.mpr (wf.sorted.imp_of_mem ?_)
    intro a b ha hb hle
    exact ⟨a.node, b.node, wf.threaded.live (List.mem_cons_of_mem _ ha),
      wf.threaded.live (List.mem_cons_of_mem _ hb), hle⟩
  · intro L hL before a after hsplit ha
    rw [← List.map_cons] at hsplit
    obtain ⟨p, q, hpq, rfl, hq⟩ := List.map_eq_append_iff.mp hsplit
    obtain ⟨e, s, rfl, rfl, rfl⟩ := List.map_eq_cons_iff.mp hq
    have ht := wf.threaded
    have hdistinct := wf.distinct
    have hmem : e ∈ head :: spine := by simp [hpq]
    have htower : L < e.tower := by
      rw [← List.map_cons] at ha
      obtain ⟨x, hx, href⟩ := List.mem_map.mp ha
      have hxmem : x ∈ head :: spine := by
        rcases List.mem_cons.mp hx with rfl | hx
        · exact List.mem_cons_self
        · exact List.mem_cons_of_mem _ (List.mem_filter.mp hx).1
      obtain rfl := List.inj_on_of_nodup_map hdistinct hxmem hmem href
      rcases List.mem_cons.mp hx with rfl | hx
      · exact wf.headTower ▸ hL
      · exact of_decide_eq_true (List.mem_filter.mp hx).2
    rw [hpq] at ht hdistinct
    rw [List.map_append, List.map_cons] at hdistinct
    exact width_of_linked ht.linked
      (List.nodup_cons.mp (List.nodup_append.mp hdistinct).2.1).2 htower

namespace Stores

/-- A key is found exactly when it has an entry. -/
theorem findNode_isSome (hst : Stores maxNodeHeight sl head spine m)
    (ndebug : Bool) (key : K) :
    ∃ node, sl.findNode ndebug key = .ok node ∧
      node.isSome = (m.newest key).isSome := by
  obtain ⟨lo, es, gt, rfl, hlo, hes, hgt⟩ :=
    exists_cut_equal hst.wf.sorted key
  have hhi : ∀ x ∈ es ++ gt, key ≤ x.key := le_key_of_cut hes hgt
  rcases hst.wf.findNode_spec hlo hhi ndebug with
    ⟨hne, hfind⟩ | ⟨e, he, hkey, hfind⟩
  · refine ⟨_, hfind, ?_⟩
    cases es with
    | nil =>
        rw [List.nil_append] at hst
        rw [hst.newest_absent hlo hgt]
        rfl
    | cons e es =>
        exact absurd (hes e List.mem_cons_self).symm (hne e (by simp))
  · refine ⟨_, hfind, ?_⟩
    cases es with
    | nil => exact absurd hkey (hgt e he).ne
    | cons e' es =>
        rw [hst.newest_of_cut hlo (hes e' List.mem_cons_self)]
        rfl

theorem contains_spec (hst : Stores maxNodeHeight sl head spine m)
    (ndebug : Bool) (key : K) :
    sl.contains ndebug key =
      .ok (.returned (m.newest key).isSome sl) := by
  obtain ⟨node, hfind, hsome⟩ := hst.findNode_isSome ndebug key
  simp [SkipList.contains, hst.wf.ready, hfind, hsome]

theorem length_entries (hst : Stores maxNodeHeight sl head spine m) :
    spine.length = m.entries.length := by
  rw [← hst.entries, stamped, List.length_map]

theorem visited_eq (hst : Stores maxNodeHeight sl head spine m) :
    visited sl.heap spine =
      m.entries.map fun x => (x.key, x.value.row.data) := by
  rw [← hst.entries, visited, contents, stamped, List.map_map, List.map_map]
  rfl

theorem agrees (hst : Stores maxNodeHeight sl head spine m) :
    AgreesMultimap maxNodeHeight sl m := by
  refine ⟨?_, hst.contains_spec true, ?_, ?_, ?_, hst.wf.validate_spec true⟩
  · intro c
    obtain ⟨o, -, hrun, hresult, hsame, -⟩ := hst.call_simulates c
    exact ⟨o, hrun, hresult, hsame⟩
  · intro calculate
    rw [hst.wf.getSize_spec, hst.length_entries]
  · intro how
    rw [hst.wf.scan_spec, hst.visited_eq]
  · have hstamps : m.entries.map Stamped.stamp = spine.map Entry.ref := by
      rw [← hst.entries, stamped, List.map_map]
      rfl
    rw [hstamps]
    exact ⟨_, _, hst.wf.layered⟩

end Stores

end Observe

/-- A secondary list refines a multimap when assertions are compiled out: it
initializes, every run of calls goes through, and the list it ends in answers
every further call and every observation like the multimap, with exact levels
and widths. -/
theorem secondaryList_refines_multimap [Inhabited K] {maxNodeHeight : ℕ}
    (hmax : 1 ≤ maxNodeHeight) (changes : List (Change K D)) :
    ∃ sl₀ sl, (SkipList.new false maxNodeHeight).initializeList true =
        .ok (.returned () sl₀) ∧
      Machine.run (SkipList.step true) sl₀ (changes.map Change.call) =
        some sl ∧
      AgreesMultimap maxNodeHeight sl
        (multimapAfter maxNodeHeight changes) := by
  obtain ⟨sl, head, spine, hrun, hst⟩ := run_stores hmax changes
  exact ⟨_, sl, initializeList_spec true false hmax, hrun, hst.agrees⟩

/-- Two entries of the same key, the older one taller: the removal takes away
the newer one. -/
theorem secondaryList_refines_multimap_same_key :
    ∃ sl₀ sl : SkipList Int32 Bool,
      (SkipList.new false 2).initializeList true = .ok (.returned () sl₀) ∧
        Machine.run (SkipList.step true) sl₀
          ([.insert ⟨7, some false, 1, 2, fun _ => 0, none⟩,
            .insert ⟨7, some true, 2, 1, fun _ => 0, none⟩,
            .insert ⟨5, some true, 2, 1, fun _ => 0, none⟩,
            .remove 7].map Change.call) = some sl ∧
        (∀ how, SkipList.visit how sl.scan =
          .ok (.returned [(5, some true), (7, some false)] sl)) ∧
        sl.contains true 7 = .ok (.returned true sl) ∧
        sl.validate true = .ok true := by
  obtain ⟨sl₀, sl, hinitialized, hrun, hagrees⟩ :=
    secondaryList_refines_multimap (K := Int32) (by decide : 1 ≤ 2)
      [.insert ⟨7, some false, 1, 2, fun _ => 0, none⟩,
        .insert ⟨7, some true, 2, 1, fun _ => 0, none⟩,
        .insert ⟨5, some true, 2, 1, fun _ => 0, none⟩, .remove 7]
  exact ⟨sl₀, sl, hinitialized, hrun, hagrees.scan, hagrees.contains 7,
    hagrees.validate⟩

end SquidDB.Core
