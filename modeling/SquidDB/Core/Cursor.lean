import SquidDB.Lib.MapScan
import SquidDB.Core.SkipListDescent

/-!
# Iterators over a list that changes

The caller of a scan may change the list between two rounds of its loop.  An
iterator holds the address of a node, which the list deletes when its key is
removed.  It therefore follows a scan of the map: it survives every change that
leaves its own key bound, and reads a deleted node in the first round behind
any other.
-/

namespace SquidDB.Core

open Checked Heap SkipListIterator

variable {K D : Type}

/-- A list and an iterator over it, with the rows its owner has read. -/
structure Cursor (K D : Type) where
  list : SkipList K D
  iterator : SkipListIterator K
  fetched : List (K × Option D)

/-- A call on the list, or a round of the loop over the iterator. -/
inductive CursorEvent (K D : Type) where
  | call (c : Call K D)
  | fetch (how : Advance)

/-- The ways to build an iterator. -/
inductive Opening (K : Type) where
  | scan
  | seek (first : K) (last : Option K)
  deriving DecidableEq, Repr

variable [LinearOrder K]

namespace Opening

/-- The keys an iterator may start at. -/
def admits : Opening K → K → Bool
  | .scan, _ => true
  | .seek first _, key => decide (first ≤ key)

omit [LinearOrder K] in
def last : Opening K → Option K
  | .scan => none
  | .seek _ last => last

theorem admits_mono (opening : Opening K) (j k : K) (hjk : j ≤ k)
    (hj : opening.admits j) : opening.admits k := by
  cases opening with
  | scan => rfl
  | seek first last =>
      simp only [admits, decide_eq_true_eq] at hj ⊢
      exact hj.trans hjk

end Opening

/-- Build an iterator. -/
def SkipList.openIterator (sl : SkipList K D) (ndebug : Bool) :
    Opening K → Checked (Outcome (SkipList K D) (SkipListIterator K))
  | .scan => sl.scan
  | .seek first last => sl.seek ndebug first last

namespace Cursor

/-- One round of the loop: while the iterator is valid, read the key and the
data and advance. -/
def fetch (s : Cursor K D) (how : Advance) : Checked (Cursor K D) :=
  if s.iterator.valid then do
    let key ← s.iterator.getKey s.list.heap
    let data ← s.iterator.getData s.list.heap
    let it ← s.iterator.advance s.list.heap how
    pure { s with iterator := it, fetched := s.fetched ++ [(key, data)] }
  else
    .ok s

/-- The machine of both; it stops at a fault. -/
def step (ndebug : Bool) (s : Cursor K D) :
    CursorEvent K D → Option (Cursor K D)
  | .call c => (s.list.step ndebug c).map fun list => { s with list := list }
  | .fetch how => (s.fetch how).toOption

omit [LinearOrder K] in
/-- The key of the node under the iterator, as long as the node is live. -/
def under (s : Cursor K D) : Option K :=
  s.iterator.current.bind s.list.heap.keyOf

end Cursor

/-- The same events on a scan of the map. -/
def scanStep (maxNodeHeight : ℕ) (a : MapScan K (RowData D)) :
    CursorEvent K D → Option (MapScan K (RowData D))
  | .call c => some (a.change (mapCall maxNodeHeight a.map c).2)
  | .fetch _ => a.fetch

omit [LinearOrder K] in
/-- The calls among the events. -/
def callsOf (events : List (CursorEvent K D)) : List (Call K D) :=
  events.filterMap fun
    | .call c => some c
    | .fetch _ => none

/-! ## Calls keep the nodes of the keys that stay -/

section Calls

variable {sl : SkipList K D} {head : Entry K} {spine : List (Entry K)}
  {m : SortedMap K (RowData D)}

/-- The sequence after a call consists of entries from before and of nodes
allocated meanwhile, and an entry whose key stays bound stays itself. -/
structure Retains (sl : SkipList K D) (spine : List (Entry K))
    (sl' : SkipList K D) (spine' : List (Entry K)) : Prop where
  kept : ∀ e ∈ spine, (∃ e' ∈ spine', e'.key = e.key) → e ∈ spine'
  new : ∀ e ∈ spine', e ∈ spine ∨ sl.heap.nodeCount ≤ e.ref
  count : sl.heap.nodeCount ≤ sl'.heap.nodeCount

omit [LinearOrder K] in
theorem Retains.refl (sl : SkipList K D) (spine : List (Entry K)) :
    Retains sl spine sl spine :=
  ⟨fun _ he _ => he, fun _ he => Or.inl he, le_rfl⟩

theorem mapCall_of_ne {maxNodeHeight : ℕ} {c : Call K D}
    (hne : (mapCall maxNodeHeight m c).1 ≠ .ok true) :
    (mapCall maxNodeHeight m c).2 = m := by
  cases c with
  | insert key data size nodeHeight draw transaction =>
      by_cases hhigh : nodeHeight > maxNodeHeight
      · simp [mapCall, hhigh]
      · by_cases hkey : (m.lookup key).isSome
        · simp [mapCall, hhigh, hkey]
        · simp [mapCall, hhigh, hkey] at hne
  | remove key =>
      by_cases hkey : (m.lookup key).isSome
      · simp [mapCall, hkey] at hne
      · simp [mapCall, hkey]
  | update key data size transaction =>
      by_cases hkey : (m.lookup key).isSome
      · simp [mapCall, hkey] at hne
      · simp [mapCall, hkey]

theorem binds_mapCall_iff {maxNodeHeight : ℕ} {c : Call K D} {key : K}
    (hkey : m.Binds key) :
    (mapCall maxNodeHeight m c).2.Binds key ↔ c ≠ .remove key := by
  cases c with
  | insert key' data size nodeHeight draw transaction =>
      simp only [mapCall, ne_eq, reduceCtorEq, not_false_eq_true, iff_true]
      split
      · exact hkey
      · split
        · exact hkey
        · rw [SortedMap.Binds, SortedMap.lookup_put]
          split
          · rfl
          · exact hkey
  | remove key' =>
      by_cases heq : key = key'
      · subst heq
        simp [mapCall, hkey, SortedMap.Binds, SortedMap.lookup_erase]
      · have hne : key' ≠ key := Ne.symm heq
        simp only [mapCall, ne_eq, Call.remove.injEq, hne, not_false_eq_true,
          iff_true]
        split
        · rwa [SortedMap.Binds, SortedMap.lookup_erase, if_neg heq]
        · exact hkey
  | update key' data size transaction =>
      simp only [mapCall, ne_eq, reduceCtorEq, not_false_eq_true, iff_true]
      split
      · rw [SortedMap.Binds, SortedMap.lookup_put]
        split
        · rfl
        · exact hkey
      · exact hkey

theorem PrimaryWellFormed.insert_retains {lo hi : List (Entry K)} {key : K}
    (wf : PrimaryWellFormed sl head (lo ++ hi))
    (hm : contents sl.heap (lo ++ hi) = m.entries)
    (hlo : ∀ e ∈ lo, e.key < key) (hhi : ∀ e ∈ hi, key < e.key)
    (ndebug : Bool) (data : Option D) (size : ℕ) {nodeHeight : ℕ}
    (hheight : nodeHeight ≤ sl.maxNodeHeight) (draw : ℕ → ℕ)
    (transaction : Option Transaction) :
    ∃ sl' spine', sl.call ndebug
        (.insert key data size nodeHeight draw transaction) =
        .ok (.returned true sl') ∧
      PrimaryWellFormed sl' head spine' ∧
      contents sl'.heap spine' = (m.put key ⟨data, size⟩).entries ∧
      sl'.maxNodeHeight = sl.maxNodeHeight ∧
      Retains sl (lo ++ hi) sl' spine' := by
  obtain ⟨sl', hrun, wf', hmax, hrow, -⟩ :=
    wf.insert_spec hlo hhi ndebug data size hheight draw
  obtain ⟨sl₁, hrun₁, -, -, -, -, -, hcount⟩ :=
    wf.toWellFormed.insert_spec hlo (fun e he => (hhi e he).le) ndebug data
      size hheight draw fun _ e he => (hhi e he).ne
  obtain rfl : sl' = sl₁ := by
    simpa using (hrun none).symm.trans (hrun₁ none)
  refine ⟨sl', _, by rw [SkipList.call, hrun]; rfl, wf', ?_, hmax, ?_, ?_,
    by omega⟩
  · rw [contents_append] at hm
    rw [contents_insert wf.toWellFormed hrow,
      SortedMap.entries_put_of_absent hm.symm
        (forall_contents (· < key) hlo) (forall_contents (key < ·) hhi)]
  · intro e he _
    exact List.perm_middle.mem_iff.mpr (List.mem_cons_of_mem _ he)
  · intro e he
    rcases List.mem_cons.mp (List.perm_middle.mem_iff.mp he) with rfl | he
    · exact Or.inr le_rfl
    · exact Or.inl he

/-- A call that returns true removes the entry with the key. -/
theorem PrimaryWellFormed.remove_retains {lo hi : List (Entry K)}
    {e : Entry K} (wf : PrimaryWellFormed sl head (lo ++ e :: hi))
    (hm : contents sl.heap (lo ++ e :: hi) = m.entries) (ndebug : Bool) :
    ∃ sl' spine', sl.call ndebug (.remove e.key) =
        .ok (.returned true sl') ∧
      PrimaryWellFormed sl' head spine' ∧
      contents sl'.heap spine' = (m.erase e.key).entries ∧
      sl'.maxNodeHeight = sl.maxNodeHeight ∧
      Retains sl (lo ++ e :: hi) sl' spine' := by
  obtain ⟨sl', r, info, hr, -, hrun, wf', hmax, hrow, -⟩ :=
    wf.remove_spec ndebug
  have hstrict := List.pairwise_append.mp wf.strict
  have hhi := List.pairwise_cons.mp hstrict.2.1
  have hlo : ∀ x ∈ lo, x.key < e.key :=
    fun x hx => hstrict.2.2 x hx e List.mem_cons_self
  have hcut : WellFormed sl head (lo ++ (e :: [] ++ hi)) := wf.toWellFormed
  have hassert : ndebug = true ∨
      ∀ x ∈ ([] : List (Entry K)), x.tower ≤ e.tower := Or.inr (by simp)
  obtain ⟨sl₁, -, -, -, -, hrun₁, -, -, -, -, -, hcount⟩ :=
    hcut.remove_spec hlo (by simp) hhi.1 hassert
  obtain rfl : sl' = sl₁ := by simpa using hrun.symm.trans hrun₁
  refine ⟨sl', _, hrun, wf', ?_, hmax, ?_, ?_, hcount.ge⟩
  · rw [contents_append, contents_cons] at hm
    rw [SortedMap.entries_erase_of_present hm.symm,
      wf.rows.contents_update hr hrow _ fun x hx => hx, contents_append]
  · rintro x hx ⟨x', hx', hkey⟩
    have hne : x' ∈ lo ++ hi → x'.key ≠ e.key := by
      intro hmem
      rcases List.mem_append.mp hmem with hmem | hmem
      · exact (hlo x' hmem).ne
      · exact (hhi.1 x' hmem).ne'
    rcases List.mem_cons.mp (List.perm_middle.mem_iff.mp hx) with rfl | hx
    · exact absurd hkey (hne hx')
    · exact hx
  · intro x hx
    exact Or.inl (List.perm_middle.mem_iff.mpr (List.mem_cons_of_mem _ hx))

theorem PrimaryWellFormed.update_retains {lo hi : List (Entry K)}
    {e : Entry K} (wf : PrimaryWellFormed sl head (lo ++ e :: hi))
    (hm : contents sl.heap (lo ++ e :: hi) = m.entries) (ndebug : Bool)
    (data : Option D) (size : ℕ) (transaction : Option Transaction) :
    ∃ sl' spine', sl.call ndebug (.update e.key data size transaction) =
        .ok (.returned true sl') ∧
      PrimaryWellFormed sl' head spine' ∧
      contents sl'.heap spine' = (m.put e.key ⟨data, size⟩).entries ∧
      sl'.maxNodeHeight = sl.maxNodeHeight ∧
      Retains sl (lo ++ e :: hi) sl' spine' := by
  obtain ⟨r, info, hr, hinfo, hrun, wf'⟩ := wf.update_spec ndebug data size
  have hrow : (updatedHeap sl.heap r info data size).rowInfo =
      Function.update sl.heap.rowInfo r
        (some { info with data := data, size := size }) := rfl
  have hinfo' : (updatedHeap sl.heap r info data size).rowInfo r =
      some { info with data := data, size := size } := by
    simp [hrow]
  have hothers := wf.rows.contents_update hr hrow
  refine ⟨_, lo ++ e :: hi, by rw [SkipList.call, hrun]; rfl, wf', ?_, rfl,
    fun _ he _ => he, fun _ he => Or.inl he, le_rfl⟩
  rw [contents_append, contents_cons] at hm
  rw [SortedMap.entries_put_of_present hm.symm, contents_append,
    contents_cons, dataOf_of_rowInfo hr hinfo',
    hothers lo fun x hx => List.mem_append_left _ hx,
    hothers hi fun x hx => List.mem_append_right _ hx]
  rfl

/-- A call on a list whose sequence is known. -/
theorem PrimaryWellFormed.exists_call (wf : PrimaryWellFormed sl head spine)
    (hm : contents sl.heap spine = m.entries) (ndebug : Bool)
    (c : Call K D) :
    ∃ o spine', sl.call ndebug c = .ok o ∧
      PrimaryWellFormed o.state head spine' ∧
      contents o.state.heap spine' =
        (mapCall sl.maxNodeHeight m c).2.entries ∧
      o.state.maxNodeHeight = sl.maxNodeHeight ∧
      Retains sl spine o.state spine' := by
  have hrep : Represents sl.maxNodeHeight sl m := ⟨head, spine, wf, hm, rfl⟩
  obtain ⟨o, hcall, hresult, -, hsame⟩ := call_simulates ndebug hrep c
  by_cases htrue : o.result = .ok true
  · rw [hresult] at htrue
    have hof : ∀ {m' : SortedMap K (RowData D)},
        (mapCall sl.maxNodeHeight m c).2 = m' →
        (∃ sl' spine', sl.call ndebug c = .ok (.returned true sl') ∧
          PrimaryWellFormed sl' head spine' ∧
          contents sl'.heap spine' = m'.entries ∧
          sl'.maxNodeHeight = sl.maxNodeHeight ∧
          Retains sl spine sl' spine') →
        ∃ o spine', sl.call ndebug c = .ok o ∧
          PrimaryWellFormed o.state head spine' ∧
          contents o.state.heap spine' =
            (mapCall sl.maxNodeHeight m c).2.entries ∧
          o.state.maxNodeHeight = sl.maxNodeHeight ∧
          Retains sl spine o.state spine' := by
      rintro m' rfl ⟨sl', spine', hrun, hrest⟩
      exact ⟨_, spine', hrun, hrest⟩
    cases c with
    | insert key data size nodeHeight draw transaction =>
        have hheight : nodeHeight ≤ sl.maxNodeHeight := by
          by_contra hhigh
          simp [mapCall, Nat.lt_of_not_le hhigh] at htrue
        have hnot : ¬nodeHeight > sl.maxNodeHeight := by omega
        rcases wf.cut key with
          ⟨lo, hi, rfl, hlo, hhi⟩ | ⟨lo, e, hi, rfl, rfl⟩
        · refine hof ?_ (wf.insert_retains hm hlo hhi ndebug data size
            hheight draw transaction)
          simp [mapCall, hnot, lookup_absent hm hlo hhi]
        · simp [mapCall, hnot, lookup_present hm] at htrue
    | remove key =>
        rcases wf.cut key with
          ⟨lo, hi, rfl, hlo, hhi⟩ | ⟨lo, e, hi, rfl, rfl⟩
        · simp [mapCall, lookup_absent hm hlo hhi] at htrue
        · refine hof ?_ (wf.remove_retains hm ndebug)
          simp [mapCall, lookup_present hm]
    | update key data size transaction =>
        rcases wf.cut key with
          ⟨lo, hi, rfl, hlo, hhi⟩ | ⟨lo, e, hi, rfl, rfl⟩
        · simp [mapCall, lookup_absent hm hlo hhi] at htrue
        · refine hof ?_ (wf.update_retains hm ndebug data size transaction)
          simp [mapCall, lookup_present hm]
  · -- the call changes neither the list nor the map
    have hmap := mapCall_of_ne (hresult ▸ htrue)
    refine ⟨o, spine, hcall, ?_⟩
    rw [hsame htrue, hmap]
    exact ⟨wf, hm, rfl, Retains.refl sl spine⟩

end Calls

/-! ## A cursor follows a scan -/

/-- Where the iterator stands when the scan stands at a position. -/
def Stands (h : Heap K D) (spine : List (Entry K)) (current : Option NodeRef) :
    ScanPosition K → Prop
  | .on key => ∃ e ∈ spine, e.key = key ∧ current = some e.ref
  | .finished => current = none
  | .stranded => ∃ a < h.nodeCount, current = some a ∧ h.node a = none

/-- The list stands for the map of the scan, and the iterator stands where
the scan does. -/
def Follows (maxNodeHeight : ℕ) (s : Cursor K D)
    (a : MapScan K (RowData D)) : Prop :=
  ∃ head spine, PrimaryWellFormed s.list head spine ∧
    contents s.list.heap spine = a.map.entries ∧
    s.list.maxNodeHeight = maxNodeHeight ∧ s.iterator.endKey = a.last ∧
    s.fetched = rowsOf a.fetched ∧
    Stands s.list.heap spine s.iterator.current a.position

section Follow

variable {sl sl' : SkipList K D} {head : Entry K}
  {spine spine' lo hi : List (Entry K)} {maxNodeHeight : ℕ}
  {s : Cursor K D} {a : MapScan K (RowData D)}

omit [LinearOrder K] in
theorem binds_of_contents [LinearOrder K] {m : SortedMap K (RowData D)}
    (hm : contents sl.heap spine = m.entries) {key : K} :
    m.Binds key ↔ ∃ e ∈ spine, e.key = key := by
  rw [SortedMap.binds_iff, ← hm]
  simp only [contents, List.mem_map, Prod.mk.injEq]
  constructor
  · rintro ⟨-, e, he, hkey, -⟩
    exact ⟨e, he, hkey⟩
  · rintro ⟨e, he, hkey⟩
    exact ⟨_, e, he, hkey, rfl⟩

theorem cutOff_arrive (ht : Threaded sl.heap hi) (last : Option K)
    (hsub : ∀ e ∈ hi, e ∈ spine) :
    match MapScan.arrive last (hi.head?.map Entry.key) with
    | none => cutOff sl.heap ⟨hi.head?.map Entry.ref, last⟩ =
        .error .nullPointer
    | some position => ∃ current,
        cutOff sl.heap ⟨hi.head?.map Entry.ref, last⟩ =
          .ok ⟨current, last⟩ ∧ Stands sl.heap spine current position := by
  cases hi with
  | nil =>
      cases last with
      | none => exact ⟨none, rfl, rfl⟩
      | some bound => simp [MapScan.arrive, cutOff, pastEnd, Heap.getKey]
  | cons e hi =>
      have hmem : e ∈ spine := hsub e List.mem_cons_self
      have hkey : sl.heap.getKey (some e.ref) = .ok e.key :=
        getKey_of_node ht.1.live
      cases last with
      | none => exact ⟨some e.ref, rfl, e, hmem, rfl, rfl⟩
      | some bound =>
          by_cases hpast : bound < e.key
          · simp [MapScan.arrive, cutOff, pastEnd, hkey, hpast, Stands]
          · simp only [MapScan.arrive, List.head?_cons, Option.map_some,
              hpast, if_false]
            refine ⟨some e.ref, ?_, e, hmem, rfl, rfl⟩
            simp [cutOff, pastEnd, hkey, hpast]

theorem dead_of_retains (wf : PrimaryWellFormed sl head spine)
    (wf' : PrimaryWellFormed sl' head spine')
    (hret : Retains sl spine sl' spine') {r : NodeRef}
    (hr : r < sl.heap.nodeCount) (hhead : r ≠ head.ref)
    (hdead : ∀ e ∈ spine, e ∈ spine' → r ≠ e.ref) :
    sl'.heap.node r = none := by
  rcases hnode : sl'.heap.node r with _ | n
  · rfl
  · obtain ⟨e, he, hre⟩ := List.mem_map.mp (wf'.owned r n hnode)
    rcases List.mem_cons.mp he with rfl | he
    · exact absurd hre.symm hhead
    · rcases hret.new e he with hold | hnew
      · exact absurd hre.symm (hdead e hold he)
      · exact absurd (hre ▸ hnew) (Nat.not_le.mpr hr)

/-- A call moves the iterator as it moves the scan. -/
theorem stands_call {m' : SortedMap K (RowData D)}
    (wf : PrimaryWellFormed sl head spine)
    (wf' : PrimaryWellFormed sl' head spine')
    (hm' : contents sl'.heap spine' = m'.entries)
    (hret : Retains sl spine sl' spine') {current : Option NodeRef}
    (hstands : Stands sl.heap spine current a.position) :
    Stands sl'.heap spine' current (a.change m').position := by
  rw [MapScan.change]
  rcases hposition : a.position with key | _ | _
  · rw [hposition] at hstands
    obtain ⟨e, he, rfl, hcurrent⟩ := hstands
    by_cases hbinds : m'.Binds e.key
    · simp only [hbinds, if_true]
      exact ⟨e, hret.kept e he ((binds_of_contents hm').mp hbinds), rfl,
        hcurrent⟩
    · simp only [hbinds, if_false]
      have hlt := wf.ref_lt (List.mem_cons_of_mem _ he)
      obtain ⟨hhead, hdistinct⟩ := List.nodup_cons.mp wf.distinct
      refine ⟨e.ref, hlt.trans_le hret.count, hcurrent,
        dead_of_retains wf wf' hret hlt ?_ ?_⟩
      · rintro heq
        exact hhead (heq ▸ List.mem_map_of_mem he)
      · intro x hx hx' heq
        rw [← List.inj_on_of_nodup_map hdistinct he hx heq] at hx'
        exact hbinds ((binds_of_contents hm').mpr ⟨e, hx', rfl⟩)
  · rw [hposition] at hstands
    exact hstands
  · rw [hposition] at hstands
    obtain ⟨r, hr, hcurrent, hdead⟩ := hstands
    have hlive : ∀ e ∈ head :: spine, r ≠ e.ref := by
      rintro e he rfl
      rw [wf.threaded.live he] at hdead
      cases hdead
    exact ⟨r, hr.trans_le hret.count, hcurrent,
      dead_of_retains wf wf' hret hr (hlive head List.mem_cons_self)
        fun e he _ => hlive e (List.mem_cons_of_mem _ he)⟩

/-- A call on the list is a change of the map. -/
theorem Follows.call (hf : Follows maxNodeHeight s a) (ndebug : Bool)
    (c : Call K D) :
    ∃ sl', s.list.step ndebug c = some sl' ∧
      Follows maxNodeHeight { s with list := sl' }
        (a.change (mapCall maxNodeHeight a.map c).2) := by
  obtain ⟨head, spine, wf, hm, rfl, hlast, hfetched, hstands⟩ := hf
  obtain ⟨o, spine', hcall, wf', hm', hmax, hret⟩ :=
    wf.exists_call hm ndebug c
  refine ⟨o.state, by simp [SkipList.step, hcall, Except.toOption], head,
    spine', wf', hm', hmax, hlast, hfetched, ?_⟩
  exact stands_call wf wf' hm' hret hstands

/-- A round of the loop is a fetch of the scan. -/
theorem Follows.fetch (hf : Follows maxNodeHeight s a) (how : Advance) :
    Option.Rel (Follows maxNodeHeight) (s.fetch how).toOption a.fetch := by
  have hf' := hf
  obtain ⟨head, spine, wf, hm, hmax, hlast, hfetched, hstands⟩ := hf
  rw [MapScan.fetch, Cursor.fetch]
  rcases hposition : a.position with key | _ | _
  · rw [hposition] at hstands
    obtain ⟨e, he, rfl, hcurrent⟩ := hstands
    obtain ⟨lo, hi, rfl⟩ := List.append_of_mem he
    have ht : Threaded s.list.heap (e :: hi) :=
      Threaded.tail (s := head :: lo) wf.threaded
    have hiterator : s.iterator = ⟨some e.ref, a.last⟩ := by
      rw [← hcurrent, ← hlast]
    have hrow := wf.readable e he
    obtain ⟨hkey, hdata⟩ := read_entry ht.1.live hrow a.last
    have hadvance := advance_entry ht.1 (wf.towers_pos e he)
      (fun x hx => wf.towers_pos x (by simp [hx])) how a.last
    have hlookup := lookup_present hm
    rw [contents_append, contents_cons] at hm
    have hnext := SortedMap.least_gt_of_cut hm.symm
    have hsub : ∀ x ∈ hi, x ∈ lo ++ e :: hi := fun x hx => by simp [hx]
    have harrive := cutOff_arrive ht.2 a.last hsub
    have hhead : (contents s.list.heap hi).head?.map Prod.fst =
        hi.head?.map Entry.key := by
      cases hi <;> rfl
    simp only [hiterator, valid, Option.isSome_some, if_true, hkey, hdata,
      hadvance, ok_bind, hlookup, hnext, hhead]
    rcases hpos : MapScan.arrive a.last (hi.head?.map Entry.key) with
      _ | position
    · rw [hpos] at harrive
      rw [harrive]
      exact .none
    · rw [hpos] at harrive
      obtain ⟨current, hcut, hstands⟩ := harrive
      rw [hcut]
      refine .some ⟨head, _, wf, ?_, hmax, rfl, ?_, hstands⟩
      · rw [contents_append, contents_cons]
        exact hm
      · simp [hfetched, rowsOf]
  · rw [hposition] at hstands
    have hinvalid : s.iterator.valid = false := by
      rw [valid, show s.iterator.current = none from hstands]
      rfl
    simp only [hinvalid, Bool.false_eq_true, if_false]
    exact .some hf'
  · rw [hposition] at hstands
    obtain ⟨r, -, hcurrent, hdead⟩ := hstands
    have hvalid : s.iterator.valid = true := by
      rw [valid, hcurrent]
      rfl
    simp only [hvalid, if_true, SkipListIterator.getKey, hcurrent,
      Heap.getKey, nonNull_some, ok_bind, load_of_eq_none hdead, error_bind]
    exact .none

/-- Every event of a cursor is the same event of the scan. -/
theorem Follows.step (ndebug : Bool) (s : Cursor K D)
    (a : MapScan K (RowData D)) (e : CursorEvent K D)
    (hf : Follows maxNodeHeight s a) :
    Option.Rel (Follows maxNodeHeight) (s.step ndebug e)
      (scanStep maxNodeHeight a e) := by
  cases e with
  | call c =>
      obtain ⟨sl', hstep, hf'⟩ := hf.call ndebug c
      rw [Cursor.step, hstep]
      exact .some hf'
  | fetch how => exact hf.fetch how

/-- An iterator is built where a scan is opened. -/
theorem Represents.openIterator_spec {m : SortedMap K (RowData D)}
    (hrep : Represents maxNodeHeight sl m) (ndebug : Bool)
    (opening : Opening K) {it : SkipListIterator K}
    (hopen : sl.openIterator ndebug opening = .ok (.returned it sl')) :
    ∃ a, MapScan.start m opening.admits opening.last = some a ∧
      Follows maxNodeHeight ⟨sl', it, []⟩ a := by
  obtain ⟨head, spine, wf, hm, hmax⟩ := hrep
  have hstart : ∃ lo hi, spine = lo ++ hi ∧
      (∀ e ∈ lo, ¬opening.admits e.key) ∧
      (∀ e ∈ hi, opening.admits e.key) ∧
      sl.openIterator ndebug opening = (do
        let it ← cutOff sl.heap ⟨hi.head?.map Entry.ref, opening.last⟩
        pure (.returned it sl)) := by
    cases opening with
    | scan =>
        refine ⟨[], spine, rfl, by simp, fun _ _ => rfl, ?_⟩
        simp [SkipList.openIterator, SkipList.scan, SkipList.begin, wf.ready,
          wf.getNext_head, SkipListIterator.new, Opening.last]
    | seek first last =>
        obtain ⟨lo, hi, rfl, hlo, hhi⟩ := exists_cut wf.sorted first
        refine ⟨lo, hi, rfl, ?_, ?_, ?_⟩
        · intro e he
          simpa [Opening.admits] using hlo e he
        · intro e he
          simpa [Opening.admits] using hhi e he
        · simp [SkipList.openIterator, SkipList.seek, wf.ready,
            wf.seekFrom_spec hlo hhi ndebug, SkipListIterator.new,
            Opening.last]
  obtain ⟨lo, hi, rfl, hlo, hhi, hrun⟩ := hstart
  have ht : Threaded sl.heap hi :=
    Threaded.tail (s := head :: lo) wf.threaded
  have hsub : ∀ x ∈ hi, x ∈ lo ++ hi := fun x hx => by simp [hx]
  have harrive := cutOff_arrive ht opening.last hsub
  have hcut := hm
  rw [contents_append] at hcut
  have hleast := SortedMap.least_of_cut (p := opening.admits) hcut.symm
    (forall_contents (fun k => ¬opening.admits k) hlo)
    (forall_contents (fun k => opening.admits k) hhi)
  have hhead : (contents sl.heap hi).head?.map Prod.fst =
      hi.head?.map Entry.key := by
    cases hi <;> rfl
  rw [hhead] at hleast
  rw [hrun] at hopen
  rw [MapScan.start, hleast]
  rcases hpos : MapScan.arrive opening.last (hi.head?.map Entry.key) with
    _ | position
  · rw [hpos] at harrive
    rw [harrive] at hopen
    cases hopen
  · rw [hpos] at harrive
    obtain ⟨current, hcut, hstands⟩ := harrive
    rw [hcut] at hopen
    cases hopen
    exact ⟨_, rfl, head, _, wf, hm, hmax, rfl, rfl, hstands⟩

/-- The key under the iterator is the one the scan stands on. -/
theorem Follows.under_eq_iff (hf : Follows maxNodeHeight s a) {key : K} :
    s.under = some key ↔ a.position = .on key := by
  obtain ⟨head, spine, wf, -, -, -, -, hstands⟩ := hf
  rw [Cursor.under]
  rcases hposition : a.position with key' | _ | _
  · rw [hposition] at hstands
    obtain ⟨e, he, rfl, hcurrent⟩ := hstands
    have hlive := wf.threaded.live (List.mem_cons_of_mem _ he)
    simp [hcurrent, Heap.keyOf, hlive]
  · rw [hposition] at hstands
    simp [show s.iterator.current = none from hstands]
  · rw [hposition] at hstands
    obtain ⟨r, -, hcurrent, hdead⟩ := hstands
    simp [hcurrent, Heap.keyOf, hdead]

/-- An iterator is exhausted when the scan has finished. -/
theorem Follows.valid_eq_false_iff (hf : Follows maxNodeHeight s a) :
    s.iterator.valid = false ↔ a.position = .finished := by
  obtain ⟨head, spine, wf, -, -, -, -, hstands⟩ := hf
  rw [valid]
  rcases hposition : a.position with key | _ | _
  · rw [hposition] at hstands
    obtain ⟨e, -, -, hcurrent⟩ := hstands
    simp [hcurrent]
  · rw [hposition] at hstands
    simp [show s.iterator.current = none from hstands]
  · rw [hposition] at hstands
    obtain ⟨r, -, hcurrent, -⟩ := hstands
    simp [hcurrent]

end Follow

/-! ## Runs of the scan -/

section Scans

variable {maxNodeHeight : ℕ} {a a' : MapScan K (RowData D)}
  {events : List (CursorEvent K D)} {key : K}

/-- The calls alone decide the map. -/
theorem map_of_run (hrun : Machine.run (scanStep maxNodeHeight) a events =
      some a') :
    a'.map = (callsOf events).foldl
      (fun m c => (mapCall maxNodeHeight m c).2) a.map := by
  induction events generalizing a with
  | nil =>
      obtain rfl := Option.some.inj hrun
      rfl
  | cons e events ih =>
      obtain ⟨a₁, hstep, hrest⟩ := Option.bind_eq_some_iff.mp hrun
      rw [ih hrest]
      cases e with
      | call c =>
          obtain rfl := Option.some.inj hstep
          rfl
      | fetch how =>
          rcases MapScan.fetch_cases hstep with
            ⟨-, rfl⟩ | ⟨_, _, _, -, -, -, rfl⟩
          · rfl
          · rfl

theorem last_of_step {e : CursorEvent K D}
    (hstep : scanStep maxNodeHeight a e = some a') : a'.last = a.last := by
  cases e with
  | call c =>
      obtain rfl := Option.some.inj hstep
      rfl
  | fetch how =>
      rcases MapScan.fetch_cases hstep with
        ⟨-, rfl⟩ | ⟨_, _, _, -, -, -, rfl⟩
      · rfl
      · rfl

theorem last_of_run (hrun : Machine.run (scanStep maxNodeHeight) a events =
      some a') : a'.last = a.last :=
  Machine.run_invariant (P := fun b => b.last = a.last)
    (fun _ _ _ h hstep => (last_of_step hstep).trans h) rfl hrun

/-- A scan stays sound, and within its range. -/
theorem sound_of_run (opening : Opening K) (hsound : a.Sound)
    (hwithin : a.Within opening.admits)
    (hrun : Machine.run (scanStep maxNodeHeight) a events = some a') :
    a'.Sound ∧ a'.Within opening.admits := by
  refine Machine.run_invariant
    (P := fun b => b.Sound ∧ b.Within opening.admits) ?_
    ⟨hsound, hwithin⟩ hrun
  rintro b e b' ⟨hs, hw⟩ hstep
  cases e with
  | call c =>
      obtain rfl := Option.some.inj hstep
      exact ⟨hs.change _, hw.change _⟩
  | fetch how =>
      exact ⟨hs.fetch hstep, hw.fetch opening.admits_mono hstep⟩

/-- A scan keeps covering a key that is not removed. -/
theorem covers_of_run (hcovers : a.Covers key) (hbinds : a.map.Binds key)
    (hlast : ∀ bound, a.last = some bound → key ≤ bound)
    (hkept : ∀ e ∈ events, e ≠ .call (.remove key))
    (hrun : Machine.run (scanStep maxNodeHeight) a events = some a') :
    a'.Covers key := by
  induction events generalizing a with
  | nil =>
      obtain rfl := Option.some.inj hrun
      exact hcovers
  | cons e events ih =>
      obtain ⟨a₁, hstep, hrest⟩ := Option.bind_eq_some_iff.mp hrun
      obtain ⟨he, hothers⟩ := List.forall_mem_cons.mp hkept
      have hlast₁ := last_of_step hstep
      cases e with
      | call c =>
          obtain rfl := Option.some.inj hstep
          refine ih (hcovers.change _) ?_ hlast hothers hrest
          exact (binds_mapCall_iff hbinds).mpr fun hc => he (hc ▸ rfl)
      | fetch how =>
          have hfetch : a.fetch = some a₁ := hstep
          refine ih (hcovers.fetch hbinds hlast hfetch) ?_ ?_ hothers hrest
          · rcases MapScan.fetch_cases hfetch with
              ⟨-, rfl⟩ | ⟨_, _, _, -, -, -, rfl⟩
            · exact hbinds
            · exact hbinds
          · rw [hlast₁]
            exact hlast

/-- Whatever was fetched was bound at the time. -/
theorem fetched_of_run {b : K × RowData D}
    (hrun : Machine.run (scanStep maxNodeHeight) a events = some a')
    (hb : b ∈ a'.fetched) :
    b ∈ a.fetched ∨ ∃ before after a₁, events = before ++ after ∧
      Machine.run (scanStep maxNodeHeight) a before = some a₁ ∧
      a₁.map.lookup b.1 = some b.2 := by
  induction events generalizing a with
  | nil =>
      obtain rfl := Option.some.inj hrun
      exact Or.inl hb
  | cons e events ih =>
      obtain ⟨a₁, hstep, hrest⟩ := Option.bind_eq_some_iff.mp hrun
      rcases ih hrest with hfetched | ⟨before, after, a₂, rfl, hbefore, hmem⟩
      · cases e with
        | call c =>
            obtain rfl := Option.some.inj hstep
            exact Or.inl hfetched
        | fetch how =>
            rcases MapScan.fetch_cases hstep with
              ⟨-, rfl⟩ | ⟨_, _, _, -, hlookup, -, rfl⟩
            · exact Or.inl hfetched
            · rcases List.mem_append.mp hfetched with hold | hnew
              · exact Or.inl hold
              · rw [List.mem_singleton.mp hnew]
                exact Or.inr ⟨[], .fetch how :: events, a, rfl, rfl, hlookup⟩
      · refine Or.inr ⟨e :: before, after, a₂, rfl, ?_, hmem⟩
        rw [Machine.run_cons, hstep, Option.bind_some, hbefore]

/-- A stranded scan stays where it is. -/
theorem stranded_of_run (hstranded : a.position = .stranded)
    (hrun : Machine.run (scanStep maxNodeHeight) a events = some a') :
    a'.position = .stranded := by
  refine Machine.run_invariant (P := fun b => b.position = .stranded) ?_
    hstranded hrun
  intro b e b' hb hstep
  cases e with
  | call c =>
      obtain rfl := Option.some.inj hstep
      simp [MapScan.change, hb]
  | fetch how => simp [scanStep, MapScan.fetch, hb] at hstep

/-- What strands a scan is the removal of the key it stands on. -/
theorem stranded_iff (hsound : a.Sound) (hstart : a.position ≠ .stranded)
    (hrun : Machine.run (scanStep maxNodeHeight) a events = some a') :
    a'.position = .stranded ↔
      ∃ before key after a₁, events = before ++ .call (.remove key) :: after ∧
        Machine.run (scanStep maxNodeHeight) a before = some a₁ ∧
        a₁.position = .on key := by
  constructor
  · intro hstranded
    induction events generalizing a with
    | nil =>
        obtain rfl := Option.some.inj hrun
        exact absurd hstranded hstart
    | cons e events ih =>
        obtain ⟨a₁, hstep, hrest⟩ := Option.bind_eq_some_iff.mp hrun
        by_cases hfirst : a₁.position = .stranded
        · -- the first event strands the scan
          cases e with
          | call c =>
              obtain rfl := Option.some.inj hstep
              rcases hposition : a.position with key | _ | _
              · by_cases hc : c = .remove key
                · exact ⟨[], key, events, a, by rw [hc]; rfl, rfl, hposition⟩
                · have hbinds : (mapCall maxNodeHeight a.map c).2.Binds key :=
                    (binds_mapCall_iff (hsound.standing key hposition)).mpr hc
                  simp [MapScan.change, hposition, hbinds] at hfirst
              · simp [MapScan.change, hposition] at hfirst
              · exact absurd hposition hstart
          | fetch how =>
              have hfetch : a.fetch = some a₁ := hstep
              rcases MapScan.fetch_cases hfetch with
                ⟨hposition, rfl⟩ | ⟨_, _, _, -, -, harrive, rfl⟩
              · rw [hposition] at hfirst
                cases hfirst
              · exact absurd hfirst (MapScan.arrive_ne_stranded harrive)
        · have hsound₁ : a₁.Sound := by
            cases e with
            | call c =>
                obtain rfl := Option.some.inj hstep
                exact hsound.change _
            | fetch how => exact hsound.fetch hstep
          obtain ⟨before, key, after, a₂, rfl, hbefore, hposition⟩ :=
            ih hsound₁ hfirst hrest
          refine ⟨e :: before, key, after, a₂, rfl, ?_, hposition⟩
          rw [Machine.run_cons, hstep, Option.bind_some, hbefore]
  · rintro ⟨before, key, after, a₁, rfl, hbefore, hposition⟩
    rw [Machine.run_append, hbefore, Option.bind_some, Machine.run_cons,
      scanStep, Option.bind_some] at hrun
    refine stranded_of_run ?_ hrun
    have hunbound : ¬(mapCall maxNodeHeight a₁.map (.remove key)).2.Binds
        key := by
      by_cases hbinds : a₁.map.Binds key
      · rw [binds_mapCall_iff hbinds]
        exact not_not.mpr rfl
      · rwa [mapCall_of_ne]
        simp [mapCall, hbinds]
    simp [MapScan.change, hposition, hunbound]

end Scans

/-! ## Runs of a cursor -/

namespace Cursor

variable [Inhabited K] {ndebug : Bool} {maxNodeHeight : ℕ}
  {calls : List (Call K D)} {opening : Opening K} {s₀ s : Cursor K D}
  {events : List (CursorEvent K D)}

/-- An iterator that was just built over a list that any calls have made. -/
def Opened (ndebug : Bool) (maxNodeHeight : ℕ) (calls : List (Call K D))
    (opening : Opening K) (s : Cursor K D) : Prop :=
  ∃ sl₀ sl, (SkipList.new true maxNodeHeight).initializeList ndebug =
      .ok (.returned () sl₀) ∧
    Machine.run (SkipList.step ndebug) sl₀ calls = some sl ∧
    sl.openIterator ndebug opening = .ok (.returned s.iterator s.list) ∧
    s.fetched = []

/-- The map the list stands for after the events. -/
def mapNow (maxNodeHeight : ℕ) (calls : List (Call K D))
    (events : List (CursorEvent K D)) : SortedMap K (RowData D) :=
  mapAfter maxNodeHeight (calls ++ callsOf events)

theorem Opened.exists_scan (h : Opened ndebug maxNodeHeight calls opening s) :
    ∃ a, MapScan.start (mapAfter maxNodeHeight calls) opening.admits
        opening.last = some a ∧ Follows maxNodeHeight s a := by
  obtain ⟨sl₀, sl, hinit, hrun, hopen, hfetched⟩ := h
  have hmax : 0 < maxNodeHeight := by
    by_contra hzero
    simp [SkipList.initializeList, SkipList.new,
      Nat.eq_zero_of_not_pos hzero] at hinit
  rw [initializeList_spec ndebug true hmax] at hinit
  cases hinit
  obtain ⟨sl', hrun', hrep⟩ := run_represents ndebug hmax calls
  obtain rfl := Option.some.inj (hrun.symm.trans hrun')
  obtain ⟨a, hstart, hf⟩ := hrep.openIterator_spec ndebug opening hopen
  refine ⟨a, hstart, ?_⟩
  rwa [← hfetched] at hf

/-- A run of the cursor is a run of a scan of the map. -/
theorem Opened.exists_run
    (h : Opened ndebug maxNodeHeight calls opening s₀)
    (hrun : Machine.run (Cursor.step ndebug) s₀ events = some s) :
    ∃ a₀ a, MapScan.start (mapAfter maxNodeHeight calls) opening.admits
        opening.last = some a₀ ∧
      Machine.run (scanStep maxNodeHeight) a₀ events = some a ∧
      Follows maxNodeHeight s a ∧ a.map = mapNow maxNodeHeight calls events ∧
      a.last = opening.last ∧ a.Sound ∧ a.Within opening.admits ∧
      ∀ before s₁,
        Machine.run (Cursor.step ndebug) s₀ before = some s₁ →
        ∃ a₁, Machine.run (scanStep maxNodeHeight) a₀ before = some a₁ ∧
          Follows maxNodeHeight s₁ a₁ := by
  obtain ⟨a₀, hstart, hf₀⟩ := h.exists_scan
  have hrel : ∀ before s₁,
      Machine.run (Cursor.step ndebug) s₀ before = some s₁ →
      ∃ a₁, Machine.run (scanStep maxNodeHeight) a₀ before = some a₁ ∧
        Follows maxNodeHeight s₁ a₁ := fun before s₁ =>
    Machine.exists_run_of_rel (fun s a e hf => hf.step ndebug s a e) hf₀
  obtain ⟨a, harun, hf⟩ := hrel events s hrun
  obtain ⟨hsound, hwithin⟩ := sound_of_run opening
    (MapScan.start_sound hstart) (MapScan.start_within hstart) harun
  refine ⟨a₀, a, hstart, harun, hf, ?_, ?_, hsound, hwithin, hrel⟩
  · rw [map_of_run harun, mapNow, mapAfter, List.foldl_append, ← mapAfter]
    obtain ⟨position, -, rfl⟩ := Option.map_eq_some_iff.mp hstart
    rfl
  · rw [last_of_run harun]
    obtain ⟨position, -, rfl⟩ := Option.map_eq_some_iff.mp hstart
    rfl

omit [Inhabited K] in
theorem fetch_faults_iff_scan {a : MapScan K (RowData D)}
    (hf : Follows maxNodeHeight s a) (how : Advance) :
    (∃ fault, s.fetch how = .error fault) ↔ a.fetch = none := by
  have hrel := hf.fetch how
  rcases hfetch : s.fetch how with fault | s'
  · rw [hfetch] at hrel
    generalize a.fetch = y at hrel ⊢
    cases hrel
    simp
  · rw [hfetch] at hrel
    generalize a.fetch = y at hrel ⊢
    cases hrel with
    | some h => simp

omit [Inhabited K] in
theorem scan_fetch_eq_none_iff {a : MapScan K (RowData D)}
    (hsound : a.Sound) :
    a.fetch = none ↔ a.position = .stranded ∨ a.last.isSome ∧
      ∃ key, a.position = .on key ∧ ∀ b ∈ a.map.entries, b.1 ≤ key := by
  rw [MapScan.fetch]
  rcases hposition : a.position with key | _ | _
  · obtain ⟨v, hlookup⟩ := Option.isSome_iff_exists.mp
      (hsound.standing key hposition)
    have hgreatest : a.map.least (fun j => decide (key < j)) = none ↔
        ∀ b ∈ a.map.entries, b.1 ≤ key := by
      simp only [SortedMap.least_eq_none_iff, SortedMap.binds_iff,
        decide_eq_true_eq, not_lt]
      constructor
      · intro h b hb
        exact h b.1 ⟨b.2, hb⟩
      · rintro h j ⟨v, hv⟩
        exact h (j, v) hv
    simp only [hlookup, Option.map_eq_none_iff, MapScan.arrive_eq_none_iff,
      hgreatest, reduceCtorEq, false_or, ScanPosition.on.injEq,
      exists_eq_left']
  · simp
  · simp

/-- A round of the loop faults exactly when a call has removed the key the
iterator stood on, whatever calls followed, or when the iterator has an end key
and stands on the greatest key of the list. -/
theorem fetch_faults_iff
    (hopened : Opened ndebug maxNodeHeight calls opening s₀)
    (hrun : Machine.run (Cursor.step ndebug) s₀ events = some s)
    (how : Advance) :
    (∃ fault, s.fetch how = .error fault) ↔
      (∃ before key after s₁,
        events = before ++ .call (.remove key) :: after ∧
        Machine.run (Cursor.step ndebug) s₀ before = some s₁ ∧
        s₁.under = some key) ∨
      (opening.last.isSome ∧ ∃ key, s.under = some key ∧
        ∀ b ∈ (mapNow maxNodeHeight calls events).entries, b.1 ≤ key) := by
  obtain ⟨a₀, a, hstart, harun, hf, hmap, hlast, hsound, -, hrel⟩ :=
    hopened.exists_run hrun
  have hposition : a₀.position ≠ .stranded := by
    obtain ⟨position, harrive, rfl⟩ := Option.map_eq_some_iff.mp hstart
    exact MapScan.arrive_ne_stranded harrive
  rw [fetch_faults_iff_scan hf, scan_fetch_eq_none_iff hsound,
    stranded_iff (MapScan.start_sound hstart) hposition harun, hlast, hmap]
  refine or_congr ?_ (and_congr Iff.rfl (exists_congr fun key =>
    and_congr hf.under_eq_iff.symm Iff.rfl))
  constructor
  · rintro ⟨before, key, after, a₁, rfl, hbefore, hon⟩
    obtain ⟨s₁, hbefore', -⟩ := Option.bind_eq_some_iff.mp
      ((Machine.run_append s₀ before _).symm.trans hrun)
    obtain ⟨a₂, harun₂, hf₂⟩ := hrel before s₁ hbefore'
    obtain rfl := Option.some.inj (hbefore.symm.trans harun₂)
    exact ⟨before, key, after, s₁, rfl, hbefore', hf₂.under_eq_iff.mpr hon⟩
  · rintro ⟨before, key, after, s₁, rfl, hbefore, hunder⟩
    obtain ⟨a₁, harun₁, hf₁⟩ := hrel before s₁ hbefore
    exact ⟨before, key, after, a₁, rfl, harun₁, hf₁.under_eq_iff.mp hunder⟩

/-- A list with the keys 3 and 5. -/
def twoKeys : List (Call ℤ Unit) :=
  [.insert 3 none 0 1 (fun _ => 0) none, .insert 5 none 0 1 (fun _ => 0) none]

/-- An iterator at the beginning of that list. -/
def twoKeyScan : Cursor ℤ Unit where
  list := (Machine.run (SkipList.step false) (initialList true 1)
    twoKeys).getD (initialList true 1)
  iterator := ⟨some 1, none⟩
  fetched := []

theorem twoKeyScan_opened : Opened false 1 twoKeys .scan twoKeyScan :=
  ⟨initialList true 1, twoKeyScan.list, rfl, rfl, rfl, rfl⟩

/-- The iterator has read 3 when 5 is removed. -/
theorem fetch_faults_iff_removed :
    ∃ s, Machine.run (Cursor.step false) twoKeyScan
        [.fetch .next, .call (.remove 5)] = some s ∧
      ∃ fault, s.fetch .next = .error fault := by
  refine ⟨_, rfl, ?_⟩
  exact (fetch_faults_iff twoKeyScan_opened rfl .next).mpr
    (Or.inl ⟨[.fetch .next], 5, [], _, rfl, rfl, rfl⟩)

/-- Over a list that changes meanwhile, the rows of an iterator come in
strictly ascending order and from its range, each as the list held it at some
moment; and once the iterator is exhausted, they include every key of the range
that was held when the iterator stood at or below it, and was not removed
since. -/
theorem fetched_spec
    (hopened : Opened ndebug maxNodeHeight calls opening s₀)
    (hrun : Machine.run (Cursor.step ndebug) s₀ events = some s) :
    (s.fetched.map Prod.fst).Pairwise (· < ·) ∧
      (∀ row ∈ s.fetched,
        (opening.admits row.1 ∧ ∀ bound, opening.last = some bound →
          row.1 ≤ bound) ∧
        ∃ before after v, events = before ++ after ∧
          (mapNow maxNodeHeight calls before).lookup row.1 = some v ∧
          row.2 = v.data) ∧
      (s.iterator.valid = false → ∀ before after key s₁,
        events = before ++ after →
        Machine.run (Cursor.step ndebug) s₀ before = some s₁ →
        (mapNow maxNodeHeight calls before).Binds key →
        (∀ bound, opening.last = some bound → key ≤ bound) →
        (∀ e ∈ after, e ≠ .call (.remove key)) →
        (before = [] ∧ opening.admits key ∨
          ∃ j, s₁.under = some j ∧ j ≤ key) →
        key ∈ s.fetched.map Prod.fst) := by
  obtain ⟨a₀, a, hstart, harun, hf, -, hlast, hsound, hwithin, hrel⟩ :=
    hopened.exists_run hrun
  have hrows : s.fetched = rowsOf a.fetched := by
    obtain ⟨_, _, -, -, -, -, hfetched, -⟩ := hf
    exact hfetched
  have hkeys : s.fetched.map Prod.fst = a.fetched.map Prod.fst := by
    rw [hrows, rowsOf, List.map_map]
    rfl
  have hmap₀ : a₀.map = mapAfter maxNodeHeight calls ∧ a₀.fetched = [] := by
    obtain ⟨position, -, rfl⟩ := Option.map_eq_some_iff.mp hstart
    exact ⟨rfl, rfl⟩
  have hmap : ∀ before a₁,
      Machine.run (scanStep maxNodeHeight) a₀ before = some a₁ →
      a₁.map = mapNow maxNodeHeight calls before := by
    intro before a₁ hbefore
    rw [map_of_run hbefore, hmap₀.1, mapNow, mapAfter, mapAfter,
      List.foldl_append]
  refine ⟨hkeys ▸ hsound.ascending, ?_, ?_⟩
  · intro row hrow
    rw [hrows, rowsOf] at hrow
    obtain ⟨b, hb, rfl⟩ := List.mem_map.mp hrow
    refine ⟨hlast ▸ hwithin.fetched b hb, ?_⟩
    rcases fetched_of_run harun hb with hold | ⟨before, after, a₁, rfl,
      hbefore, hlookup⟩
    · rw [hmap₀.2] at hold
      cases hold
    · rw [hmap before a₁ hbefore] at hlookup
      exact ⟨before, after, b.2, rfl, hlookup, rfl⟩
  · rintro hvalid before after key s₁ rfl hbefore hbinds hbound hkept hahead
    obtain ⟨a₁, harun₁, hf₁⟩ := hrel before s₁ hbefore
    have hafter : Machine.run (scanStep maxNodeHeight) a₁ after = some a := by
      rw [Machine.run_append, harun₁] at harun
      exact harun
    rw [← hmap before a₁ harun₁] at hbinds
    have hlast₁ : a₁.last = opening.last :=
      (last_of_run hafter).symm.trans hlast
    have hcovers : a₁.Covers key := by
      rcases hahead with ⟨rfl, hadmits⟩ | ⟨j, hunder, hle⟩
      · obtain rfl := Option.some.inj harun₁
        rw [hmap₀.1] at hbinds
        exact MapScan.start_covers hstart hbinds hadmits hbound
      · exact Or.inr (Or.inl ⟨j, hf₁.under_eq_iff.mp hunder, hle⟩)
    rw [hkeys]
    exact (covers_of_run hcovers hbinds (hlast₁ ▸ hbound) hkept
      hafter).of_finished (hf.valid_eq_false_iff.mp hvalid)

/-- The iterator has read 3 when 7 is inserted. -/
theorem fetched_spec_inserted :
    ∃ s, Machine.run (Cursor.step false) twoKeyScan
        [.fetch .next, .call (.insert 7 none 0 1 (fun _ => 0) none),
          .fetch .next, .fetch .next] = some s ∧
      7 ∈ s.fetched.map Prod.fst := by
  refine ⟨_, rfl, ?_⟩
  exact (fetched_spec twoKeyScan_opened rfl).2.2 rfl
    [.fetch .next, .call (.insert 7 none 0 1 (fun _ => 0) none)]
    [.fetch .next, .fetch .next] 7 _ rfl rfl rfl (by simp [Opening.last])
    (by simp) (Or.inr ⟨5, rfl, by decide⟩)

end Cursor

end SquidDB.Core
