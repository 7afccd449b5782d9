import SquidDB.Lib.Tallest
import SquidDB.Core.SkipListMultimap

/-!
# A secondary list with all its calls

`find`, `update` and `seek` stop at the first node with the key that they meet
on their way down.  Among equal keys the towers decide which one that is: the
newest of the tallest entries.  `remove` takes away the newest entry, and cuts
each older one down to the levels that a newer one had.  The multimap of this
module keeps the towers, so it says what every call does.
-/

namespace SquidDB.Core

open Checked Heap SkipListIterator

variable {K D : Type}

/-- A stored row and the number of levels its entry is linked on. -/
structure TowerRow (D : Type) where
  row : RowData D
  tower : ℕ
  deriving DecidableEq, Repr

/-- The entry as it is seen from outside; nodes are the stamps. -/
def Entry.towered (h : Heap K D) (e : Entry K) : Stamped K (TowerRow D) :=
  ⟨e.key, e.ref, ⟨h.dataOf e.node, e.tower⟩⟩

/-- The height of the tower of an entry. -/
def towerOf (x : Stamped K (TowerRow D)) : ℕ := x.value.tower

/-- What a caller reads at an entry. -/
def readAt (x : Stamped K (TowerRow D)) : K × Option D :=
  (x.key, x.value.row.data)

variable [LinearOrder K]

/-! ## The multimap -/

/-- The entry that a search for the key meets: the newest of the tallest. -/
def met (m : SortedMultimap K (TowerRow D)) (key : K) :
    Option (Stamped K (TowerRow D)) :=
  Tower.firstTallest towerOf (m.entries.filter fun x => x.key = key)

/-- The entries from where `seek` starts: those above the key, and of the key
itself the one met and the older ones. -/
def sought (m : SortedMultimap K (TowerRow D)) (key : K) :
    List (Stamped K (TowerRow D)) :=
  match met m key with
  | some e => m.fromTime key e.stamp
  | none => m.entries.filter fun x => key < x.key

/-- Take away the newest entry of a key; an older one keeps the levels that
some newer one had. -/
def takeAway (m : SortedMultimap K (TowerRow D)) (key : K) :
    SortedMultimap K (TowerRow D) :=
  (m.pop key).mapValues fun x =>
    if x.key = key then
      { x.value with
        tower := min x.value.tower
          (Tower.top towerOf (m.newer key x.stamp)) }
    else x.value

/-- Change the row of one entry. -/
def rewriteRow (m : SortedMultimap K (TowerRow D)) (stamp : ℕ)
    (row : RowData D) : SortedMultimap K (TowerRow D) :=
  m.mapValues fun x =>
    if x.stamp = stamp then { x.value with row := row } else x.value

/-- What a call does to the multimap, with the result the caller sees. -/
def secondaryCall (maxNodeHeight : ℕ) (m : SortedMultimap K (TowerRow D)) :
    Call K D → Except String Bool × SortedMultimap K (TowerRow D)
  | .insert key data size nodeHeight draw _ =>
      if nodeHeight > maxNodeHeight then
        (.error "SkipList<K>::insert nodeHeight > maxNodeHeight", m)
      else
        (.ok true, m.push key ⟨⟨data, size⟩,
          SkipList.chosenHeight maxNodeHeight nodeHeight draw⟩)
  | .remove key =>
      if (m.newest key).isSome then (.ok true, takeAway m key)
      else (.ok false, m)
  | .update key data size _ =>
      match met m key with
      | some e => (.ok true, rewriteRow m e.stamp ⟨data, size⟩)
      | none => (.ok false, m)

/-- The multimap after a sequence of calls on an empty list, whose head is
node 0. -/
def secondaryAfter (maxNodeHeight : ℕ) (calls : List (Call K D)) :
    SortedMultimap K (TowerRow D) :=
  calls.foldl (fun m c => (secondaryCall maxNodeHeight m c).2) (.empty 1)

/-- A removal that unlinks different nodes on different levels: the newest
entry of the key is not the tallest. -/
def Clashes (m : SortedMultimap K (TowerRow D)) : Call K D → Prop
  | .remove key => ∃ e, m.newest key = some e ∧
      ∃ x ∈ m.entries, x.key = key ∧ towerOf e < towerOf x
  | .insert .. | .update .. => False

/-- The sequence describes the list, and its entries are those of the
multimap. -/
structure Carries (maxNodeHeight : ℕ) (sl : SkipList K D) (head : Entry K)
    (spine : List (Entry K)) (m : SortedMultimap K (TowerRow D)) :
    Prop where
  wf : WellFormed sl head spine
  secondary : sl.primaryIndex = false
  entries : spine.map (Entry.towered sl.heap) = m.entries
  clock : sl.heap.nodeCount = m.clock
  height : sl.maxNodeHeight = maxNodeHeight

/-- How a call ends: an assertion fails, or the multimap follows it. -/
inductive Answers (maxNodeHeight : ℕ) (ndebug : Bool) (sl : SkipList K D)
    (head : Entry K) (m : SortedMultimap K (TowerRow D)) (c : Call K D) :
    Prop where
  | failed (hdebug : ndebug = false) (hclash : Clashes m c)
      (hrun : sl.call ndebug c = .error .assertFailed)
  | completed (o : Outcome (SkipList K D) Bool) (spine' : List (Entry K))
      (hclash : ¬(ndebug = false ∧ Clashes m c))
      (hrun : sl.call ndebug c = .ok o)
      (hresult : o.result = (secondaryCall maxNodeHeight m c).1)
      (hsame : o.result ≠ .ok true → o.state = sl)
      (hcarries : Carries maxNodeHeight o.state head spine'
        (secondaryCall maxNodeHeight m c).2)

/-- Everything a caller can observe of the list agrees with the multimap. -/
structure AgreesSecondary (maxNodeHeight : ℕ) (ndebug : Bool)
    (sl : SkipList K D) (m : SortedMultimap K (TowerRow D)) : Prop where
  call : ∀ c : Call K D, ¬(ndebug = false ∧ Clashes m c) →
    ∃ o, sl.call ndebug c = .ok o ∧
      o.result = (secondaryCall maxNodeHeight m c).1 ∧
      (o.result ≠ .ok true → o.state = sl)
  clash : ∀ c : Call K D, ndebug = false ∧ Clashes m c →
    sl.call ndebug c = .error .assertFailed
  find : ∀ key, sl.find ndebug key =
    .ok (.returned ((met m key).bind fun e => e.value.row.data) sl)
  contains : ∀ key, sl.contains ndebug key =
    .ok (.returned (met m key).isSome sl)
  size : ∀ calculate, sl.getSize calculate =
    .ok (.returned m.entries.length sl)
  cardinality : ∀ lowKey highKey,
    sl.estimateRangeCardinality ndebug lowKey highKey =
      .ok (.returned (m.entries.countP fun x =>
        decide (lowKey ≤ x.key ∧ x.key < highKey)) sl)
  scan : ∀ how, SkipList.visit how sl.scan =
    .ok (.returned (m.entries.map readAt) sl)
  position : ∀ key, sl.seek ndebug key none =
    .ok (.returned ⟨(sought m key).head?.map Stamped.stamp, none⟩ sl)
  visits : ∀ how key, SkipList.visit how (sl.seek ndebug key none) =
    .ok (.returned ((sought m key).map readAt) sl)
  range : ∀ how key endKey,
    SkipList.visit how (sl.rangeScan ndebug key endKey) =
      if ∃ x ∈ sought m key, endKey < x.key then
        .ok (.returned (((sought m key).filter fun x =>
          x.key ≤ endKey).map readAt) sl)
      else .error .nullPointer

/-! ## Searches -/

theorem SkipList.seekFrom_of_findNodeFrom {ndebug : Bool} {h : Heap K D}
    {key : K} {a : NodeRef} {levels : ℕ} {start : Option NodeRef}
    (hfind : findNodeFrom ndebug h key levels start = .ok (some a)) :
    seekFrom ndebug h key levels start = .ok (some a) := by
  induction levels generalizing start with
  | zero => cases hfind
  | succ level ih =>
      rw [findNodeFrom] at hfind
      rw [seekFrom]
      obtain ⟨first, hfirst, hfind⟩ := bind_eq_ok.mp hfind
      obtain ⟨⟨trail, node⟩, hskip, hfind⟩ := bind_eq_ok.mp hfind
      obtain ⟨u, hassert, hfind⟩ := bind_eq_ok.mp hfind
      obtain ⟨equal, hequal, hfind⟩ := bind_eq_ok.mp hfind
      simp only [hfirst, hskip, hassert, hequal, ok_bind]
      cases equal with
      | true => exact hfind
      | false =>
          obtain ⟨v, hbelow, hfind⟩ := bind_eq_ok.mp hfind
          simp only [Bool.false_eq_true, if_false, hbelow, ok_bind]
          cases level with
          | zero => cases hfind
          | succ level => exact ih hfind

section Call

variable {maxNodeHeight : ℕ} {sl : SkipList K D} {head e : Entry K}
  {spine lo es gt : List (Entry K)} {m : SortedMultimap K (TowerRow D)}
  {key : K}

theorem WellFormed.tower_le (wf : WellFormed sl head spine) {x : Entry K}
    (hx : x ∈ spine) : x.tower ≤ sl.maxNodeHeight := by
  obtain ⟨rest, hlinked⟩ :=
    wf.threaded.linked_of_mem (List.mem_cons_of_mem head hx)
  exact hlinked.tower_le.trans (wf.towers x hx).2

/-- Where a search for a stored key ends. -/
theorem WellFormed.exists_search
    (wf : WellFormed sl head (lo ++ (e :: es ++ gt)))
    (hlo : ∀ x ∈ lo, x.key < key) (hes : ∀ x ∈ e :: es, x.key = key)
    (hgt : ∀ x ∈ gt, key < x.key) (ndebug : Bool) :
    ∃ w, Tower.firstTallest Entry.tower (e :: es) = some w ∧
      sl.findNode ndebug key = .ok (some w.ref) ∧
      SkipList.seekFrom ndebug sl.heap key sl.maxNodeHeight sl.head =
        .ok (some w.ref) := by
  have hhi : ∀ x ∈ e :: es ++ gt, key ≤ x.key := le_key_of_cut hes hgt
  have hkey : key = e.key := (hes e List.mem_cons_self).symm
  rcases wf.findNode_spec hlo hhi ndebug with
    ⟨hnone, -⟩ | ⟨v, -, -, hfind⟩
  · exact absurd hkey (hnone e (by simp))
  have hseek := SkipList.seekFrom_of_findNodeFrom hfind
  rcases wf.seekFrom_spec hlo hhi ndebug with
    ⟨hnone, -⟩ | ⟨w, hw, hkeyw, hseek', L, hL, hfirst, habove⟩
  · exact absurd hkey (hnone e (by simp))
  have href : v.ref = w.ref := by
    rw [hseek] at hseek'
    exact Option.some.inj (Except.ok.inj hseek')
  refine ⟨w, ?_, href ▸ hfind, hseek'⟩
  have hreached : ∃ x ∈ e :: es, L < x.tower := by
    by_contra hlow
    push Not at hlow
    rw [Tower.nextAt_append_of_le hlow] at hfirst
    exact absurd hkeyw (hgt w (List.mem_of_find?_eq_some hfirst)).ne
  rw [Tower.nextAt_append_of_exists hreached] at hfirst
  refine Tower.firstTallest_of_nextAt hfirst fun x hx => ?_
  by_contra htaller
  -- the level above would have shown the key
  have hmem : x ∈ lo ++ (e :: es ++ gt) :=
    List.mem_append_right _ (List.mem_append_left _ hx)
  have hlevel : L + 1 < sl.maxNodeHeight :=
    (Nat.not_le.mp htaller).trans_le (wf.tower_le hmem)
  have hseen : ∃ y ∈ e :: es, L + 1 < y.tower :=
    ⟨x, hx, Nat.not_le.mp htaller⟩
  rcases hy : Tower.nextAt Entry.tower (L + 1) (e :: es) with _ | y
  · exact htaller (Tower.nextAt_eq_none_iff.mp hy x hx)
  · refine habove (L + 1) hlevel (Nat.lt_succ_self L) y ?_
      (hes y (List.mem_of_find?_eq_some hy)).symm
    rw [Tower.nextAt_append_of_exists hseen, hy]

/-! ## Sequences and multimaps -/

omit [LinearOrder K] in
@[simp] theorem towerOf_towered (h : Heap K D) (x : Entry K) :
    towerOf (x.towered h) = x.tower := rfl

omit [LinearOrder K] in
theorem forall_towered (P : K → Prop) (h : Heap K D)
    (hP : ∀ x ∈ spine, P x.key) :
    ∀ x ∈ spine.map (Entry.towered h), P x.key :=
  List.forall_mem_map.mpr hP

omit [LinearOrder K] in
theorem towered_congr {h h' : Heap K D}
    (hcontents : contents h' spine = contents h spine) :
    spine.map (Entry.towered h') = spine.map (Entry.towered h) := by
  apply List.map_congr_left
  intro x hx
  have hdata := List.map_inj_left.mp hcontents x hx
  rw [Entry.towered, (Prod.mk.inj hdata).2]
  rfl

omit [LinearOrder K] in
theorem visited_towered (h : Heap K D) (l : List (Entry K)) :
    visited h l = (l.map (Entry.towered h)).map readAt := by
  rw [visited, contents, List.map_map, List.map_map]
  rfl

namespace Carries

theorem filter_key (hc : Carries maxNodeHeight sl head (lo ++ (es ++ gt)) m)
    (hlo : ∀ x ∈ lo, x.key < key) (hes : ∀ x ∈ es, x.key = key)
    (hgt : ∀ x ∈ gt, key < x.key) :
    (m.entries.filter fun x => x.key = key) =
      es.map (Entry.towered sl.heap) := by
  have hm := hc.entries
  rw [List.map_append, List.map_append] at hm
  exact SortedMultimap.filter_key_of_cut hm.symm
    (forall_towered (· < key) sl.heap hlo)
    (forall_towered (· = key) sl.heap hes)
    (forall_towered (key < ·) sl.heap hgt)

theorem exists_met
    (hc : Carries maxNodeHeight sl head (lo ++ (e :: es ++ gt)) m)
    (hlo : ∀ x ∈ lo, x.key < key) (hes : ∀ x ∈ e :: es, x.key = key)
    (hgt : ∀ x ∈ gt, key < x.key) (ndebug : Bool) :
    ∃ s w t, e :: es = s ++ w :: t ∧
      met m key = some (w.towered sl.heap) ∧
      sl.findNode ndebug key = .ok (some w.ref) ∧
      SkipList.seekFrom ndebug sl.heap key sl.maxNodeHeight sl.head =
        .ok (some w.ref) := by
  obtain ⟨w, htallest, hfind, hseek⟩ :=
    hc.wf.exists_search hlo hes hgt ndebug
  obtain ⟨s, t, hsplit⟩ :=
    List.append_of_mem (List.mem_of_find?_eq_some htallest)
  refine ⟨s, w, t, hsplit, ?_, hfind, hseek⟩
  rw [met, hc.filter_key hlo hes hgt,
    Tower.firstTallest_map Entry.tower _ (towerOf_towered sl.heap), htallest]
  rfl

theorem met_absent (hc : Carries maxNodeHeight sl head (lo ++ gt) m)
    (hlo : ∀ x ∈ lo, x.key < key) (hgt : ∀ x ∈ gt, key < x.key) :
    met m key = none := by
  have hcut : Carries maxNodeHeight sl head (lo ++ ([] ++ gt)) m := hc
  have hfilter := hcut.filter_key hlo (by simp) hgt
  rw [met, hfilter]
  rfl

/-- The newest entry of a key is the first one of the sequence. -/
theorem newest_of_cut
    (hc : Carries maxNodeHeight sl head (lo ++ (e :: es ++ gt)) m)
    (hlo : ∀ x ∈ lo, x.key < key) (he : e.key = key) :
    m.newest key = some (e.towered sl.heap) := by
  have hm := hc.entries
  rw [List.map_append, List.cons_append, List.map_cons] at hm
  exact SortedMultimap.newest_of_cut hm.symm
    (forall_towered (· < key) sl.heap hlo) he

theorem newest_absent (hc : Carries maxNodeHeight sl head (lo ++ gt) m)
    (hlo : ∀ x ∈ lo, x.key < key) (hgt : ∀ x ∈ gt, key < x.key) :
    m.newest key = none := by
  apply SortedMultimap.newest_eq_none_iff.mpr
  rw [← hc.entries]
  apply forall_towered (· ≠ key)
  intro x hx
  rcases List.mem_append.mp hx with hx | hx
  · exact (hlo x hx).ne
  · exact (hgt x hx).ne'

end Carries

/-! ## The calls that change the list -/

omit [LinearOrder K] in
theorem map_unchanged {l : List (Stamped K (TowerRow D))}
    {f : Stamped K (TowerRow D) → TowerRow D}
    (hf : ∀ x ∈ l, f x = x.value) :
    l.map (fun x => ⟨x.key, x.stamp, f x⟩) = l := by
  refine (List.map_congr_left fun x hx => ?_).trans (List.map_id l)
  rw [hf x hx]
  rfl

theorem towered_lowerTowers (h : Heap K D) {cap : ℕ}
    {lo' s gt' : List (Stamped K (TowerRow D))}
    (hm : m.entries = lo' ++ (s ++ es.map (Entry.towered h) ++ gt'))
    (hlo : ∀ x ∈ lo', x.key < key)
    (hkey : ∀ x ∈ s ++ es.map (Entry.towered h), x.key = key)
    (hgt : ∀ x ∈ gt', key < x.key) (hcap : Tower.top towerOf s = cap) :
    (lowerTowers cap es).map (Entry.towered h) =
      (es.map (Entry.towered h)).map fun x =>
        ⟨x.key, x.stamp, { x.value with
          tower := min x.value.tower
            (Tower.top towerOf (m.newer key x.stamp)) }⟩ := by
  induction es generalizing cap s with
  | nil => rfl
  | cons x es ih =>
      rw [List.map_cons] at hm hkey
      have hnewer := SortedMultimap.newer_of_cut hm hlo hkey hgt
      have hcap' : Tower.top towerOf (s ++ [x.towered h]) =
          max cap x.tower := by
        simp [Tower.top_append, hcap]
      have hrest := ih (s := s ++ [x.towered h]) (by simpa using hm)
        (by simpa using hkey) hcap'
      rw [lowerTowers, List.map_cons, List.map_cons, List.map_cons, hrest,
        hnewer, hcap]
      rfl

namespace Carries

/-- A call of `insert` with an admissible height. -/
theorem insert (hc : Carries maxNodeHeight sl head spine m) (ndebug : Bool)
    (key : K) (data : Option D) (size : ℕ) {nodeHeight : ℕ}
    (hheight : nodeHeight ≤ maxNodeHeight) (draw : ℕ → ℕ)
    (transaction : Option Transaction) :
    ∃ sl' spine', sl.call ndebug
          (.insert key data size nodeHeight draw transaction) =
        .ok (.returned true sl') ∧
      Carries maxNodeHeight sl' head spine' (m.push key ⟨⟨data, size⟩,
        SkipList.chosenHeight maxNodeHeight nodeHeight draw⟩) := by
  obtain ⟨lo, hi, rfl, hlo, hhi⟩ := exists_cut hc.wf.sorted key
  have hsecondary : sl.primaryIndex = true → ∀ x ∈ hi, key ≠ x.key := by
    rw [hc.secondary]
    exact fun h => absurd h Bool.false_ne_true
  obtain ⟨sl', hrun, wf', hprimary, hmax, hrow, -, hcount⟩ :=
    hc.wf.insert_spec hlo hhi ndebug data size (hc.height ▸ hheight) draw
      hsecondary
  refine ⟨sl', _, ?_, wf', hprimary.trans hc.secondary, ?_, ?_,
    hmax.trans hc.height⟩
  · rw [SkipList.call, hrun]
    rfl
  · -- the new entry is stamped with the node it is given
    have hnew := hc.wf.rows.contents_allocate hrow
    have hlow := towered_congr (hnew lo fun x hx =>
      List.mem_append_left _ hx)
    have hhigh := towered_congr (hnew hi fun x hx =>
      List.mem_append_right _ hx)
    have hinfo : sl'.heap.rowInfo sl.heap.rowInfoCount =
        some ⟨.none, none, data, size⟩ := by
      simp [hrow]
    have hm := hc.entries
    rw [List.map_append] at hm
    have hpush := SortedMultimap.entries_push (v := ⟨⟨data, size⟩,
        SkipList.chosenHeight maxNodeHeight nodeHeight draw⟩) hm.symm
      (forall_towered (· < key) sl.heap hlo)
      (forall_towered (key ≤ ·) sl.heap hhi)
    rw [hpush, List.map_append, List.map_cons, hlow, hhigh, Entry.towered,
      dataOf_of_rowInfo rfl hinfo, ← hc.clock, ← hc.height]
    rfl
  · rw [SortedMultimap.clock_push, hcount, hc.clock]

/-- A call of `insert` with a height above the maximum throws. -/
theorem insert_too_high (hc : Carries maxNodeHeight sl head spine m)
    (ndebug : Bool) (key : K) (data : Option D) (size : ℕ) {nodeHeight : ℕ}
    (hheight : maxNodeHeight < nodeHeight) (draw : ℕ → ℕ)
    (transaction : Option Transaction) :
    sl.call ndebug (.insert key data size nodeHeight draw transaction) =
      .ok (.thrown "SkipList<K>::insert nodeHeight > maxNodeHeight" sl) := by
  rw [SkipList.call, hc.wf.insert_too_high ndebug key data size
    (hc.height ▸ hheight) draw transaction]
  rfl

/-- A call of `remove` for a stored key, when the assertion in its loop holds
or is compiled out. -/
theorem remove
    (hc : Carries maxNodeHeight sl head (lo ++ (e :: es ++ gt)) m)
    (hlo : ∀ x ∈ lo, x.key < key) (hes : ∀ x ∈ e :: es, x.key = key)
    (hgt : ∀ x ∈ gt, key < x.key) {ndebug : Bool}
    (hassert : ndebug = true ∨ ∀ x ∈ es, x.tower ≤ e.tower) :
    ∃ sl' spine', sl.call ndebug (.remove key) =
        .ok (.returned true sl') ∧
      Carries maxNodeHeight sl' head spine' (takeAway m key) := by
  obtain ⟨sl', r, info, hr, hinfo, hrun, wf', hprimary, hmax, hrow, -,
    hcount⟩ := hc.wf.remove_spec hlo hes hgt hassert
  refine ⟨sl', _, hrun, wf', hprimary.trans hc.secondary, ?_,
    hcount.trans hc.clock, hmax.trans hc.height⟩
  have hlow := forall_towered (· < key) sl.heap hlo
  have hequal := forall_towered (· = key) sl.heap hes
  have hhigh := forall_towered (key < ·) sl.heap hgt
  have hm := hc.entries
  rw [List.map_append, List.map_append, List.map_cons, List.cons_append] at hm
  have hpop := SortedMultimap.entries_pop hm.symm hlow
    (hes e List.mem_cons_self)
  have hothers := hc.wf.rows.contents_update hr hrow
  have hlow' := towered_congr (hothers lo fun x hx => by simp [hx])
  have hhigh' := towered_congr (hothers gt fun x hx => by simp [hx])
  have hlowered : contents sl'.heap (lowerTowers e.tower es) =
      contents sl.heap (lowerTowers e.tower es) := by
    rw [contents_lowerTowers, contents_lowerTowers]
    exact hothers es fun x hx => by simp [hx]
  have hequal' := towered_congr hlowered
  have hcut := towered_lowerTowers sl.heap (s := [e.towered sl.heap]) hm.symm
    hlow hequal hhigh (Nat.max_zero e.tower)
  rw [List.map_append, List.map_append, hlow', hhigh', hequal', hcut,
    takeAway, SortedMultimap.entries_mapValues, hpop, List.map_append,
    List.map_append]
  congr 1
  · refine (map_unchanged fun x hx => ?_).symm
    rw [if_neg (hlow x hx).ne]
  congr 1
  · refine List.map_congr_left fun x hx => ?_
    rw [if_pos (hequal x (List.mem_cons_of_mem _ hx))]
  · refine (map_unchanged fun x hx => ?_).symm
    rw [if_neg (hhigh x hx).ne']

/-- A call of `update` that has found an entry. -/
theorem update (hc : Carries maxNodeHeight sl head spine m) (he : e ∈ spine)
    {ndebug : Bool} (hfind : sl.findNode ndebug key = .ok (some e.ref))
    (data : Option D) (size : ℕ) (transaction : Option Transaction) :
    ∃ sl', sl.call ndebug (.update key data size transaction) =
        .ok (.returned true sl') ∧
      Carries maxNodeHeight sl' head spine
        (rewriteRow m e.ref ⟨data, size⟩) := by
  obtain ⟨r, info, hr, hinfo, hrun⟩ :=
    hc.wf.update_of_findNode he hfind data size
  have wf' := hc.wf.updatedHeap_wellFormed he hr hinfo data size
  refine ⟨_, by rw [SkipList.call, hrun]; rfl, wf', hc.secondary, ?_,
    hc.clock, hc.height⟩
  have hrow : (updatedHeap sl.heap r info data size).rowInfo =
      Function.update sl.heap.rowInfo r
        (some { info with data := data, size := size }) := rfl
  have hinfo' : (updatedHeap sl.heap r info data size).rowInfo r =
      some { info with data := data, size := size } := by
    simp [hrow]
  rw [rewriteRow, SortedMultimap.entries_mapValues, ← hc.entries,
    List.map_map]
  obtain ⟨lo, hi, rfl⟩ := List.append_of_mem he
  have hothers := hc.wf.rows.contents_update hr hrow
  have hdistinct := (List.nodup_cons.mp hc.wf.distinct).2
  apply List.map_congr_left
  intro x hx
  by_cases hxe : x.ref = e.ref
  · obtain rfl := List.inj_on_of_nodup_map hdistinct hx he hxe
    simp [Entry.towered, dataOf_of_rowInfo hr hinfo', RowInfo.rowData]
  · have hx' : x ∈ lo ++ hi := by
      rw [List.mem_append, List.mem_cons] at hx
      rcases hx with hx | rfl | hx
      · exact List.mem_append_left _ hx
      · exact absurd rfl hxe
      · exact List.mem_append_right _ hx
    have hsame := towered_congr (hothers [x] (by simpa using hx'))
    simp only [List.map_cons, List.map_nil, List.cons.injEq, and_true]
      at hsame
    simpa [Entry.towered, hxe] using hsame

/-- A removal clashes exactly when an older entry with the key is taller. -/
theorem clashes_iff
    (hc : Carries maxNodeHeight sl head (lo ++ (e :: es ++ gt)) m)
    (hlo : ∀ x ∈ lo, x.key < key) (hes : ∀ x ∈ e :: es, x.key = key)
    (hgt : ∀ x ∈ gt, key < x.key) :
    Clashes m (.remove key) ↔ ∃ x ∈ es, e.tower < x.tower := by
  have hnewest := hc.newest_of_cut hlo (hes e List.mem_cons_self)
  have hfilter := hc.filter_key hlo hes hgt
  constructor
  · rintro ⟨e', he', y, hy, hkey, htaller⟩
    obtain rfl := Option.some.inj (hnewest.symm.trans he')
    have hmem : y ∈ (e :: es).map (Entry.towered sl.heap) := by
      rw [← hfilter]
      exact List.mem_filter.mpr ⟨hy, decide_eq_true hkey⟩
    obtain ⟨x, hx, rfl⟩ := List.mem_map.mp hmem
    rcases List.mem_cons.mp hx with rfl | hx
    · exact absurd htaller (lt_irrefl _)
    · exact ⟨x, hx, htaller⟩
  · rintro ⟨x, hx, htaller⟩
    refine ⟨_, hnewest, x.towered sl.heap, ?_,
      hes x (List.mem_cons_of_mem _ hx), htaller⟩
    rw [← hc.entries]
    exact List.mem_map_of_mem (by simp [hx])

theorem call_insert (hc : Carries maxNodeHeight sl head spine m)
    (ndebug : Bool) (key : K) (data : Option D) (size nodeHeight : ℕ)
    (draw : ℕ → ℕ) (transaction : Option Transaction) :
    Answers maxNodeHeight ndebug sl head m
      (.insert key data size nodeHeight draw transaction) := by
  by_cases hhigh : nodeHeight > maxNodeHeight
  · refine .completed _ spine (fun h => h.2) (hc.insert_too_high ndebug key
      data size hhigh draw transaction) ?_ (fun _ => rfl) ?_
    · simp [secondaryCall, hhigh]
    · simpa [secondaryCall, hhigh] using hc
  · obtain ⟨sl', spine', hrun, hc'⟩ := hc.insert ndebug key data size
      (Nat.not_lt.mp hhigh) draw transaction
    refine .completed _ spine' (fun h => h.2) hrun ?_
      (fun hne => absurd rfl hne) ?_
    · simp [secondaryCall, hhigh]
    · simpa [secondaryCall, hhigh] using hc'

/-- A call of `remove` is followed by the multimap, or fails its assertion. -/
theorem call_remove (hc : Carries maxNodeHeight sl head spine m)
    (ndebug : Bool) (key : K) :
    Answers maxNodeHeight ndebug sl head m (.remove key) := by
  obtain ⟨lo, es, gt, rfl, hlo, hes, hgt⟩ :=
    exists_cut_equal hc.wf.sorted key
  cases es with
  | nil =>
      rw [List.nil_append] at hc
      have hnone := hc.newest_absent hlo hgt
      refine .completed _ (lo ++ gt) ?_ (hc.wf.remove_absent hlo hgt ndebug)
        ?_ (fun _ => rfl) ?_
      · rintro ⟨-, e, he, -⟩
        rw [hnone] at he
        cases he
      · simp [secondaryCall, hnone]
      · simpa [secondaryCall, hnone] using hc
  | cons e es =>
      have hsome := hc.newest_of_cut hlo (hes e List.mem_cons_self)
      have hiff := hc.clashes_iff hlo hes hgt
      by_cases hclash : ndebug = false ∧ Clashes m (.remove key)
      · obtain ⟨rfl, hclash⟩ := hclash
        obtain ⟨x, hx, htaller⟩ := hiff.mp hclash
        exact .failed rfl hclash (hc.wf.remove_fails hlo hes hgt hx htaller)
      · have hassert : ndebug = true ∨ ∀ x ∈ es, x.tower ≤ e.tower := by
          rw [hiff, not_and_or, Bool.not_eq_false] at hclash
          refine hclash.imp_right fun hnone x hx => ?_
          by_contra htaller
          exact hnone ⟨x, hx, Nat.not_le.mp htaller⟩
        obtain ⟨sl', spine', hrun, hc'⟩ := hc.remove hlo hes hgt hassert
        refine .completed _ spine' hclash hrun ?_
          (fun hne => absurd rfl hne) ?_
        · simp [secondaryCall, hsome]
        · simpa [secondaryCall, hsome] using hc'

theorem call_update (hc : Carries maxNodeHeight sl head spine m)
    (ndebug : Bool) (key : K) (data : Option D) (size : ℕ)
    (transaction : Option Transaction) :
    Answers maxNodeHeight ndebug sl head m
      (.update key data size transaction) := by
  obtain ⟨lo, es, gt, rfl, hlo, hes, hgt⟩ :=
    exists_cut_equal hc.wf.sorted key
  cases es with
  | nil =>
      rw [List.nil_append] at hc
      have hnone := hc.met_absent hlo hgt
      have hfind := hc.wf.find_absent hlo hgt ndebug
      have hrun : sl.update ndebug key data size transaction =
          .ok (.returned (false, transaction) sl) := by
        simp [SkipList.update, hc.wf.ready, hfind]
      refine .completed _ (lo ++ gt) (fun h => h.2)
        (by rw [SkipList.call, hrun]; rfl) ?_ (fun _ => rfl) ?_
      · simp [secondaryCall, hnone]
      · simpa [secondaryCall, hnone] using hc
  | cons e es =>
      obtain ⟨s, w, t, hsplit, hmet, hfind, -⟩ :=
        hc.exists_met hlo hes hgt ndebug
      have hmem : w ∈ lo ++ (e :: es ++ gt) := by
        rw [hsplit]
        simp
      obtain ⟨sl', hrun, hc'⟩ := hc.update hmem hfind data size transaction
      refine .completed _ (lo ++ (e :: es ++ gt)) (fun h => h.2) hrun ?_
        (fun hne => absurd rfl hne) ?_
      · simp [secondaryCall, hmet]
      · simpa [secondaryCall, hmet, Entry.towered] using hc'

theorem call (hc : Carries maxNodeHeight sl head spine m) (ndebug : Bool)
    (c : Call K D) : Answers maxNodeHeight ndebug sl head m c := by
  cases c with
  | insert key data size nodeHeight draw transaction =>
      exact hc.call_insert ndebug key data size nodeHeight draw transaction
  | remove key => exact hc.call_remove ndebug key
  | update key data size transaction =>
      exact hc.call_update ndebug key data size transaction

/-! ## Observations -/

theorem sought_absent (hc : Carries maxNodeHeight sl head (lo ++ gt) m)
    (hlo : ∀ x ∈ lo, x.key < key) (hgt : ∀ x ∈ gt, key < x.key) :
    sought m key = gt.map (Entry.towered sl.heap) := by
  have hlow := forall_towered (· < key) sl.heap hlo
  have hhigh := forall_towered (key < ·) sl.heap hgt
  have hnone : (lo.map (Entry.towered sl.heap)).filter
      (fun x => key < x.key) = [] :=
    List.filter_eq_nil_iff.mpr fun x hx => by simpa using (hlow x hx).le
  have hall : (gt.map (Entry.towered sl.heap)).filter
      (fun x => key < x.key) = gt.map (Entry.towered sl.heap) :=
    List.filter_eq_self.mpr fun x hx => decide_eq_true (hhigh x hx)
  rw [sought, hc.met_absent hlo hgt, ← hc.entries, List.map_append,
    List.filter_append, hnone, hall, List.nil_append]

theorem exists_sought (hc : Carries maxNodeHeight sl head spine m)
    (ndebug : Bool) (key : K) :
    ∃ before after, spine = before ++ after ∧
      SkipList.seekFrom ndebug sl.heap key sl.maxNodeHeight sl.head =
        .ok (after.head?.map Entry.ref) ∧
      sought m key = after.map (Entry.towered sl.heap) := by
  obtain ⟨lo, es, gt, rfl, hlo, hes, hgt⟩ :=
    exists_cut_equal hc.wf.sorted key
  cases es with
  | nil =>
      rw [List.nil_append] at hc ⊢
      refine ⟨lo, gt, rfl, ?_, hc.sought_absent hlo hgt⟩
      rcases hc.wf.seekFrom_spec hlo (fun x hx => (hgt x hx).le) ndebug with
        ⟨-, hseek⟩ | ⟨e, he, hkey, -⟩
      · exact hseek
      · exact absurd hkey (hgt e he).ne
  | cons e es =>
      obtain ⟨s, w, t, hsplit, hmet, -, hseek⟩ :=
        hc.exists_met hlo hes hgt ndebug
      rw [hsplit] at hc hes ⊢
      refine ⟨lo ++ s, w :: t ++ gt, by simp, hseek, ?_⟩
      have hlow := forall_towered (· < key) sl.heap hlo
      have hhigh := forall_towered (key < ·) sl.heap hgt
      have hequal := forall_towered (· = key) sl.heap hes
      have hm := hc.entries
      rw [List.map_append, List.map_append, List.map_append, List.map_cons]
        at hm
      rw [List.map_append, List.map_cons] at hequal
      rw [sought, hmet, List.map_append, List.map_cons]
      exact SortedMultimap.fromTime_of_cut hm.symm hlow hequal hhigh

theorem visit_rangeScan (hc : Carries maxNodeHeight sl head (lo ++ es) m)
    {ndebug : Bool}
    (hseek : SkipList.seekFrom ndebug sl.heap key sl.maxNodeHeight sl.head =
      .ok (es.head?.map Entry.ref)) (how : ℕ → Advance) (endKey : K) :
    SkipList.visit how (sl.rangeScan ndebug key endKey) =
      if ∃ x ∈ es, endKey < x.key then
        .ok (.returned
          (visited sl.heap (es.filter fun x => x.key ≤ endKey)) sl)
      else .error .nullPointer := by
  have wf := hc.wf
  have hlen := wf.length_lt_nodeCount
  rw [List.length_append] at hlen
  have hcollect := collect_endKey
    (Threaded.tail (s := head :: lo) wf.threaded)
    (fun x hx => wf.towers_pos x (List.mem_append_right _ hx))
    (fun x hx => wf.readable x (List.mem_append_right _ hx))
    (List.pairwise_append.mp wf.sorted).2.1 how
    (show es.length < sl.heap.nodeCount + 1 by omega) 0 endKey
  have hvisit : SkipList.visit how (sl.rangeScan ndebug key endKey) = (do
      let rows ← cutOff sl.heap ⟨es.head?.map Entry.ref, some endKey⟩ >>=
        collect sl.heap how (sl.heap.nodeCount + 1) 0
      pure (.returned rows sl)) := by
    simp [SkipList.visit, SkipList.rangeScan, SkipList.seek, wf.ready, hseek,
      SkipListIterator.new]
  rw [hvisit, hcollect]
  split <;> rfl

theorem findNode_met (hc : Carries maxNodeHeight sl head spine m)
    (ndebug : Bool) (key : K) :
    (met m key = none ∧ sl.findNode ndebug key = .ok none) ∨
      ∃ w ∈ spine, met m key = some (w.towered sl.heap) ∧
        sl.findNode ndebug key = .ok (some w.ref) := by
  obtain ⟨lo, es, gt, rfl, hlo, hes, hgt⟩ :=
    exists_cut_equal hc.wf.sorted key
  cases es with
  | nil =>
      rw [List.nil_append] at hc
      exact .inl ⟨hc.met_absent hlo hgt, hc.wf.find_absent hlo hgt ndebug⟩
  | cons e es =>
      obtain ⟨s, w, t, hsplit, hmet, hfind, -⟩ :=
        hc.exists_met hlo hes hgt ndebug
      exact .inr ⟨w, by simp [hsplit], hmet, hfind⟩

theorem agrees (hc : Carries maxNodeHeight sl head spine m)
    (ndebug : Bool) : AgreesSecondary maxNodeHeight ndebug sl m where
  call c hclash := by
    cases hc.call ndebug c with
    | failed hdebug hclash' _ => exact absurd ⟨hdebug, hclash'⟩ hclash
    | completed o _ _ hrun hresult hsame _ =>
        exact ⟨o, hrun, hresult, hsame⟩
  clash c hclash := by
    cases hc.call ndebug c with
    | failed _ _ hrun => exact hrun
    | completed _ _ hnot => exact absurd hclash hnot
  find key := by
    rcases hc.findNode_met ndebug key with
      ⟨hmet, hfind⟩ | ⟨w, hw, hmet, hfind⟩
    · rw [hmet]
      simp [SkipList.find, hc.wf.ready, hfind]
    · rw [hc.wf.find_of_findNode hw hfind, hmet]
      rfl
  contains key := by
    rcases hc.findNode_met ndebug key with
      ⟨hmet, hfind⟩ | ⟨w, hw, hmet, hfind⟩
    · simp [SkipList.contains, hc.wf.ready, hfind, hmet]
    · simp [SkipList.contains, hc.wf.ready, hfind, hmet]
  size calculate := by
    rw [hc.wf.getSize_spec, ← hc.entries, List.length_map]
  cardinality lowKey highKey := by
    rw [hc.wf.estimateRangeCardinality_spec, ← hc.entries, List.countP_map]
    rfl
  scan how := by
    rw [hc.wf.scan_spec, visited_towered, hc.entries]
  position key := by
    obtain ⟨before, after, rfl, hseek, hsought⟩ :=
      hc.exists_sought ndebug key
    rw [hc.wf.seek_of_seekFrom hseek, hsought, List.head?_map,
      Option.map_map]
    rfl
  visits how key := by
    obtain ⟨before, after, rfl, hseek, hsought⟩ :=
      hc.exists_sought ndebug key
    rw [hc.wf.visit_seek hseek, visited_towered, hsought]
  range how key endKey := by
    obtain ⟨before, after, rfl, hseek, hsought⟩ :=
      hc.exists_sought ndebug key
    have hiff : (∃ x ∈ after, endKey < x.key) ↔
        ∃ x ∈ after.map (Entry.towered sl.heap), endKey < x.key := by
      simp [Entry.towered]
    rw [hc.visit_rangeScan hseek, visited_towered, hsought, List.filter_map]
    simp only [hiff]
    rfl

end Carries

end Call

/-! ## Runs -/

theorem initialList_carries [Inhabited K] {maxNodeHeight : ℕ}
    (hmax : 0 < maxNodeHeight) :
    Carries maxNodeHeight (initialList false maxNodeHeight : SkipList K D)
      ⟨0, ⟨default, none, maxNodeHeight⟩, maxNodeHeight⟩ [] (.empty 1) :=
  ⟨initialList_wellFormed false hmax, rfl, rfl, rfl, rfl⟩

theorem secondaryAfter_concat (maxNodeHeight : ℕ)
    (calls : List (Call K D)) (c : Call K D) :
    secondaryAfter maxNodeHeight (calls ++ [c]) =
      (secondaryCall maxNodeHeight
        (secondaryAfter maxNodeHeight calls) c).2 := by
  rw [secondaryAfter, List.foldl_concat, ← secondaryAfter]

/-- A call that does not clash is a step. -/
theorem Carries.step {maxNodeHeight : ℕ} {sl : SkipList K D}
    {head : Entry K} {spine : List (Entry K)}
    {m : SortedMultimap K (TowerRow D)}
    (hc : Carries maxNodeHeight sl head spine m) (ndebug : Bool)
    (c : Call K D) :
    ((ndebug = false ∧ Clashes m c) ∧ SkipList.step ndebug sl c = none) ∨
      ¬(ndebug = false ∧ Clashes m c) ∧
        ∃ sl' spine', SkipList.step ndebug sl c = some sl' ∧
          Carries maxNodeHeight sl' head spine'
            (secondaryCall maxNodeHeight m c).2 := by
  cases hc.call ndebug c with
  | failed hdebug hclash hrun =>
      refine .inl ⟨⟨hdebug, hclash⟩, ?_⟩
      rw [SkipList.step, hrun]
      rfl
  | completed o spine' hclash hrun _ _ hcarries =>
      refine .inr ⟨hclash, o.state, spine', ?_, hcarries⟩
      rw [SkipList.step, hrun]
      rfl

/-- Every run ends in a list that carries the entries of the multimap. -/
theorem run_carries [Inhabited K] {ndebug : Bool} {maxNodeHeight : ℕ}
    (hmax : 0 < maxNodeHeight) {calls : List (Call K D)} {sl : SkipList K D}
    (hrun : Machine.run (SkipList.step ndebug)
      (initialList false maxNodeHeight) calls = some sl) :
    ∃ head spine, Carries maxNodeHeight sl head spine
      (secondaryAfter maxNodeHeight calls) := by
  induction calls using List.reverseRecOn generalizing sl with
  | nil =>
      obtain rfl := Option.some.inj hrun
      exact ⟨_, _, initialList_carries hmax⟩
  | append_singleton calls c ih =>
      rw [Machine.run_concat, Option.bind_eq_some_iff] at hrun
      obtain ⟨sl', hrun, hstep⟩ := hrun
      obtain ⟨head, spine, hc⟩ := ih hrun
      rw [secondaryAfter_concat]
      rcases hc.step ndebug c with
        ⟨-, hnone⟩ | ⟨-, sl'', spine', hstep', hc'⟩
      · cases hnone.symm.trans hstep
      · obtain rfl := Option.some.inj (hstep'.symm.trans hstep)
        exact ⟨head, spine', hc'⟩

/-- A run goes through exactly when none of its calls clashes where
assertions are compiled in. -/
theorem exists_run_iff [Inhabited K] (ndebug : Bool) {maxNodeHeight : ℕ}
    (hmax : 0 < maxNodeHeight) (calls : List (Call K D)) :
    (∃ sl, Machine.run (SkipList.step ndebug)
        (initialList false maxNodeHeight) calls = some sl) ↔
      ∀ before c after, calls = before ++ c :: after →
        ¬(ndebug = false ∧ Clashes (secondaryAfter maxNodeHeight before) c)
      := by
  induction calls using List.reverseRecOn with
  | nil => simp
  | append_singleton calls c ih =>
      constructor
      · rintro ⟨sl, hrun⟩ before c' after hsplit hclash
        rw [hsplit, Machine.run_append, Option.bind_eq_some_iff] at hrun
        obtain ⟨sl', hrun, hrest⟩ := hrun
        obtain ⟨head, spine, hc⟩ := run_carries hmax hrun
        rcases hc.step ndebug c' with ⟨-, hnone⟩ | ⟨hnot, -⟩
        · rw [Machine.run_cons, hnone] at hrest
          cases hrest
        · exact hnot hclash
      · intro hnone
        obtain ⟨sl, hrun⟩ := ih.mpr fun before c' after hsplit =>
          hnone before c' (after ++ [c]) (by simp [hsplit])
        obtain ⟨head, spine, hc⟩ := run_carries hmax hrun
        rcases hc.step ndebug c with ⟨hclash, -⟩ | ⟨-, sl', -, hstep, -⟩
        · exact absurd hclash (hnone calls c [] rfl)
        · refine ⟨sl', ?_⟩
          rw [Machine.run_concat, hrun]
          exact hstep

/-- A secondary list with all its calls refines the multimap with towers.  In
the debug build a run is stopped by an assertion exactly at a removal of a key
whose newest entry is not the tallest; without assertions every run goes
through.  The list a run ends in answers every further call and every
observation like the multimap: `find` and `update` act on the newest of the
tallest entries of the key, `remove` on the newest, and the iterators start
where a search meets the key. -/
theorem secondaryList_refines_towers [Inhabited K] (ndebug : Bool)
    {maxNodeHeight : ℕ} (hmax : 1 ≤ maxNodeHeight)
    (calls : List (Call K D)) :
    ∃ sl₀, (SkipList.new false maxNodeHeight).initializeList ndebug =
        .ok (.returned () sl₀) ∧
      ((∃ sl, Machine.run (SkipList.step ndebug) sl₀ calls = some sl) ↔
        ∀ before c after, calls = before ++ c :: after →
          ¬(ndebug = false ∧
            Clashes (secondaryAfter maxNodeHeight before) c)) ∧
      ∀ sl, Machine.run (SkipList.step ndebug) sl₀ calls = some sl →
        AgreesSecondary maxNodeHeight ndebug sl
          (secondaryAfter maxNodeHeight calls) := by
  refine ⟨_, initializeList_spec ndebug false hmax,
    exists_run_iff ndebug hmax calls, fun sl hrun => ?_⟩
  obtain ⟨head, spine, hc⟩ := run_carries hmax hrun
  exact hc.agrees ndebug

/-- Three rows of one key, whose newest entry is the lowest and is removed. -/
def threeRows : List (Call Int32 ℕ) :=
  [.insert 7 (some 1) 4 2 (fun _ => 0) none,
    .insert 7 (some 2) 4 3 (fun _ => 0) none,
    .insert 7 (some 3) 4 1 (fun _ => 0) none, .remove 7]

/-- Before the removal a search meets the second row and afterwards the first
one, although it is the third one that was removed. -/
theorem secondaryList_refines_towers_three_rows :
    ∃ sl₀ sl₁ sl₂ : SkipList Int32 ℕ,
      (SkipList.new false 3).initializeList true = .ok (.returned () sl₀) ∧
      Machine.run (SkipList.step true) sl₀ (threeRows.take 3) = some sl₁ ∧
      Machine.run (SkipList.step true) sl₀ threeRows = some sl₂ ∧
      sl₁.find true 7 = .ok (.returned (some 2) sl₁) ∧
      sl₂.find true 7 = .ok (.returned (some 1) sl₂) ∧
      SkipList.visit (fun _ => .next) (sl₂.seek true 7 none) =
        .ok (.returned [(7, some 1)] sl₂) := by
  obtain ⟨sl₀, hinit, hiff₁, hagrees₁⟩ :=
    secondaryList_refines_towers true (show 1 ≤ 3 by decide)
      (threeRows.take 3)
  obtain ⟨sl₀', hinit', hiff₂, hagrees₂⟩ :=
    secondaryList_refines_towers true (show 1 ≤ 3 by decide) threeRows
  obtain rfl : sl₀ = sl₀' := by
    rw [hinit] at hinit'
    cases hinit'
    rfl
  obtain ⟨sl₁, hrun₁⟩ := hiff₁.mpr (by simp)
  obtain ⟨sl₂, hrun₂⟩ := hiff₂.mpr (by simp)
  exact ⟨sl₀, sl₁, sl₂, hinit, hrun₁, hrun₂, (hagrees₁ sl₁ hrun₁).find 7,
    (hagrees₂ sl₂ hrun₂).find 7, (hagrees₂ sl₂ hrun₂).visits _ 7⟩

end SquidDB.Core
