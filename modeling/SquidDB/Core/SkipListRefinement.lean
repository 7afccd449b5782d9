import SquidDB.Lib.Int32Order
import SquidDB.Lib.Machine
import SquidDB.Lib.SortedMap
import SquidDB.Core.SkipListChain

/-!
# A primary list is a sorted map

The map a primary list stands for binds every key to its row data.  Every call
on the list is followed by the call on the map with the same result, so runs
of the list from its initialization are followed by runs of the map, and
everything a caller can observe is read off the map.
-/

namespace SquidDB.Core

open Checked Heap SkipListIterator

variable {K D : Type}

/-- A call that may change the list.  The values the random engine produces
and the caller's transaction are part of the call. -/
inductive Call (K D : Type) where
  | insert (key : K) (data : Option D) (size nodeHeight : ℕ) (draw : ℕ → ℕ)
      (transaction : Option Transaction)
  | remove (key : K)
  | update (key : K) (data : Option D) (size : ℕ)
      (transaction : Option Transaction)

variable [LinearOrder K]

/-- Perform a call on the list. -/
def SkipList.call (sl : SkipList K D) (ndebug : Bool) :
    Call K D → Checked (Outcome (SkipList K D) Bool)
  | .insert key data size nodeHeight draw transaction => do
      let o ← sl.insert ndebug key data size nodeHeight draw transaction
      pure (o.map Prod.fst)
  | .remove key => sl.remove ndebug key
  | .update key data size transaction => do
      let o ← sl.update ndebug key data size transaction
      pure (o.map Prod.fst)

/-- The machine whose events are the calls; it stops at a fault. -/
def SkipList.step (ndebug : Bool) (sl : SkipList K D) (c : Call K D) :
    Option (SkipList K D) :=
  (sl.call ndebug c).toOption.map Outcome.state

/-- What a call does to the map, with the result the caller sees. -/
def mapCall (maxNodeHeight : ℕ) (m : SortedMap K (RowData D)) :
    Call K D → Except String Bool × SortedMap K (RowData D)
  | .insert key data size nodeHeight _ _ =>
      if nodeHeight > maxNodeHeight then
        (.error "SkipList<K>::insert nodeHeight > maxNodeHeight", m)
      else if (m.lookup key).isSome then (.ok false, m)
      else (.ok true, m.put key ⟨data, size⟩)
  | .remove key =>
      if (m.lookup key).isSome then (.ok true, m.erase key)
      else (.ok false, m)
  | .update key data size _ =>
      if (m.lookup key).isSome then (.ok true, m.put key ⟨data, size⟩)
      else (.ok false, m)

/-- The map after a sequence of calls on an empty one. -/
def mapAfter (maxNodeHeight : ℕ) (calls : List (Call K D)) :
    SortedMap K (RowData D) :=
  calls.foldl (fun m c => (mapCall maxNodeHeight m c).2) SortedMap.empty

/-- The list is well formed and binds what the map binds. -/
def Represents (maxNodeHeight : ℕ) (sl : SkipList K D)
    (m : SortedMap K (RowData D)) : Prop :=
  ∃ head spine, PrimaryWellFormed sl head spine ∧
    contents sl.heap spine = m.entries ∧ sl.maxNodeHeight = maxNodeHeight

/-- The keys to which a call that returns `result` writes a row. -/
def Call.writes : Call K D → Bool → List K
  | .insert key _ _ _ _ _, true | .update key _ _ _, true => [key]
  | _, _ => []

/-- What a call does that returns `result` and hands `rows` to the caller's
transaction. -/
structure Effect (maxNodeHeight : ℕ) (sl : SkipList K D)
    (m : SortedMap K (RowData D)) (c : Call K D) (result : Bool)
    (rows : List KeyRowInfo) (sl' : SkipList K D) : Prop where
  returns : (mapCall maxNodeHeight m c).1 = .ok result
  represents : Represents maxNodeHeight sl' (mapCall maxNodeHeight m c).2
  unchanged : result = false → sl' = sl
  written : List.Forall₂ (fun key keyRowInfo =>
    sl'.Attached key keyRowInfo.rowInfo) (c.writes result) rows
  persists : ∀ key r, sl.Attached key r → c ≠ .remove key →
    sl'.Attached key r
  /-- An attached row was attached before and keeps its status, or it is the
  row of a new key. -/
  carried : ∀ key r, sl'.Attached key r →
    sl.Attached key r ∧ sl'.statusOf r = sl.statusOf r ∨
    key ∈ c.writes result ∧ (∀ r', ¬sl.Attached key r') ∧
      sl'.statusOf r = some .none

/-! ## Initialization -/

omit [LinearOrder K] in
theorem forall_contents (P : K → Prop) {h : Heap K D}
    {spine : List (Entry K)} (hP : ∀ e ∈ spine, P e.key) :
    ∀ b ∈ contents h spine, P b.1 := by
  simpa [contents] using hP

/-- The list after `initialize`. -/
def initialList [Inhabited K] (primaryIndex : Bool) (maxNodeHeight : ℕ) :
    SkipList K D where
  primaryIndex := primaryIndex
  maxNodeHeight := maxNodeHeight
  head := some 0
  initialized := true
  size := 0
  heap := newNodeHeap Heap.empty default maxNodeHeight

omit [LinearOrder K] in
theorem initializeList_spec [Inhabited K] (ndebug primaryIndex : Bool)
    {maxNodeHeight : ℕ} (hmax : 0 < maxNodeHeight) :
    (SkipList.new primaryIndex maxNodeHeight : SkipList K D).initializeList
        ndebug =
      .ok (.returned () (initialList primaryIndex maxNodeHeight)) := by
  have hne : maxNodeHeight ≠ 0 := hmax.ne'
  simp [SkipList.initializeList, SkipList.new, hne, newNode_of_pos _ _ _ hmax,
    initialList, Heap.empty]

/-- The empty list is well formed. -/
theorem initialList_wellFormed [Inhabited K] (primaryIndex : Bool)
    {maxNodeHeight : ℕ} (hmax : 0 < maxNodeHeight) :
    WellFormed (initialList primaryIndex maxNodeHeight : SkipList K D)
      ⟨0, ⟨default, none, maxNodeHeight⟩, maxNodeHeight⟩ [] where
  ready := rfl
  headRef := rfl
  headTower := rfl
  headHeight := rfl
  headRow := rfl
  levels := hmax
  threaded := by
    refine ⟨⟨rfl, le_rfl, fun _ _ => rfl, fun _ _ => rfl, ?_⟩, trivial⟩
    intro L hle hlt
    exact absurd hlt (Nat.not_lt.mpr hle)
  distinct := by simp
  towers := by simp
  sorted := List.Pairwise.nil
  allocated := by
    intro a ha
    have hne : a ≠ 0 := by
      have : 1 ≤ a := ha
      omega
    simp [initialList, newNodeHeap, Heap.empty, hne]
  owned := by
    intro a n hn
    by_cases ha : a = 0
    · simp [ha]
    · simp [initialList, newNodeHeap, Heap.empty, ha] at hn
  rows := by
    refine ⟨by simp, by simp, fun _ _ => rfl, ?_⟩
    intro r info hinfo
    cases hinfo
  size := rfl

theorem initialList_represents [Inhabited K] {maxNodeHeight : ℕ}
    (hmax : 0 < maxNodeHeight) :
    Represents maxNodeHeight (initialList true maxNodeHeight : SkipList K D)
      SortedMap.empty :=
  ⟨_, [], ⟨initialList_wellFormed true hmax, rfl, List.Pairwise.nil,
    by simp⟩, rfl, rfl⟩

/-! ## One call -/

section Simulation

variable {sl : SkipList K D} {m : SortedMap K (RowData D)}
  {maxNodeHeight : ℕ} {head : Entry K} {spine : List (Entry K)}

/-- A key is either absent from the sequence or carried by one entry. -/
theorem PrimaryWellFormed.cut (wf : PrimaryWellFormed sl head spine)
    (key : K) :
    (∃ lo hi, spine = lo ++ hi ∧ (∀ x ∈ lo, x.key < key) ∧
        ∀ x ∈ hi, key < x.key) ∨
      ∃ lo e hi, spine = lo ++ e :: hi ∧ e.key = key := by
  obtain ⟨lo, hi, rfl, hlo, hhi⟩ := exists_cut wf.sorted key
  by_cases hex : ∃ e ∈ hi, e.key = key
  · obtain ⟨e, he, hkey⟩ := hex
    obtain ⟨s, t, rfl⟩ := List.append_of_mem he
    exact Or.inr ⟨lo ++ s, e, t, by simp, hkey⟩
  · refine Or.inl ⟨lo, hi, rfl, hlo, fun x hx => ?_⟩
    exact lt_of_le_of_ne (hhi x hx) fun heq => hex ⟨x, hx, heq.symm⟩

theorem lookup_absent {lo hi : List (Entry K)} {key : K}
    (hm : contents sl.heap (lo ++ hi) = m.entries)
    (hlo : ∀ x ∈ lo, x.key < key) (hhi : ∀ x ∈ hi, key < x.key) :
    m.lookup key = none := by
  rw [contents_append] at hm
  exact SortedMap.lookup_of_absent hm.symm
    (forall_contents (· < key) hlo) (forall_contents (key < ·) hhi)

theorem lookup_present {lo hi : List (Entry K)} {e : Entry K}
    (hm : contents sl.heap (lo ++ e :: hi) = m.entries) :
    m.lookup e.key = some (sl.heap.dataOf e.node) := by
  rw [contents_append, contents_cons] at hm
  exact SortedMap.lookup_of_present hm.symm

/-- The bindings after a new entry with a new row has been linked. -/
theorem contents_insert {lo hi : List (Entry K)}
    (wf : WellFormed sl head (lo ++ hi)) {h' : Heap K D} {data : Option D}
    {size : ℕ}
    (hrow : h'.rowInfo = Function.update sl.heap.rowInfo
      sl.heap.rowInfoCount (some ⟨.none, none, data, size⟩)) (height : ℕ)
    (key : K) :
    contents h' (lo ++ newEntry sl.heap key height :: hi) =
      contents sl.heap lo ++ (key, ⟨data, size⟩) :: contents sl.heap hi := by
  have hnew := wf.rows.contents_allocate hrow
  have hinfo : h'.rowInfo sl.heap.rowInfoCount =
      some ⟨.none, none, data, size⟩ := by
    simp [hrow]
  have hdata : h'.dataOf (newEntry sl.heap key height).node =
      ⟨data, size⟩ := dataOf_of_rowInfo rfl hinfo
  rw [contents_append, contents_cons, hdata,
    hnew lo fun x hx => List.mem_append_left _ hx,
    hnew hi fun x hx => List.mem_append_right _ hx]
  rfl

/-- A key and the row attached under it determine each other. -/
theorem Represents.attached_inj (hrep : Represents maxNodeHeight sl m)
    {key key' : K} {r r' : RowInfoRef} (ha : sl.Attached key r)
    (ha' : sl.Attached key' r') : key = key' ↔ r = r' := by
  obtain ⟨head, spine, wf, -, -⟩ := hrep
  obtain ⟨e, he, rfl, hr⟩ := wf.attached_iff.mp ha
  obtain ⟨e', he', rfl, hr'⟩ := wf.attached_iff.mp ha'
  constructor
  · intro hkey
    have hkeys : (spine.map Entry.key).Nodup :=
      List.pairwise_map.mpr (wf.strict.imp ne_of_lt)
    obtain rfl := List.inj_on_of_nodup_map hkeys he he' hkey
    exact Option.some.inj (hr.symm.trans hr')
  · rintro rfl
    rw [List.inj_on_of_nodup_map wf.rows.distinct he he' (hr.trans hr'.symm)]

theorem Represents.effect_refl (hrep : Represents maxNodeHeight sl m)
    {c : Call K D} (hmap : mapCall maxNodeHeight m c = (.ok false, m)) :
    Effect maxNodeHeight sl m c false [] sl := by
  refine ⟨by rw [hmap], by rw [hmap]; exact hrep, fun _ => rfl, ?_,
    fun _ _ h _ => h, fun _ _ h => Or.inl ⟨h, rfl⟩⟩
  cases c <;> exact List.Forall₂.nil

theorem PrimaryWellFormed.attached_insert {sl' : SkipList K D}
    {head : Entry K} {lo hi : List (Entry K)} {key : K} {height : ℕ}
    (wf : PrimaryWellFormed sl head (lo ++ hi))
    (wf' : PrimaryWellFormed sl' head
      (lo ++ newEntry sl.heap key height :: hi)) {k : K} {r : RowInfoRef} :
    sl'.Attached k r ↔
      (key = k ∧ sl.heap.rowInfoCount = r) ∨ sl.Attached k r := by
  rw [wf.attached_iff, wf'.attached_iff]
  constructor
  · rintro ⟨x, hx, hkey, hr⟩
    rcases List.mem_cons.mp (List.perm_middle.mem_iff.mp hx) with rfl | hx
    · exact Or.inl ⟨hkey, Option.some.inj hr⟩
    · exact Or.inr ⟨x, hx, hkey, hr⟩
  · rintro (⟨rfl, rfl⟩ | ⟨x, hx, hkey, hr⟩)
    · exact ⟨newEntry sl.heap key height,
        List.mem_append_right _ List.mem_cons_self, rfl, rfl⟩
    · exact ⟨x, List.perm_middle.mem_iff.mpr (List.mem_cons_of_mem _ hx),
        hkey, hr⟩

/-- A call of `insert` with an admissible height is followed by the map. -/
theorem Represents.insert_effect (hrep : Represents maxNodeHeight sl m)
    (ndebug : Bool) (key : K) (data : Option D) (size : ℕ) {nodeHeight : ℕ}
    (hheight : nodeHeight ≤ maxNodeHeight) (draw : ℕ → ℕ) :
    ∃ result rows sl', ∀ transaction : Option Transaction,
      sl.insert ndebug key data size nodeHeight draw transaction =
        .ok (.returned (result, transaction.map fun t =>
          t.addAffectedRows rows) sl') ∧
      Effect maxNodeHeight sl m
        (.insert key data size nodeHeight draw transaction) result rows
        sl' := by
  have hrep' := hrep
  obtain ⟨head, spine, wf, hm, hmax⟩ := hrep
  have hnot : ¬nodeHeight > maxNodeHeight := Nat.not_lt.mpr hheight
  rw [← hmax] at hheight
  rcases wf.cut key with ⟨lo, hi, rfl, hlo, hhi⟩ | ⟨lo, e, hi, rfl, rfl⟩
  · -- the key is absent: a new entry is linked at the cut
    obtain ⟨sl', hrun, wf', hmax', hrow, -⟩ :=
      wf.insert_spec hlo hhi ndebug data size hheight draw
    have hnone := lookup_absent hm hlo hhi
    refine ⟨true, [⟨sl.heap.nodeCount, sl.heap.rowInfoCount⟩], sl',
      fun transaction => ⟨hrun transaction, ?_⟩⟩
    have hmap : mapCall maxNodeHeight m
        (.insert key data size nodeHeight draw transaction) =
        (.ok true, m.put key ⟨data, size⟩) := by
      simp [mapCall, hnot, hnone]
    have hcontents := contents_insert wf.toWellFormed hrow
      (SkipList.chosenHeight sl.maxNodeHeight nodeHeight draw) key
    refine ⟨by rw [hmap], ?_, by simp, ?_, ?_, ?_⟩
    · rw [hmap]
      refine ⟨head, _, wf', ?_, hmax'.trans hmax⟩
      rw [contents_append] at hm
      rw [hcontents, SortedMap.entries_put_of_absent hm.symm
        (forall_contents (· < key) hlo) (forall_contents (key < ·) hhi)]
    · refine .cons ?_ .nil
      exact (wf.attached_insert wf').mpr (Or.inl ⟨rfl, rfl⟩)
    · intro k r hk _
      exact (wf.attached_insert wf').mpr (Or.inr hk)
    · intro k r hk
      rcases (wf.attached_insert wf').mp hk with ⟨rfl, rfl⟩ | hk
      · refine Or.inr ⟨List.mem_cons_self, ?_, ?_⟩
        · intro r' hr'
          obtain ⟨y, hy, hkey, -⟩ := wf.attached_iff.mp hr'
          rcases List.mem_append.mp hy with hy | hy
          · exact (hlo y hy).ne hkey
          · exact (hhi y hy).ne' hkey
        · rw [SkipList.statusOf, hrow, Function.update_self]
          rfl
      · refine Or.inl ⟨hk, ?_⟩
        apply SkipList.statusOf_update hrow
        rintro rfl
        obtain ⟨x, hx, -, hr⟩ := wf.attached_iff.mp hk
        exact wf.rows.ne_rowInfoCount hx hr
  · -- the key is present: the list refuses the duplicate
    have hstrict := List.pairwise_append.mp wf.strict
    have hhi := List.pairwise_cons.mp hstrict.2.1
    refine ⟨false, [], sl, fun transaction => ⟨?_, hrep'.effect_refl ?_⟩⟩
    · rw [wf.toWellFormed.insert_duplicate
        (fun x hx => hstrict.2.2 x hx e List.mem_cons_self)
        (List.forall_mem_cons.mpr ⟨le_rfl, fun x hx => (hhi.1 x hx).le⟩)
        ndebug data size hheight draw transaction wf.primary
        ⟨e, List.mem_cons_self, rfl⟩]
      simp
    · simp [mapCall, hnot, lookup_present hm]

/-- A call of `remove` is followed by the map. -/
theorem Represents.remove_effect (hrep : Represents maxNodeHeight sl m)
    (ndebug : Bool) (key : K) :
    ∃ result sl', sl.remove ndebug key = .ok (.returned result sl') ∧
      Effect maxNodeHeight sl m (.remove key) result [] sl' := by
  have hrep' := hrep
  obtain ⟨head, spine, wf, hm, hmax⟩ := hrep
  rcases wf.cut key with ⟨lo, hi, rfl, hlo, hhi⟩ | ⟨lo, e, hi, rfl, rfl⟩
  · refine ⟨false, sl, wf.toWellFormed.remove_absent hlo hhi ndebug,
      hrep'.effect_refl ?_⟩
    simp [mapCall, lookup_absent hm hlo hhi]
  · obtain ⟨sl', r, info, hr, hinfo, hrun, wf', hmax', hrow, -⟩ :=
      wf.remove_spec ndebug
    have hothers := wf.rows.contents_update hr hrow
    have hmap : mapCall maxNodeHeight m (.remove e.key) =
        (.ok true, m.erase e.key) := by
      simp [mapCall, lookup_present hm]
    refine ⟨true, sl', hrun, by rw [hmap], ?_, by simp, .nil, ?_, ?_⟩
    · rw [hmap]
      refine ⟨head, _, wf', ?_, hmax'.trans hmax⟩
      rw [contents_append, contents_cons] at hm
      rw [SortedMap.entries_erase_of_present hm.symm,
        hothers _ fun x hx => hx, contents_append]
    · intro k r' hk hne
      obtain ⟨x, hx, hkey, hr'⟩ := wf.attached_iff.mp hk
      refine wf'.attached_iff.mpr ⟨x, ?_, hkey, hr'⟩
      have hxe : x ≠ e := by
        rintro rfl
        exact hne (hkey ▸ rfl)
      simpa [hxe] using hx
    · intro k r' hk
      obtain ⟨x, hx, hkey, hr'⟩ := wf'.attached_iff.mp hk
      refine Or.inl ⟨wf.attached_iff.mpr ⟨x, ?_, hkey, hr'⟩, ?_⟩
      · exact List.perm_middle.mem_iff.mpr (List.mem_cons_of_mem e hx)
      · apply SkipList.statusOf_update hrow
        rintro rfl
        exact wf.rows.rowInfo_ne hr hx hr'

/-- A call of `update` is followed by the map. -/
theorem Represents.update_effect (hrep : Represents maxNodeHeight sl m)
    (ndebug : Bool) (key : K) (data : Option D) (size : ℕ) :
    ∃ result rows sl', ∀ transaction : Option Transaction,
      sl.update ndebug key data size transaction =
        .ok (.returned (result, transaction.map fun t =>
          t.addAffectedRows rows) sl') ∧
      Effect maxNodeHeight sl m (.update key data size transaction) result
        rows sl' := by
  have hrep' := hrep
  obtain ⟨head, spine, wf, hm, hmax⟩ := hrep
  rcases wf.cut key with ⟨lo, hi, rfl, hlo, hhi⟩ | ⟨lo, e, hi, rfl, rfl⟩
  · have hfind := wf.toWellFormed.find_absent hlo hhi ndebug
    refine ⟨false, [], sl, fun transaction => ⟨?_, hrep'.effect_refl ?_⟩⟩
    · simp [SkipList.update, wf.ready, hfind]
    · simp [mapCall, lookup_absent hm hlo hhi]
  · obtain ⟨r, info, hr, hinfo, hrun, wf'⟩ := wf.update_spec ndebug data size
    have hrow : (updatedHeap sl.heap r info data size).rowInfo =
        Function.update sl.heap.rowInfo r
          (some { info with data := data, size := size }) := rfl
    have hothers := wf.rows.contents_update hr hrow
    have hinfo' : (updatedHeap sl.heap r info data size).rowInfo r =
        some { info with data := data, size := size } := by
      simp [hrow]
    have hdata : (updatedHeap sl.heap r info data size).dataOf e.node =
        ⟨data, size⟩ := dataOf_of_rowInfo hr hinfo'
    refine ⟨true, [⟨e.ref, r⟩], _,
      fun transaction => ⟨hrun transaction, ?_⟩⟩
    have hmap : mapCall maxNodeHeight m
        (.update e.key data size transaction) =
        (.ok true, m.put e.key ⟨data, size⟩) := by
      simp [mapCall, lookup_present hm]
    refine ⟨by rw [hmap], ?_, by simp, ?_, ?_, ?_⟩
    · rw [hmap]
      refine ⟨head, _, wf', ?_, hmax⟩
      rw [contents_append, contents_cons] at hm
      rw [SortedMap.entries_put_of_present hm.symm, contents_append,
        contents_cons, hdata,
        hothers lo fun x hx => List.mem_append_left _ hx,
        hothers hi fun x hx => List.mem_append_right _ hx]
    · exact .cons (wf'.attached_iff.mpr ⟨e, by simp, rfl, hr⟩) .nil
    · intro k r' hk _
      exact wf'.attached_iff.mpr (wf.attached_iff.mp hk)
    · intro k r' hk
      refine Or.inl ⟨wf.attached_iff.mpr (wf'.attached_iff.mp hk), ?_⟩
      by_cases heq : r' = r
      · rw [heq, SkipList.statusOf, SkipList.statusOf, hinfo', hinfo]
        rfl
      · exact SkipList.statusOf_update hrow heq

/-- Every call is followed by the map, returns what the map returns, and
leaves the list alone unless it returns true. -/
theorem call_simulates (ndebug : Bool)
    (hrep : Represents maxNodeHeight sl m) (c : Call K D) :
    ∃ o, sl.call ndebug c = .ok o ∧
      o.result = (mapCall maxNodeHeight m c).1 ∧
      Represents maxNodeHeight o.state (mapCall maxNodeHeight m c).2 ∧
      (o.result ≠ .ok true → o.state = sl) := by
  have hof : ∀ {result rows sl'},
      sl.call ndebug c = .ok (.returned result sl') →
      Effect maxNodeHeight sl m c result rows sl' →
      ∃ o, sl.call ndebug c = .ok o ∧
        o.result = (mapCall maxNodeHeight m c).1 ∧
        Represents maxNodeHeight o.state (mapCall maxNodeHeight m c).2 ∧
        (o.result ≠ .ok true → o.state = sl) := by
    intro result rows sl' hrun heff
    refine ⟨_, hrun, heff.returns.symm, heff.represents, fun hne => ?_⟩
    refine heff.unchanged (Bool.eq_false_iff.mpr ?_)
    rintro rfl
    exact hne rfl
  cases c with
  | insert key data size nodeHeight draw transaction =>
      by_cases hhigh : nodeHeight > maxNodeHeight
      · have hrep' := hrep
        obtain ⟨head, spine, wf, hm, hmax⟩ := hrep
        have hrun := wf.toWellFormed.insert_too_high ndebug key data size
          (hmax ▸ hhigh) draw transaction
        simp only [mapCall, hhigh, if_true, SkipList.call, hrun, ok_bind]
        exact ⟨_, rfl, rfl, hrep', fun _ => rfl⟩
      · obtain ⟨result, rows, sl', hall⟩ := hrep.insert_effect ndebug key
          data size (Nat.not_lt.mp hhigh) draw
        obtain ⟨hrun, heff⟩ := hall transaction
        exact hof (by rw [SkipList.call, hrun]; rfl) heff
  | remove key =>
      obtain ⟨result, sl', hrun, heff⟩ := hrep.remove_effect ndebug key
      exact hof hrun heff
  | update key data size transaction =>
      obtain ⟨result, rows, sl', hall⟩ := hrep.update_effect ndebug key data
        size
      obtain ⟨hrun, heff⟩ := hall transaction
      exact hof (by rw [SkipList.call, hrun]; rfl) heff

end Simulation

/-- Every run of calls from the initialized list goes through and ends in a
list that represents the map. -/
theorem run_represents [Inhabited K] (ndebug : Bool) {maxNodeHeight : ℕ}
    (hmax : 0 < maxNodeHeight) (calls : List (Call K D)) :
    ∃ sl, Machine.run (SkipList.step ndebug)
        (initialList true maxNodeHeight) calls = some sl ∧
      Represents maxNodeHeight sl (mapAfter maxNodeHeight calls) := by
  refine Machine.exists_run_of_simulation (E := fun _ => True) ?_
    (initialList_represents hmax) fun _ _ => trivial
  intro sl m c _ hrep
  obtain ⟨o, hrun, -, hrep', -⟩ := call_simulates ndebug hrep c
  exact ⟨o.state, by simp [SkipList.step, hrun, Except.toOption], hrep'⟩

/-! ## Observations -/

/-- The rows of a list of bindings, as a scan delivers them. -/
def rowsOf (entries : List (K × RowData D)) : List (K × Option D) :=
  entries.map fun b => (b.1, b.2.data)

omit [LinearOrder K] in
theorem visited_eq_rowsOf (h : Heap K D) (spine : List (Entry K)) :
    visited h spine = rowsOf (contents h spine) := rfl

omit [LinearOrder K] in
theorem contents_filter (h : Heap K D) (spine : List (Entry K))
    (p : K → Bool) :
    contents h (spine.filter fun e => p e.key) =
      (contents h spine).filter fun b => p b.1 := by
  rw [contents, contents, List.filter_map]
  rfl

/-- Everything a caller can observe of the list agrees with the map. -/
structure Agrees (ndebug : Bool) (maxNodeHeight : ℕ) (sl : SkipList K D)
    (m : SortedMap K (RowData D)) : Prop where
  call : ∀ c, ∃ o, sl.call ndebug c = .ok o ∧
    o.result = (mapCall maxNodeHeight m c).1 ∧
    (o.result ≠ .ok true → o.state = sl)
  find : ∀ key, sl.find ndebug key =
    .ok (.returned ((m.lookup key).bind RowData.data) sl)
  contains : ∀ key, sl.contains ndebug key =
    .ok (.returned (m.lookup key).isSome sl)
  size : ∀ calculate, sl.getSize calculate = .ok (.returned m.card sl)
  empty : sl.empty = .ok (.returned (decide (m.entries = [])) sl)
  scan : ∀ how, SkipList.visit how sl.scan =
    .ok (.returned (rowsOf m.entries) sl)
  seek : ∀ how key, SkipList.visit how (sl.seek ndebug key none) =
    .ok (.returned (rowsOf (m.entries.filter fun b => key ≤ b.1)) sl)

section Observe

variable {sl : SkipList K D} {m : SortedMap K (RowData D)}
  {maxNodeHeight : ℕ}

theorem Represents.find_contains (hrep : Represents maxNodeHeight sl m)
    (ndebug : Bool) (key : K) :
    sl.find ndebug key =
        .ok (.returned ((m.lookup key).bind RowData.data) sl) ∧
      sl.contains ndebug key =
        .ok (.returned (m.lookup key).isSome sl) := by
  obtain ⟨head, spine, wf, hm, -⟩ := hrep
  rcases wf.cut key with ⟨lo, hi, rfl, hlo, hhi⟩ | ⟨lo, e, hi, rfl, rfl⟩
  · have hfind := wf.toWellFormed.find_absent hlo hhi ndebug
    rw [lookup_absent hm hlo hhi]
    constructor
    · simp [SkipList.find, wf.ready, hfind]
    · simp [SkipList.contains, wf.ready, hfind]
  · have hfind := wf.findNode_present ndebug
    rw [lookup_present hm]
    constructor
    · exact wf.find_of_findNode (by simp) hfind
    · simp [SkipList.contains, wf.ready, hfind]

/-- `seek` visits the bindings from the key on. -/
theorem Represents.seek_spec (hrep : Represents maxNodeHeight sl m)
    (ndebug : Bool) (how : ℕ → Advance) (key : K) :
    SkipList.visit how (sl.seek ndebug key none) =
      .ok (.returned (rowsOf (m.entries.filter fun b => key ≤ b.1)) sl) := by
  obtain ⟨head, spine, wf, hm, -⟩ := hrep
  obtain ⟨lo, hi, rfl, hlo, hhi⟩ := exists_cut wf.sorted key
  have hcut : (lo ++ hi).filter (fun e => decide (key ≤ e.key)) = hi := by
    have hlow : lo.filter (fun e => decide (key ≤ e.key)) = [] :=
      List.filter_eq_nil_iff.mpr fun e he => by simpa using hlo e he
    have hhigh : hi.filter (fun e => decide (key ≤ e.key)) = hi :=
      List.filter_eq_self.mpr fun e he => decide_eq_true (hhi e he)
    rw [List.filter_append, hlow, hhigh, List.nil_append]
  have hfilter := contents_filter sl.heap (lo ++ hi)
    fun k => decide (key ≤ k)
  rw [hcut, hm] at hfilter
  rw [wf.seek_spec hlo hhi ndebug how, visited_eq_rowsOf, hfilter]

theorem Represents.agrees (hrep : Represents maxNodeHeight sl m)
    (ndebug : Bool) : Agrees ndebug maxNodeHeight sl m := by
  have hrep' := hrep
  obtain ⟨head, spine, wf, hm, -⟩ := hrep
  refine ⟨?_, fun key => (hrep'.find_contains ndebug key).1,
    fun key => (hrep'.find_contains ndebug key).2, ?_, ?_, ?_,
    fun how key => hrep'.seek_spec ndebug how key⟩
  · intro c
    obtain ⟨o, hrun, hresult, -, hsame⟩ := call_simulates ndebug hrep' c
    exact ⟨o, hrun, hresult, hsame⟩
  · intro calculate
    rw [wf.getSize_spec, SortedMap.card, ← hm, length_contents]
  · have hiff : spine = [] ↔ m.entries = [] := by
      rw [← hm, contents, List.map_eq_nil_iff]
    rw [wf.empty_spec]
    simp only [hiff]
  · intro how
    rw [wf.scan_spec, visited_eq_rowsOf, hm]

end Observe

/-- A primary list refines a sorted map: it initializes, every run of calls
goes through, and the list it ends in answers every further call and every
observation like the map. -/
theorem primaryList_refines_sortedMap [Inhabited K] (ndebug : Bool)
    {maxNodeHeight : ℕ} (hmax : 1 ≤ maxNodeHeight)
    (calls : List (Call K D)) :
    ∃ sl₀ sl, (SkipList.new true maxNodeHeight).initializeList ndebug =
        .ok (.returned () sl₀) ∧
      Machine.run (SkipList.step ndebug) sl₀ calls = some sl ∧
      Agrees ndebug maxNodeHeight sl (mapAfter maxNodeHeight calls) := by
  obtain ⟨sl, hrun, hrep⟩ := run_represents ndebug hmax calls
  exact ⟨_, sl, initializeList_spec ndebug true hmax, hrun,
    hrep.agrees ndebug⟩

/-- Two levels: of two rows the second one is updated and the first one
removed. -/
theorem primaryList_refines_sortedMap_two_levels :
    ∃ sl₀ sl : SkipList Int32 Bool,
      (SkipList.new true 2).initializeList false =
          .ok (.returned () sl₀) ∧
        Machine.run (SkipList.step false) sl₀
          [.insert 7 (some false) 4 2 (fun _ => 0) none,
            .insert 9 (some false) 4 1 (fun _ => 0) none,
            .update 9 (some true) 4 none, .remove 7] = some sl ∧
        (∀ how, SkipList.visit how sl.scan =
          .ok (.returned [(9, some true)] sl)) ∧
        sl.find false 7 = .ok (.returned none sl) ∧
        sl.contains false 9 = .ok (.returned true sl) := by
  obtain ⟨sl₀, sl, hinitialized, hrun, hagrees⟩ :=
    primaryList_refines_sortedMap (K := Int32) false (by decide : 1 ≤ 2)
      [.insert 7 (some false) 4 2 (fun _ => 0) none,
        .insert 9 (some false) 4 1 (fun _ => 0) none,
        .update 9 (some true) 4 none, .remove 7]
  exact ⟨sl₀, sl, hinitialized, hrun, hagrees.scan, hagrees.find 7,
    hagrees.contains 9⟩

end SquidDB.Core
