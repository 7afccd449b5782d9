import SquidDB.Core.SkipListRefinement

/-!
# Ranges

An iterator with an end key reads the key of its current node whenever it is
built or advanced, also when it has just arrived behind the last node.  A range
scan therefore only goes through when a key past its end follows.  The
cardinality of a range is a difference of two ranks and needs no scan; it
leaves the upper key out.
-/

namespace SquidDB.Core

open Checked SkipListIterator

variable {K D : Type} [LinearOrder K]

/-! ## Scanning a range -/

/-- A range scan over a list that represents a map. -/
theorem Represents.rangeScan_spec {sl : SkipList K D}
    {m : SortedMap K (RowData D)} {maxNodeHeight : ℕ}
    (hrep : Represents maxNodeHeight sl m) (ndebug : Bool)
    (how : ℕ → Advance) (startKey endKey : K) :
    SkipList.visit how (sl.rangeScan ndebug startKey endKey) =
      if ∃ b ∈ m.entries, startKey ≤ b.1 ∧ endKey < b.1 then
        .ok (.returned (rowsOf (m.entries.filter fun b =>
          decide (startKey ≤ b.1 ∧ b.1 ≤ endKey))) sl)
      else .error .nullPointer := by
  obtain ⟨head, spine, wf, hm, -⟩ := hrep
  obtain ⟨lo, hi, rfl, hlo, hhi⟩ := exists_cut wf.sorted startKey
  have hex : (∃ b ∈ m.entries, startKey ≤ b.1 ∧ endKey < b.1) ↔
      ∃ e ∈ hi, endKey < e.key := by
    rw [← hm]
    simp only [contents, List.mem_map]
    constructor
    · rintro ⟨-, ⟨e, he, rfl⟩, hstart, hend⟩
      rcases List.mem_append.mp he with he | he
      · exact absurd hstart (not_le.mpr (hlo e he))
      · exact ⟨e, he, hend⟩
    · rintro ⟨e, he, hend⟩
      exact ⟨_, ⟨e, List.mem_append_right _ he, rfl⟩, hhi e he, hend⟩
  have hcut : (lo ++ hi).filter
        (fun e => decide (startKey ≤ e.key ∧ e.key ≤ endKey)) =
      hi.filter fun e => decide (e.key ≤ endKey) := by
    have hlow : lo.filter
        (fun e => decide (startKey ≤ e.key ∧ e.key ≤ endKey)) = [] := by
      apply List.filter_eq_nil_iff.mpr
      intro e he
      rw [decide_eq_true_eq]
      exact fun hand => absurd hand.1 (not_le.mpr (hlo e he))
    have hhigh : ∀ e ∈ hi, decide (startKey ≤ e.key ∧ e.key ≤ endKey) =
        decide (e.key ≤ endKey) := by
      intro e he
      simp [hhi e he]
    rw [List.filter_append, hlow, List.nil_append,
      List.filter_congr hhigh]
  have hfilter := contents_filter sl.heap (lo ++ hi)
    fun k => decide (startKey ≤ k ∧ k ≤ endKey)
  rw [hcut, hm] at hfilter
  rw [wf.rangeScan_spec hlo hhi ndebug how endKey, visited_eq_rowsOf,
    hfilter]
  simp only [hex]

/-- In every reachable list a range scan yields the entries between its keys
exactly when some stored key is past both the start and the end. -/
theorem rangeScan_exact_iff [Inhabited K] (ndebug : Bool)
    {maxNodeHeight : ℕ} (hmax : 1 ≤ maxNodeHeight)
    (calls : List (Call K D)) :
    ∃ sl₀ sl, (SkipList.new true maxNodeHeight).initializeList ndebug =
        .ok (.returned () sl₀) ∧
      Machine.run (SkipList.step ndebug) sl₀ calls = some sl ∧
      ∀ startKey endKey,
        (∀ how, SkipList.visit how (sl.rangeScan ndebug startKey endKey) =
          .ok (.returned
            (rowsOf ((mapAfter maxNodeHeight calls).entries.filter fun b =>
              decide (startKey ≤ b.1 ∧ b.1 ≤ endKey))) sl)) ↔
        ∃ b ∈ (mapAfter maxNodeHeight calls).entries,
          startKey ≤ b.1 ∧ endKey < b.1 := by
  obtain ⟨sl, hrun, hrep⟩ := run_represents ndebug hmax calls
  refine ⟨_, sl, initializeList_spec ndebug true hmax, hrun, ?_⟩
  intro startKey endKey
  constructor
  · intro hexact
    by_contra hnone
    have hfault := hexact fun _ => .next
    rw [hrep.rangeScan_spec, if_neg hnone] at hfault
    cases hfault
  · intro hex how
    rw [hrep.rangeScan_spec, if_pos hex]

/-- The range 1 to 1 of a list that holds 1 and 2. -/
theorem rangeScan_exact_iff_two_keys :
    1 ≤ 1 ∧ ∃ sl₀ sl : SkipList Int32 Unit,
      (SkipList.new true 1).initializeList false =
          .ok (.returned () sl₀) ∧
        Machine.run (SkipList.step false) sl₀
          [.insert 1 none 0 1 (fun _ => 0) none,
            .insert 2 none 0 1 (fun _ => 0) none] = some sl ∧
        ∀ how, SkipList.visit how (sl.rangeScan false 1 1) =
          .ok (.returned [(1, none)] sl) := by
  refine ⟨by decide, ?_⟩
  obtain ⟨sl₀, sl, hinit, hrun, hexact⟩ := rangeScan_exact_iff
    (K := Int32) (D := Unit) false (le_refl 1)
    [.insert 1 none 0 1 (fun _ => 0) none,
      .insert 2 none 0 1 (fun _ => 0) none]
  refine ⟨sl₀, sl, hinit, hrun, ?_⟩
  exact (hexact 1 1).mpr ⟨(2, ⟨none, 0⟩), by decide, by decide, by decide⟩

/-- The range 1 to 2 of the same list: the end key is the largest key, and the
scan runs off the end. -/
theorem rangeScan_faults_at_largest_key :
    ∃ sl₀ sl : SkipList Int32 Unit,
      (SkipList.new true 1).initializeList false =
          .ok (.returned () sl₀) ∧
        Machine.run (SkipList.step false) sl₀
          [.insert 1 none 0 1 (fun _ => 0) none,
            .insert 2 none 0 1 (fun _ => 0) none] = some sl ∧
        SkipList.visit (fun _ => .next) (sl.rangeScan false 1 2) =
          .error .nullPointer := by
  obtain ⟨sl, hrun, hrep⟩ := run_represents (K := Int32) (D := Unit) false
    (Nat.one_pos)
    [.insert 1 none 0 1 (fun _ => 0) none,
      .insert 2 none 0 1 (fun _ => 0) none]
  refine ⟨_, sl, initializeList_spec false true Nat.one_pos, hrun, ?_⟩
  rw [hrep.rangeScan_spec, if_neg (by decide)]

/-! ## Counting a range -/

/-- The number of rows a scan finds with a key in a range. -/
def rowsBetween (rows : List (K × Option D)) (inRange : K → Bool) : ℕ :=
  rows.countP fun row => inRange row.1

omit [LinearOrder K] in
theorem rowsBetween_rowsOf (entries : List (K × RowData D))
    (inRange : K → Bool) :
    rowsBetween (rowsOf entries) inRange =
      entries.countP fun b => inRange b.1 := by
  rw [rowsBetween, rowsOf, List.countP_map]
  rfl

/-- The cardinality of a range of a list that represents a map. -/
theorem Represents.estimateRangeCardinality_spec {sl : SkipList K D}
    {m : SortedMap K (RowData D)} {maxNodeHeight : ℕ}
    (hrep : Represents maxNodeHeight sl m) (ndebug : Bool)
    (lowKey highKey : K) :
    sl.estimateRangeCardinality ndebug lowKey highKey =
      .ok (.returned (rowsBetween (rowsOf m.entries) fun k =>
        decide (lowKey ≤ k ∧ k < highKey)) sl) := by
  obtain ⟨head, spine, wf, hm, -⟩ := hrep
  rw [wf.estimateRangeCardinality_spec, rowsBetween_rowsOf, ← hm, contents,
    List.countP_map]
  rfl

/-- In every reachable list the cardinality of a range is the number of rows
whose key is in the range, its upper key left out; nothing underflows and no
assertion fails. -/
theorem estimateRangeCardinality_exact [Inhabited K] (ndebug : Bool)
    {maxNodeHeight : ℕ} (hmax : 1 ≤ maxNodeHeight)
    (calls : List (Call K D)) :
    ∃ sl₀ sl rows, (SkipList.new true maxNodeHeight).initializeList ndebug =
        .ok (.returned () sl₀) ∧
      Machine.run (SkipList.step ndebug) sl₀ calls = some sl ∧
      (∀ how, SkipList.visit how sl.scan = .ok (.returned rows sl)) ∧
      rows = rowsOf (mapAfter maxNodeHeight calls).entries ∧
      ∀ lowKey highKey, ∃ n stored,
        sl.estimateRangeCardinality ndebug lowKey highKey =
            .ok (.returned n sl) ∧
          sl.contains ndebug highKey = .ok (.returned stored sl) ∧
          n = rowsBetween rows (fun k => decide (lowKey ≤ k ∧ k < highKey)) ∧
          (lowKey ≤ highKey →
            rowsBetween rows (fun k => decide (lowKey ≤ k ∧ k ≤ highKey)) =
              n + if stored then 1 else 0) ∧
          (highKey < lowKey → n = 0) := by
  obtain ⟨sl, hrun, hrep⟩ := run_represents ndebug hmax calls
  refine ⟨_, sl, _, initializeList_spec ndebug true hmax, hrun,
    (hrep.agrees ndebug).scan, rfl, ?_⟩
  intro lowKey highKey
  refine ⟨_, _, hrep.estimateRangeCardinality_spec ndebug lowKey highKey,
    (hrep.agrees ndebug).contains highKey, rfl, ?_, ?_⟩
  · intro hle
    rw [rowsBetween_rowsOf, rowsBetween_rowsOf]
    exact SortedMap.countP_closed _ hle
  · intro hgt
    apply List.countP_eq_zero.mpr
    intro row _
    rw [decide_eq_true_eq]
    rintro ⟨hlow, hhigh⟩
    exact absurd (hlow.trans_lt hhigh) (not_lt.mpr hgt.le)

/-- The range 1 to 2 of a list that holds 1 and 2, after a removal. -/
theorem estimateRangeCardinality_exact_two_keys :
    1 ≤ 2 ∧ ∃ sl₀ sl : SkipList Int32 Unit,
      (SkipList.new true 2).initializeList false =
          .ok (.returned () sl₀) ∧
        Machine.run (SkipList.step false) sl₀
          [.insert 2 none 0 1 (fun _ => 0) none,
            .insert 0 none 0 2 (fun _ => 0) none, .remove 0,
            .insert 1 none 0 2 (fun _ => 0) none] = some sl ∧
        sl.estimateRangeCardinality false 1 2 = .ok (.returned 1 sl) := by
  refine ⟨by decide, ?_⟩
  obtain ⟨sl₀, sl, rows, hinit, hrun, -, rfl, hrange⟩ :=
    estimateRangeCardinality_exact (K := Int32) (D := Unit) false
      (show 1 ≤ 2 by decide)
      [.insert 2 none 0 1 (fun _ => 0) none,
        .insert 0 none 0 2 (fun _ => 0) none, .remove 0,
        .insert 1 none 0 2 (fun _ => 0) none]
  obtain ⟨n, stored, hcall, -, rfl, -⟩ := hrange 1 2
  exact ⟨sl₀, sl, hinit, hrun, hcall⟩

end SquidDB.Core
