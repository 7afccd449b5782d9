import SquidDB.Core.SkipListDuplicates

/-!
# Assertions on secondary lists

The debug build asserts in every `remove` that all levels unlink one node.  A
run of operations on a secondary list meets a failing assertion exactly when it
removes a key whose newest entry is not the tallest one; no other assertion of
the list can fail.
-/

namespace SquidDB.Core

open Checked Heap SkipListIterator

variable {K D : Type}

/-- The operations of a list, those that only look included. -/
inductive Operation (K D : Type) where
  | change (c : Change K D)
  | contains (key : K)
  | seek (key : K) (endKey : Option K)
  | estimateRangeCardinality (lowKey highKey : K)
  | validate

/-- The change an operation makes, if it makes one. -/
def Operation.asChange : Operation K D → Option (Change K D)
  | .change c => some c
  | _ => none

variable [LinearOrder K]

/-- The list after an operation, in a build with assertions. -/
def SkipList.perform (sl : SkipList K D) :
    Operation K D → Checked (SkipList K D)
  | .change c => (sl.call false c.call).map Outcome.state
  | .contains key => (sl.contains false key).map Outcome.state
  | .seek key endKey => (sl.seek false key endKey).map Outcome.state
  | .estimateRangeCardinality lowKey highKey =>
      (sl.estimateRangeCardinality false lowKey highKey).map Outcome.state
  | .validate => (sl.validate false).map fun _ => sl

/-- The machine whose events are the operations; it stops at a fault. -/
def SkipList.performStep (sl : SkipList K D) (op : Operation K D) :
    Option (SkipList K D) :=
  (sl.perform op).toOption

/-- The multimap after a sequence of operations on an empty list. -/
def multimapAfterOperations (maxNodeHeight : ℕ)
    (ops : List (Operation K D)) : SortedMultimap K (StoredRow D) :=
  multimapAfter maxNodeHeight (ops.filterMap Operation.asChange)

/-- No assertion fails in any operation the run gets to. -/
def AssertionsHold (sl₀ : SkipList K D) (ops : List (Operation K D)) :
    Prop :=
  ∀ before op after, ops = before ++ op :: after →
    ∀ sl, Machine.run SkipList.performStep sl₀ before = some sl →
      sl.perform op ≠ .error .assertFailed

/-- Every removal the run gets to finds the newest entry of its key at least
as tall as the older ones. -/
def RemovesTallest (maxNodeHeight : ℕ) (sl₀ : SkipList K D)
    (ops : List (Operation K D)) : Prop :=
  ∀ before key after, ops = before ++ .change (.remove key) :: after →
    (Machine.run SkipList.performStep sl₀ before).isSome →
      NewestTallest (multimapAfterOperations maxNodeHeight before) key

/-! ## One operation -/

/-- The multimap after one operation. -/
def multimapOperation (maxNodeHeight : ℕ)
    (m : SortedMultimap K (StoredRow D)) :
    Operation K D → SortedMultimap K (StoredRow D)
  | .change c => (multimapCall maxNodeHeight m c).2
  | _ => m

theorem multimapAfterOperations_concat (maxNodeHeight : ℕ)
    (ops : List (Operation K D)) (op : Operation K D) :
    multimapAfterOperations maxNodeHeight (ops ++ [op]) =
      multimapOperation maxNodeHeight
        (multimapAfterOperations maxNodeHeight ops) op := by
  rw [multimapAfterOperations, List.filterMap_append, multimapAfter,
    List.foldl_append]
  cases op <;> rfl

/-- The operation is not a removal whose newest entry is not the tallest. -/
def Operation.Admissible (m : SortedMultimap K (StoredRow D)) :
    Operation K D → Prop
  | .change (.remove key) => NewestTallest m key
  | _ => True

section Operation

variable {maxNodeHeight : ℕ} {sl : SkipList K D} {head : Entry K}
  {spine : List (Entry K)} {m : SortedMultimap K (StoredRow D)}

/-- What holds of the list between two operations: it stores what the
multimap stores, and every entry is linked on all levels of its height. -/
def StoresFully (maxNodeHeight : ℕ) (sl : SkipList K D)
    (m : SortedMultimap K (StoredRow D)) : Prop :=
  ∃ head spine, Stores maxNodeHeight sl head spine m ∧ FullTowers spine

/-- How an operation ends: it goes through, or it is a `seek` that runs off
the list with an end key, or an assertion fails. -/
inductive Performed (maxNodeHeight : ℕ) (sl : SkipList K D)
    (m : SortedMultimap K (StoredRow D)) (op : Operation K D) : Prop where
  | completed (sl' : SkipList K D) (hrun : sl.perform op = .ok sl')
      (hstores : StoresFully maxNodeHeight sl'
        (multimapOperation maxNodeHeight m op))
      (hadmissible : op.Admissible m)
  | ranOff (hrun : sl.perform op = .error .nullPointer)
      (hadmissible : op.Admissible m)
  | failed (hrun : sl.perform op = .error .assertFailed)
      (hnot : ¬op.Admissible m)

/-- A removal. -/
theorem Stores.perform_remove (hst : Stores maxNodeHeight sl head spine m)
    (hfull : FullTowers spine) (key : K) :
    Performed maxNodeHeight sl m (.change (.remove key)) := by
  obtain ⟨lo, es, gt, rfl, hlo, hes, hgt⟩ :=
    exists_cut_equal hst.wf.sorted key
  cases es with
  | nil =>
      rw [List.nil_append] at hst
      have hnone := hst.newest_absent hlo hgt
      refine .completed sl ?_ ⟨head, lo ++ gt, ?_, hfull⟩
        (newestTallest_of_none hnone)
      · rw [SkipList.perform, hst.remove_absent hlo hgt false]
        rfl
      · simpa [multimapOperation, multimapCall, hnone] using hst
  | cons e es =>
      have hnewest := hst.newest_of_cut hlo (hes e List.mem_cons_self)
      have hiff := hst.newestTallest_iff hfull hlo hes hgt
      by_cases htall : ∀ x ∈ es, x.tower ≤ e.tower
      · obtain ⟨sl', hrun, hst'⟩ :=
          hst.remove hlo hes hgt (show false = true ∨ _ from Or.inr htall)
        rw [lowerTowers_of_le htall] at hst'
        refine .completed sl' ?_ ⟨head, lo ++ (es ++ gt), ?_, ?_⟩
          (hiff.mpr htall)
        · rw [SkipList.perform, hrun]
          rfl
        · simpa [multimapOperation, multimapCall, hnewest] using hst'
        · intro x hx
          apply hfull x
          simp only [List.mem_append, List.mem_cons] at hx ⊢
          tauto
      · refine .failed ?_ fun hadmissible => htall (hiff.mp hadmissible)
        push Not at htall
        obtain ⟨x, hx, htaller⟩ := htall
        have hfails := hst.wf.remove_fails hlo hes hgt hx htaller
        rw [SkipList.perform, Change.call, SkipList.call, hfails]
        rfl

theorem Stores.exists_seekFrom (hst : Stores maxNodeHeight sl head spine m)
    (ndebug : Bool) (key : K) :
    ∃ node, SkipList.seekFrom ndebug sl.heap key sl.maxNodeHeight sl.head =
        .ok node ∧
      (node = none ∨ ∃ e ∈ spine, node = some e.ref) := by
  obtain ⟨lo, hi, rfl, hlo, hhi⟩ := exists_cut hst.wf.sorted key
  rcases hst.wf.seekFrom_spec hlo hhi ndebug with
    ⟨-, hseek⟩ | ⟨e, he, -, hseek, -⟩
  · refine ⟨_, hseek, ?_⟩
    cases hi with
    | nil => exact Or.inl rfl
    | cons e hi => exact Or.inr ⟨e, by simp, rfl⟩
  · exact ⟨_, hseek, Or.inr ⟨e, List.mem_append_right _ he, rfl⟩⟩

theorem Stores.perform_seek (hst : Stores maxNodeHeight sl head spine m)
    (key : K) (endKey : Option K) :
    sl.perform (.seek key endKey) = .ok sl ∨
      sl.perform (.seek key endKey) = .error .nullPointer := by
  obtain ⟨node, hseek, hnode⟩ := hst.exists_seekFrom false key
  have hperform : sl.perform (.seek key endKey) =
      (SkipListIterator.new sl.heap node endKey).map fun _ => sl := by
    simp only [SkipList.perform, SkipList.seek, hst.wf.ready,
      Bool.true_eq_false, if_false, hseek, ok_bind]
    cases SkipListIterator.new sl.heap node endKey <;> rfl
  rw [hperform]
  rcases endKey with _ | endKey
  · exact Or.inl rfl
  · rcases hnode with rfl | ⟨e, he, rfl⟩
    · exact Or.inr rfl
    · left
      have hkey := getKey_of_node
        (hst.wf.threaded.live (List.mem_cons_of_mem _ he))
      by_cases hpast : e.node.key > endKey
      · simp [SkipListIterator.new, cutOff, pastEnd, hkey, hpast, Except.map]
      · simp [SkipListIterator.new, cutOff, pastEnd, hkey, hpast, Except.map]

theorem Stores.perform_insert (hst : Stores maxNodeHeight sl head spine m)
    (hfull : FullTowers spine) (i : Insertion K D) :
    Performed maxNodeHeight sl m (.change (.insert i)) := by
  by_cases hhigh : i.nodeHeight > maxNodeHeight
  · refine .completed sl ?_ ⟨head, spine, ?_, hfull⟩ trivial
    · rw [SkipList.perform, hst.insert_too_high false i hhigh]
      rfl
    · simpa [multimapOperation, multimapCall, hhigh] using hst
  · obtain ⟨sl', spine', hrun, hst', hfull'⟩ :=
      hst.insert false i (Nat.not_lt.mp hhigh)
    refine .completed sl' ?_ ⟨head, spine', hst', hfull' hfull⟩ trivial
    rw [SkipList.perform, hrun]
    rfl

theorem StoresFully.performed (hfully : StoresFully maxNodeHeight sl m)
    (op : Operation K D) : Performed maxNodeHeight sl m op := by
  have hsame := hfully
  obtain ⟨head, spine, hst, hfull⟩ := hfully
  cases op with
  | change c =>
      cases c with
      | insert i => exact hst.perform_insert hfull i
      | remove key => exact hst.perform_remove hfull key
  | contains key =>
      refine .completed sl ?_ hsame trivial
      rw [SkipList.perform, hst.contains_spec]
      rfl
  | seek key endKey =>
      rcases hst.perform_seek key endKey with hok | hnull
      · exact .completed sl hok hsame trivial
      · exact .ranOff hnull trivial
  | estimateRangeCardinality lowKey highKey =>
      refine .completed sl ?_ hsame trivial
      rw [SkipList.perform, hst.wf.estimateRangeCardinality_spec]
      rfl
  | validate =>
      refine .completed sl ?_ hsame trivial
      rw [SkipList.perform, hst.wf.validate_spec]
      rfl

end Operation

/-! ## Runs -/

/-- Between two operations of a run the list stores what the multimap
stores. -/
theorem run_storesFully [Inhabited K] {maxNodeHeight : ℕ}
    (hmax : 0 < maxNodeHeight) {ops : List (Operation K D)}
    {sl : SkipList K D}
    (hrun : Machine.run SkipList.performStep
      (initialList false maxNodeHeight) ops = some sl) :
    StoresFully maxNodeHeight sl
      (multimapAfterOperations maxNodeHeight ops) := by
  induction ops using List.reverseRecOn generalizing sl with
  | nil =>
      obtain rfl := Option.some.inj hrun
      exact ⟨_, [], initialList_stores hmax, by simp [FullTowers]⟩
  | append_singleton ops op ih =>
      rw [Machine.run_concat, Option.bind_eq_some_iff] at hrun
      obtain ⟨sl', hrun, hstep⟩ := hrun
      rw [multimapAfterOperations_concat]
      cases (ih hrun).performed op with
      | completed sl'' hop hstores _ =>
          rw [SkipList.performStep, hop] at hstep
          obtain rfl := Option.some.inj hstep
          exact hstores
      | ranOff hop _ =>
          rw [SkipList.performStep, hop] at hstep
          cases hstep
      | failed hop _ =>
          rw [SkipList.performStep, hop] at hstep
          cases hstep

/-- In the debug build a run of operations on a secondary list meets no failing
assertion exactly when every removal it gets to finds the newest entry of its
key at least as tall as the older ones. -/
theorem assertionsHold_iff_removesTallest [Inhabited K] {maxNodeHeight : ℕ}
    (hmax : 1 ≤ maxNodeHeight) (ops : List (Operation K D)) :
    ∃ sl₀, (SkipList.new false maxNodeHeight).initializeList false =
        .ok (.returned () sl₀) ∧
      (AssertionsHold sl₀ ops ↔ RemovesTallest maxNodeHeight sl₀ ops) := by
  refine ⟨_, initializeList_spec false false hmax, ?_, ?_⟩
  · intro hassert before key after hsplit hreached
    obtain ⟨sl, hrun⟩ := Option.isSome_iff_exists.mp hreached
    cases (run_storesFully hmax hrun).performed (.change (.remove key)) with
    | completed _ _ _ hadmissible => exact hadmissible
    | ranOff _ hadmissible => exact hadmissible
    | failed hop _ => exact absurd hop (hassert before _ after hsplit sl hrun)
  · intro htallest before op after hsplit sl hrun hfails
    cases (run_storesFully hmax hrun).performed op with
    | completed _ hop _ _ =>
        rw [hop] at hfails
        cases hfails
    | ranOff hop _ =>
        rw [hop] at hfails
        cases hfails
    | failed _ hnot =>
        apply hnot
        cases op with
        | change c =>
            cases c with
            | insert i => trivial
            | remove key =>
                exact htallest before key after hsplit (by simp [hrun])
        | contains key => trivial
        | seek key endKey => trivial
        | estimateRangeCardinality lowKey highKey => trivial
        | validate => trivial

/-- Three operations, the newer entry taller: no assertion fails. -/
theorem assertionsHold_iff_removesTallest_same_key :
    ∃ sl₀ : SkipList Int32 Unit,
      (SkipList.new false 2).initializeList false =
          .ok (.returned () sl₀) ∧
        AssertionsHold sl₀
          [.change (.insert ⟨7, none, 1, 1, fun _ => 0, none⟩),
            .change (.insert ⟨7, none, 2, 2, fun _ => 0, none⟩),
            .change (.remove 7)] := by
  obtain ⟨sl₀, hinitialized, hiff⟩ := assertionsHold_iff_removesTallest
    (by decide : 1 ≤ 2)
    [.change (.insert ⟨7, none, 1, 1, fun _ => 0, none⟩),
      .change (.insert ⟨7, none, 2, 2, fun _ => 0, none⟩),
      .change (.remove (7 : Int32))]
  refine ⟨sl₀, hinitialized, hiff.mpr ?_⟩
  rintro (_ | ⟨_, _ | ⟨_, _ | ⟨_, before⟩⟩⟩) key after hsplit -
  · cases hsplit
  · cases hsplit
  · cases hsplit
    rintro e ⟨⟩
    decide
  · simp at hsplit

/-- The same operations with the older entry taller: level 1 unlinks the older
entry and level 0 the newer one. -/
theorem remove_assertion_fails :
    ∃ sl₀ : SkipList Int32 Unit,
      (SkipList.new false 2).initializeList false =
          .ok (.returned () sl₀) ∧
        ¬AssertionsHold sl₀
          [.change (.insert ⟨7, none, 1, 2, fun _ => 0, none⟩),
            .change (.insert ⟨7, none, 2, 1, fun _ => 0, none⟩),
            .change (.remove 7)] := by
  refine ⟨_, rfl, fun hassert => ?_⟩
  exact hassert
    [.change (.insert ⟨7, none, 1, 2, fun _ => 0, none⟩),
      .change (.insert ⟨7, none, 2, 1, fun _ => 0, none⟩)]
    (.change (.remove 7)) [] rfl _ rfl rfl

end SquidDB.Core
