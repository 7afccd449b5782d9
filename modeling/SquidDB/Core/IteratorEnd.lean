import SquidDB.Core.SkipListRefinement

/-!
# The end of an iteration

`end()` is an iterator without a node and without an end key, and `operator==`
compares both.  An exhausted iterator therefore equals `end()` exactly when it
was built without an end key; one with an end key is never left by the standard
loop.
-/

namespace SquidDB.Core

open Checked Heap SkipListIterator

variable {K D : Type} [LinearOrder K]

/-- The comparison with `end()` tells whether an iterator is exhausted,
whatever number of steps it has taken, and the standard loop over it
terminates and dereferences valid positions only. -/
structure EndTested (sl : SkipList K D) (stop : SkipListIterator K)
    (start : Checked (Outcome (SkipList K D) (SkipListIterator K))) :
    Prop where
  test : ∀ n it sl', SkipList.afterSteps n start = .ok (.returned it sl') →
    (it.equals stop = true ↔ it.valid = false) ∧
      (it.notEquals stop = true ↔ it.valid = true)
  loop : ∃ keys, SkipList.iterate start = .ok (.returned keys sl)

/-! ## Comparing with the end -/

theorem equals_end_iff (it : SkipListIterator K) :
    it.equals ⟨none, none⟩ = true ↔ it.valid = false ∧ it.endKey = none := by
  simp [equals, valid]

theorem equals_end_of_endKey {it : SkipListIterator K}
    (hnone : it.endKey = none) : it.equals ⟨none, none⟩ = !it.valid := by
  have hiff := equals_end_iff it
  rw [Bool.eq_iff_iff, hiff, Bool.not_eq_true']
  simp [hnone]

theorem notEquals_eq_not_equals (it other : SkipListIterator K) :
    it.notEquals other = !it.equals other := by
  simp [equals, notEquals]

theorem endKey_of_cutOff {h : Heap K D} {it it' : SkipListIterator K}
    (hcut : it.cutOff h = .ok it') : it'.endKey = it.endKey := by
  obtain ⟨past, -, hcut⟩ := bind_eq_ok.mp hcut
  cases past with
  | true =>
      obtain rfl := Except.ok.inj hcut
      rfl
  | false =>
      obtain rfl := Except.ok.inj hcut
      rfl

theorem endKey_of_increment {h : Heap K D} {it it' : SkipListIterator K}
    (hstep : it.increment h = .ok it') : it'.endKey = it.endKey := by
  rcases hcurrent : it.current with _ | a
  · rw [increment, hcurrent] at hstep
    obtain rfl := Except.ok.inj hstep
    rfl
  · rw [increment, hcurrent] at hstep
    obtain ⟨current, -, hcut⟩ := bind_eq_ok.mp hstep
    rw [endKey_of_cutOff hcut]

theorem endKey_of_forLoop {h : Heap K D} {fuel : ℕ}
    {it : SkipListIterator K} {keys : List K}
    (hloop : forLoop h ⟨none, none⟩ fuel it = .ok keys) :
    it.endKey = none := by
  induction fuel generalizing it keys with
  | zero => cases hloop
  | succ fuel ih =>
      rw [forLoop] at hloop
      by_cases hend : it.equals ⟨none, none⟩ = true
      · exact ((equals_end_iff it).mp hend).2
      · rw [notEquals_eq_not_equals, Bool.eq_false_of_not_eq_true hend,
          Bool.not_false, if_pos rfl] at hloop
        obtain ⟨key, -, hloop⟩ := bind_eq_ok.mp hloop
        obtain ⟨it', hstep, hloop⟩ := bind_eq_ok.mp hloop
        obtain ⟨rest, hloop, -⟩ := bind_eq_ok.mp hloop
        rw [← endKey_of_increment hstep]
        exact ih hloop

/-! ## Iterators without an end key -/

section Unbounded

variable {h : Heap K D} {spine : List (Entry K)}

/-- The iterator that stands at the beginning of a sequence. -/
def atEntries (spine : List (Entry K)) : SkipListIterator K :=
  ⟨spine.head?.map Entry.ref, none⟩

theorem increment_atEntries (ht : Threaded h spine)
    (hpos : ∀ e ∈ spine, 0 < e.tower) :
    (atEntries spine).increment h = .ok (atEntries spine.tail) := by
  cases spine with
  | nil => rfl
  | cons e spine =>
      have hstep := advance_entry ht.1 (hpos e List.mem_cons_self)
        (fun x hx => hpos x (List.mem_cons_of_mem _ hx)) .increment none
      rw [advance] at hstep
      rw [atEntries, List.head?_cons, Option.map_some, hstep, cutOff, pastEnd]
      rfl

theorem incrementTimes_atEntries (ht : Threaded h spine)
    (hpos : ∀ e ∈ spine, 0 < e.tower) (n : ℕ) :
    (atEntries spine).incrementTimes h n = .ok (atEntries (spine.drop n)) := by
  induction n generalizing spine with
  | zero => rfl
  | succ n ih =>
      rw [incrementTimes, increment_atEntries ht hpos, ok_bind]
      cases spine with
      | nil =>
          rw [List.tail_nil, ih ht hpos, List.drop_nil, List.drop_nil]
      | cons e spine =>
          rw [List.tail_cons, List.drop_succ_cons]
          exact ih ht.2 fun x hx => hpos x (List.mem_cons_of_mem _ hx)

theorem forLoop_atEntries (ht : Threaded h spine)
    (hpos : ∀ e ∈ spine, 0 < e.tower) {fuel : ℕ}
    (hfuel : spine.length < fuel) :
    forLoop h ⟨none, none⟩ fuel (atEntries spine) =
      .ok (spine.map Entry.key) := by
  induction spine generalizing fuel with
  | nil =>
      obtain ⟨fuel, rfl⟩ : ∃ n, fuel = n + 1 :=
        Nat.exists_eq_succ_of_ne_zero (by omega)
      rfl
  | cons e spine ih =>
      obtain ⟨fuel, rfl⟩ : ∃ n, fuel = n + 1 :=
        Nat.exists_eq_succ_of_ne_zero (by omega)
      rw [List.length_cons] at hfuel
      have hrest := ih ht.2 (fun x hx => hpos x (List.mem_cons_of_mem _ hx))
        (show spine.length < fuel by omega)
      have hkey : (atEntries (e :: spine)).getKey h = .ok e.key :=
        getKey_of_node ht.1.live
      have hne : (atEntries (e :: spine)).notEquals ⟨none, none⟩ = true := by
        simp [atEntries, notEquals]
      rw [forLoop, if_pos hne, hkey, ok_bind, increment_atEntries ht hpos,
        ok_bind, List.tail_cons, hrest]
      rfl

end Unbounded

/-! ## Reachable lists -/

section EndTested

variable {sl : SkipList K D} {head : Entry K} {lo hi : List (Entry K)}
  {start : Checked (Outcome (SkipList K D) (SkipListIterator K))}

theorem WellFormed.endTested (wf : WellFormed sl head (lo ++ hi))
    (hstart : start = .ok (.returned (atEntries hi) sl)) :
    EndTested sl ⟨none, none⟩ start := by
  have ht : Threaded sl.heap hi := Threaded.tail (s := head :: lo) wf.threaded
  have hpos : ∀ e ∈ hi, 0 < e.tower :=
    fun e he => wf.towers_pos e (List.mem_append_right _ he)
  have hlen := wf.length_lt_nodeCount
  rw [List.length_append] at hlen
  constructor
  · intro n it sl' hit
    have hsteps := incrementTimes_atEntries ht hpos n
    rw [hstart, SkipList.afterSteps, ok_bind] at hit
    simp only [hsteps, ok_bind, pure_eq_ok, Except.ok.injEq,
      Outcome.returned.injEq] at hit
    obtain ⟨rfl, -⟩ := hit
    have hequals : (atEntries (hi.drop n)).equals ⟨none, none⟩ =
        !(atEntries (hi.drop n)).valid := equals_end_of_endKey rfl
    rw [notEquals_eq_not_equals, hequals]
    simp
  · have hloop := forLoop_atEntries ht hpos
      (show hi.length < sl.heap.nodeCount + 1 by omega)
    refine ⟨hi.map Entry.key, ?_⟩
    rw [hstart, SkipList.iterate, ok_bind]
    simp only [wf.endIterator_spec, ok_bind, hloop, pure_eq_ok]

theorem WellFormed.not_endTested {spine : List (Entry K)}
    (wf : WellFormed sl head spine) (node : Option NodeRef) (endKey : K)
    (hstart : start = (do
      let it ← SkipListIterator.new sl.heap node (some endKey)
      pure (.returned it sl))) (stop : SkipListIterator K) :
    ¬EndTested sl stop start := by
  rintro ⟨-, keys, hloop⟩
  rw [hstart, SkipList.iterate] at hloop
  obtain ⟨o, ho, hloop⟩ := bind_eq_ok.mp hloop
  obtain ⟨it, hit, ho⟩ := bind_eq_ok.mp ho
  obtain rfl := Except.ok.inj ho
  simp only [wf.endIterator_spec, ok_bind] at hloop
  obtain ⟨keys', hloop, -⟩ := bind_eq_ok.mp hloop
  have hsome := endKey_of_cutOff hit
  rw [endKey_of_forLoop hloop] at hsome
  cases hsome

end EndTested

/-- In every reachable list an iteration from `begin()` passes the end test,
and one from `seek` does exactly when it has no end key. -/
theorem endTested_iff_no_endKey [Inhabited K] (ndebug : Bool)
    {maxNodeHeight : ℕ} (hmax : 1 ≤ maxNodeHeight)
    (calls : List (Call K D)) :
    ∃ sl₀ sl stop, (SkipList.new true maxNodeHeight).initializeList ndebug =
        .ok (.returned () sl₀) ∧
      Machine.run (SkipList.step ndebug) sl₀ calls = some sl ∧
      sl.endIterator = .ok (.returned stop sl) ∧
      EndTested sl stop sl.begin ∧
      ∀ key endKey, EndTested sl stop (sl.seek ndebug key endKey) ↔
        endKey = none := by
  obtain ⟨sl, hrun, hrep⟩ := run_represents ndebug hmax calls
  obtain ⟨head, spine, wf, -, -⟩ := hrep
  refine ⟨_, sl, _, initializeList_spec ndebug true hmax, hrun,
    wf.endIterator_spec, ?_, ?_⟩
  · have hwf : WellFormed sl head ([] ++ spine) := wf.toWellFormed
    apply hwf.endTested
    simp [SkipList.begin, wf.ready, wf.getNext_head, SkipListIterator.new,
      cutOff, pastEnd, atEntries]
  · intro key endKey
    obtain ⟨lo, hi, rfl, hlo, hhi⟩ := exists_cut wf.sorted key
    have hseek := wf.seekFrom_spec hlo hhi ndebug
    constructor
    · intro htested
      rcases endKey with _ | endKey
      · rfl
      · refine absurd htested (wf.toWellFormed.not_endTested
          (hi.head?.map Entry.ref) endKey ?_ _)
        simp [SkipList.seek, wf.ready, hseek]
    · rintro rfl
      exact wf.toWellFormed.endTested (wf.seek_of_seekFrom hseek)

/-- The keys 1, 2 and 3, iterated from 1. -/
theorem endTested_iff_no_endKey_three_keys :
    1 ≤ 1 ∧ ∃ (sl₀ sl : SkipList Int32 Unit) (stop : SkipListIterator Int32),
      (SkipList.new true 1).initializeList false =
          .ok (.returned () sl₀) ∧
        Machine.run (SkipList.step false) sl₀
          [.insert 1 none 0 1 (fun _ => 0) none,
            .insert 2 none 0 1 (fun _ => 0) none,
            .insert 3 none 0 1 (fun _ => 0) none] = some sl ∧
        EndTested sl stop (sl.seek false 1 none) := by
  refine ⟨by decide, ?_⟩
  obtain ⟨sl₀, sl, stop, hinit, hrun, -, -, hseek⟩ :=
    endTested_iff_no_endKey (K := Int32) (D := Unit) false (le_refl 1)
      [.insert 1 none 0 1 (fun _ => 0) none,
        .insert 2 none 0 1 (fun _ => 0) none,
        .insert 3 none 0 1 (fun _ => 0) none]
  exact ⟨sl₀, sl, stop, hinit, hrun, (hseek 1 none).mpr rfl⟩

/-- The same keys, iterated from 1 with the end key 2: after two steps the
iterator is exhausted, but it does not equal `end()`. -/
theorem exhausted_ne_end :
    ∃ (sl₀ sl : SkipList Int32 Unit) (it stop : SkipListIterator Int32),
      (SkipList.new true 1).initializeList false =
          .ok (.returned () sl₀) ∧
        Machine.run (SkipList.step false) sl₀
          [.insert 1 none 0 1 (fun _ => 0) none,
            .insert 2 none 0 1 (fun _ => 0) none,
            .insert 3 none 0 1 (fun _ => 0) none] = some sl ∧
        SkipList.afterSteps 2 (sl.seek false 1 (some 2)) =
          .ok (.returned it sl) ∧
        sl.endIterator = .ok (.returned stop sl) ∧
        it.valid = false ∧ it.equals stop = false ∧
        SkipList.iterate (sl.seek false 1 (some 2)) =
          .error .nullPointer := by
  refine ⟨_, _, ⟨none, some 2⟩, ⟨none, none⟩, rfl, rfl, ?_, ?_, rfl, ?_, ?_⟩
  · rfl
  · rfl
  · decide
  · rfl

end SquidDB.Core
