import SquidDB.Core.BufferOwnership
import SquidDB.Core.SkipListMultimap

/-!
# Row buffers in a secondary list

With equal keys `remove` takes the first entry of a key off the levels it finds
it on, and `update` changes whichever entry the search meets first.  Buffers
are freed once all the same, in every run in which no assertion fails, and
without assertions every run goes through.
-/

namespace SquidDB.Core

open Checked Heap Ledger

variable {K D : Type}

section Calls

variable [LinearOrder K] {sl : SkipList K D} {head e : Entry K}
  {spine lo hi es gt : List (Entry K)} {received : List D}

/-- The buffers a secondary list was handed are those its entries hold and
those it has freed. -/
structure Books (received : List D) (sl : SkipList K D) (head : Entry K)
    (spine : List (Entry K)) : Prop extends WellFormed sl head spine where
  secondary : sl.primaryIndex = false
  balanced : Balanced received (buffers (contents sl.heap spine))
    sl.heap.freed

namespace Books

/-- `insert` puts the buffer into a new node in front of those with its
key. -/
theorem insert (hbooks : Books received sl head (lo ++ hi)) {key : K}
    (hlo : ∀ x ∈ lo, x.key < key) (hhi : ∀ x ∈ hi, key ≤ x.key)
    (ndebug : Bool) (data : Option D) (size : ℕ) {nodeHeight : ℕ}
    (hheight : nodeHeight ≤ sl.maxNodeHeight) (draw : ℕ → ℕ)
    (transaction : Option Transaction) :
    Takes Books ndebug received sl
      (.insert key data size nodeHeight draw transaction) := by
  have hsecondary : sl.primaryIndex = true → ∀ x ∈ hi, key ≠ x.key := by
    rw [hbooks.secondary]
    exact fun h => absurd h Bool.false_ne_true
  obtain ⟨sl', hrun, wf', hprimary, -, hrow, hfreed, -⟩ :=
    hbooks.toWellFormed.insert_spec hlo hhi ndebug data size hheight draw
      hsecondary
  refine ⟨sl', _, _, by rw [SkipList.call, hrun]; rfl, wf',
    hprimary.trans hbooks.secondary, ?_⟩
  have hbalanced := hbooks.balanced
  rw [contents_append, buffers_append] at hbalanced
  rw [contents_insert hbooks.toWellFormed hrow, hfreed, buffers_append,
    buffers_cons]
  exact hbalanced.receive data.toList

/-- `remove` frees the buffer of the first node with the key. -/
theorem remove (hbooks : Books received sl head (lo ++ (e :: es ++ gt)))
    {key : K} (hlo : ∀ x ∈ lo, x.key < key)
    (hes : ∀ x ∈ e :: es, x.key = key) (hgt : ∀ x ∈ gt, key < x.key)
    {ndebug : Bool} (hassert : ndebug = true ∨ ∀ x ∈ es, x.tower ≤ e.tower) :
    Takes Books ndebug received sl (.remove key) := by
  obtain ⟨sl', r, info, hr, hinfo, hrun, wf', hprimary, -, hrow, hfreed, -⟩ :=
    hbooks.toWellFormed.remove_spec hlo hes hgt hassert
  refine ⟨sl', _, _, hrun, wf', hprimary.trans hbooks.secondary, ?_⟩
  have hothers := hbooks.rows.contents_update hr hrow
  have hbalanced := hbooks.balanced
  rw [List.cons_append, contents_append, contents_cons, buffers_append,
    buffers_cons, dataOf_of_rowInfo hr hinfo, contents_append] at hbalanced
  rw [contents_append, contents_append, contents_lowerTowers,
    hothers lo fun x hx => List.mem_append_left _ hx,
    hothers es fun x hx => by simp [hx],
    hothers gt fun x hx => by simp [hx], hfreed, buffers_append]
  have hreleased := hbalanced.release
  rw [← List.append_nil received] at hreleased
  exact hreleased

/-- `update` frees the buffer it replaces, of whichever node was found. -/
theorem update (hbooks : Books received sl head (lo ++ e :: hi)) {key : K}
    {ndebug : Bool} (hfind : sl.findNode ndebug key = .ok (some e.ref))
    (data : Option D) (size : ℕ) (transaction : Option Transaction) :
    Takes Books ndebug received sl (.update key data size transaction) := by
  have he : e ∈ lo ++ e :: hi := by simp
  obtain ⟨r, info, hr, hinfo, hrun⟩ :=
    hbooks.toWellFormed.update_of_findNode he hfind data size
  have wf' := hbooks.toWellFormed.updatedHeap_wellFormed he hr hinfo data size
  have hrow : (updatedHeap sl.heap r info data size).rowInfo =
      Function.update sl.heap.rowInfo r
        (some { info with data := data, size := size }) := rfl
  have hinfo' : (updatedHeap sl.heap r info data size).rowInfo r =
      some { info with data := data, size := size } := by
    simp [hrow]
  have hothers := hbooks.rows.contents_update hr hrow
  refine ⟨_, _, _, by rw [SkipList.call, hrun]; rfl, wf', hbooks.secondary, ?_⟩
  have hbalanced := hbooks.balanced
  rw [contents_append, contents_cons, buffers_append, buffers_cons,
    dataOf_of_rowInfo hr hinfo] at hbalanced
  rw [contents_append, contents_cons, buffers_append, buffers_cons,
    dataOf_of_rowInfo hr hinfo',
    hothers lo fun x hx => List.mem_append_left _ hx,
    hothers hi fun x hx => List.mem_append_right _ hx]
  exact hbalanced.exchange data.toList

/-- With assertions compiled out a call of `remove` on a stored key goes
through; otherwise it may fail its assertion. -/
theorem remove_cases (hbooks : Books received sl head spine) (ndebug : Bool)
    (key : K) :
    (ndebug = false ∧ sl.call ndebug (.remove key) = .error .assertFailed) ∨
      Takes Books ndebug received sl (.remove key) ∨
      sl.call ndebug (.remove key) = .ok (.returned false sl) := by
  obtain ⟨lo, es, gt, rfl, hlo, hes, hgt⟩ :=
    exists_cut_equal hbooks.sorted key
  cases es with
  | nil =>
      rw [List.nil_append] at hbooks
      exact .inr (.inr (hbooks.toWellFormed.remove_absent hlo hgt ndebug))
  | cons e es =>
      by_cases hassert : ndebug = true ∨ ∀ x ∈ es, x.tower ≤ e.tower
      · exact .inr (.inl (hbooks.remove hlo hes hgt hassert))
      · rw [not_or] at hassert
        obtain ⟨hdebug, htaller⟩ := hassert
        obtain rfl := Bool.eq_false_of_not_eq_true hdebug
        push Not at htaller
        obtain ⟨x, hx, hlt⟩ := htaller
        exact .inl ⟨rfl, hbooks.toWellFormed.remove_fails hlo hes hgt hx hlt⟩

/-- Only an assertion can fail. -/
theorem settles (hbooks : Books received sl head spine) (ndebug : Bool)
    (c : Call K D) :
    Settles Books (ndebug = false) ndebug received sl c := by
  cases c with
  | insert key data size nodeHeight draw transaction =>
      by_cases hhigh : sl.maxNodeHeight < nodeHeight
      · have hthrown := hbooks.toWellFormed.insert_too_high ndebug key data
          size hhigh draw transaction
        refine .inr (.inr ⟨_, by rw [SkipList.call, hthrown]; rfl, ?_, rfl⟩)
        simp
      · obtain ⟨lo, hi, rfl, hlo, hhi⟩ := exists_cut hbooks.sorted key
        exact .inr (.inl (hbooks.insert hlo hhi ndebug data size
          (Nat.not_lt.mp hhigh) draw transaction))
  | remove key =>
      rcases hbooks.remove_cases ndebug key with
        hfails | haccepts | habsent
      · exact .inl (hfails.imp_right fun hrun => ⟨_, hrun⟩)
      · exact .inr (.inl haccepts)
      · exact .inr (.inr ⟨_, habsent, by simp, rfl⟩)
  | update key data size transaction =>
      obtain ⟨lo, hi, rfl, hlo, hhi⟩ := exists_cut hbooks.sorted key
      rcases hbooks.toWellFormed.findNode_spec hlo hhi ndebug with
        ⟨-, hfind⟩ | ⟨e, he, -, hfind⟩
      · have hrun : sl.update ndebug key data size transaction =
            .ok (.returned (false, transaction) sl) := by
          simp [SkipList.update, hbooks.ready, hfind]
        refine .inr (.inr ⟨_, by rw [SkipList.call, hrun]; rfl, ?_, rfl⟩)
        simp
      · obtain ⟨between, after, rfl⟩ := List.append_of_mem he
        rw [← List.append_assoc] at hbooks
        exact .inr (.inl (hbooks.update hfind data size transaction))

end Books

end Calls

/-! ## Runs -/

/-- A secondary list whose `initialize` has been called, or has not, or has
thrown. -/
def SkipList.FreshSecondary [Inhabited K] (ndebug : Bool)
    (sl : SkipList K D) : Prop :=
  ∃ maxNodeHeight, sl = SkipList.new false maxNodeHeight ∨
    (SkipList.new false maxNodeHeight).initializeList ndebug =
      .ok (.returned () sl)

/-- When no buffer is passed twice, a secondary list keeps each buffer it has
taken in one node or has freed it once, the destructor frees the rest, and the
buffers of the other calls are never stored or freed.  With assertions this
holds of every run that does not fail one; without them every run goes
through. -/
theorem secondary_buffers_freed_once [LinearOrder K] [Inhabited K]
    [DecidableEq D] {ndebug : Bool} {sl₀ : SkipList K D}
    (hfresh : sl₀.FreshSecondary ndebug) (calls : List (Call K D))
    (hpassed : (calls.filterMap Call.buffer).Nodup) :
    (ndebug = true → ∃ s, Machine.run (Custody.step ndebug)
      (Custody.initial sl₀) calls = some s) ∧
    ∀ s, Machine.run (Custody.step ndebug) (Custody.initial sl₀) calls =
        some s →
      (∀ d ∈ s.accepted, s.list.heap.Keeps d ∨ s.list.heap.LetGo d) ∧
      (∀ d ∈ s.refused, s.list.heap.Untouched d) ∧
      ∃ sl, s.list.destroy = .ok sl ∧
        (∀ d ∈ s.accepted, sl.heap.LetGo d) ∧
        ∀ d ∈ s.refused, sl.heap.Untouched d := by
  obtain ⟨maxNodeHeight, hfresh⟩ := hfresh
  have hnew : ∀ maxNodeHeight, 0 < maxNodeHeight → ∃ head, Books []
      (initialList false maxNodeHeight : SkipList K D) head [] :=
    fun maxNodeHeight hmax =>
      ⟨_, initialList_wellFormed false hmax, rfl, balanced_nil⟩
  have hsound := Custody.sound_initial hnew hfresh
  rcases hsound.run (fun hbooks => hbooks.settles ndebug) calls with
    ⟨hdebug, hstop⟩ | ⟨s, hrun, hs, hperm⟩
  · refine ⟨fun hrelease => ?_, fun s hrun => ?_⟩
    · cases hdebug.symm.trans hrelease
    · cases hstop.symm.trans hrun
  · refine ⟨fun _ => ⟨s, hrun⟩, fun s' hrun' => ?_⟩
    obtain rfl := Option.some.inj (hrun.symm.trans hrun')
    exact hs.freed_once
      (fun hbooks => ⟨hbooks.toWellFormed, hbooks.balanced⟩)
      (hperm.nodup_iff.mpr hpassed)

/-- Two entries of a key, one of them updated, and the newer one removed; the
buffers are numbers. -/
theorem secondary_buffers_freed_once_same_key :
    ∃ s, Machine.run (Custody.step true)
        (Custody.initial (initialList false 2 : SkipList Int32 ℕ))
        [.insert 5 (some 1) 4 2 (fun _ => 0) none,
          .insert 5 (some 2) 4 1 (fun _ => 0) none,
          .update 5 (some 3) 4 none, .remove 5] = some s ∧
      (∀ d ∈ s.accepted, s.list.heap.Keeps d ∨ s.list.heap.LetGo d) ∧
      ∃ sl, s.list.destroy = .ok sl ∧ ∀ d ∈ s.accepted, sl.heap.LetGo d := by
  have hfresh : (initialList false 2 : SkipList Int32 ℕ).FreshSecondary
      true := ⟨2, .inr (initializeList_spec true false (by decide))⟩
  have hpassed : ([.insert 5 (some 1) 4 2 (fun _ => 0) none,
      .insert 5 (some 2) 4 1 (fun _ => 0) none, .update 5 (some 3) 4 none,
      .remove 5].filterMap
        (Call.buffer : Call Int32 ℕ → Option ℕ)).Nodup := by
    decide
  obtain ⟨hruns, hfreed⟩ := secondary_buffers_freed_once hfresh _ hpassed
  obtain ⟨s, hrun⟩ := hruns rfl
  obtain ⟨hkeeps, -, sl, hdestroy, hgone, -⟩ := hfreed s hrun
  exact ⟨s, hrun, hkeeps, sl, hdestroy, hgone⟩

/-- `update` replaces the buffer of the older entry, which the search meets
first, and `remove` frees that of the newer one. -/
example : ((Machine.run (Custody.step true)
      (Custody.initial (initialList false 2 : SkipList Int32 ℕ))
      [.insert 5 (some 1) 4 2 (fun _ => 0) none,
        .insert 5 (some 2) 4 1 (fun _ => 0) none,
        .update 5 (some 3) 4 none, .remove 5]).map fun s =>
          (s.accepted, s.list.heap.freed)) =
    some ([1, 2, 3], [1, 2]) := rfl

end SquidDB.Core
