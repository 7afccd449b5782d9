import SquidDB.Core.SkipListLookup

/-!
# Scans

An iterator without an end key visits the rest of the sequence.  One with an
end key reads the key of its current node before it tests whether there is
one, so it only gets through when it meets an entry past the end key.
-/

namespace SquidDB.Core

open Checked Heap SkipListIterator

variable {K D : Type}

/-- The rows a caller reads along a sequence of entries. -/
def visited (h : Heap K D) (spine : List (Entry K)) : List (K × Option D) :=
  (contents h spine).map fun b => (b.1, b.2.data)

@[simp] theorem visited_nil (h : Heap K D) :
    visited h ([] : List (Entry K)) = [] := rfl

@[simp] theorem visited_cons (h : Heap K D) (e : Entry K)
    (spine : List (Entry K)) :
    visited h (e :: spine) =
      (e.key, (h.dataOf e.node).data) :: visited h spine := rfl

variable [LinearOrder K] {h : Heap K D} {sl : SkipList K D} {head : Entry K}
  {spine lo hi : List (Entry K)} {key : K}

/-! ## One step of an iterator -/

omit [LinearOrder K] in
theorem read_entry {e : Entry K} (hlive : h.node e.ref = some e.node)
    (hrow : ∃ r info, e.node.rowInfo = some r ∧ h.rowInfo r = some info)
    (endKey : Option K) :
    getKey h ⟨some e.ref, endKey⟩ = .ok e.key ∧
      getData h ⟨some e.ref, endKey⟩ =
        .ok (h.dataOf e.node).data := by
  obtain ⟨r, info, hr, hinfo⟩ := hrow
  constructor
  · exact getKey_of_node hlive
  · simp [getData, getRowInfo_of_node hlive, hr, readRowInfo_of_rowInfo hinfo,
      dataOf_of_rowInfo hr hinfo, RowInfo.rowData]

theorem advance_entry {e : Entry K} (hl : Linked h e hi)
    (hpos : 0 < e.tower) (hhi : ∀ x ∈ hi, 0 < x.tower)
    (how : Advance) (endKey : Option K) :
    advance h how ⟨some e.ref, endKey⟩ =
      cutOff h ⟨hi.head?.map Entry.ref, endKey⟩ := by
  have hnext := getNext_of_node hl.live (lt_of_lt_of_le hpos hl.tower_le)
  rw [hl.next 0 hpos, SkipList.nextAt_zero hhi] at hnext
  cases how <;> simp [advance, SkipListIterator.next, increment, hnext]

theorem collect_entry {e : Entry K} (ht : Threaded h (e :: hi))
    (hpos : ∀ x ∈ e :: hi, 0 < x.tower)
    (hrow : ∃ r info, e.node.rowInfo = some r ∧ h.rowInfo r = some info)
    (how : ℕ → Advance) (fuel round : ℕ) (endKey : Option K) :
    collect h how (fuel + 1) round ⟨some e.ref, endKey⟩ = (do
      let rest ← cutOff h ⟨hi.head?.map Entry.ref, endKey⟩ >>=
        collect h how fuel (round + 1)
      pure ((e.key, (h.dataOf e.node).data) :: rest)) := by
  obtain ⟨hkey, hdata⟩ := read_entry ht.1.live hrow endKey
  have hadvance := advance_entry ht.1 (hpos e List.mem_cons_self)
    (fun x hx => hpos x (List.mem_cons_of_mem _ hx)) (how round) endKey
  rw [collect]
  simp only [valid, Option.isSome_some, if_true, hkey, hdata, hadvance,
    ok_bind, bind_assoc]

/-! ## The caller's loop -/

/-- Without an end key the loop visits the rest of the sequence. -/
theorem collect_spec (ht : Threaded h spine)
    (hpos : ∀ e ∈ spine, 0 < e.tower)
    (hrows : ∀ e ∈ spine, ∃ r info, e.node.rowInfo = some r ∧
      h.rowInfo r = some info)
    (how : ℕ → Advance) {fuel : ℕ} (hfuel : spine.length < fuel)
    (round : ℕ) :
    collect h how fuel round ⟨spine.head?.map Entry.ref, none⟩ =
      .ok (visited h spine) := by
  induction spine generalizing fuel round with
  | nil =>
      obtain ⟨fuel, rfl⟩ : ∃ n, fuel = n + 1 :=
        Nat.exists_eq_succ_of_ne_zero (by omega)
      rfl
  | cons e spine ih =>
      obtain ⟨fuel, rfl⟩ : ∃ n, fuel = n + 1 :=
        Nat.exists_eq_succ_of_ne_zero (by omega)
      rw [List.length_cons] at hfuel
      have hrest := ih ht.2 (fun x hx => hpos x (List.mem_cons_of_mem _ hx))
        (fun x hx => hrows x (List.mem_cons_of_mem _ hx))
        (show spine.length < fuel by omega) (round + 1)
      rw [List.head?_cons, Option.map_some, collect_entry ht hpos
        (hrows e List.mem_cons_self)]
      simp [cutOff, pastEnd, hrest]

/-- With an end key the loop visits the entries up to it when a later one
follows, and otherwise runs off the end of the list. -/
theorem collect_endKey (ht : Threaded h spine)
    (hpos : ∀ e ∈ spine, 0 < e.tower)
    (hrows : ∀ e ∈ spine, ∃ r info, e.node.rowInfo = some r ∧
      h.rowInfo r = some info)
    (hsorted : spine.Pairwise fun a b => a.key ≤ b.key)
    (how : ℕ → Advance) {fuel : ℕ} (hfuel : spine.length < fuel)
    (round : ℕ) (endKey : K) :
    (cutOff h ⟨spine.head?.map Entry.ref, some endKey⟩ >>=
        collect h how fuel round) =
      if ∃ e ∈ spine, endKey < e.key then
        .ok (visited h (spine.filter fun e => e.key ≤ endKey))
      else .error .nullPointer := by
  induction spine generalizing fuel round with
  | nil => simp [cutOff, pastEnd, Heap.getKey]
  | cons e spine ih =>
      obtain ⟨fuel, rfl⟩ : ∃ n, fuel = n + 1 :=
        Nat.exists_eq_succ_of_ne_zero (by omega)
      rw [List.length_cons] at hfuel
      have hkey : h.getKey (some e.ref) = .ok e.key :=
        getKey_of_node ht.1.live
      rw [List.head?_cons, Option.map_some]
      by_cases hpast : endKey < e.key
      · -- the entry lies past the end key, and so do all others
        have hnone : (e :: spine).filter (fun x => x.key ≤ endKey) = [] := by
          apply List.filter_eq_nil_iff.mpr
          intro x hx
          rw [decide_eq_true_eq, not_le]
          rcases List.mem_cons.mp hx with rfl | hx
          · exact hpast
          · exact hpast.trans_le ((List.pairwise_cons.mp hsorted).1 x hx)
        have hex : ∃ x ∈ e :: spine, endKey < x.key :=
          ⟨e, List.mem_cons_self, hpast⟩
        rw [if_pos hex, hnone]
        simp [cutOff, pastEnd, hkey, hpast, collect, valid]
      · have hrest := ih ht.2
          (fun x hx => hpos x (List.mem_cons_of_mem _ hx))
          (fun x hx => hrows x (List.mem_cons_of_mem _ hx))
          (List.pairwise_cons.mp hsorted).2
          (show spine.length < fuel by omega) (round + 1)
        have hstay : cutOff h ⟨some e.ref, some endKey⟩ =
            .ok ⟨some e.ref, some endKey⟩ := by
          simp [cutOff, pastEnd, hkey, hpast]
        rw [hstay, ok_bind, collect_entry ht hpos
          (hrows e List.mem_cons_self), hrest]
        have hiff : (∃ x ∈ e :: spine, endKey < x.key) ↔
            ∃ x ∈ spine, endKey < x.key := by
          simp [hpast]
        simp only [hiff]
        split
        · rw [ok_bind, List.filter_cons_of_pos (by simpa using hpast),
            visited_cons, pure_eq_ok]
        · rfl

/-! ## Calls -/

namespace WellFormed

theorem readable (wf : WellFormed sl head spine) :
    ∀ e ∈ spine, ∃ r info, e.node.rowInfo = some r ∧
      sl.heap.rowInfo r = some info := by
  intro e he
  obtain ⟨r, info, hr, hinfo, -⟩ := wf.rows.exists_row he
  exact ⟨r, info, hr, hinfo⟩

/-- `scan` visits all entries in order. -/
theorem scan_spec (wf : WellFormed sl head spine) (how : ℕ → Advance) :
    SkipList.visit how sl.scan =
      .ok (.returned (visited sl.heap spine) sl) := by
  have hlen := wf.length_lt_nodeCount
  have hcollect := collect_spec wf.threaded.2 wf.towers_pos wf.readable how
    (show spine.length < sl.heap.nodeCount + 1 by omega) 0
  simp [SkipList.visit, SkipList.scan, SkipList.begin, wf.ready,
    wf.getNext_head, SkipListIterator.new, cutOff, pastEnd, hcollect]

/-- The call of `seek` without an end key. -/
theorem seek_of_seekFrom (wf : WellFormed sl head spine) {ndebug : Bool}
    {node : Option NodeRef}
    (hseek : SkipList.seekFrom ndebug sl.heap key sl.maxNodeHeight sl.head =
      .ok node) :
    sl.seek ndebug key none = .ok (.returned ⟨node, none⟩ sl) := by
  simp [SkipList.seek, wf.ready, hseek, SkipListIterator.new, cutOff,
    pastEnd]

/-- Without an end key the loop visits the sequence from where `seek`
starts. -/
theorem visit_seek (wf : WellFormed sl head (lo ++ hi)) {ndebug : Bool}
    (hseek : SkipList.seekFrom ndebug sl.heap key sl.maxNodeHeight sl.head =
      .ok (hi.head?.map Entry.ref)) (how : ℕ → Advance) :
    SkipList.visit how (sl.seek ndebug key none) =
      .ok (.returned (visited sl.heap hi) sl) := by
  have hlen := wf.length_lt_nodeCount
  rw [List.length_append] at hlen
  have ht : Threaded sl.heap hi := Threaded.tail (s := head :: lo) wf.threaded
  have hcollect := collect_spec ht
    (fun e he => wf.towers_pos e (List.mem_append_right _ he))
    (fun e he => wf.readable e (List.mem_append_right _ he)) how
    (show hi.length < sl.heap.nodeCount + 1 by omega) 0
  rw [wf.seek_of_seekFrom hseek]
  simp [SkipList.visit, hcollect]

/-- `end` is an iterator that is not valid. -/
theorem endIterator_spec (wf : WellFormed sl head spine) :
    sl.endIterator = .ok (.returned ⟨none, none⟩ sl) := by
  simp [SkipList.endIterator, wf.ready, SkipListIterator.new, cutOff,
    pastEnd]

end WellFormed

namespace PrimaryWellFormed

variable (wf : PrimaryWellFormed sl head (lo ++ hi))
  (hlo : ∀ x ∈ lo, x.key < key) (hhi : ∀ x ∈ hi, key ≤ x.key)

include wf hlo hhi

/-- On a primary list `seek` starts at the first entry that is not below the
key. -/
theorem seekFrom_spec (ndebug : Bool) :
    SkipList.seekFrom ndebug sl.heap key sl.maxNodeHeight sl.head =
      .ok (hi.head?.map Entry.ref) := by
  rcases wf.toWellFormed.seekFrom_spec hlo hhi ndebug with
    ⟨-, hseek⟩ | ⟨e, he, hkey, hseek, -⟩
  · exact hseek
  · rw [hseek]
    cases hi with
    | nil => simp at he
    | cons x hi =>
        rcases List.mem_cons.mp he with rfl | he
        · rfl
        · have hstrict := (List.pairwise_append.mp wf.strict).2.1
          have hlt := (List.pairwise_cons.mp hstrict).1 e he
          have hle := hhi x List.mem_cons_self
          exact absurd (hkey ▸ hlt) (not_lt.mpr hle)

/-- `seek` without an end key visits the entries from the key on. -/
theorem seek_spec (ndebug : Bool) (how : ℕ → Advance) :
    SkipList.visit how (sl.seek ndebug key none) =
      .ok (.returned (visited sl.heap hi) sl) :=
  wf.toWellFormed.visit_seek (wf.seekFrom_spec hlo hhi ndebug) how

/-- `rangeScan` visits the entries between the keys when one follows them,
and otherwise reads the key of a null node. -/
theorem rangeScan_spec (ndebug : Bool) (how : ℕ → Advance) (endKey : K) :
    SkipList.visit how (sl.rangeScan ndebug key endKey) =
      if ∃ e ∈ hi, endKey < e.key then
        .ok (.returned
          (visited sl.heap (hi.filter fun e => e.key ≤ endKey)) sl)
      else .error .nullPointer := by
  have hlen := wf.length_lt_nodeCount
  rw [List.length_append] at hlen
  have ht : Threaded sl.heap hi := Threaded.tail (s := head :: lo) wf.threaded
  have hcollect := collect_endKey ht
    (fun e he => wf.towers_pos e (List.mem_append_right _ he))
    (fun e he => wf.readable e (List.mem_append_right _ he))
    (List.pairwise_append.mp wf.sorted).2.1 how
    (show hi.length < sl.heap.nodeCount + 1 by omega) 0 endKey
  have hvisit : SkipList.visit how (sl.rangeScan ndebug key endKey) = (do
      let rows ← cutOff sl.heap ⟨hi.head?.map Entry.ref, some endKey⟩ >>=
        collect sl.heap how (sl.heap.nodeCount + 1) 0
      pure (.returned rows sl)) := by
    simp [SkipList.visit, SkipList.rangeScan, SkipList.seek, wf.ready,
      wf.seekFrom_spec hlo hhi ndebug, SkipListIterator.new]
  rw [hvisit, hcollect]
  split
  · rfl
  · rfl

end PrimaryWellFormed

end SquidDB.Core
