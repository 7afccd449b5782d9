import SquidDB.Core.SkipListMultimap

/-!
# Equal keys of different heights

Two places of a secondary list take the entries of one key to be met in the
same order on all levels: `seek` stops on the highest level that shows its key,
and `remove` asserts that all levels unlink one node.  Both are right exactly
while the newest entry of the key is at least as tall as the older ones.
-/

namespace SquidDB.Core

open Checked Heap SkipListIterator

variable {K D : Type} [LinearOrder K]

/-- The newest entry of the key is at least as tall as the older ones. -/
def NewestTallest (m : SortedMultimap K (StoredRow D)) (key : K) : Prop :=
  ∀ e, m.newest key = some e → ∀ x ∈ m.entries, x.key = key →
    x.value.height ≤ e.value.height

section Tallest

variable {maxNodeHeight : ℕ} {sl : SkipList K D} {head e : Entry K}
  {spine lo es gt : List (Entry K)} {m : SortedMultimap K (StoredRow D)}
  {key : K}

theorem newestTallest_of_none (hnone : m.newest key = none) :
    NewestTallest m key := by
  intro e he
  rw [hnone] at he
  cases he

namespace Stores

/-- In terms of the sequence: no entry with the key has a taller tower than
the first one. -/
theorem newestTallest_iff
    (hst : Stores maxNodeHeight sl head (lo ++ (e :: es ++ gt)) m)
    (hfull : FullTowers (lo ++ (e :: es ++ gt)))
    (hlo : ∀ x ∈ lo, x.key < key) (hes : ∀ x ∈ e :: es, x.key = key)
    (hgt : ∀ x ∈ gt, key < x.key) :
    NewestTallest m key ↔ ∀ x ∈ es, x.tower ≤ e.tower := by
  have hnewest := hst.newest_of_cut hlo (hes e List.mem_cons_self)
  have he := hfull e (by simp)
  constructor
  · intro htallest x hx
    have hmem : x ∈ lo ++ (e :: es ++ gt) := by simp [hx]
    rw [hfull x hmem, he]
    refine htallest _ hnewest ⟨x.key, x.ref, sl.heap.dataOf x.node,
      x.node.height⟩ ?_ (hes x (List.mem_cons_of_mem _ hx))
    rw [← hst.entries]
    exact List.mem_map_of_mem hmem
  · intro htall y hy x hx hkey
    rw [hnewest, Option.some.injEq] at hy
    subst hy
    rw [← hst.entries] at hx
    obtain ⟨z, hz, rfl⟩ := List.mem_map.mp hx
    change z.key = key at hkey
    change z.node.height ≤ e.node.height
    rw [← he, ← hfull z hz]
    rcases List.mem_append.mp hz with hz | hz
    · exact absurd hkey (hlo z hz).ne
    · rcases List.mem_append.mp hz with hz | hz
      · rcases List.mem_cons.mp hz with rfl | hz
        · exact le_rfl
        · exact htall z hz
      · exact absurd hkey (hgt z hz).ne'

end Stores

end Tallest

/-! ## Seeking -/

/-- `seek` starts at the first stored entry that is not below the key, and the
loop over it visits all of those. -/
structure SeeksLowerBound (ndebug : Bool) (sl : SkipList K D)
    (m : SortedMultimap K (StoredRow D)) (key : K) : Prop where
  position : sl.seek ndebug key none = .ok (.returned
    ⟨(m.entries.find? fun x => decide (key ≤ x.key)).map Stamped.stamp,
      none⟩ sl)
  visits : ∀ how, SkipList.visit how (sl.seek ndebug key none) =
    .ok (.returned ((m.entries.filter fun x => decide (key ≤ x.key)).map
      fun x => (x.key, x.value.row.data)) sl)

section Seek

variable {maxNodeHeight : ℕ} {sl : SkipList K D} {head e : Entry K}
  {spine lo es gt hi : List (Entry K)}
  {m : SortedMultimap K (StoredRow D)} {key : K}

theorem first_of_tallest {L : ℕ} {w : Entry K}
    (hgt : ∀ x ∈ gt, key < x.key) (htall : ∀ x ∈ es, x.tower ≤ e.tower)
    (hw : Tower.nextAt Entry.tower L (e :: es ++ gt) = some w)
    (hkey : key = w.key) : w = e := by
  by_cases hL : L < e.tower
  · rw [List.cons_append, Tower.nextAt_cons_of_lt hL] at hw
    exact (Option.some.inj hw).symm
  · have hlow : ∀ x ∈ e :: es, x.tower ≤ L :=
      List.forall_mem_cons.mpr ⟨Nat.le_of_not_lt hL,
        fun x hx => (htall x hx).trans (Nat.le_of_not_lt hL)⟩
    rw [Tower.nextAt_append_of_le hlow] at hw
    exact absurd hkey (hgt w (List.mem_of_find?_eq_some hw)).ne

omit [LinearOrder K] in
theorem exists_first_above (gt : List (Entry K)) {x : Entry K}
    (hes : ∀ y ∈ e :: es, y.key = key)
    (hx : x ∈ es) (htaller : e.tower < x.tower) :
    ∃ w, Tower.nextAt Entry.tower e.tower (e :: es ++ gt) = some w ∧
      key = w.key := by
  have hex : ∃ y ∈ e :: es, e.tower < y.tower :=
    ⟨x, List.mem_cons_of_mem _ hx, htaller⟩
  rw [Tower.nextAt_append_of_exists hex]
  rcases hw : Tower.nextAt Entry.tower e.tower (e :: es) with _ | w
  · exact absurd (Tower.nextAt_eq_none_iff.mp hw x
      (List.mem_cons_of_mem _ hx)) (Nat.not_le.mpr htaller)
  · exact ⟨w, rfl, (hes w (List.mem_of_find?_eq_some hw)).symm⟩

namespace Stores

theorem visited_of_cut (hst : Stores maxNodeHeight sl head (lo ++ hi) m)
    (hlo : ∀ x ∈ lo, x.key < key) (hhi : ∀ x ∈ hi, key ≤ x.key) :
    (m.entries.filter fun x => decide (key ≤ x.key)) =
        stamped sl.heap hi := by
  have hlow : (stamped sl.heap lo).filter
      (fun x => decide (key ≤ x.key)) = [] := by
    apply List.filter_eq_nil_iff.mpr
    intro x hx
    have hlt := forall_stamped (· < key) hlo x hx
    simpa using hlt
  have hhigh : (stamped sl.heap hi).filter
      (fun x => decide (key ≤ x.key)) = stamped sl.heap hi := by
    apply List.filter_eq_self.mpr
    intro x hx
    exact decide_eq_true (forall_stamped (key ≤ ·) hhi x hx)
  rw [← hst.entries, stamped_append, List.filter_append, hlow, hhigh,
    List.nil_append]

theorem seeksLowerBound (hst : Stores maxNodeHeight sl head (lo ++ hi) m)
    (hlo : ∀ x ∈ lo, x.key < key) (hhi : ∀ x ∈ hi, key ≤ x.key)
    {ndebug : Bool}
    (hseek : SkipList.seekFrom ndebug sl.heap key sl.maxNodeHeight sl.head =
      .ok (hi.head?.map Entry.ref)) : SeeksLowerBound ndebug sl m key := by
  have hfilter := hst.visited_of_cut hlo hhi
  constructor
  · have hfirst : (m.entries.find? fun x => decide (key ≤ x.key)) =
        (stamped sl.heap hi).head? := by
      rw [← hfilter, List.head?_filter]
    rw [hst.wf.seek_of_seekFrom hseek, hfirst]
    cases hi <;> rfl
  · intro how
    rw [hst.wf.visit_seek hseek how, hfilter, visited, contents, stamped,
      List.map_map, List.map_map]
    rfl

theorem eq_of_position
    (hst : Stores maxNodeHeight sl head (lo ++ e :: hi) m)
    (hlo : ∀ x ∈ lo, x.key < key) (hhi : ∀ x ∈ e :: hi, key ≤ x.key)
    {ndebug : Bool} {w : Entry K} (hw : w ∈ e :: hi)
    (hseek : SkipList.seekFrom ndebug sl.heap key sl.maxNodeHeight sl.head =
      .ok (some w.ref)) (hright : SeeksLowerBound ndebug sl m key) :
    e = w := by
  have hposition := hright.position
  have hfirst : (m.entries.find? fun x => decide (key ≤ x.key)) =
      some ⟨e.key, e.ref, sl.heap.dataOf e.node, e.node.height⟩ := by
    rw [← List.head?_filter, hst.visited_of_cut hlo hhi, stamped_cons,
      List.head?_cons]
  rw [hst.wf.seek_of_seekFrom hseek, hfirst] at hposition
  have href : w.ref = e.ref := by simpa using hposition
  exact List.inj_on_of_nodup_map hst.wf.distinct (by simp)
    (List.mem_cons_of_mem _ (List.mem_append_right _ hw)) href.symm

theorem tower_lt (hst : Stores maxNodeHeight sl head spine m)
    {x : Entry K} (hx : x ∈ spine) {L : ℕ} (hL : L < x.tower) :
    L < sl.maxNodeHeight := by
  obtain ⟨rest, hlx⟩ :=
    hst.wf.threaded.linked_of_mem (List.mem_cons_of_mem head hx)
  exact hL.trans_le (hlx.tower_le.trans (hst.wf.towers x hx).2)

/-- `seek` is right exactly when the newest entry of the key is at least as
tall as the others. -/
theorem seeksLowerBound_iff
    (hst : Stores maxNodeHeight sl head spine m) (hfull : FullTowers spine)
    (ndebug : Bool) (key : K) :
    SeeksLowerBound ndebug sl m key ↔ NewestTallest m key := by
  obtain ⟨lo, es, gt, rfl, hlo, hes, hgt⟩ :=
    exists_cut_equal hst.wf.sorted key
  have hhi : ∀ x ∈ es ++ gt, key ≤ x.key := le_key_of_cut hes hgt
  rcases hst.wf.seekFrom_spec hlo hhi ndebug with
    ⟨hne, hseek⟩ | ⟨w, hw, hkey, hseek, L, -, hfirst, habove⟩
  · -- the key is not stored
    cases es with
    | nil =>
        have hright := hst.seeksLowerBound hlo hhi hseek
        rw [List.nil_append] at hst
        exact iff_of_true hright
          (newestTallest_of_none (hst.newest_absent hlo hgt))
    | cons e es =>
        exact absurd (hes e List.mem_cons_self).symm (hne e (by simp))
  · cases es with
    | nil => exact absurd hkey (hgt w hw).ne
    | cons e es =>
        rw [hst.newestTallest_iff hfull hlo hes hgt]
        constructor
        · intro hright x hx
          by_contra htaller
          replace htaller := Nat.lt_of_not_le htaller
          obtain rfl := hst.eq_of_position hlo hhi
            (by simpa using hw) hseek hright
          have hL : L < e.tower := by simpa using List.find?_some hfirst
          have hmem : x ∈ lo ++ (e :: es ++ gt) := by simp [hx]
          obtain ⟨y, hy, hkeyy⟩ := exists_first_above gt hes hx htaller
          exact habove e.tower (hst.tower_lt hmem htaller) hL y hy hkeyy
        · intro htall
          obtain rfl := first_of_tallest hgt htall hfirst hkey
          exact hst.seeksLowerBound hlo hhi hseek

end Stores

end Seek

/-- Every run of insertions ends in a list whose entries are linked on all
levels of their heights. -/
theorem run_insertions [Inhabited K] (ndebug : Bool) {maxNodeHeight : ℕ}
    (hmax : 0 < maxNodeHeight) (insertions : List (Insertion K D)) :
    ∃ sl head spine, Machine.run (SkipList.step ndebug)
        (initialList false maxNodeHeight)
        (insertions.map fun i => (Change.insert i).call) = some sl ∧
      Stores maxNodeHeight sl head spine
        (multimapAfter maxNodeHeight (insertions.map .insert)) ∧
      FullTowers spine := by
  have hstep : ∀ (sl : SkipList K D) m (i : Insertion K D), True →
      (∃ head spine, Stores maxNodeHeight sl head spine m ∧
        FullTowers spine) →
      ∃ sl', SkipList.step ndebug sl (Change.insert i).call = some sl' ∧
        ∃ head spine, Stores maxNodeHeight sl' head spine
          (multimapCall maxNodeHeight m (.insert i)).2 ∧
            FullTowers spine := by
    rintro sl m i - ⟨head, spine, hst, hfull⟩
    by_cases hhigh : i.nodeHeight > maxNodeHeight
    · have hrun := hst.insert_too_high ndebug i hhigh
      refine ⟨sl, by simp [SkipList.step, hrun, Except.toOption], head,
        spine, ?_, hfull⟩
      simpa [multimapCall, hhigh] using hst
    · obtain ⟨sl', spine', hrun, hst', hfull'⟩ :=
        hst.insert ndebug i (Nat.not_lt.mp hhigh)
      exact ⟨sl', by simp [SkipList.step, hrun, Except.toOption], head,
        spine', hst', hfull' hfull⟩
  obtain ⟨sl, hrun, head, spine, hst, hfull⟩ :=
    Machine.exists_run_of_simulation hstep
      ⟨_, _, initialList_stores hmax, by simp [FullTowers]⟩
      fun i (_ : i ∈ insertions) => trivial
  rw [← Machine.run_comap] at hrun
  refine ⟨sl, head, spine, hrun, ?_, hfull⟩
  rwa [multimapAfter, List.foldl_map]

/-- After any insertions `seek` is positioned on the first entry that is not
below its key, and so misses nothing, exactly when the newest entry of the key
is at least as tall as the older ones. -/
theorem seeksLowerBound_iff_newestTallest [Inhabited K] (ndebug : Bool)
    {maxNodeHeight : ℕ} (hmax : 1 ≤ maxNodeHeight)
    (insertions : List (Insertion K D)) :
    ∃ sl₀ sl head level,
      (SkipList.new false maxNodeHeight).initializeList ndebug =
        .ok (.returned () sl₀) ∧
      Machine.run (SkipList.step ndebug) sl₀
        (insertions.map fun i => (Change.insert i).call) = some sl ∧
      Layered sl head ((multimapAfter maxNodeHeight
        (insertions.map .insert)).entries.map Stamped.stamp) level ∧
      ∀ key, SeeksLowerBound ndebug sl
          (multimapAfter maxNodeHeight (insertions.map .insert)) key ↔
        NewestTallest
          (multimapAfter maxNodeHeight (insertions.map .insert)) key := by
  obtain ⟨sl, head, spine, hrun, hst, hfull⟩ :=
    run_insertions ndebug hmax insertions
  obtain ⟨head', level, hlayers⟩ := hst.agrees.layers
  exact ⟨_, sl, head', level, initializeList_spec ndebug false hmax, hrun,
    hlayers, fun key => hst.seeksLowerBound_iff hfull ndebug key⟩

/-- Two insertions of the same key, the newer entry taller. -/
theorem seeksLowerBound_iff_newestTallest_same_key :
    1 ≤ 2 ∧ ∃ sl₀ sl : SkipList Int32 Unit,
      (SkipList.new false 2).initializeList false =
          .ok (.returned () sl₀) ∧
        Machine.run (SkipList.step false) sl₀
          ([⟨7, none, 1, 1, fun _ => 0, none⟩,
            ⟨7, none, 2, 2, fun _ => 0, none⟩].map fun i =>
              (Change.insert i).call) = some sl ∧
        SeeksLowerBound false sl (multimapAfter 2
          ([⟨7, none, 1, 1, fun _ => 0, none⟩,
            ⟨7, none, 2, 2, fun _ => 0, none⟩].map .insert)) 7 := by
  refine ⟨by decide, ?_⟩
  obtain ⟨sl₀, sl, -, -, hinit, hrun, -, hseek⟩ :=
    seeksLowerBound_iff_newestTallest (K := Int32) (D := Unit) false
      (show 1 ≤ 2 by decide) [⟨7, none, 1, 1, fun _ => 0, none⟩,
        ⟨7, none, 2, 2, fun _ => 0, none⟩]
  refine ⟨sl₀, sl, hinit, hrun, (hseek 7).mpr ?_⟩
  intro e he x hx _
  obtain rfl := Option.some.inj he
  rcases List.mem_cons.mp hx with rfl | hx
  · decide
  · obtain rfl := List.mem_singleton.mp hx
    decide

/-- The same insertions with the older entry taller: `seek` starts at the
older entry, node 1, although the first one is node 2. -/
theorem seek_skips_newest :
    ∃ sl₀ sl : SkipList Int32 Unit,
      (SkipList.new false 2).initializeList false =
          .ok (.returned () sl₀) ∧
        Machine.run (SkipList.step false) sl₀
          ([⟨7, none, 1, 2, fun _ => 0, none⟩,
            ⟨7, none, 2, 1, fun _ => 0, none⟩].map fun i =>
              (Change.insert i).call) = some sl ∧
        sl.heap.getNext sl.head 0 = .ok (some 2) ∧
        sl.heap.getKey (some 2) = .ok 7 ∧
        sl.seek false 7 none = .ok (.returned ⟨some 1, none⟩ sl) ∧
        ¬SeeksLowerBound false sl (multimapAfter 2
          ([⟨7, none, 1, 2, fun _ => 0, none⟩,
            ⟨7, none, 2, 1, fun _ => 0, none⟩].map .insert)) 7 := by
  refine ⟨_, _, rfl, rfl, rfl, rfl, rfl, fun hright => ?_⟩
  have hposition := hright.position
  have hstart : (some 1 : Option NodeRef) = some 2 :=
    congrArg SkipListIterator.current
      (Outcome.returned.inj (Except.ok.inj hposition)).1
  cases hstart

end SquidDB.Core
