import SquidDB.Lib.MapScan
import SquidDB.Core.RandomHeights
import SquidDB.Core.SkipListStructure

/-!
# Levels and searches on average

Primary lists that are built by calls fixed in advance while every insertion
draws the height of its node.  A map from keys to the calls that inserted them
follows the run whatever is drawn, and the tower of a key is the height drawn
by its call.  So the averages over all draws can be computed from the keys
alone, by the averages over independent draws.
-/

namespace SquidDB.Core

open Checked Draws Finset
open scoped BigOperators

variable {K D : Type}

namespace Call

/-- The call with other values from the random engine. -/
def withDraw (draw : ℕ → ℕ) : Call K D → Call K D
  | .insert key data size nodeHeight _ transaction =>
      .insert key data size nodeHeight draw transaction
  | .remove key => .remove key
  | .update key data size transaction => .update key data size transaction

/-- An insertion leaves the height to the random engine. -/
def DrawsHeight : Call K D → Prop
  | .insert _ _ _ nodeHeight _ _ => nodeHeight = 0
  | .remove _ | .update _ _ _ _ => True

end Call

/-- The calls with their places in the sequence. -/
def numbered (calls : List (Call K D)) :
    List (Fin calls.length × Call K D) :=
  List.ofFn fun i => (i, calls.get i)

/-- The calls, each with what it has drawn. -/
def withDraws {ι : Type} {M : ℕ} (calls : List (ι × Call K D))
    (draws : ι → HeightDraw M) : List (Call K D) :=
  calls.map fun c => c.2.withDraw (draws c.1).values

variable [LinearOrder K]

/-! ## Who inserted a key -/

section Origins

variable {ι : Type}

/-- Keep for every key the call that inserted it. -/
def originsCall (m : SortedMap K ι) : ι × Call K D → SortedMap K ι
  | (i, .insert key _ _ _ _ _) =>
      if (m.lookup key).isSome then m else m.put key i
  | (_, .remove key) => m.erase key
  | (_, .update _ _ _ _) => m

def originsAfter (calls : List (ι × Call K D)) : SortedMap K ι :=
  calls.foldl originsCall SortedMap.empty

/-- Every call inserts at most one key that is still there, and it is one of
the given calls. -/
structure Separate (origins : List ι) (m : SortedMap K ι) : Prop where
  mem : ∀ b ∈ m.entries, b.2 ∈ origins
  inj : ∀ a ∈ m.entries, ∀ b ∈ m.entries, a.2 = b.2 → a = b

theorem Separate.step {origins : List ι} {m : SortedMap K ι}
    (h : Separate origins m) {c : ι × Call K D} (hnew : c.1 ∉ origins) :
    Separate (c.1 :: origins) (originsCall m c) := by
  have hkeep : Separate (c.1 :: origins) m :=
    ⟨fun b hb => List.mem_cons_of_mem _ (h.mem b hb), h.inj⟩
  obtain ⟨i, c⟩ := c
  cases c with
  | insert key data size nodeHeight draw transaction =>
      rw [originsCall]
      by_cases hthere : (m.lookup key).isSome
      · rwa [if_pos hthere]
      · rw [if_neg hthere]
        have hother : ∀ b ∈ m.entries, b.2 ≠ i :=
          fun b hb heq => hnew (heq ▸ h.mem b hb)
        constructor
        · intro b hb
          rcases SortedMap.mem_entries_put.mp hb with rfl | ⟨-, hb⟩
          · exact List.mem_cons_self
          · exact hkeep.mem b hb
        · intro a ha b hb heq
          rcases SortedMap.mem_entries_put.mp ha with rfl | ⟨-, ha⟩
          · rcases SortedMap.mem_entries_put.mp hb with rfl | ⟨-, hb⟩
            · rfl
            · exact absurd heq.symm (hother b hb)
          · rcases SortedMap.mem_entries_put.mp hb with rfl | ⟨-, hb⟩
            · exact absurd heq (hother a ha)
            · exact h.inj a ha b hb heq
  | remove key =>
      constructor
      · intro b hb
        exact hkeep.mem b (SortedMap.mem_entries_erase.mp hb).2
      · intro a ha b hb heq
        exact h.inj a (SortedMap.mem_entries_erase.mp ha).2 b
          (SortedMap.mem_entries_erase.mp hb).2 heq
  | update key data size transaction => exact hkeep

theorem Separate.run {origins : List ι} {m : SortedMap K ι}
    (h : Separate origins m) {calls : List (ι × Call K D)}
    (hnodup : (calls.map Prod.fst).Nodup)
    (hnew : ∀ c ∈ calls, c.1 ∉ origins) :
    ∃ origins', Separate origins' (calls.foldl originsCall m) := by
  induction calls generalizing origins m with
  | nil => exact ⟨origins, h⟩
  | cons c calls ih =>
      obtain ⟨hc, hnodup⟩ := List.nodup_cons.mp hnodup
      obtain ⟨hfirst, hnew⟩ := List.forall_mem_cons.mp hnew
      refine ih (h.step hfirst) hnodup fun c' hc' => ?_
      have hne : c'.1 ≠ c.1 :=
        ne_of_mem_of_not_mem (List.mem_map_of_mem hc') hc
      exact fun hmem => (List.mem_cons.mp hmem).elim hne (hnew c' hc')

theorem nodup_origins {calls : List (ι × Call K D)}
    (hnodup : (calls.map Prod.fst).Nodup) :
    ((originsAfter calls).entries.map Prod.snd).Nodup := by
  have hempty : Separate ([] : List ι) (SortedMap.empty : SortedMap K ι) :=
    ⟨by simp, by simp⟩
  obtain ⟨origins, h⟩ := hempty.run hnodup (by simp)
  exact List.Nodup.map_on (fun a ha b hb => h.inj a ha b hb)
    ((originsAfter calls).sorted.imp fun hlt heq => hlt.ne (by rw [heq]))

/-- Which keys a call leaves in the list. -/
def Call.bindsAfter (binds : K → Bool) : Call K D → K → Bool
  | .insert key _ _ _ _ _, k => binds k || decide (k = key)
  | .remove key, k => binds k && decide (k ≠ key)
  | .update _ _ _ _, k => binds k

theorem isSome_lookup_originsCall (m : SortedMap K ι) (i : ι)
    (c : Call K D) (k : K) :
    ((originsCall m (i, c)).lookup k).isSome =
      c.bindsAfter (fun k => (m.lookup k).isSome) k := by
  cases c with
  | insert key data size nodeHeight draw transaction =>
      by_cases hk : k = key
      · subst hk
        by_cases hthere : (m.lookup k).isSome
        · simp [originsCall, Call.bindsAfter, hthere]
        · simp [originsCall, Call.bindsAfter, hthere, SortedMap.lookup_put]
      · by_cases hthere : (m.lookup key).isSome
        · simp [originsCall, Call.bindsAfter, hthere, hk]
        · simp [originsCall, Call.bindsAfter, hthere, hk,
            SortedMap.lookup_put]
  | remove key =>
      by_cases hk : k = key
      · simp [originsCall, Call.bindsAfter, hk, SortedMap.lookup_erase]
      · simp [originsCall, Call.bindsAfter, hk, SortedMap.lookup_erase]
  | update key data size transaction => rfl

theorem isSome_lookup_mapCall (maxNodeHeight : ℕ)
    (m : SortedMap K (RowData D)) {c : Call K D} (hdrawn : c.DrawsHeight)
    (k : K) :
    ((mapCall maxNodeHeight m c).2.lookup k).isSome =
      c.bindsAfter (fun k => (m.lookup k).isSome) k := by
  cases c with
  | insert key data size nodeHeight draw transaction =>
      obtain rfl : nodeHeight = 0 := hdrawn
      by_cases hk : k = key
      · subst hk
        by_cases hthere : (m.lookup k).isSome
        · simp [mapCall, Call.bindsAfter, hthere]
        · simp [mapCall, Call.bindsAfter, hthere, SortedMap.lookup_put]
      · by_cases hthere : (m.lookup key).isSome
        · simp [mapCall, Call.bindsAfter, hthere, hk]
        · simp [mapCall, Call.bindsAfter, hthere, hk, SortedMap.lookup_put]
  | remove key =>
      by_cases hthere : (m.lookup key).isSome
      · by_cases hk : k = key
        · simp [mapCall, Call.bindsAfter, hthere, hk, SortedMap.lookup_erase]
        · simp [mapCall, Call.bindsAfter, hthere, hk, SortedMap.lookup_erase]
      · by_cases hk : k = key
        · simp [mapCall, Call.bindsAfter, hthere, hk]
        · simp [mapCall, Call.bindsAfter, hthere, hk]
  | update key data size transaction =>
      by_cases hthere : (m.lookup key).isSome
      · by_cases hk : k = key
        · simp [mapCall, Call.bindsAfter, hthere, hk, SortedMap.lookup_put]
        · simp [mapCall, Call.bindsAfter, hthere, hk, SortedMap.lookup_put]
      · simp [mapCall, Call.bindsAfter, hthere]

theorem isSome_lookup_origins (maxNodeHeight : ℕ)
    {calls : List (ι × Call K D)} (hdrawn : ∀ c ∈ calls, c.2.DrawsHeight)
    {m : SortedMap K ι} {m' : SortedMap K (RowData D)}
    (hsame : ∀ k, (m.lookup k).isSome = (m'.lookup k).isSome) (k : K) :
    ((calls.foldl originsCall m).lookup k).isSome =
      (((calls.map Prod.snd).foldl
        (fun m c => (mapCall maxNodeHeight m c).2) m').lookup k).isSome := by
  induction calls generalizing m m' with
  | nil => exact hsame k
  | cons c calls ih =>
      obtain ⟨hfirst, hdrawn⟩ := List.forall_mem_cons.mp hdrawn
      refine ih hdrawn fun k => ?_
      rw [isSome_lookup_originsCall, isSome_lookup_mapCall _ _ hfirst,
        funext hsame]

theorem keys_eq_of_isSome_lookup {V W : Type} {m : SortedMap K V}
    {m' : SortedMap K W}
    (h : ∀ k, (m.lookup k).isSome = (m'.lookup k).isSome) :
    m.entries.map Prod.fst = m'.entries.map Prod.fst := by
  have hkeys : ∀ {U : Type} (m : SortedMap K U) (k : K),
      k ∈ m.entries.map Prod.fst ↔ (m.lookup k).isSome := by
    intro U m k
    rw [List.mem_map, Option.isSome_iff_exists]
    constructor
    · rintro ⟨⟨_, u⟩, hmem, rfl⟩
      exact ⟨u, SortedMap.lookup_eq_some_iff.mpr hmem⟩
    · rintro ⟨u, hu⟩
      exact ⟨(k, u), SortedMap.lookup_eq_some_iff.mp hu, rfl⟩
  have hsorted : ∀ {U : Type} (m : SortedMap K U),
      (m.entries.map Prod.fst).Pairwise (· < ·) :=
    fun m => List.pairwise_map.mpr m.sorted
  refine (hsorted m).eq_of_mem_iff (hsorted m') fun k => ?_
  rw [hkeys, hkeys, h]

end Origins

/-! ## The towers of a run -/

section Towers

variable {ι : Type} {M : ℕ}

/-- The key and the tower of an entry. -/
def Entry.shape (e : Entry K) : K × ℕ := (e.key, e.tower)

/-- The shape of a key whose height has been drawn by a call. -/
def drawnShape (draws : ι → HeightDraw M) (b : K × ι) : K × ℕ :=
  (b.1, (draws b.2).height)

/-- Every key of the list has the height that its call has drawn. -/
def Grown (draws : ι → HeightDraw M) (sl : SkipList K D) (head : Entry K)
    (spine : List (Entry K)) (m : SortedMap K ι) : Prop :=
  PrimaryWellFormed sl head spine ∧
    spine.map Entry.shape = m.entries.map (drawnShape draws) ∧
    sl.maxNodeHeight = M

variable {draws : ι → HeightDraw M} {sl : SkipList K D} {head : Entry K}
  {lo hi : List (Entry K)} {m : SortedMap K ι}

omit [LinearOrder K] in
theorem forall_of_shapes {s : List (Entry K)} {t : List (K × ι)}
    (hshape : s.map Entry.shape = t.map (drawnShape draws)) {P : K → Prop}
    (hs : ∀ x ∈ s, P x.key) : ∀ b ∈ t, P b.1 := by
  intro b hb
  have hmem : drawnShape draws b ∈ s.map Entry.shape :=
    hshape ▸ List.mem_map_of_mem hb
  obtain ⟨x, hx, heq⟩ := List.mem_map.mp hmem
  exact (Prod.mk.inj heq).1 ▸ hs x hx

theorem exists_cut_of_shapes {key : K}
    (hshape : (lo ++ hi).map Entry.shape =
      m.entries.map (drawnShape draws))
    (hlo : ∀ x ∈ lo, x.key < key) (hhi : ∀ x ∈ hi, key < x.key) :
    ∃ s t : List (K × ι), m.entries = s ++ t ∧
      lo.map Entry.shape = s.map (drawnShape draws) ∧
      hi.map Entry.shape = t.map (drawnShape draws) ∧
      (∀ b ∈ s, b.1 < key) ∧ ∀ b ∈ t, key < b.1 := by
  rw [List.map_append] at hshape
  obtain ⟨s, t, hm, hs, ht⟩ := List.map_eq_append_iff.mp hshape.symm
  exact ⟨s, t, hm, hs.symm, ht.symm,
    forall_of_shapes (P := (· < key)) hs.symm hlo,
    forall_of_shapes (P := (key < ·)) ht.symm hhi⟩

theorem exists_split_of_shapes {e : Entry K}
    (hshape : (lo ++ e :: hi).map Entry.shape =
      m.entries.map (drawnShape draws)) :
    ∃ (s : List (K × ι)) (i : ι) (t : List (K × ι)),
      m.entries = s ++ (e.key, i) :: t ∧
      lo.map Entry.shape = s.map (drawnShape draws) ∧
      e.tower = (draws i).height ∧
      hi.map Entry.shape = t.map (drawnShape draws) := by
  rw [List.map_append, List.map_cons] at hshape
  obtain ⟨s, rest, hm, hs, hrest⟩ := List.map_eq_append_iff.mp hshape.symm
  obtain ⟨⟨k, i⟩, t, rfl, hb, ht⟩ := List.map_eq_cons_iff.mp hrest
  obtain ⟨rfl, hheight⟩ := Prod.mk.inj hb
  exact ⟨s, i, t, hm, hs.symm, hheight.symm, ht.symm⟩

/-- One call keeps the towers those that have been drawn. -/
theorem Grown.step {spine : List (Entry K)}
    (h : Grown draws sl head spine m) (ndebug : Bool) (i : ι)
    {c : Call K D} (hdrawn : c.DrawsHeight) :
    ∃ (sl' : SkipList K D) (spine' : List (Entry K)),
      SkipList.step ndebug sl (c.withDraw (draws i).values) = some sl' ∧
      Grown draws sl' head spine' (originsCall m (i, c)) := by
  obtain ⟨wf, hshape, rfl⟩ := h
  cases c with
  | insert key data size nodeHeight draw transaction =>
      obtain rfl : nodeHeight = 0 := hdrawn
      rcases wf.cut key with ⟨lo, hi, rfl, hlo, hhi⟩ | ⟨lo, e, hi, rfl, rfl⟩
      · obtain ⟨s, t, hm, hs, ht, hbelow, habove⟩ :=
          exists_cut_of_shapes hshape hlo hhi
        obtain ⟨sl', hrun, wf', hmax, -, -⟩ := wf.insert_spec hlo hhi ndebug
          data size (Nat.zero_le _) (draws i).values
        have horigins : (originsCall m (i, Call.insert key data size 0 draw
            transaction)).entries = s ++ (key, i) :: t := by
          rw [originsCall, SortedMap.lookup_of_absent hm hbelow habove]
          exact SortedMap.entries_put_of_absent hm hbelow habove
        refine ⟨sl', _, ?_, wf', ?_, hmax⟩
        · simp [SkipList.step, SkipList.call, Call.withDraw, hrun,
            Except.toOption, Outcome.map]
        · rw [horigins, List.map_append, List.map_cons, List.map_append,
            List.map_cons, hs, ht]
          rfl
      · obtain ⟨s, j, t, hm, -⟩ := exists_split_of_shapes hshape
        have hhi : ∀ x ∈ e :: hi, e.key ≤ x.key :=
          List.forall_mem_cons.mpr ⟨le_rfl, fun x hx =>
            ((List.pairwise_cons.mp (List.pairwise_append.mp
              wf.strict).2.1).1 x hx).le⟩
        have hlo : ∀ x ∈ lo, x.key < e.key := fun x hx =>
          (List.pairwise_append.mp wf.strict).2.2 x hx e List.mem_cons_self
        have hrun := wf.insert_duplicate hlo hhi ndebug data size
          (Nat.zero_le _) (draws i).values transaction wf.primary
          ⟨e, List.mem_cons_self, rfl⟩
        refine ⟨sl, _, ?_, wf, ?_, rfl⟩
        · simp [SkipList.step, SkipList.call, Call.withDraw, hrun,
            Except.toOption, Outcome.map]
        · rwa [originsCall, SortedMap.lookup_of_present hm]
  | remove key =>
      rcases wf.cut key with ⟨lo, hi, rfl, hlo, hhi⟩ | ⟨lo, e, hi, rfl, rfl⟩
      · obtain ⟨s, t, hm, hs, ht, hbelow, habove⟩ :=
          exists_cut_of_shapes hshape hlo hhi
        have hrun := wf.remove_absent hlo hhi ndebug
        refine ⟨sl, _, ?_, wf, ?_, rfl⟩
        · simp [SkipList.step, SkipList.call, Call.withDraw, hrun,
            Except.toOption]
        · have hsame : (m.erase key).entries = m.entries := by
            refine List.filter_eq_self.mpr fun b hb => decide_eq_true ?_
            rcases List.mem_append.mp (hm ▸ hb) with hb | hb
            · exact (hbelow b hb).ne
            · exact (habove b hb).ne'
          rwa [originsCall, hsame]
      · obtain ⟨s, j, t, hm, hs, -, ht⟩ := exists_split_of_shapes hshape
        obtain ⟨sl', r, info, -, -, hrun, wf', hmax, -, -⟩ :=
          wf.remove_spec ndebug
        refine ⟨sl', _, ?_, wf', ?_, hmax⟩
        · simp [SkipList.step, SkipList.call, Call.withDraw, hrun,
            Except.toOption]
        · rw [originsCall, SortedMap.entries_erase_of_present hm,
            List.map_append, List.map_append, hs, ht]
  | update key data size transaction =>
      rcases wf.cut key with ⟨lo, hi, rfl, hlo, hhi⟩ | ⟨lo, e, hi, rfl, rfl⟩
      · have hfind := wf.toWellFormed.find_absent hlo hhi ndebug
        refine ⟨sl, _, ?_, wf, hshape, rfl⟩
        simp [SkipList.step, SkipList.call, Call.withDraw, SkipList.update,
          wf.ready, hfind, Except.toOption, Outcome.map]
      · obtain ⟨r, info, -, -, hrun, wf'⟩ := wf.update_spec ndebug data size
        refine ⟨_, _, ?_, wf', hshape, rfl⟩
        simp [SkipList.step, SkipList.call, Call.withDraw, hrun,
          Except.toOption, Outcome.map]

/-- Whatever is drawn, the run goes through and the towers are those that have
been drawn. -/
theorem grown_run [Inhabited K] (hmax : 0 < M) (ndebug : Bool)
    {calls : List (ι × Call K D)} (hdrawn : ∀ c ∈ calls, c.2.DrawsHeight)
    (draws : ι → HeightDraw M) :
    ∃ (sl : SkipList K D) (head : Entry K) (spine : List (Entry K)),
      Machine.run (SkipList.step ndebug) (initialList true M)
        (withDraws calls draws) = some sl ∧
      Grown draws sl head spine (originsAfter calls) := by
  have hinitial : Grown draws (initialList true M : SkipList K D)
      ⟨0, ⟨default, none, M⟩, M⟩ [] SortedMap.empty :=
    ⟨⟨initialList_wellFormed true hmax, rfl, List.Pairwise.nil, by simp⟩,
      rfl, rfl⟩
  have hrun := Machine.exists_run_of_simulation
    (R := fun sl m => ∃ head spine, Grown draws sl head spine m)
    (E := fun c : ι × Call K D => c.2.DrawsHeight) (A := originsCall)
    (fun sl m c hc ⟨_, _, h⟩ => by
      obtain ⟨sl', spine', hstep, h'⟩ := h.step ndebug c.1 hc
      exact ⟨sl', hstep, _, spine', h'⟩)
    ⟨_, _, hinitial⟩ hdrawn
  obtain ⟨sl, hrun, head, spine, h⟩ := hrun
  exact ⟨sl, head, spine, (Machine.run_comap _ _ _).trans hrun, h⟩

/-- The calls that have inserted the keys below the given one, in the order of
the keys. -/
def smallerOrigins (m : SortedMap K ι) (key : K) : List ι :=
  (m.entries.filter fun b => decide (b.1 < key)).map Prod.snd

theorem smallerOrigins_of_cut {key : K} {s t : List (K × ι)}
    (hm : m.entries = s ++ t) (hs : ∀ b ∈ s, b.1 < key)
    (ht : ∀ b ∈ t, key ≤ b.1) :
    smallerOrigins m key = s.map Prod.snd := by
  have hlow : s.filter (fun b => decide (b.1 < key)) = s :=
    List.filter_eq_self.mpr fun b hb => decide_eq_true (hs b hb)
  have hhigh : t.filter (fun b => decide (b.1 < key)) = [] :=
    List.filter_eq_nil_iff.mpr fun b hb => by simpa using ht b hb
  rw [smallerOrigins, hm, List.filter_append, hlow, hhigh, List.append_nil]

omit [LinearOrder K] in
theorem passed_of_shapes {s : List (K × ι)}
    (hshape : lo.map Entry.shape = s.map (drawnShape draws)) (L : ℕ) :
    Tower.passed Entry.tower L lo = passedBy L (s.map Prod.snd) draws :=
  calc Tower.passed Entry.tower L lo
      = Tower.passed Prod.snd L (lo.map Entry.shape) := by
        rw [Tower.passed_map]
        rfl
    _ = Tower.passed Prod.snd L (s.map (drawnShape draws)) := by rw [hshape]
    _ = Tower.passed (fun b : K × ι => (draws b.2).height) L s :=
        Tower.passed_map (drawnShape draws) s
    _ = passedBy L (s.map Prod.snd) draws := by
        rw [passedBy, Tower.passed_map]

theorem Grown.findNodeCounted {spine : List (Entry K)}
    (h : Grown draws sl head spine m) (ndebug : Bool) (key : K) :
    ∃ found : Option NodeRef, sl.findNodeCounted ndebug key =
      .ok (found, searchRounds M (m.lookup key) (smallerOrigins m key)
        draws) := by
  obtain ⟨wf, hshape, rfl⟩ := h
  rcases wf.cut key with ⟨lo, hi, rfl, hlo, hhi⟩ | ⟨lo, e, hi, rfl, rfl⟩
  · obtain ⟨s, t, hm, hs, -, hbelow, habove⟩ :=
      exists_cut_of_shapes hshape hlo hhi
    refine ⟨none, (wf.findNodeCounted_absent hlo hhi ndebug).trans ?_⟩
    rw [SortedMap.lookup_of_absent hm hbelow habove,
      smallerOrigins_of_cut hm hbelow fun b hb => (habove b hb).le]
    simp [searchRounds, unseenAbove, Tower.steps, passed_of_shapes hs]
  · obtain ⟨s, i, t, hm, hs, htower, -⟩ := exists_split_of_shapes hshape
    obtain ⟨hbelow, habove⟩ := SortedMap.lt_of_present hm
    refine ⟨some e.ref, (wf.findNodeCounted_present ndebug).trans ?_⟩
    rw [SortedMap.lookup_of_present hm, smallerOrigins_of_cut hm hbelow
      (List.forall_mem_cons.mpr ⟨le_rfl, fun b hb => (habove b hb).le⟩)]
    simp [searchRounds, unseenAbove, htower, passed_of_shapes hs]

theorem Grown.length_level {spine : List (Entry K)}
    (h : Grown draws sl head spine m) (L : ℕ) :
    ((spine.map Entry.ref).filter fun a =>
        decide (L < sl.heap.heightOf a)).length =
      (m.entries.map Prod.snd).countP fun i =>
        decide (L < (draws i).height) := by
  obtain ⟨wf, hshape, -⟩ := h
  have hfull := (List.forall_mem_cons.mp (wf.isFull wf.full)).2
  rw [filter_height_map hfull, List.length_map, ← List.countP_eq_length_filter,
    List.countP_map]
  have hcount := congrArg (List.countP fun shape => decide (L < shape.2))
    hshape
  rwa [List.countP_map, List.countP_map] at hcount

end Towers

/-! ## Averages over all draws -/

section Averages

variable {calls : List (Call K D)} {M : ℕ}

omit [LinearOrder K] in
theorem nodup_numbered (calls : List (Call K D)) :
    ((numbered calls).map Prod.fst).Nodup := by
  rw [numbered, List.map_ofFn]
  exact List.nodup_ofFn.mpr fun i j hij => hij

omit [LinearOrder K] in
theorem map_snd_numbered (calls : List (Call K D)) :
    (numbered calls).map Prod.snd = calls := by
  rw [numbered, List.map_ofFn]
  exact List.ofFn_get calls

omit [LinearOrder K] in
theorem drawsHeight_numbered (hdrawn : ∀ c ∈ calls, c.DrawsHeight) :
    ∀ c ∈ numbered calls, c.2.DrawsHeight := by
  intro c hc
  have hmem : c.2 ∈ (numbered calls).map Prod.snd :=
    List.mem_map_of_mem hc
  rw [map_snd_numbered] at hmem
  exact hdrawn _ hmem

theorem isSome_lookup_numbered (hdrawn : ∀ c ∈ calls, c.DrawsHeight)
    (key : K) :
    ((originsAfter (numbered calls)).lookup key).isSome =
      ((mapAfter M calls).lookup key).isSome := by
  have hempty : ∀ k : K,
      ((SortedMap.empty : SortedMap K (Fin calls.length)).lookup k).isSome =
        ((SortedMap.empty : SortedMap K (RowData D)).lookup k).isSome :=
    fun _ => rfl
  have hkeys := isSome_lookup_origins M (drawsHeight_numbered hdrawn) hempty
    key
  rwa [map_snd_numbered] at hkeys

theorem keys_numbered (hdrawn : ∀ c ∈ calls, c.DrawsHeight) :
    (originsAfter (numbered calls)).entries.map Prod.fst =
      (mapAfter M calls).entries.map Prod.fst :=
  keys_eq_of_isSome_lookup (isSome_lookup_numbered hdrawn)

theorem length_smallerOrigins (hdrawn : ∀ c ∈ calls, c.DrawsHeight)
    (key : K) :
    (smallerOrigins (originsAfter (numbered calls)) key).length =
      (mapAfter M calls).entries.countP fun b => decide (b.1 < key) := by
  have hcount := congrArg (List.countP fun k => decide (k < key))
    (keys_numbered (M := M) hdrawn)
  rw [List.countP_map, List.countP_map] at hcount
  rw [smallerOrigins, List.length_map, ← List.countP_eq_length_filter]
  exact hcount

theorem notMem_smallerOrigins {ι : Type} {m : SortedMap K ι}
    (hnodup : (m.entries.map Prod.snd).Nodup) (key : K) :
    ∀ i ∈ m.lookup key, i ∉ smallerOrigins m key := by
  intro i hi hmem
  obtain ⟨b, hb, rfl⟩ := List.mem_map.mp hmem
  obtain ⟨hb, hlt⟩ := List.mem_filter.mp hb
  have hsame := List.inj_on_of_nodup_map hnodup hb
    (SortedMap.lookup_eq_some_iff.mp hi) rfl
  rw [hsame] at hlt
  exact absurd (of_decide_eq_true hlt) (lt_irrefl key)

/-- Whatever calls are made, `findNode` moves on average to one node for every
`2 ^ (M - 1)` smaller keys and to at most one node on each lower level, and the
exact number depends on how many smaller keys there are and on whether the key
is there. -/
theorem average_search [Inhabited K] (ndebug : Bool) (hmax : 0 < M)
    (calls : List (Call K D)) (hdrawn : ∀ c ∈ calls, c.DrawsHeight)
    (key : K) :
    ∃ (lists : (Fin calls.length → HeightDraw M) → SkipList K D)
        (rounds : (Fin calls.length → HeightDraw M) → ℕ),
      (∀ draws, Machine.run (SkipList.step ndebug) (initialList true M)
          (withDraws (numbered calls) draws) = some (lists draws) ∧
        ∃ found : Option NodeRef,
          (lists draws).findNode ndebug key = .ok found ∧
          (lists draws).findNodeCounted ndebug key =
            .ok (found, rounds draws)) ∧
      𝔼 draws, (rounds draws : ℚ) = averageRounds M
        ((mapAfter M calls).entries.countP fun b => decide (b.1 < key))
        ((mapAfter M calls).lookup key).isSome ∧
      𝔼 draws, (rounds draws : ℚ) ≤
        ((mapAfter M calls).entries.countP fun b => decide (b.1 < key)) *
          (1 / 2) ^ (M - 1) + (M - 1 : ℕ) := by
  choose lists heads spines hrun hgrown using fun draws =>
    grown_run hmax ndebug (drawsHeight_numbered hdrawn) draws
  choose found hfound using fun draws =>
    (hgrown draws).findNodeCounted ndebug key
  have hnodup := nodup_origins (nodup_numbered calls)
  have haverage := expect_searchRounds hmax
    (hnodup.sublist (List.filter_sublist.map Prod.snd))
    (notMem_smallerOrigins hnodup key)
  rw [← smallerOrigins, length_smallerOrigins (M := M) hdrawn,
    isSome_lookup_numbered (M := M) hdrawn] at haverage
  refine ⟨lists, _, fun draws => ⟨hrun draws, found draws, ?_, hfound draws⟩,
    haverage, haverage.trans_le (averageRounds_le _ _ _)⟩
  rw [← SkipList.findNodeCounted_fst, hfound]
  rfl

/-- Two keys, and a search for the greater one. -/
theorem average_search_two_keys :
    ∃ (lists : (Fin 2 → HeightDraw 2) → SkipList Int32 Unit)
        (rounds : (Fin 2 → HeightDraw 2) → ℕ),
      (∀ draws, ∃ found : Option NodeRef,
        (lists draws).findNode false 7 = .ok found ∧
        (lists draws).findNodeCounted false 7 =
          .ok (found, rounds draws)) ∧
      𝔼 draws, (rounds draws : ℚ) = 3 / 4 := by
  obtain ⟨lists, rounds, hrun, haverage, -⟩ :=
    average_search (D := Unit) false Nat.zero_lt_two
      [.insert 7 (some ()) 4 0 (fun _ => 0) none,
        .insert 5 (some ()) 4 0 (fun _ => 0) none]
      (List.forall_mem_cons.mpr ⟨rfl, List.forall_mem_cons.mpr
        ⟨rfl, fun _ h => absurd h List.not_mem_nil⟩⟩) (7 : Int32)
  refine ⟨lists, rounds, fun draws => (hrun draws).2, haverage.trans ?_⟩
  have hsmaller : ((mapAfter 2 [Call.insert (7 : Int32) (some ()) 4 0
      (fun _ => 0) none, .insert 5 (some ()) 4 0 (fun _ => 0)
        none]).entries.countP fun b => decide (b.1 < 7)) = 1 := by
    decide
  have hthere : ((mapAfter 2 [Call.insert (7 : Int32) (some ()) 4 0
      (fun _ => 0) none, .insert 5 (some ()) 4 0 (fun _ => 0)
        none]).lookup 7).isSome = true := by
    decide
  rw [hsmaller, hthere]
  norm_num [averageRounds]

/-- On average level `L` has one node for every `2 ^ L` keys. -/
theorem average_level_size [Inhabited K] (ndebug : Bool) (hmax : 0 < M)
    (calls : List (Call K D)) (hdrawn : ∀ c ∈ calls, c.DrawsHeight) :
    ∃ (lists : (Fin calls.length → HeightDraw M) → SkipList K D)
        (nodes : (Fin calls.length → HeightDraw M) → ℕ → List NodeRef),
      (∀ draws, Machine.run (SkipList.step ndebug) (initialList true M)
          (withDraws (numbered calls) draws) = some (lists draws) ∧
        ∃ head : NodeRef, (lists draws).head = some head ∧
          ∀ L < M, Chain (lists draws).heap L
            ((lists draws).heap.next head L) (nodes draws L)) ∧
      ∀ L < M, 𝔼 draws, ((nodes draws L).length : ℚ) =
        (mapAfter M calls).card * (1 / 2) ^ L := by
  choose lists heads spines hrun hgrown using fun draws =>
    grown_run hmax ndebug (drawsHeight_numbered hdrawn) draws
  refine ⟨lists, fun draws L => ((spines draws).map Entry.ref).filter
    fun a => decide (L < (lists draws).heap.heightOf a), ?_, ?_⟩
  · intro draws
    obtain ⟨wf, -, hM⟩ := hgrown draws
    exact ⟨hrun draws, (heads draws).ref, wf.headRef, fun L hL =>
      wf.chain_of_full wf.full (hM ▸ hL)⟩
  · intro L hL
    have hkeys := congrArg List.length (keys_numbered (M := M) hdrawn)
    rw [List.length_map, List.length_map] at hkeys
    rw [expect_congr rfl fun draws _ => congrArg _
        ((hgrown draws).length_level L),
      expect_countP fun d : HeightDraw M => L < d.height,
      HeightDraw.chance_lt_height hL, List.length_map, hkeys]
    rfl

/-- Of two keys, one removed, the other one is in half of the lists on level
1. -/
theorem average_level_size_removed :
    ∃ nodes : (Fin 3 → HeightDraw 2) → ℕ → List NodeRef,
      (∀ draws, ∃ (sl : SkipList Int32 Unit) (head : NodeRef),
        sl.head = some head ∧
        ∀ L < 2, Chain sl.heap L (sl.heap.next head L) (nodes draws L)) ∧
      𝔼 draws, ((nodes draws 1).length : ℚ) = 1 / 2 := by
  obtain ⟨lists, nodes, hrun, haverage⟩ :=
    average_level_size (K := Int32) (D := Unit) false Nat.zero_lt_two
      [.insert 7 (some ()) 4 0 (fun _ => 0) none,
        .insert 5 (some ()) 4 0 (fun _ => 0) none, .remove 7]
      (List.forall_mem_cons.mpr ⟨rfl, List.forall_mem_cons.mpr
        ⟨rfl, List.forall_mem_cons.mpr
          ⟨trivial, fun _ h => absurd h List.not_mem_nil⟩⟩⟩)
  refine ⟨nodes, fun draws => ⟨lists draws, (hrun draws).2⟩,
    (haverage 1 Nat.one_lt_two).trans ?_⟩
  have hcard : (mapAfter 2 [Call.insert (7 : Int32) (some ()) 4 0
      (fun _ => 0) none, .insert 5 (some ()) 4 0 (fun _ => 0) none,
        .remove 7]).card = 1 := by
    decide
  rw [hcard]
  norm_num

end Averages

end SquidDB.Core
