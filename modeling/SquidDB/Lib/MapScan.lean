import SquidDB.Lib.SortedMap

/-!
# Scans over a map that changes

A scan walks upwards through a sorted map while the map changes under it.  It
stands on a bound key; fetching yields the binding and moves on to the next
bound key.  Once its own key has lost its binding the scan is stranded and
can fetch nothing more.  A scan with a last key ends at the first key above it,
but it cannot leave the greatest key of the map.
-/

/-! ## The least key with a property -/

namespace SortedMap

variable {K V : Type} [LinearOrder K] {m : SortedMap K V} {p : K → Bool}
  {k : K}

/-- The least bound key with a property. -/
def least (m : SortedMap K V) (p : K → Bool) : Option K :=
  (m.entries.find? fun e => p e.1).map Prod.fst

/-- A key is bound. -/
abbrev Binds (m : SortedMap K V) (k : K) : Prop := (m.lookup k).isSome

theorem binds_iff : m.Binds k ↔ ∃ v, (k, v) ∈ m.entries := by
  simp only [Binds, Option.isSome_iff_exists, lookup_eq_some_iff]

theorem least_eq_none_iff : m.least p = none ↔ ∀ k, m.Binds k → ¬p k := by
  simp only [least, Option.map_eq_none_iff, List.find?_eq_none, binds_iff]
  exact ⟨fun h k ⟨v, hv⟩ => h (k, v) hv, fun h e he => h e.1 ⟨e.2, he⟩⟩

/-- The least key is bound, has the property, and no smaller one has both. -/
theorem least_spec (h : m.least p = some k) :
    m.Binds k ∧ p k ∧ ∀ j, m.Binds j → p j → k ≤ j := by
  rw [least, Option.map_eq_some_iff] at h
  obtain ⟨e, hfind, rfl⟩ := h
  obtain ⟨hp, lo, hi, hm, hlo⟩ := List.find?_eq_some_iff_append.mp hfind
  refine ⟨binds_iff.mpr ⟨e.2, by simp [hm]⟩, hp, fun j hj hpj => ?_⟩
  obtain ⟨v, hv⟩ := binds_iff.mp hj
  rw [hm] at hv
  rcases List.mem_append.mp hv with hv | hv
  · have := hlo (j, v) hv
    simp [hpj] at this
  · rcases List.mem_cons.mp hv with rfl | hv
    · exact le_rfl
    · exact ((lt_of_present hm).2 _ hv).le

theorem exists_least_le (hk : m.Binds k) (hp : p k) :
    ∃ j, m.least p = some j ∧ j ≤ k := by
  rcases hleast : m.least p with _ | j
  · exact absurd hp (least_eq_none_iff.mp hleast k hk)
  · exact ⟨j, rfl, (least_spec hleast).2.2 k hk hp⟩

/-- In a map cut where the property begins to hold, the least key comes first
in the upper part. -/
theorem least_of_cut {lo hi : List (K × V)} (hm : m.entries = lo ++ hi)
    (hlo : ∀ e ∈ lo, ¬p e.1) (hhi : ∀ e ∈ hi, p e.1) :
    m.least p = hi.head?.map Prod.fst := by
  have hnone : lo.find? (fun e => p e.1) = none :=
    List.find?_eq_none.mpr hlo
  rw [least, hm, List.find?_append, hnone, Option.none_or]
  cases hi with
  | nil => rfl
  | cons e hi =>
      have he : p e.1 := hhi e List.mem_cons_self
      simp [he]

theorem least_gt_of_cut {lo hi : List (K × V)} {v : V}
    (hm : m.entries = lo ++ (k, v) :: hi) :
    m.least (fun j => k < j) = hi.head?.map Prod.fst := by
  obtain ⟨hlo, hhi⟩ := lt_of_present hm
  have hcut : m.entries = (lo ++ [(k, v)]) ++ hi := by simp [hm]
  refine least_of_cut hcut ?_ ?_
  · intro e he
    rcases List.mem_append.mp he with he | he
    · simpa using (hlo e he).le
    · simp [List.mem_singleton.mp he]
  · intro e he
    simpa using hhi e he

end SortedMap

/-! ## Scans -/

/-- Where a scan stands. -/
inductive ScanPosition (K : Type) where
  | on (key : K)
  | finished
  | stranded
  deriving DecidableEq, Repr

/-- A scan, with the map as it is now and the bindings it has fetched. -/
structure MapScan (K V : Type) [LinearOrder K] where
  map : SortedMap K V
  last : Option K
  position : ScanPosition K
  fetched : List (K × V)

namespace MapScan

variable {K V : Type} [LinearOrder K] {s s' : MapScan K V} {k : K}

/-- Where a scan arrives whose next key is `next`; none when it runs off the
map although it has a last key. -/
def arrive (last next : Option K) : Option (ScanPosition K) :=
  match last, next with
  | none, none => some .finished
  | none, some k => some (.on k)
  | some _, none => none
  | some bound, some k => some (if bound < k then .finished else .on k)

/-- Open a scan at the least key it admits. -/
def start (m : SortedMap K V) (admits : K → Bool) (last : Option K) :
    Option (MapScan K V) :=
  (arrive last (m.least admits)).map fun position =>
    ⟨m, last, position, []⟩

/-- The map changes. -/
def change (s : MapScan K V) (m : SortedMap K V) : MapScan K V :=
  { s with
    map := m
    position :=
      match s.position with
      | .on k => if (m.lookup k).isSome then .on k else .stranded
      | position => position }

/-- Fetch the binding the scan stands on, and move on. -/
def fetch (s : MapScan K V) : Option (MapScan K V) :=
  match s.position with
  | .finished => some s
  | .stranded => none
  | .on k =>
      match s.map.lookup k with
      | none => none
      | some v =>
          (arrive s.last (s.map.least fun j => k < j)).map fun position =>
            { s with position := position, fetched := s.fetched ++ [(k, v)] }

/-- A scan stands on a bound key, behind which all its fetched keys lie in
ascending order. -/
structure Sound (s : MapScan K V) : Prop where
  standing : ∀ k, s.position = .on k → s.map.Binds k
  ascending : (s.fetched.map Prod.fst).Pairwise (· < ·)
  behind : ∀ k, s.position = .on k → ∀ e ∈ s.fetched, e.1 < k

/-- A scan stays within its range. -/
structure Within (s : MapScan K V) (admits : K → Bool) : Prop where
  standing : ∀ k, s.position = .on k →
    admits k ∧ ∀ bound, s.last = some bound → k ≤ bound
  fetched : ∀ e ∈ s.fetched,
    admits e.1 ∧ ∀ bound, s.last = some bound → e.1 ≤ bound

/-- The scan has fetched the key, or it may still arrive there. -/
def Covers (s : MapScan K V) (k : K) : Prop :=
  k ∈ s.fetched.map Prod.fst ∨ (∃ j, s.position = .on j ∧ j ≤ k) ∨
    s.position = .stranded

theorem arrive_eq_on {last next : Option K}
    (h : arrive last next = some (.on k)) :
    next = some k ∧ ∀ bound, last = some bound → k ≤ bound := by
  cases last with
  | none =>
      cases next with
      | none => cases h
      | some j =>
          obtain rfl : j = k := by simpa [arrive] using h
          exact ⟨rfl, by simp⟩
  | some bound =>
      cases next with
      | none => cases h
      | some j =>
          simp only [arrive, Option.some.injEq] at h
          split at h
          · cases h
          · next hle =>
            obtain rfl : j = k := by simpa using h
            refine ⟨rfl, fun b hb => ?_⟩
            rw [← Option.some.inj hb]
            exact not_lt.mp hle

theorem arrive_ne_stranded {last next : Option K}
    {position : ScanPosition K} (h : arrive last next = some position) :
    position ≠ .stranded := by
  rintro rfl
  cases last with
  | none => cases next <;> cases h
  | some bound =>
      cases next with
      | none => cases h
      | some k =>
          simp only [arrive, Option.some.injEq] at h
          split at h <;> cases h

theorem arrive_eq_none_iff {last next : Option K} :
    arrive last next = none ↔ last.isSome ∧ next = none := by
  cases last <;> cases next <;> simp [arrive]

theorem position_of_arrive {last : Option K} {j : K}
    {position : ScanPosition K}
    (h : arrive last (some j) = some position) (hjk : j ≤ k)
    (hlast : ∀ bound, last = some bound → k ≤ bound) : position = .on j := by
  cases last with
  | none => exact (Option.some.inj h).symm
  | some bound =>
      have hle : ¬bound < j := not_lt.mpr (hjk.trans (hlast bound rfl))
      simpa [arrive, hle] using h.symm

/-- Every fetch is from the finished position or from a bound key. -/
theorem fetch_cases (h : s.fetch = some s') :
    s.position = .finished ∧ s' = s ∨
      ∃ k v position, s.position = .on k ∧ s.map.lookup k = some v ∧
        arrive s.last (s.map.least fun j => k < j) = some position ∧
        s' = { s with
          position := position
          fetched := s.fetched ++ [(k, v)] } := by
  rw [fetch] at h
  split at h
  · next hposition => exact Or.inl ⟨hposition, (Option.some.inj h).symm⟩
  · cases h
  · next k hposition =>
    split at h
    · cases h
    · next v hlookup =>
      obtain ⟨position, harrive, rfl⟩ := Option.map_eq_some_iff.mp h
      exact Or.inr ⟨k, v, position, hposition, hlookup, harrive, rfl⟩

/-! ## Opening -/

section Start

variable {m : SortedMap K V} {admits : K → Bool} {last : Option K}

theorem start_sound (h : start m admits last = some s) : s.Sound := by
  obtain ⟨position, harrive, rfl⟩ := Option.map_eq_some_iff.mp h
  refine ⟨?_, List.Pairwise.nil, fun _ _ e he => by cases he⟩
  rintro k rfl
  exact (SortedMap.least_spec (arrive_eq_on harrive).1).1

theorem start_covers (h : start m admits last = some s) (hk : m.Binds k)
    (hadmits : admits k) (hlast : ∀ bound, last = some bound → k ≤ bound) :
    s.Covers k := by
  obtain ⟨position, harrive, rfl⟩ := Option.map_eq_some_iff.mp h
  obtain ⟨j, hleast, hjk⟩ := SortedMap.exists_least_le hk hadmits
  rw [hleast] at harrive
  exact Or.inr (Or.inl ⟨j, position_of_arrive harrive hjk hlast, hjk⟩)

theorem start_within (h : start m admits last = some s) :
    s.Within admits := by
  obtain ⟨position, harrive, rfl⟩ := Option.map_eq_some_iff.mp h
  refine ⟨?_, fun e he => by cases he⟩
  rintro k rfl
  obtain ⟨hleast, hlast⟩ := arrive_eq_on harrive
  exact ⟨(SortedMap.least_spec hleast).2.1, hlast⟩

end Start

/-! ## One step -/

theorem position_of_change {m : SortedMap K V}
    (h : (s.change m).position = .on k) : s.position = .on k := by
  rcases hposition : s.position with j | _ | _
  · simp only [change, hposition] at h
    split at h
    · exact h
    · cases h
  · simp [change, hposition] at h
  · simp [change, hposition] at h

namespace Sound

/-- A change keeps what was fetched. -/
theorem change (hs : s.Sound) (m : SortedMap K V) : (s.change m).Sound := by
  refine ⟨?_, hs.ascending, ?_⟩
  · intro k hk
    rw [MapScan.change] at hk ⊢
    rcases hposition : s.position with j | _ | _
    · simp only [hposition] at hk
      split at hk
      · next hj =>
        obtain rfl : j = k := by simpa using hk
        exact hj
      · cases hk
    · simp [hposition] at hk
    · simp [hposition] at hk
  · intro k hk e he
    exact hs.behind k (position_of_change hk) e he

theorem fetch (hs : s.Sound) (h : s.fetch = some s') : s'.Sound := by
  rcases fetch_cases h with
    ⟨-, rfl⟩ | ⟨k, v, position, hposition, -, harrive, rfl⟩
  · exact hs
  · have hbehind := hs.behind k hposition
    refine ⟨?_, ?_, ?_⟩
    · rintro j rfl
      exact (SortedMap.least_spec (arrive_eq_on harrive).1).1
    · rw [List.map_append, List.pairwise_append]
      refine ⟨hs.ascending, by simp, ?_⟩
      intro a ha b hb
      obtain ⟨e, he, rfl⟩ := List.mem_map.mp ha
      obtain rfl : b = k := by simpa using hb
      exact hbehind e he
    · rintro j rfl e he
      have hkj : k < j := by
        simpa using (SortedMap.least_spec (arrive_eq_on harrive).1).2.1
      rcases List.mem_append.mp he with he | he
      · exact (hbehind e he).trans hkj
      · rw [List.mem_singleton.mp he]
        exact hkj

end Sound

namespace Within

variable {admits : K → Bool}

theorem change (hs : s.Within admits) (m : SortedMap K V) :
    (s.change m).Within admits :=
  ⟨fun k hk => hs.standing k (position_of_change hk), hs.fetched⟩

theorem fetch (hs : s.Within admits)
    (hadmits : ∀ j k, j ≤ k → admits j → admits k)
    (h : s.fetch = some s') : s'.Within admits := by
  rcases fetch_cases h with
    ⟨-, rfl⟩ | ⟨k, v, position, hposition, -, harrive, rfl⟩
  · exact hs
  · have hk := hs.standing k hposition
    constructor
    · rintro j rfl
      obtain ⟨hleast, hlast⟩ := arrive_eq_on harrive
      have hkj : k < j := by simpa using (SortedMap.least_spec hleast).2.1
      exact ⟨hadmits k j hkj.le hk.1, hlast⟩
    · intro e he
      rcases List.mem_append.mp he with he | he
      · exact hs.fetched e he
      · rw [List.mem_singleton.mp he]
        exact hk

end Within

namespace Covers

/-- A change does not move the scan, unless it strands it. -/
theorem change (hk : s.Covers k) (m : SortedMap K V) :
    (s.change m).Covers k := by
  rcases hk with hfetched | ⟨j, hposition, hle⟩ | hstranded
  · exact Or.inl hfetched
  · by_cases hj : (m.lookup j).isSome
    · exact Or.inr (Or.inl ⟨j, by simp [MapScan.change, hposition, hj], hle⟩)
    · exact Or.inr (Or.inr (by simp [MapScan.change, hposition, hj]))
  · exact Or.inr (Or.inr (by simp [MapScan.change, hstranded]))

theorem fetch (hk : s.Covers k) (hbinds : s.map.Binds k)
    (hlast : ∀ bound, s.last = some bound → k ≤ bound)
    (h : s.fetch = some s') : s'.Covers k := by
  rcases fetch_cases h with
    ⟨-, rfl⟩ | ⟨i, v, position, hposition, -, harrive, rfl⟩
  · exact hk
  · rcases hk with hfetched | ⟨j, hj, hle⟩ | hstranded
    · exact Or.inl (by simp [List.mem_map.mp hfetched])
    · obtain rfl : i = j := by simpa [hposition] using hj
      rcases hle.eq_or_lt with rfl | hlt
      · exact Or.inl (by simp)
      · -- the next key is not above `k`, so the scan does not end before it
        obtain ⟨j', hleast, hj'⟩ := SortedMap.exists_least_le
          (p := fun j => i < j) hbinds (by simpa using hlt)
        rw [hleast] at harrive
        exact Or.inr (Or.inl
          ⟨j', position_of_arrive harrive hj' hlast, hj'⟩)
    · rw [hposition] at hstranded
      cases hstranded

theorem of_finished (hk : s.Covers k) (hfinished : s.position = .finished) :
    k ∈ s.fetched.map Prod.fst := by
  rcases hk with hfetched | ⟨j, hj, -⟩ | hstranded
  · exact hfetched
  · rw [hfinished] at hj
    cases hj
  · rw [hfinished] at hstranded
    cases hstranded

end Covers

end MapScan
