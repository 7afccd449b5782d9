import Mathlib

/-!
# Singly linked cells in memory

A memory maps an address to the cell that is live there, and every cell holds
a pointer that is null or the address of the next one.  A segment is the list
of cells met on the way from one pointer to another.
-/

namespace Linked

variable {ι ν : Type}

/-- Following the pointers from the first one visits exactly these cells and
arrives at the last one. -/
def Segment (memory : ι → Option ν) (next : ν → Option ι) :
    Option ι → List (ι × ν) → Option ι → Prop
  | p, [], q => p = q
  | p, cell :: cells, q =>
      p = some cell.1 ∧ memory cell.1 = some cell.2 ∧
        Segment memory next (next cell.2) cells q

variable {memory : ι → Option ν} {next : ν → Option ι}

namespace Segment

/-- Two segments that meet make one. -/
theorem append_iff {p r : Option ι} {xs ys : List (ι × ν)} :
    Segment memory next p (xs ++ ys) r ↔
      ∃ q, Segment memory next p xs q ∧ Segment memory next q ys r := by
  induction xs generalizing p with
  | nil => exact ⟨fun h => ⟨p, rfl, h⟩, fun ⟨q, hp, h⟩ => hp ▸ h⟩
  | cons x xs ih =>
      constructor
      · rintro ⟨hp, hx, h⟩
        obtain ⟨q, hxs, hys⟩ := ih.mp h
        exact ⟨q, ⟨hp, hx, hxs⟩, hys⟩
      · rintro ⟨q, ⟨hp, hx, hxs⟩, hys⟩
        exact ⟨hp, hx, ih.mpr ⟨q, hxs, hys⟩⟩

/-- The cells of a segment are live. -/
theorem live {p q : Option ι} {cells : List (ι × ν)}
    (h : Segment memory next p cells q) {cell : ι × ν}
    (hcell : cell ∈ cells) : memory cell.1 = some cell.2 := by
  obtain ⟨xs, ys, rfl⟩ := List.append_of_mem hcell
  obtain ⟨-, -, -, hlive, -⟩ := append_iff.mp h
  exact hlive

/-- Only the visited cells matter. -/
theorem congr {memory' : ι → Option ν} {p q : Option ι}
    {cells : List (ι × ν)} (h : Segment memory next p cells q)
    (hmem : ∀ cell ∈ cells, memory' cell.1 = memory cell.1) :
    Segment memory' next p cells q := by
  induction cells generalizing p with
  | nil => exact h
  | cons cell cells ih =>
      obtain ⟨hp, hcell, h⟩ := h
      obtain ⟨hhead, htail⟩ := List.forall_mem_cons.mp hmem
      exact ⟨hp, hhead.trans hcell, ih h htail⟩

/-- A pointer starts one segment to null only. -/
theorem unique {p : Option ι} {xs ys : List (ι × ν)}
    (hxs : Segment memory next p xs none)
    (hys : Segment memory next p ys none) : xs = ys := by
  induction xs generalizing p ys with
  | nil =>
      cases ys with
      | nil => rfl
      | cons y ys => cases hxs.symm.trans hys.1
  | cons x xs ih =>
      cases ys with
      | nil => cases hys.symm.trans hxs.1
      | cons y ys =>
          have haddress : x.1 = y.1 := Option.some.inj (hxs.1.symm.trans hys.1)
          have hnode : x.2 = y.2 := by
            have hboth := hxs.2.1.symm.trans (haddress ▸ hys.2.1)
            exact Option.some.inj hboth
          obtain rfl : x = y := Prod.ext haddress hnode
          rw [ih hxs.2.2 hys.2.2]

/-- A segment that ends at null visits no address twice. -/
theorem nodup {p : Option ι} {cells : List (ι × ν)}
    (h : Segment memory next p cells none) :
    (cells.map Prod.fst).Nodup := by
  induction cells generalizing p with
  | nil => exact List.nodup_nil
  | cons cell cells ih =>
      rw [List.map_cons, List.nodup_cons]
      refine ⟨fun hmem => ?_, ih h.2.2⟩
      -- From its second visit the segment would have to end earlier.
      obtain ⟨again, hagain, haddress⟩ := List.mem_map.mp hmem
      obtain ⟨xs, ys, rfl⟩ := List.append_of_mem hagain
      obtain ⟨q, -, hrest⟩ := append_iff.mp h.2.2
      have hq : q = p := hrest.1.trans (haddress ▸ h.1.symm)
      have hlength := congrArg List.length (h.unique (hq ▸ hrest))
      simp only [List.length_cons, List.length_append] at hlength
      omega

section Update

variable [DecidableEq ι] {p q : Option ι} {cells : List (ι × ν)} {a : ι}

theorem update_of_notMem (h : Segment memory next p cells q)
    (ha : a ∉ cells.map Prod.fst) (v : Option ν) :
    Segment (Function.update memory a v) next p cells q := by
  apply h.congr
  intro cell hcell
  apply Function.update_of_ne
  rintro rfl
  exact ha (List.mem_map_of_mem hcell)

theorem update_of_free (h : Segment memory next p cells q)
    (ha : memory a = none) (v : Option ν) :
    Segment (Function.update memory a v) next p cells q := by
  apply h.update_of_notMem
  intro hmem
  obtain ⟨cell, hcell, rfl⟩ := List.mem_map.mp hmem
  cases ha.symm.trans (h.live hcell)

/-- Linking a new cell behind the last one. -/
theorem link {last node : ν} {b : ι}
    (h : Segment memory next p (cells ++ [(a, last)]) none)
    {last' : ν} (hb : memory b = none) (hlast : next last' = some b)
    (hnode : next node = none) :
    Segment (Function.update (Function.update memory b (some node)) a
      (some last')) next p (cells ++ [(a, last'), (b, node)]) none := by
  have hne : b ≠ a := by
    rintro rfl
    have hmem : (b, last) ∈ cells ++ [(b, last)] := by simp
    cases hb.symm.trans (h.live hmem)
  have hnot : a ∉ cells.map Prod.fst := by
    have hnodup := h.nodup
    rw [List.map_append, List.nodup_append] at hnodup
    intro hmem
    exact hnodup.2.2 a hmem a (by simp) rfl
  obtain ⟨q, hcells, hq, -⟩ := append_iff.mp h
  refine append_iff.mpr ⟨q, ?_, hq, ?_, ?_, ?_, ?_⟩
  · exact (hcells.update_of_free hb _).update_of_notMem hnot _
  · rw [Function.update_self]
  · exact hlast
  · rw [Function.update_of_ne hne, Function.update_self]
  · exact hnode

/-- Deleting the first cell and moving on to the second. -/
theorem unlink {cell : ι × ν}
    (h : Segment memory next p (cell :: cells) none) :
    Segment (Function.update memory cell.1 none) next (next cell.2) cells
      none := by
  have hnodup := h.nodup
  rw [List.map_cons, List.nodup_cons] at hnodup
  exact h.2.2.update_of_notMem hnodup.1 _

end Update

end Segment

/-- Behind a store a live cell is among the cells, when it is the stored one
and when it is another one. -/
theorem mem_of_update [DecidableEq ι] {cells : List (ι × ν)} {a b : ι}
    {v : Option ν} {node : ν}
    (hstored : v = some node → (a, node) ∈ cells)
    (hother : b ≠ a → memory b = some node → (b, node) ∈ cells)
    (h : Function.update memory a v b = some node) : (b, node) ∈ cells := by
  by_cases hb : b = a
  · subst hb
    rw [Function.update_self] at h
    exact hstored h
  · rw [Function.update_of_ne hb] at h
    exact hother hb h

end Linked
