import SquidDB.Core.SkipListInsert

/-!
# Removal keeps the shape

On every level `remove` unlinks the first entry there that carries the key.
When several entries carry it these are not always the same node: the first
one is deleted, and a taller one behind it loses its upper levels.  The
sequence after the call is described by lowering the towers of the entries
behind the deleted one.  On a primary list there are none.
-/

namespace SquidDB.Core

open Checked Heap

variable {K D : Type}

namespace SkipList

/-! ## What the loop leaves behind -/

/-- The pointers after the loop of `remove`, when `victim L` is the node it
unlinks on level `L`. -/
def unlinkedNext (ctx : TraverseContext) (victim : ℕ → Option NodeRef)
    (levels : ℕ) (next : NodeRef → ℕ → Option NodeRef) (a : NodeRef)
    (L : ℕ) : Option NodeRef :=
  if L < levels then
    match victim L with
    | none => next a L
    | some v =>
        if a = v then none
        else if ctx.prevNode L = some a then next v L
        else next a L
  else next a L

/-- The widths after the loop of `remove`. -/
def unlinkedWidth (ctx : TraverseContext) (victim : ℕ → Option NodeRef)
    (levels : ℕ) (width : NodeRef → ℕ → ℕ) (a : NodeRef) (L : ℕ) : ℕ :=
  if L < levels ∧ ctx.prevNode L = some a then
    match victim L with
    | none => width a L - 1
    | some v => width a L + width v L - 1
  else width a L

section Round

variable {ctx : TraverseContext} {victim : ℕ → Option NodeRef} {level : ℕ}
  {y v : NodeRef}

theorem unlinkedNext_succ_of_none (hv : victim level = none)
    (next : NodeRef → ℕ → Option NodeRef) :
    unlinkedNext ctx victim (level + 1) next =
      unlinkedNext ctx victim level next := by
  funext a L
  simp only [unlinkedNext]
  by_cases hL : L = level
  · subst hL
    simp [hv]
  · have hlt : L < level + 1 ↔ L < level := by omega
    simp [hlt]

theorem unlinkedNext_succ_of_some (hv : victim level = some v)
    (hy : ctx.prevNode level = some y)
    (next : NodeRef → ℕ → Option NodeRef) :
    unlinkedNext ctx victim (level + 1) next =
      unlinkedNext ctx victim level
        (setAt (setAt next y level (next v level)) v level none) := by
  funext a L
  simp only [unlinkedNext, setAt]
  by_cases hL : L = level
  · subst hL
    by_cases hav : a = v
    · subst hav
      simp [hv]
    · by_cases hay : a = y
      · subst hay
        simp [hv, hy, hav]
      · simp [hv, hy, hav, hay, Ne.symm hay]
  · have hlt : L < level + 1 ↔ L < level := by omega
    simp [hL, hlt]

theorem unlinkedWidth_succ (hy : ctx.prevNode level = some y)
    (width : NodeRef → ℕ → ℕ) :
    unlinkedWidth ctx victim (level + 1) width =
      unlinkedWidth ctx victim level (setAt width y level
        (width y level + (victim level).elim 0 (width · level) - 1)) := by
  funext a L
  simp only [unlinkedWidth, setAt]
  by_cases hL : L = level
  · subst hL
    by_cases hay : a = y
    · subst hay
      rcases hv : victim L with _ | v <;> simp [hy]
    · simp [hy, hay, Ne.symm hay]
  · have hlt : L < level + 1 ↔ L < level := by omega
    rcases victim L with _ | w <;> simp [hL, hlt]

end Round

variable [LinearOrder K]

/-- What the loop of `remove` needs on one level. -/
structure Unlinkable (sl : SkipList K D) (h : Heap K D) (key : K)
    (ctx : TraverseContext) (victim : ℕ → Option NodeRef)
    (next : NodeRef → ℕ → Option NodeRef) (width : NodeRef → ℕ → ℕ)
    (L : ℕ) (y : NodeRef) : Prop where
  prev : PrevLive h ctx L y
  above : sl.headOrAbove h key (some y) = .ok true
  below : nullOrNotAbove h key (next y L) = .ok true
  equals : keyEquals h key (next y L) = .ok (victim L).isSome
  victim : ∀ v, victim L = some v → next y L = some v ∧ v ≠ y ∧
    ∃ n, h.node v = some n ∧ L < n.height
  pos : 0 < width y L

section Round

variable {sl : SkipList K D} {h : Heap K D} {key : K}
  {ctx : TraverseContext} {victim : ℕ → Option NodeRef}
  {next next' : NodeRef → ℕ → Option NodeRef} {width width' : NodeRef → ℕ → ℕ}
  {level L : ℕ} {y v : NodeRef}

/-- Only the links and widths on its own level matter. -/
theorem Unlinkable.congr
    (hl : Unlinkable sl h key ctx victim next width L y)
    (hnext : ∀ a, next' a L = next a L)
    (hwidth : ∀ a, width' a L = width a L) :
    Unlinkable sl h key ctx victim next' width' L y where
  prev := hl.prev
  above := hl.above
  below := by rw [hnext]; exact hl.below
  equals := by rw [hnext]; exact hl.equals
  victim := by rw [hnext]; exact hl.victim
  pos := by rw [hwidth]; exact hl.pos

theorem exists_unlinkable_below
    (hunlink : ∀ L < level + 1,
      ∃ y, Unlinkable sl h key ctx victim next width L y)
    (hnext : ∀ a L, L ≠ level → next' a L = next a L)
    (hwidth : ∀ a L, L ≠ level → width' a L = width a L) :
    ∀ L < level, ∃ y, Unlinkable sl h key ctx victim next' width' L y := by
  intro L hL
  obtain ⟨y, hy⟩ := hunlink L (Nat.lt_succ_of_lt hL)
  exact ⟨y, hy.congr (fun a => hnext a L hL.ne) fun a => hwidth a L hL.ne⟩

theorem unlinkLevels_succ_of_none (ndebug : Bool)
    (hl : Unlinkable sl h key ctx victim next width level y)
    (hv : victim level = none) (removeNode : Option NodeRef) :
    sl.unlinkLevels ndebug key ctx (level + 1) removeNode
        (h.withLinks next width) =
      sl.unlinkLevels ndebug key ctx level removeNode
        (h.withLinks next (setAt width y level (width y level - 1))) := by
  obtain ⟨hy, ny, hny, hyl⟩ := hl.prev
  have hny' : ∀ w, (h.withLinks next w).node y = some ny := fun _ => hny
  have habove : sl.headOrAbove (h.withLinks next width) key (some y) =
      .ok true := hl.above
  have hbelow : nullOrNotAbove (h.withLinks next width) key
      (next y level) = .ok true := hl.below
  have hequals : keyEquals (h.withLinks next width) key (next y level) =
      .ok false := by
    have := hl.equals
    rwa [hv] at this
  simp only [unlinkLevels, hy, getNext_of_node (hny' _) hyl, ok_bind,
    habove, withLinks_next, hbelow, assert_ok_true, hequals,
    Bool.false_eq_true, if_false, getWidth_of_node (hny' _) hyl,
    withLinks_width, subtract_of_le hl.pos,
    setWidth_of_node (hny' _) hyl, withLinks_withLinks]

/-- A round of the loop on a level where it unlinks `v`. -/
theorem unlinkLevels_succ_of_some {ndebug : Bool}
    (hl : Unlinkable sl h key ctx victim next width level y)
    (hv : victim level = some v) {removeNode : Option NodeRef}
    (hsame : assert ndebug
      (.ok (decide (removeNode = none ∨ removeNode = some v))) = .ok ()) :
    sl.unlinkLevels ndebug key ctx (level + 1) removeNode
        (h.withLinks next width) =
      sl.unlinkLevels ndebug key ctx level (some v)
        (h.withLinks (setAt (setAt next y level (next v level)) v level none)
          (setAt width y level (width y level + width v level - 1))) := by
  obtain ⟨hy, ny, hny, hyl⟩ := hl.prev
  obtain ⟨hnv, hvy, nv, hnodev, hvl⟩ := hl.victim v hv
  have hny' : ∀ nx w, (h.withLinks nx w).node y = some ny :=
    fun _ _ => hny
  have hnv' : ∀ nx w, (h.withLinks nx w).node v = some nv :=
    fun _ _ => hnodev
  have habove : sl.headOrAbove (h.withLinks next width) key (some y) =
      .ok true := hl.above
  have hbelow : nullOrNotAbove (h.withLinks next width) key (some v) =
      .ok true := hnv ▸ hl.below
  have hequals : keyEquals (h.withLinks next width) key (some v) =
      .ok true := by
    have := hl.equals
    rwa [hv, hnv] at this
  have hsum : 1 ≤ width y level + width v level := by
    have := hl.pos
    omega
  simp only [unlinkLevels, hy, getNext_of_node (hny' _ _) hyl, ok_bind,
    habove, withLinks_next, hbelow, assert_ok_true, hequals,
    if_true, hnv, hsame, getWidth_of_node (hny' _ _) hyl,
    getWidth_of_node (hnv' _ _) hvl, getNext_of_node (hnv' _ _) hvl,
    withLinks_width, subtract_of_le hsum,
    setNext_of_node (hny' _ _) hyl, setWidth_of_node (hny' _ _) hyl,
    setNext_of_node (hnv' _ _) hvl, withLinks_withLinks]

theorem unlinkLevels_succ_fails
    (hl : Unlinkable sl h key ctx victim next width level y)
    (hv : victim level = some v) {removeNode : Option NodeRef}
    (hother : ¬(removeNode = none ∨ removeNode = some v)) :
    sl.unlinkLevels false key ctx (level + 1) removeNode
        (h.withLinks next width) = .error .assertFailed := by
  obtain ⟨hy, ny, hny, hyl⟩ := hl.prev
  obtain ⟨hnv, -, -⟩ := hl.victim v hv
  have hny' : ∀ nx w, (h.withLinks nx w).node y = some ny :=
    fun _ _ => hny
  have habove : sl.headOrAbove (h.withLinks next width) key (some y) =
      .ok true := hl.above
  have hbelow : nullOrNotAbove (h.withLinks next width) key (some v) =
      .ok true := hnv ▸ hl.below
  have hequals : keyEquals (h.withLinks next width) key (some v) =
      .ok true := by
    have := hl.equals
    rwa [hv, hnv] at this
  have hfails : assert false
      (.ok (decide (removeNode = none ∨ removeNode = some v))) =
      .error .assertFailed := by
    rw [decide_eq_false hother]
    rfl
  simp only [unlinkLevels, hy, getNext_of_node (hny' _ _) hyl, ok_bind,
    habove, withLinks_next, hbelow, assert_ok_true, hequals,
    if_true, hnv, hfails, error_bind]

end Round

/-- The node carried along differs from `t`, or a level still to come has
another victim than `t`. -/
def Conflicting (victim : ℕ → Option NodeRef) (t : NodeRef) (levels : ℕ)
    (removeNode : Option NodeRef) : Prop :=
  (∃ v, removeNode = some v ∧ v ≠ t) ∨
    ∃ L < levels, ∃ v, victim L = some v ∧ v ≠ t

namespace Conflicting

variable {victim : ℕ → Option NodeRef} {t v : NodeRef} {level : ℕ}
  {removeNode : Option NodeRef}

omit [LinearOrder K] in
theorem of_none (h : Conflicting victim t (level + 1) removeNode)
    (hv : victim level = none) : Conflicting victim t level removeNode := by
  apply h.imp_right
  rintro ⟨L, hL, w, hw, hne⟩
  refine ⟨L, ?_, w, hw, hne⟩
  apply lt_of_le_of_ne (Nat.le_of_lt_succ hL)
  rintro rfl
  rw [hv] at hw
  cases hw

theorem of_some (h : Conflicting victim t (level + 1) removeNode)
    (hv : victim level = some v)
    (hsame : removeNode = none ∨ removeNode = some v) :
    Conflicting victim t level (some v) := by
  by_cases hvt : v = t
  · subst hvt
    right
    rcases h with ⟨w, hw, hne⟩ | ⟨L, hL, w, hw, hne⟩
    · rcases hsame with hnone | hsome
      · rw [hw] at hnone
        cases hnone
      · exact absurd (Option.some.inj (hw.symm.trans hsome)) hne
    · refine ⟨L, ?_, w, hw, hne⟩
      apply lt_of_le_of_ne (Nat.le_of_lt_succ hL)
      rintro rfl
      exact hne (Option.some.inj (hw.symm.trans hv))
  · exact Or.inl ⟨v, rfl, hvt⟩

theorem pos (h : Conflicting victim t level (some v))
    (hv : victim level = some v) (hlast : victim 0 = some t) :
    0 < level := by
  apply Nat.pos_of_ne_zero
  rintro rfl
  rcases h with ⟨u, hu, hne⟩ | ⟨L, hL, -⟩
  · rw [hlast] at hv
    exact hne (Option.some.inj (hu.symm.trans hv.symm))
  · omega

end Conflicting

/-- With assertions enabled the loop of `remove` fails when the levels unlink
different nodes.  By induction on the levels left. -/
theorem unlinkLevels_fails (sl : SkipList K D) (key : K)
    (ctx : TraverseContext) {victim : ℕ → Option NodeRef} {t : NodeRef}
    {levels : ℕ} {h : Heap K D} {removeNode : Option NodeRef}
    (next : NodeRef → ℕ → Option NodeRef) (width : NodeRef → ℕ → ℕ)
    (hunlink : ∀ L < levels,
      ∃ y, Unlinkable sl h key ctx victim next width L y)
    (hlast : victim 0 = some t) (hlevels : 0 < levels)
    (hconflict : Conflicting victim t levels removeNode) :
    sl.unlinkLevels false key ctx levels removeNode
        (h.withLinks next width) = .error .assertFailed := by
  induction levels generalizing removeNode next width with
  | zero => omega
  | succ level ih =>
      obtain ⟨y, hl⟩ := hunlink level (Nat.lt_succ_self _)
      rcases hv : victim level with _ | v
      · have hpos : 0 < level := by
          apply Nat.pos_of_ne_zero
          rintro rfl
          rw [hlast] at hv
          cases hv
        rw [unlinkLevels_succ_of_none false hl hv]
        apply ih
        · exact exists_unlinkable_below hunlink (fun _ _ _ => rfl)
            fun _ _ hne => by simp [setAt, hne]
        · exact hpos
        · exact hconflict.of_none hv
      · by_cases hsame : removeNode = none ∨ removeNode = some v
        · have hconflict' := hconflict.of_some hv hsame
          have hpass : assert false
              (.ok (decide (removeNode = none ∨ removeNode = some v))) =
              .ok () := by
            rw [decide_eq_true hsame]
            rfl
          rw [unlinkLevels_succ_of_some hl hv hpass]
          apply ih
          · exact exists_unlinkable_below hunlink
              (fun _ _ hne => by simp [setAt, hne])
              fun _ _ hne => by simp [setAt, hne]
          · exact hconflict'.pos hv hlast
          · exact hconflict'
        · exact unlinkLevels_succ_fails hl hv hsame

/-- The loop of `remove`, by induction on the levels left.  With assertions
enabled all levels must unlink the same node `t`. -/
theorem unlinkLevels_spec (sl : SkipList K D) (ndebug : Bool) (key : K)
    (ctx : TraverseContext) {victim : ℕ → Option NodeRef} {t : NodeRef}
    {levels : ℕ} {h : Heap K D} {removeNode : Option NodeRef}
    (next : NodeRef → ℕ → Option NodeRef) (width : NodeRef → ℕ → ℕ)
    (hunlink : ∀ L < levels,
      ∃ y, Unlinkable sl h key ctx victim next width L y)
    (hassert : ndebug = true ∨
      ((∀ L < levels, ∀ v, victim L = some v → v = t) ∧
        (removeNode = none ∨ removeNode = some t)))
    (hlast : 0 < levels → victim 0 = some t)
    (hzero : levels = 0 → removeNode = some t) :
    sl.unlinkLevels ndebug key ctx levels removeNode
        (h.withLinks next width) =
      .ok (some t, h.withLinks (unlinkedNext ctx victim levels next)
        (unlinkedWidth ctx victim levels width)) := by
  induction levels generalizing removeNode next width with
  | zero =>
      have hnext : unlinkedNext ctx victim 0 next = next := by
        funext a L
        simp [unlinkedNext]
      have hwidth : unlinkedWidth ctx victim 0 width = width := by
        funext a L
        simp [unlinkedWidth]
      rw [unlinkLevels, hnext, hwidth, hzero rfl]
  | succ level ih =>
      obtain ⟨y, hl⟩ := hunlink level (Nat.lt_succ_self _)
      have hy := hl.prev.1
      rcases hv : victim level with _ | v
      · rw [unlinkLevels_succ_of_none ndebug hl hv,
          unlinkedNext_succ_of_none hv, unlinkedWidth_succ hy, hv]
        apply ih
        · exact exists_unlinkable_below hunlink (fun _ _ _ => rfl)
            fun _ _ hne => by simp [setAt, hne]
        · exact hassert.imp_right fun hsame =>
            ⟨fun L hL => hsame.1 L (Nat.lt_succ_of_lt hL), hsame.2⟩
        · exact fun _ => hlast (Nat.succ_pos _)
        · rintro rfl
          rw [hlast Nat.one_pos] at hv
          cases hv
      · have hsame : assert ndebug
            (.ok (decide (removeNode = none ∨ removeNode = some v))) =
            .ok () := by
          rcases hassert with rfl | ⟨hone, hremove⟩
          · rfl
          · rw [hone level (Nat.lt_succ_self _) v hv]
            simp [hremove]
        rw [unlinkLevels_succ_of_some hl hv hsame,
          unlinkedNext_succ_of_some hv hy, unlinkedWidth_succ hy, hv]
        apply ih
        · exact exists_unlinkable_below hunlink
            (fun _ _ hne => by simp [setAt, hne])
            fun _ _ hne => by simp [setAt, hne]
        · refine hassert.imp_right fun hone =>
            ⟨fun L hL => hone.1 L (Nat.lt_succ_of_lt hL), Or.inr ?_⟩
          rw [hone.1 level (Nat.lt_succ_self _) v hv]
        · exact fun _ => hlast (Nat.succ_pos _)
        · rintro rfl
          rw [← hv]
          exact hlast Nat.one_pos

end SkipList

/-! ## The entries that keep fewer levels -/

/-- The entry with no levels above `cap`. -/
def Entry.lower (cap : ℕ) (x : Entry K) : Entry K :=
  { x with tower := min x.tower cap }

/-- The sequence with each tower cut down to the tallest one in front of it,
of which `cap` is the tallest so far. -/
def lowerTowers : ℕ → List (Entry K) → List (Entry K)
  | _, [] => []
  | cap, x :: l => x.lower cap :: lowerTowers (max cap x.tower) l

theorem map_ref_lowerTowers (cap : ℕ) (l : List (Entry K)) :
    (lowerTowers cap l).map Entry.ref = l.map Entry.ref := by
  induction l generalizing cap with
  | nil => rfl
  | cons x l ih => simp [lowerTowers, Entry.lower, ih]

theorem map_node_lowerTowers (cap : ℕ) (l : List (Entry K)) :
    (lowerTowers cap l).map Entry.node = l.map Entry.node := by
  induction l generalizing cap with
  | nil => rfl
  | cons x l ih => simp [lowerTowers, Entry.lower, ih]

theorem length_lowerTowers (cap : ℕ) (l : List (Entry K)) :
    (lowerTowers cap l).length = l.length := by
  simpa using congrArg List.length (map_ref_lowerTowers cap l)

theorem lowerTowers_of_le {cap : ℕ} {l : List (Entry K)}
    (hl : ∀ x ∈ l, x.tower ≤ cap) : lowerTowers cap l = l := by
  induction l with
  | nil => rfl
  | cons x l ih =>
      obtain ⟨hx, hl⟩ := List.forall_mem_cons.mp hl
      have hlower : x.lower cap = x := by
        rw [Entry.lower, min_eq_left hx]
      rw [lowerTowers, max_eq_left hx, ih hl, hlower]

theorem mem_lowerTowers {cap : ℕ} {l : List (Entry K)} {x : Entry K}
    (hx : x ∈ lowerTowers cap l) :
    ∃ y ∈ l, x.ref = y.ref ∧ x.node = y.node ∧ x.tower ≤ y.tower ∧
      min y.tower cap ≤ x.tower := by
  induction l generalizing cap with
  | nil => simp [lowerTowers] at hx
  | cons z l ih =>
      rcases List.mem_cons.mp hx with rfl | hx
      · exact ⟨z, List.mem_cons_self, rfl, rfl, min_le_left _ _, le_rfl⟩
      · obtain ⟨y, hy, href, hnode, hle, hge⟩ := ih hx
        refine ⟨y, List.mem_cons_of_mem _ hy, href, hnode, hle, ?_⟩
        omega

theorem level_lowerTowers_of_lt {L cap : ℕ} (hL : L < cap)
    (l r : List (Entry K)) :
    (Tower.nextAt Entry.tower L (lowerTowers cap l ++ r)).map Entry.ref =
        (Tower.nextAt Entry.tower L (l ++ r)).map Entry.ref ∧
      Tower.gap Entry.tower L (lowerTowers cap l ++ r) =
        Tower.gap Entry.tower L (l ++ r) := by
  induction l generalizing cap with
  | nil => simp [lowerTowers]
  | cons x l ih =>
      have hcap : L < max cap x.tower := by omega
      obtain ⟨hnext, hgap⟩ := ih hcap
      rw [lowerTowers, List.cons_append, List.cons_append]
      by_cases hx : L < x.tower
      · have hmin : L < (x.lower cap).tower := lt_min hx hL
        rw [Tower.nextAt_cons_of_lt hx, Tower.gap_cons_of_lt hx,
          Tower.nextAt_cons_of_lt hmin, Tower.gap_cons_of_lt hmin]
        exact ⟨rfl, rfl⟩
      · have hle : x.tower ≤ L := Nat.le_of_not_lt hx
        have hmin : (x.lower cap).tower ≤ L := (min_le_left _ _).trans hle
        rw [Tower.nextAt_cons_of_le hle, Tower.gap_cons_of_le hle,
          Tower.nextAt_cons_of_le hmin, Tower.gap_cons_of_le hmin]
        exact ⟨hnext, by rw [hgap]⟩

theorem level_lowerTowers_of_split {L cap : ℕ} (hL : cap ≤ L)
    {s t : List (Entry K)} {w : Entry K} (hs : ∀ x ∈ s, x.tower ≤ L)
    (hw : L < w.tower) (r : List (Entry K)) :
    (Tower.nextAt Entry.tower L (lowerTowers cap (s ++ w :: t) ++ r)).map
        Entry.ref =
        (Tower.nextAt Entry.tower L (t ++ r)).map Entry.ref ∧
      Tower.gap Entry.tower L (lowerTowers cap (s ++ w :: t) ++ r) =
        s.length + 1 + Tower.gap Entry.tower L (t ++ r) := by
  induction s generalizing cap with
  | nil =>
      have hmin : (w.lower cap).tower ≤ L := (min_le_right _ _).trans hL
      have hcap : L < max cap w.tower := by omega
      obtain ⟨hnext, hgap⟩ := level_lowerTowers_of_lt hcap t r
      rw [List.nil_append, lowerTowers, List.cons_append,
        Tower.nextAt_cons_of_le hmin, Tower.gap_cons_of_le hmin, hnext, hgap]
      refine ⟨rfl, ?_⟩
      rw [List.length_nil]
      omega
  | cons x s ih =>
      have hx := hs x List.mem_cons_self
      have hmin : (x.lower cap).tower ≤ L := (min_le_right _ _).trans hL
      obtain ⟨hnext, hgap⟩ := ih (max_le hL hx)
        fun y hy => hs y (List.mem_cons_of_mem _ hy)
      rw [List.cons_append, lowerTowers, List.cons_append,
        Tower.nextAt_cons_of_le hmin, Tower.gap_cons_of_le hmin, hnext, hgap]
      refine ⟨rfl, ?_⟩
      rw [List.length_cons]
      omega

theorem level_removed_of_le {L : ℕ} {e : Entry K} {es : List (Entry K)}
    (hes : ∀ x ∈ e :: es, x.tower ≤ L) (r : List (Entry K)) :
    Tower.nextAt Entry.tower L (lowerTowers e.tower es ++ r) =
        Tower.nextAt Entry.tower L r ∧
      Tower.gap Entry.tower L (lowerTowers e.tower es ++ r) =
        es.length + Tower.gap Entry.tower L r := by
  have hlow : ∀ x ∈ lowerTowers e.tower es, x.tower ≤ L := by
    intro x hx
    obtain ⟨y, hy, -, -, hle, -⟩ := mem_lowerTowers hx
    exact hle.trans (hes y (List.mem_cons_of_mem _ hy))
  rw [Tower.nextAt_append_of_le hlow, Tower.gap_append_of_le hlow,
    length_lowerTowers]
  exact ⟨rfl, rfl⟩

theorem level_removed_of_split {L : ℕ} {e w : Entry K}
    {es s t : List (Entry K)} (hsplit : e :: es = s ++ w :: t)
    (hs : ∀ x ∈ s, x.tower ≤ L) (hw : L < w.tower) (r : List (Entry K)) :
    (Tower.nextAt Entry.tower L (lowerTowers e.tower es ++ r)).map Entry.ref =
        (Tower.nextAt Entry.tower L (t ++ r)).map Entry.ref ∧
      Tower.gap Entry.tower L (lowerTowers e.tower es ++ r) =
        s.length + Tower.gap Entry.tower L (t ++ r) := by
  cases s with
  | nil =>
      obtain ⟨rfl, rfl⟩ := List.cons_eq_cons.mp hsplit
      obtain ⟨hnext, hgap⟩ := level_lowerTowers_of_lt hw es r
      exact ⟨hnext, by rw [hgap, List.length_nil, Nat.zero_add]⟩
  | cons x s =>
      obtain ⟨rfl, rfl⟩ := List.cons_eq_cons.mp hsplit
      obtain ⟨hnext, hgap⟩ := level_lowerTowers_of_split
        (hs e List.mem_cons_self)
        (fun y hy => hs y (List.mem_cons_of_mem _ hy)) hw r
      exact ⟨hnext, hgap⟩

/-! ## Threading the sequence again -/

section Remove

open SkipList

variable {h h' : Heap K D} {ctx : TraverseContext}
  {xs es gt : List (Entry K)} {e : Entry K} {levels : ℕ}

/-- The node `remove` unlinks on a level, when `e :: es` carry the key. -/
def victimAt (e : Entry K) (es : List (Entry K)) (L : ℕ) : Option NodeRef :=
  (Tower.nextAt Entry.tower L (e :: es)).map Entry.ref

/-- The memory after the loop of `remove`, which has taken `e` out of the
sequence. -/
structure Removed (h h' : Heap K D) (ctx : TraverseContext)
    (xs es gt : List (Entry K)) (e : Entry K) (levels : ℕ) : Prop where
  threaded : Threaded h (xs ++ (e :: es ++ gt))
  distinct : ((xs ++ (e :: es ++ gt)).map Entry.ref).Nodup
  locates : Locates ctx xs levels
  towers : ∀ x ∈ xs ++ (e :: es ++ gt), x.tower ≤ levels
  node : h'.node = h.node
  next : h'.next = unlinkedNext ctx (victimAt e es) levels h.next
  width : h'.width = unlinkedWidth ctx (victimAt e es) levels h.width

/-- The victim of a level is the first entry there that carries the key. -/
theorem victimAt_cases (e : Entry K) (es : List (Entry K)) (L : ℕ) :
    (victimAt e es L = none ∧ ∀ x ∈ e :: es, x.tower ≤ L) ∨
      ∃ (s : List (Entry K)) (w : Entry K) (t : List (Entry K)),
        e :: es = s ++ w :: t ∧ (∀ x ∈ s, x.tower ≤ L) ∧
        L < w.tower ∧ victimAt e es L = some w.ref := by
  rcases Tower.all_le_or_split Entry.tower L (e :: es) with
    hall | ⟨s, w, t, hsplit, hs, hw⟩
  · refine Or.inl ⟨?_, hall⟩
    rw [victimAt, Tower.nextAt_eq_none_iff.mpr hall, Option.map_none]
  · refine Or.inr ⟨s, w, t, hsplit, hs, hw, ?_⟩
    rw [victimAt, hsplit, Tower.nextAt_split hs hw, Option.map_some]

theorem victimAt_mem {L : ℕ} {v : NodeRef} (hv : victimAt e es L = some v) :
    ∃ w ∈ e :: es, w.ref = v ∧ L < w.tower := by
  rcases victimAt_cases e es L with ⟨hnone, -⟩ | ⟨s, w, t, hs, -, hw, hsome⟩
  · rw [hnone] at hv
    cases hv
  · refine ⟨w, by simp [hs], ?_, hw⟩
    rw [hsome] at hv
    exact Option.some.inj hv

namespace Removed

/-- An entry that is neither the predecessor nor the victim of a level keeps
its link there. -/
theorem links_of_ne (hrem : Removed h h' ctx xs es gt e levels)
    {x : Entry K} {L : ℕ} (hprev : L < levels → ctx.prevNode L ≠ some x.ref)
    (hvictim : victimAt e es L ≠ some x.ref) :
    h'.next x.ref L = h.next x.ref L ∧
      h'.width x.ref L = h.width x.ref L := by
  rw [hrem.next, hrem.width, unlinkedNext, unlinkedWidth]
  constructor
  · by_cases hL : L < levels
    · rcases hv : victimAt e es L with _ | v
      · simp [hL]
      · have hne : x.ref ≠ v := by
          rintro rfl
          exact hvictim hv
        simp [hL, hne, hprev hL]
    · simp [hL]
  · rw [if_neg]
    exact fun hand => hprev hand.1 hand.2

theorem threaded_gt (hrem : Removed h h' ctx xs es gt e levels) :
    Threaded h' gt := by
  have ht : Threaded h gt := hrem.threaded.tail.tail
  have hkeep : ∀ x ∈ gt, ∀ L, h'.next x.ref L = h.next x.ref L ∧
      h'.width x.ref L = h.width x.ref L := by
    intro x hx L
    refine hrem.links_of_ne (hrem.locates.prev_ne_of_mem hrem.distinct
      (List.mem_append_right _ hx)) ?_
    intro hv
    obtain ⟨w, hw, href, -⟩ := victimAt_mem hv
    have hdistinct := (List.nodup_append.mp
      (List.map_append ▸ hrem.distinct)).2.1
    exact ref_ne_of_append hdistinct hw hx href
  refine ht.congr (fun x _ => by rw [hrem.node]) ?_ ?_
  · exact fun x hx => funext fun L => (hkeep x hx L).1
  · exact fun x hx => funext fun L => (hkeep x hx L).2

theorem distinct_equal (hrem : Removed h h' ctx xs es gt e levels) :
    ((e :: es).map Entry.ref).Nodup := by
  have hdistinct := hrem.distinct
  rw [List.map_append, List.map_append] at hdistinct
  exact (List.nodup_append.mp (List.nodup_append.mp hdistinct).2.1).1

/-- An entry with the key, behind the entries `s`, is the victim of exactly
the levels above all their towers. -/
theorem victimAt_eq_iff (hrem : Removed h h' ctx xs es gt e levels)
    {s t : List (Entry K)} {x : Entry K} (hsplit : e :: es = s ++ x :: t)
    {L : ℕ} :
    victimAt e es L = some x.ref ↔
      (∀ y ∈ s, y.tower ≤ L) ∧ L < x.tower := by
  have hdistinct := hrem.distinct_equal
  constructor
  · intro hv
    obtain ⟨w, hw, href, hL⟩ := victimAt_mem hv
    have hwx : w = x :=
      List.inj_on_of_nodup_map hdistinct hw (by simp [hsplit]) href
    subst hwx
    refine ⟨?_, hL⟩
    by_contra hlow
    push Not at hlow
    rw [victimAt, hsplit, Tower.nextAt_append_of_exists hlow,
      Option.map_eq_some_iff] at hv
    obtain ⟨z, hz, hzw⟩ := hv
    rw [hsplit] at hdistinct
    exact ref_ne_of_append hdistinct (List.mem_of_find?_eq_some hz)
      List.mem_cons_self hzw
  · rintro ⟨hs, hL⟩
    rw [victimAt, hsplit, Tower.nextAt_split hs hL, Option.map_some]

/-- An entry with the key loses the levels on which it is the victim. -/
theorem linked_equal (hrem : Removed h h' ctx xs es gt e levels)
    {s t : List (Entry K)} {x : Entry K} (hsplit : e :: es = s ++ x :: t)
    {cap : ℕ} (hcap : ∀ L, (∀ y ∈ s, y.tower ≤ L) ↔ cap ≤ L) :
    Linked h' (x.lower cap) (lowerTowers (max cap x.tower) t ++ gt) := by
  have hmem : x ∈ e :: es ++ gt := by simp [hsplit]
  have hlx : Linked h x (t ++ gt) := by
    have ht := hrem.threaded.tail
    rw [hsplit, List.append_assoc] at ht
    exact ht.linked
  have hprev : ∀ L, L < levels → ctx.prevNode L ≠ some x.ref :=
    fun _ => hrem.locates.prev_ne_of_mem hrem.distinct hmem
  refine ⟨?_, (min_le_left _ _).trans hlx.tower_le, ?_, ?_, ?_⟩
  · rw [hrem.node]
    exact hlx.live
  · intro L hL
    obtain ⟨hLx, hLcap⟩ := lt_min_iff.mp hL
    have hne : victimAt e es L ≠ some x.ref := fun hv => by
      have := (hcap L).mp ((hrem.victimAt_eq_iff hsplit).mp hv).1
      omega
    apply (hrem.links_of_ne (hprev L) hne).1.trans
    rw [hlx.next L hLx]
    exact (level_lowerTowers_of_lt (lt_max_of_lt_left hLcap) t gt).1.symm
  · intro L hL
    obtain ⟨hLx, hLcap⟩ := lt_min_iff.mp hL
    have hne : victimAt e es L ≠ some x.ref := fun hv => by
      have := (hcap L).mp ((hrem.victimAt_eq_iff hsplit).mp hv).1
      omega
    apply (hrem.links_of_ne (hprev L) hne).2.trans
    rw [hlx.width L hLx]
    exact (level_lowerTowers_of_lt (lt_max_of_lt_left hLcap) t gt).2.symm
  · intro L hle hlt
    change h'.next x.ref L = none
    by_cases hLx : L < x.tower
    · have hLcap : cap ≤ L := by
        rcases min_le_iff.mp hle with hx | hc
        · omega
        · exact hc
      have hv := (hrem.victimAt_eq_iff hsplit).mpr ⟨(hcap L).mpr hLcap, hLx⟩
      have hlevel : L < levels :=
        lt_of_lt_of_le hLx (hrem.towers x (List.mem_append_right _ hmem))
      rw [hrem.next, unlinkedNext, if_pos hlevel, hv]
      simp
    · have hne : victimAt e es L ≠ some x.ref :=
        fun hv => hLx ((hrem.victimAt_eq_iff hsplit).mp hv).2
      rw [(hrem.links_of_ne (hprev L) hne).1]
      exact hlx.above L (Nat.le_of_not_lt hLx) hlt

theorem threaded_equal (hrem : Removed h h' ctx xs es gt e levels)
    {s t : List (Entry K)} (hsplit : e :: es = s ++ t) {cap : ℕ}
    (hcap : ∀ L, (∀ y ∈ s, y.tower ≤ L) ↔ cap ≤ L) :
    Threaded h' (lowerTowers cap t ++ gt) := by
  induction t generalizing s cap with
  | nil => exact hrem.threaded_gt
  | cons x t ih =>
      refine ⟨hrem.linked_equal hsplit hcap, ih (s := s ++ [x])
        (by simp [hsplit]) fun L => ?_⟩
      rw [max_le_iff, ← hcap L]
      simp only [List.mem_append, List.mem_singleton, or_imp, forall_and,
        forall_eq]

/-- An entry in front of the key, on one of its levels. -/
theorem links_front (hrem : Removed h h' ctx xs es gt e levels)
    {p s : List (Entry K)} {x : Entry K} (hsplit : xs = p ++ x :: s)
    {L : ℕ} (hL : L < x.tower) :
    h'.next x.ref L = (Tower.nextAt Entry.tower L
        (s ++ (lowerTowers e.tower es ++ gt))).map Entry.ref ∧
      h'.width x.ref L = Tower.gap Entry.tower L
        (s ++ (lowerTowers e.tower es ++ gt)) := by
  have hx : x ∈ xs := by simp [hsplit]
  have hlevel : L < levels :=
    lt_of_lt_of_le hL (hrem.towers x (List.mem_append_left _ hx))
  have hlx : Linked h x (s ++ (e :: es ++ gt)) := by
    have ht := hrem.threaded
    rw [hsplit, List.append_assoc] at ht
    exact ht.linked
  have hvictim : ∀ w ∈ e :: es, x.ref ≠ w.ref := fun w hw =>
    ref_ne_of_append hrem.distinct hx (List.mem_append_left _ hw)
  rcases hrem.locates.prev_cases hrem.distinct hsplit hL hlevel with
    ⟨hs, hne⟩ | ⟨hlow, hprev, -⟩
  · -- the predecessor of the level comes later
    have hnv : victimAt e es L ≠ some x.ref := by
      intro hv
      obtain ⟨w, hw, href, -⟩ := victimAt_mem hv
      exact hvictim w hw href.symm
    obtain ⟨hn, hw⟩ := hrem.links_of_ne (fun _ => hne) hnv
    rw [hn, hw, hlx.next L hL, hlx.width L hL]
    simp only [Tower.nextAt_append_of_exists hs,
      Tower.gap_append_of_exists hs, and_self]
  · -- the entry is the predecessor of the level
    rw [hrem.next, hrem.width]
    simp only [unlinkedNext, unlinkedWidth, hlevel, hprev, if_true, and_self]
    rw [Tower.nextAt_append_of_le hlow, Tower.gap_append_of_le hlow]
    rcases victimAt_cases e es L with
      ⟨hnone, hall⟩ | ⟨s', w, t, hes, hs', hw, hsome⟩
    · obtain ⟨hnext, hgap⟩ := level_removed_of_le hall gt
      rw [hnone, hnext, hgap, hlx.next L hL, hlx.width L hL,
        Tower.nextAt_append_of_le hlow, Tower.gap_append_of_le hlow,
        Tower.nextAt_append_of_le hall, Tower.gap_append_of_le hall,
        List.length_cons]
      refine ⟨rfl, ?_⟩
      change s.length + (es.length + 1 + _) - 1 = _
      omega
    · have hmem : w ∈ e :: es := by simp [hes]
      have hlw : Linked h w (t ++ gt) := by
        have ht := hrem.threaded.tail
        rw [hes, List.append_assoc] at ht
        exact ht.linked
      obtain ⟨hnext, hgap⟩ := level_removed_of_split hes hs' hw gt
      have hxw : Tower.gap Entry.tower L (e :: es ++ gt) =
          s'.length + 1 := by
        rw [hes, List.append_assoc, List.cons_append, Tower.gap_split hs' hw]
      rw [hsome, hnext, hgap]
      simp only [hvictim w hmem, if_false]
      rw [hlw.next L hw, hlw.width L hw, hlx.width L hL,
        Tower.gap_append_of_le hlow, hxw]
      exact ⟨rfl, by omega⟩

theorem linked_front (hrem : Removed h h' ctx xs es gt e levels)
    {p s : List (Entry K)} {x : Entry K} (hsplit : xs = p ++ x :: s) :
    Linked h' x (s ++ (lowerTowers e.tower es ++ gt)) := by
  have hx : x ∈ xs := by simp [hsplit]
  have hmem : x ∈ xs ++ (e :: es ++ gt) := List.mem_append_left _ hx
  obtain ⟨rest, hlx⟩ := hrem.threaded.linked_of_mem hmem
  refine ⟨by rw [hrem.node, hlx.live], hlx.tower_le,
    fun L hL => (hrem.links_front hsplit hL).1,
    fun L hL => (hrem.links_front hsplit hL).2, ?_⟩
  intro L hle hlt
  have hprev : L < levels → ctx.prevNode L ≠ some x.ref :=
    hrem.locates.prev_ne_of_le hrem.distinct hx hle
  have hvictim : victimAt e es L ≠ some x.ref := by
    intro hv
    obtain ⟨w, hw, href, -⟩ := victimAt_mem hv
    exact ref_ne_of_append hrem.distinct hx (List.mem_append_left _ hw)
      href.symm
  rw [(hrem.links_of_ne hprev hvictim).1]
  exact hlx.above L hle hlt

/-- The sequence without `e` is threaded. -/
theorem threaded_remove (hrem : Removed h h' ctx xs es gt e levels) :
    Threaded h' (xs ++ (lowerTowers e.tower es ++ gt)) := by
  suffices hsuffix : ∀ s p, xs = p ++ s →
      Threaded h' (s ++ (lowerTowers e.tower es ++ gt)) from
    hsuffix xs [] rfl
  intro s
  induction s with
  | nil =>
      exact fun _ _ => hrem.threaded_equal (s := [e]) rfl fun L => by simp
  | cons x s ih =>
      intro p hsplit
      exact ⟨hrem.linked_front hsplit, ih (p ++ [x]) (by simp [hsplit])⟩

end Removed

end Remove

/-! ## Calls of `remove` -/

section Call

open SkipList

variable [LinearOrder K] {sl : SkipList K D} {head e : Entry K}
  {lo es gt : List (Entry K)} {key : K}

/-- The memory after the loop of `remove`. -/
def unlinkedHeap (h : Heap K D) (ctx : TraverseContext) (e : Entry K)
    (es : List (Entry K)) (levels : ℕ) : Heap K D :=
  h.withLinks (unlinkedNext ctx (victimAt e es) levels h.next)
    (unlinkedWidth ctx (victimAt e es) levels h.width)

/-- The memory without a node and its row. -/
def deletedHeap (h : Heap K D) (a : NodeRef) (r : RowInfoRef)
    (info : RowInfo D) : Heap K D :=
  { h with
    node := Function.update h.node a none
    rowInfo := Function.update h.rowInfo r none
    freed := h.freed ++ info.data.toList }

/-- The memory after `remove` has also deleted the node and its row. -/
def removedHeap (h : Heap K D) (ctx : TraverseContext) (e : Entry K)
    (es : List (Entry K)) (levels : ℕ) (r : RowInfoRef)
    (info : RowInfo D) : Heap K D :=
  { unlinkedHeap h ctx e es levels with
    node := Function.update h.node e.ref none
    rowInfo := Function.update h.rowInfo r none
    freed := h.freed ++ info.data.toList }

omit [LinearOrder K] in
theorem deleteRowInfos_of_rowInfo {h : Heap K D} {r : RowInfoRef}
    {info : RowInfo D} (hinfo : h.rowInfo r = some info)
    (hnext : info.next = none) {fuel : ℕ} (hfuel : 0 < fuel) :
    deleteRowInfos fuel (some r) h =
      .ok { h with
        rowInfo := Function.update h.rowInfo r none
        freed := h.freed ++ info.data.toList } := by
  obtain ⟨fuel, rfl⟩ := Nat.exists_eq_succ_of_ne_zero hfuel.ne'
  rw [deleteRowInfos, readRowInfo_of_rowInfo hinfo, ok_bind, setData,
    modifyRowInfo_of_rowInfo hinfo, ok_bind, hnext]
  rcases hdata : info.data with _ | d
  · simp [free, deleteRowInfo, load, deleteRowInfos]
  · simp [free, deleteRowInfo, load, deleteRowInfos]

omit [LinearOrder K] in
theorem deleteEntry {h : Heap K D} {r : RowInfoRef} {info : RowInfo D}
    (hlive : h.node e.ref = some e.node)
    (hr : e.node.rowInfo = some r) (hinfo : h.rowInfo r = some info)
    (hnext : info.next = none) (hcount : 0 < h.rowInfoCount) :
    (do
      let rowInfo ← h.getRowInfo (some e.ref)
      let h ← h.setRowInfo (some e.ref) none
      let h ← deleteRowInfos h.rowInfoCount rowInfo h
      h.deleteNode (some e.ref)) =
      .ok (deletedHeap h e.ref r info) := by
  have hinfo' : (h.putNode e.ref
      (some ⟨e.node.key, none, e.node.height⟩)).rowInfo r = some info := hinfo
  have hcount' : 0 < (h.putNode e.ref
      (some ⟨e.node.key, none, e.node.height⟩)).rowInfoCount := hcount
  rw [getRowInfo_of_node hlive, ok_bind, setRowInfo_of_node hlive, ok_bind,
    hr, deleteRowInfos_of_rowInfo hinfo' hnext hcount', ok_bind,
    deleteNode_of_node (Function.update_self _ _ _)]
  simp [deletedHeap, putNode]

namespace WellFormed

section

variable (wf : WellFormed sl head (lo ++ (e :: es ++ gt)))
  (hlo : ∀ x ∈ lo, x.key < key) (hes : ∀ x ∈ e :: es, x.key = key)
  (hgt : ∀ x ∈ gt, key < x.key)
  {ctx : TraverseContext} (hrank : ctx.rank = lo.length)
  (hloc : Locates ctx (head :: lo) sl.maxNodeHeight)

include wf

/-- The loop of `remove` relates the memories as described by `Removed`. -/
theorem removed (hloc : Locates ctx (head :: lo) sl.maxNodeHeight) :
    Removed sl.heap (unlinkedHeap sl.heap ctx e es sl.maxNodeHeight) ctx
      (head :: lo) es gt e sl.maxNodeHeight where
  threaded := wf.threaded
  distinct := wf.distinct
  locates := hloc
  towers := by
    intro x hx
    rcases List.mem_cons.mp hx with rfl | hx
    · exact wf.headTower.le
    · obtain ⟨rest, hlx⟩ :=
        wf.threaded.linked_of_mem (List.mem_cons_of_mem _ hx)
      exact hlx.tower_le.trans (wf.towers x hx).2
  node := rfl
  next := rfl
  width := rfl

include hes hgt in
omit wf in
theorem keyEquals_victim {h : Heap K D} (ht : Threaded h (e :: es ++ gt))
    (L : ℕ) :
    keyEquals h key
        ((Tower.nextAt Entry.tower L (e :: es ++ gt)).map Entry.ref) =
      .ok (victimAt e es L).isSome := by
  rw [keyEquals_nextAt key ht, Except.ok.injEq]
  rcases victimAt_cases e es L with ⟨hnone, hall⟩ | ⟨s, w, t, hs, hle, hw, hv⟩
  · rw [hnone, Tower.nextAt_append_of_le hall, Option.isSome_none,
      decide_eq_false_iff_not]
    rintro ⟨x, hx, hkey⟩
    exact (hgt x (List.mem_of_find?_eq_some hx)).ne hkey
  · rw [hv, hs, List.append_assoc, List.cons_append,
      Tower.nextAt_split hle hw, Option.isSome_some, decide_eq_true_eq]
    exact ⟨w, rfl, (hes w (by simp [hs])).symm⟩

include hlo hes hgt hloc

/-- Every level can be unlinked without a failing assertion or an
underflow. -/
theorem unlinkable {L : ℕ} (hL : L < sl.maxNodeHeight) :
    ∃ y, Unlinkable sl sl.heap key ctx (victimAt e es) sl.heap.next
      sl.heap.width L y := by
  obtain ⟨i, y, hlast, hprev, -⟩ := hloc L hL
  obtain ⟨p, q, hsplit, rfl, hy, hq⟩ := Tower.lastAt_split_inv hlast
  have hmem : y ∈ head :: lo := by simp [hsplit]
  have ht : Threaded sl.heap (e :: es ++ gt) :=
    Threaded.tail (s := head :: lo) wf.threaded
  have hly : Linked sl.heap y (q ++ (e :: es ++ gt)) := by
    have ht' := wf.threaded
    rw [← List.cons_append, hsplit, List.append_assoc] at ht'
    exact ht'.linked
  have hnext : sl.heap.next y.ref L =
      (Tower.nextAt Entry.tower L (e :: es ++ gt)).map Entry.ref := by
    rw [hly.next L hy, Tower.nextAt_append_of_le hq]
  have hnotBelow : ∀ x ∈ e :: es ++ gt, key ≤ x.key :=
    le_key_of_cut hes hgt
  refine ⟨y.ref, ⟨⟨hprev, y.node, hly.live,
    lt_of_lt_of_le hy hly.tower_le⟩, ?_, ?_, ?_, ?_, ?_⟩⟩
  · exact headOrAbove_prev wf.headRef hlo hly.live hmem
  · rw [hnext]
    exact nullOrNotAbove_nextAt ht hnotBelow
  · rw [hnext]
    exact keyEquals_victim hes hgt ht L
  · intro v hv
    rcases victimAt_cases e es L with
      ⟨hnone, -⟩ | ⟨s, w, t, hs, hle, hw, hsome⟩
    · rw [hnone] at hv
      cases hv
    · rw [hsome, Option.some.injEq] at hv
      subst hv
      have hwmem : w ∈ e :: es := by simp [hs]
      obtain ⟨rest, hlw⟩ :=
        ht.linked_of_mem (List.mem_append_left gt hwmem)
      refine ⟨?_, ?_, w.node, hlw.live, lt_of_lt_of_le hw hlw.tower_le⟩
      · rw [hnext, hs, List.append_assoc, List.cons_append,
          Tower.nextAt_split hle hw, Option.map_some]
      · exact (ref_ne_of_append wf.distinct hmem
          (List.mem_append_left gt hwmem)).symm
  · rw [hly.width L hy]
    exact Tower.gap_pos Entry.tower L (by simp)

/-- The loop of `remove` ends with `e`.  With assertions enabled no other
entry with the key may be taller. -/
theorem unlinkLevels_run {ndebug : Bool}
    (hassert : ndebug = true ∨ ∀ x ∈ es, x.tower ≤ e.tower) :
    sl.unlinkLevels ndebug key ctx sl.maxNodeHeight none sl.heap =
      .ok (some e.ref, unlinkedHeap sl.heap ctx e es sl.maxNodeHeight) := by
  have hpos : 0 < e.tower := (wf.towers e (by simp)).1
  refine unlinkLevels_spec sl ndebug key ctx sl.heap.next sl.heap.width
    (fun L hL => wf.unlinkable hlo hes hgt hloc hL) ?_ ?_ ?_
  · refine hassert.imp_right fun htall => ⟨fun L _ v hv => ?_, Or.inl rfl⟩
    by_cases hL : L < e.tower
    · rw [victimAt, Tower.nextAt_cons_of_lt hL, Option.map_some] at hv
      exact (Option.some.inj hv).symm
    · obtain ⟨w, hw, rfl, hwL⟩ := victimAt_mem hv
      rcases List.mem_cons.mp hw with rfl | hw
      · rfl
      · have := htall w hw
        omega
  · intro _
    rw [victimAt, Tower.nextAt_cons_of_lt hpos, Option.map_some]
  · intro hzero
    exact absurd hzero wf.levels.ne'

omit hlo hes hgt hloc in
theorem distinct_removed :
    (e.ref :: (head :: (lo ++ (es ++ gt))).map Entry.ref).Nodup := by
  have hperm : (head :: (lo ++ (e :: es ++ gt))).Perm
      (e :: head :: (lo ++ (es ++ gt))) :=
    (List.perm_middle.cons _).trans (List.Perm.swap _ _ _)
  exact (hperm.map Entry.ref).nodup_iff.mp wf.distinct

omit hlo hes hgt hloc in
theorem rowsOwned_removed {ctx : TraverseContext} {r : RowInfoRef}
    {info : RowInfo D} (hr : e.node.rowInfo = some r) :
    RowsOwned (removedHeap sl.heap ctx e es sl.maxNodeHeight r info)
      (lo ++ (es ++ gt)) := by
  have hperm : (lo ++ (e :: es ++ gt)).Perm (e :: (lo ++ (es ++ gt))) :=
    List.perm_middle
  have hdistinct := (hperm.map fun x : Entry K => x.node.rowInfo).nodup_iff.mp
    wf.rows.distinct
  rw [List.map_cons, List.nodup_cons] at hdistinct
  refine ⟨?_, hdistinct.2, ?_, ?_⟩
  · intro x hx
    obtain ⟨r', info', hr', hinfo', hnext'⟩ :=
      wf.rows.exists_row (hperm.mem_iff.mpr (List.mem_cons_of_mem _ hx))
    have hne : r' ≠ r := by
      rintro rfl
      exact hdistinct.1 (List.mem_map.mpr ⟨x, hx, hr'.trans hr.symm⟩)
    exact ⟨info', by simp [Heap.rowOf, removedHeap, hr', hne, hinfo'], hnext'⟩
  · intro r' hr'
    by_cases hne : r' = r
    · simp [removedHeap, hne]
    · simp only [removedHeap, Function.update_of_ne hne]
      exact wf.rows.allocated r' hr'
  · intro r' info' hinfo'
    by_cases hne : r' = r
    · simp [removedHeap, hne] at hinfo'
    · simp only [removedHeap, Function.update_of_ne hne] at hinfo'
      obtain ⟨x, hx, hrow⟩ := List.mem_map.mp (wf.rows.owned r' info' hinfo')
      rcases List.mem_cons.mp (hperm.mem_iff.mp hx) with rfl | hx
      · exact absurd (Option.some.inj (hrow.symm.trans hr)) hne
      · exact List.mem_map.mpr ⟨x, hx, hrow⟩

omit hlo hes hgt hloc in
theorem towers_removed {x : Entry K}
    (hx : x ∈ lo ++ (lowerTowers e.tower es ++ gt)) :
    0 < x.tower ∧ x.node.height ≤ sl.maxNodeHeight := by
  rcases List.mem_append.mp hx with hx | hx
  · exact wf.towers x (List.mem_append_left _ hx)
  · rcases List.mem_append.mp hx with hx | hx
    · obtain ⟨y, hy, -, hynode, -, hge⟩ := mem_lowerTowers hx
      have hpos := (wf.towers e (by simp)).1
      have hytower := wf.towers y (by simp [hy])
      exact ⟨lt_of_lt_of_le (lt_min hytower.1 hpos) hge,
        hynode ▸ hytower.2⟩
    · exact wf.towers x (by simp [hx])

omit hlo hes hgt hloc in
theorem sorted_removed :
    (lo ++ (lowerTowers e.tower es ++ gt)).Pairwise
      fun a b => a.key ≤ b.key := by
  have hsub : (lo ++ (es ++ gt)).Sublist (lo ++ (e :: es ++ gt)) :=
    (List.sublist_cons_self _ _).append_left lo
  have hkeys := wf.sorted.sublist hsub
  have hmap : ∀ l : List (Entry K),
      (l.Pairwise fun a b => a.key ≤ b.key) ↔
        (l.map Entry.node).Pairwise fun a b => a.key ≤ b.key :=
    fun l => (List.pairwise_map (f := Entry.node)
      (R := fun a b => a.key ≤ b.key)).symm
  have hnode : (lo ++ (lowerTowers e.tower es ++ gt)).map Entry.node =
      (lo ++ (es ++ gt)).map Entry.node := by
    simp [map_node_lowerTowers]
  rw [hmap] at hkeys ⊢
  rwa [hnode]

omit hlo hes hgt hloc in
theorem owned_removed {a : NodeRef} {n : SkipListNode K}
    (hae : a ≠ e.ref) (hn : sl.heap.node a = some n) :
    a ∈ (head :: (lo ++ (es ++ gt))).map Entry.ref := by
  obtain ⟨x, hx, rfl⟩ := List.mem_map.mp (wf.owned a n hn)
  have hxe : x ≠ e := fun heq => hae (heq ▸ rfl)
  simp only [List.mem_cons, List.mem_append, hxe, false_or] at hx
  exact List.mem_map_of_mem (by simpa using hx)

omit hlo hes hgt in
/-- The sequence without the entry describes the list after the call. -/
theorem removedList_wellFormed {r : RowInfoRef} {info : RowInfo D}
    (hr : e.node.rowInfo = some r) :
    WellFormed
      { sl with
        size := sl.size - 1
        heap := removedHeap sl.heap ctx e es sl.maxNodeHeight r info }
      head (lo ++ (lowerTowers e.tower es ++ gt)) := by
  have hdistinct := List.nodup_cons.mp wf.distinct_removed
  have href : (head :: (lo ++ (lowerTowers e.tower es ++ gt))).map Entry.ref =
      (head :: (lo ++ (es ++ gt))).map Entry.ref := by
    simp [map_ref_lowerTowers]
  constructor
  case ready => exact wf.ready
  case headRef => exact wf.headRef
  case headTower => exact wf.headTower
  case headHeight => exact wf.headHeight
  case headRow => exact wf.headRow
  case levels => exact wf.levels
  case threaded =>
    refine (wf.removed hloc).threaded_remove.congr ?_ (fun _ _ => rfl)
      fun _ _ => rfl
    intro x hx
    have hx' : x.ref ∈ (head :: (lo ++ (es ++ gt))).map Entry.ref :=
      href ▸ List.mem_map_of_mem hx
    have hne : x.ref ≠ e.ref := fun heq => hdistinct.1 (heq ▸ hx')
    simp [removedHeap, unlinkedHeap, hne]
  case distinct =>
    rw [href]
    exact hdistinct.2
  case towers =>
    intro x hx
    exact wf.towers_removed hx
  case sorted => exact wf.sorted_removed
  case allocated =>
    intro a ha
    by_cases hae : a = e.ref
    · simp [removedHeap, hae]
    · simp only [removedHeap, Function.update_of_ne hae]
      exact wf.allocated a ha
  case owned =>
    intro a n hn
    by_cases hae : a = e.ref
    · simp [removedHeap, hae] at hn
    · simp only [removedHeap, Function.update_of_ne hae] at hn
      rw [href]
      exact wf.owned_removed hae hn
  case rows =>
    apply (wf.rowsOwned_removed hr).congr
    simp [map_node_lowerTowers]
  case size =>
    have hsize := wf.size
    simp only [List.length_append, List.length_cons, length_lowerTowers]
      at hsize ⊢
    omega

end

/-- A call of `remove` for a key that is there: it deletes the first entry
with the key. -/
theorem remove_spec (wf : WellFormed sl head (lo ++ (e :: es ++ gt)))
    (hlo : ∀ x ∈ lo, x.key < key) (hes : ∀ x ∈ e :: es, x.key = key)
    (hgt : ∀ x ∈ gt, key < x.key) {ndebug : Bool}
    (hassert : ndebug = true ∨ ∀ x ∈ es, x.tower ≤ e.tower) :
    ∃ sl' r info, e.node.rowInfo = some r ∧
      sl.heap.rowInfo r = some info ∧
      sl.remove ndebug key = .ok (.returned true sl') ∧
      WellFormed sl' head (lo ++ (lowerTowers e.tower es ++ gt)) ∧
      sl'.primaryIndex = sl.primaryIndex ∧
      sl'.maxNodeHeight = sl.maxNodeHeight ∧
      sl'.heap.rowInfo = Function.update sl.heap.rowInfo r none ∧
      sl'.heap.freed = sl.heap.freed ++ info.data.toList ∧
      sl'.heap.nodeCount = sl.heap.nodeCount := by
  have hnotBelow : ∀ x ∈ e :: es ++ gt, key ≤ x.key :=
    le_key_of_cut hes hgt
  obtain ⟨ctx, htraverse, -, hloc⟩ :=
    wf.traversePrevNodes_spec hlo hnotBelow ndebug false
  obtain ⟨r, info, hr, hinfo, hnext⟩ := wf.rows.exists_row (e := e) (by simp)
  have hcount : 0 < sl.heap.rowInfoCount := by
    by_contra hzero
    have hnone := wf.rows.allocated r (by omega)
    rw [hinfo] at hnone
    cases hnone
  have hlive : sl.heap.node e.ref = some e.node :=
    wf.threaded.live (by simp)
  have hsize : 1 ≤ sl.size := by
    rw [wf.size]
    simp
    omega
  refine ⟨_, r, info, hr, hinfo, ?_, wf.removedList_wellFormed hloc hr, rfl,
    rfl, rfl, rfl, rfl⟩
  have hdup : decide (∃ x ∈ e :: es ++ gt, key = x.key) = true :=
    decide_eq_true ⟨e, by simp, (hes e List.mem_cons_self).symm⟩
  have hlive' : (unlinkedHeap sl.heap ctx e es sl.maxNodeHeight).node e.ref =
      some e.node := hlive
  have hremoved : deletedHeap
      (unlinkedHeap sl.heap ctx e es sl.maxNodeHeight) e.ref r info =
      removedHeap sl.heap ctx e es sl.maxNodeHeight r info := rfl
  have hdelete := deleteEntry hlive' hr hinfo hnext hcount
  rw [hremoved] at hdelete
  obtain ⟨p, hrow, hdelete⟩ := bind_eq_ok.mp hdelete
  obtain ⟨h₁, hset, hdelete⟩ := bind_eq_ok.mp hdelete
  obtain ⟨h₂, hrows, hdelete⟩ := bind_eq_ok.mp hdelete
  simp only [SkipList.remove, wf.ready, Bool.true_eq_false, if_false,
    htraverse, hdup, Bool.false_or, ok_bind,
    wf.unlinkLevels_run hlo hes hgt hloc hassert, Option.isSome_some,
    assert_ok_true, hrow, hset, hrows, hdelete, subtract_of_le hsize,
    pure_eq_ok]

theorem exists_other_victim (wf : WellFormed sl head (lo ++ (e :: es ++ gt)))
    {x : Entry K} (hx : x ∈ es) (htaller : e.tower < x.tower) :
    ∃ v, victimAt e es e.tower = some v ∧ v ≠ e.ref := by
  rcases Tower.all_le_or_split Entry.tower e.tower es with
    hall | ⟨s, w, t, rfl, hs, hw⟩
  · exact absurd (hall x hx) (Nat.not_le.mpr htaller)
  · refine ⟨w.ref, ?_, ?_⟩
    · rw [victimAt, Tower.nextAt_cons_of_le le_rfl,
        Tower.nextAt_split hs hw, Option.map_some]
    · have hdistinct := wf.distinct
      simp only [List.map_cons, List.map_append, List.nodup_cons,
        List.nodup_append, List.cons_append] at hdistinct
      intro heq
      exact hdistinct.2.2.1.1 (by simp [← heq])

/-- With assertions enabled a call of `remove` fails when an entry with the key
is taller than the first one. -/
theorem remove_fails (wf : WellFormed sl head (lo ++ (e :: es ++ gt)))
    (hlo : ∀ x ∈ lo, x.key < key) (hes : ∀ x ∈ e :: es, x.key = key)
    (hgt : ∀ x ∈ gt, key < x.key) {x : Entry K} (hx : x ∈ es)
    (htaller : e.tower < x.tower) :
    sl.remove false key = .error .assertFailed := by
  have hnotBelow : ∀ x ∈ e :: es ++ gt, key ≤ x.key :=
    le_key_of_cut hes hgt
  obtain ⟨ctx, htraverse, -, hloc⟩ :=
    wf.traversePrevNodes_spec hlo hnotBelow false false
  have hpos : 0 < e.tower := (wf.towers e (by simp)).1
  have hlast : victimAt e es 0 = some e.ref := by
    rw [victimAt, Tower.nextAt_cons_of_lt hpos, Option.map_some]
  have hlevel : e.tower < sl.maxNodeHeight := by
    have hmem : x ∈ lo ++ (e :: es ++ gt) := by simp [hx]
    obtain ⟨rest, hlx⟩ :=
      wf.threaded.linked_of_mem (List.mem_cons_of_mem head hmem)
    exact htaller.trans_le (hlx.tower_le.trans (wf.towers x hmem).2)
  obtain ⟨v, hv, hne⟩ := wf.exists_other_victim hx htaller
  have hfails : sl.unlinkLevels false key ctx sl.maxNodeHeight none sl.heap =
      .error .assertFailed :=
    unlinkLevels_fails sl key ctx sl.heap.next sl.heap.width
      (fun L hL => wf.unlinkable hlo hes hgt hloc hL) hlast wf.levels
      (Or.inr ⟨e.tower, hlevel, v, hv, hne⟩)
  have hdup : decide (∃ x ∈ e :: es ++ gt, key = x.key) = true :=
    decide_eq_true ⟨e, by simp, (hes e List.mem_cons_self).symm⟩
  simp only [SkipList.remove, wf.ready, Bool.true_eq_false, if_false,
    htraverse, hdup, Bool.false_or, ok_bind, hfails, error_bind]

/-- A call of `remove` for a key that is not there changes nothing. -/
theorem remove_absent {hi : List (Entry K)}
    (wf : WellFormed sl head (lo ++ hi)) (hlo : ∀ x ∈ lo, x.key < key)
    (hhi : ∀ x ∈ hi, key < x.key) (ndebug : Bool) :
    sl.remove ndebug key = .ok (.returned false sl) := by
  obtain ⟨ctx, htraverse, -, -⟩ := wf.traversePrevNodes_spec hlo
    (fun x hx => (hhi x hx).le) ndebug false
  have hdup : decide (∃ x ∈ hi, key = x.key) = false := by
    rw [decide_eq_false_iff_not]
    rintro ⟨x, hx, hkey⟩
    exact (hhi x hx).ne hkey
  simp [SkipList.remove, wf.ready, htraverse, hdup]

end WellFormed

namespace PrimaryWellFormed

/-- On a primary list the entry with the key is the only one, and the others
keep their towers. -/
theorem remove_spec {hi : List (Entry K)}
    (wf : PrimaryWellFormed sl head (lo ++ e :: hi))
    (ndebug : Bool) :
    ∃ sl' r info, e.node.rowInfo = some r ∧
      sl.heap.rowInfo r = some info ∧
      sl.remove ndebug e.key = .ok (.returned true sl') ∧
      PrimaryWellFormed sl' head (lo ++ hi) ∧
      sl'.maxNodeHeight = sl.maxNodeHeight ∧
      sl'.heap.rowInfo = Function.update sl.heap.rowInfo r none ∧
      sl'.heap.freed = sl.heap.freed ++ info.data.toList := by
  have hstrict := List.pairwise_append.mp wf.strict
  have hhi := List.pairwise_cons.mp hstrict.2.1
  have hlo : ∀ x ∈ lo, x.key < e.key :=
    fun x hx => hstrict.2.2 x hx e List.mem_cons_self
  have hwf : WellFormed sl head (lo ++ (e :: [] ++ hi)) := wf.toWellFormed
  have hassert : ndebug = true ∨
      ∀ x ∈ ([] : List (Entry K)), x.tower ≤ e.tower := Or.inr (by simp)
  obtain ⟨sl', r, info, hr, hinfo, hrun, hwf', hprimary, hmax, hrow, hfreed,
    -⟩ := hwf.remove_spec hlo (by simp) hhi.1 hassert
  have hsub : (lo ++ hi).Sublist (lo ++ e :: hi) :=
    (List.sublist_cons_self _ _).append_left lo
  exact ⟨sl', r, info, hr, hinfo, hrun, ⟨hwf', hprimary.trans wf.primary,
    wf.strict.sublist hsub, fun x hx => wf.full x (hsub.subset hx)⟩, hmax,
    hrow, hfreed⟩

end PrimaryWellFormed

end Call

end SquidDB.Core
