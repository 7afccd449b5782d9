import SquidDB.Core.SkipListInvariant

/-!
# Insertion keeps the shape

Each relinking loop of `insert` is summed up by the links and widths it leaves
behind, as functions of the memory it started from.  From these the sequence
with the new entry is threaded again: an entry in front of the cut is affected
on a level exactly when it is the last one there.
-/

namespace SquidDB.Core

open Checked Heap

variable {K D : Type}

namespace SkipList

/-! ## What the loops leave behind -/

/-- The widths after the first loop of `insert`. -/
def raisedWidth (ctx : TraverseContext) (nodeHeight levels : ℕ)
    (width : NodeRef → ℕ → ℕ) (a : NodeRef) (L : ℕ) : ℕ :=
  if nodeHeight ≤ L ∧ L < levels ∧ ctx.prevNode L = some a
  then width a L + 1 else width a L

/-- The pointers after the second loop of `insert`. -/
def linkedNext (ctx : TraverseContext) (insertNode : NodeRef) (levels : ℕ)
    (next : NodeRef → ℕ → Option NodeRef) (a : NodeRef) (L : ℕ) :
    Option NodeRef :=
  if L < levels ∧ ctx.prevNode L = some a then some insertNode
  else if L < levels ∧ a = insertNode
  then (ctx.prevNode L).bind fun p => next p L
  else next a L

/-- The widths after the second loop of `insert`. -/
def linkedWidth (ctx : TraverseContext) (insertNode : NodeRef) (levels : ℕ)
    (width : NodeRef → ℕ → ℕ) (a : NodeRef) (L : ℕ) : ℕ :=
  if L < levels ∧ ctx.prevNode L = some a
  then ctx.rank - ctx.prevRank L + 1
  else if L < levels ∧ a = insertNode
  then ((ctx.prevNode L).elim 0 fun p => width p L) -
    (ctx.rank - ctx.prevRank L)
  else width a L

/-- The predecessor on a level is a live node with a link on that level. -/
def PrevLive (h : Heap K D) (ctx : TraverseContext) (L : ℕ) (y : NodeRef) :
    Prop :=
  ctx.prevNode L = some y ∧ ∃ n, h.node y = some n ∧ L < n.height

theorem raiseWidths_spec (ndebug : Bool) (ctx : TraverseContext)
    (nodeHeight : ℕ) {levels : ℕ} {h : Heap K D}
    (hprev : ∀ L < levels, ∃ y, PrevLive h ctx L y)
    (next : NodeRef → ℕ → Option NodeRef) (width : NodeRef → ℕ → ℕ) :
    raiseWidths ndebug ctx nodeHeight levels (h.withLinks next width) =
      .ok (h.withLinks next (raisedWidth ctx nodeHeight levels width)) := by
  induction levels generalizing width with
  | zero =>
      have hsame : raisedWidth ctx nodeHeight 0 width = width := by
        funext a L
        simp [raisedWidth]
      rw [raiseWidths, hsame]
  | succ level ih =>
      by_cases hle : nodeHeight ≤ level
      · obtain ⟨y, hy, n, hn, hheight⟩ := hprev level (Nat.lt_succ_self _)
        have hn' : (h.withLinks next width).node y = some n := hn
        simp only [raiseWidths, hle, if_true, hy, Option.isSome_some,
          assert_ok_true, ok_bind, getWidth_of_node hn' hheight,
          setWidth_of_node hn' hheight, withLinks_withLinks,
          withLinks_next, withLinks_width]
        rw [ih fun L hL => hprev L (Nat.lt_succ_of_lt hL)]
        congr 2
        funext a L
        simp only [raisedWidth, setAt]
        by_cases hL : L = level
        · subst hL
          by_cases ha : a = y
          · subst ha
            simp [hy, hle]
          · have hya : y ≠ a := Ne.symm ha
            simp [hy, ha, hya]
        · have hlt : L < level + 1 ↔ L < level := by omega
          simp [hL, hlt]
      · have hsame : raisedWidth ctx nodeHeight (level + 1) width = width := by
          funext a L
          rw [raisedWidth, if_neg]
          omega
        simp [raiseWidths, hle, hsame]

/-- An array after the second loop of `insert`: on each level the predecessor
has one value, and the new node another one, which depends on what the
predecessor had before. -/
def linkedBy {α : Type} (ctx : TraverseContext) (insertNode : NodeRef)
    (front : ℕ → α) (behind : ℕ → Option α → α) (levels : ℕ)
    (array : NodeRef → ℕ → α) (a : NodeRef) (L : ℕ) : α :=
  if L < levels ∧ ctx.prevNode L = some a then front L
  else if L < levels ∧ a = insertNode
  then behind L ((ctx.prevNode L).map fun p => array p L)
  else array a L

section Round

variable {ctx : TraverseContext} {insertNode y : NodeRef} {level : ℕ}

theorem linkedNext_eq (levels : ℕ) (next : NodeRef → ℕ → Option NodeRef) :
    linkedNext ctx insertNode levels next = linkedBy ctx insertNode
      (fun _ => some insertNode) (fun _ => Option.join) levels next := by
  funext a L
  rw [linkedNext, linkedBy]
  cases ctx.prevNode L <;> rfl

theorem linkedWidth_eq (levels : ℕ) (width : NodeRef → ℕ → ℕ) :
    linkedWidth ctx insertNode levels width = linkedBy ctx insertNode
      (fun L => ctx.rank - ctx.prevRank L + 1)
      (fun L w => w.getD 0 - (ctx.rank - ctx.prevRank L)) levels width := by
  funext a L
  rw [linkedWidth, linkedBy]
  cases ctx.prevNode L <;> rfl

theorem linkedBy_succ {α : Type} (hy : ctx.prevNode level = some y)
    (hne : y ≠ insertNode) (front : ℕ → α) (behind : ℕ → Option α → α)
    (array : NodeRef → ℕ → α) :
    linkedBy ctx insertNode front behind (level + 1) array =
      linkedBy ctx insertNode front behind level
        (setAt (setAt array y level (front level)) insertNode level
          (behind level (some (array y level)))) := by
  funext a L
  simp only [linkedBy, setAt]
  by_cases hL : L = level
  · subst hL
    by_cases hay : a = y
    · subst hay
      simp [hy, hne]
    · by_cases han : a = insertNode
      · subst han
        simp [hy, Ne.symm hay]
      · simp [hy, hay, han, Ne.symm hay]
  · have hlt : L < level + 1 ↔ L < level := by omega
    simp [hL, hlt]

theorem linkedNext_succ (hy : ctx.prevNode level = some y)
    (hne : y ≠ insertNode) (next : NodeRef → ℕ → Option NodeRef) :
    linkedNext ctx insertNode (level + 1) next =
      linkedNext ctx insertNode level
        (setAt (setAt next y level (some insertNode)) insertNode level
          (next y level)) := by
  rw [linkedNext_eq, linkedNext_eq, linkedBy_succ hy hne]
  rfl

theorem linkedWidth_succ (hy : ctx.prevNode level = some y)
    (hne : y ≠ insertNode) (width : NodeRef → ℕ → ℕ) :
    linkedWidth ctx insertNode (level + 1) width =
      linkedWidth ctx insertNode level
        (setAt (setAt width y level (ctx.rank - ctx.prevRank level + 1))
          insertNode level
          (width y level - (ctx.rank - ctx.prevRank level))) := by
  rw [linkedWidth_eq, linkedWidth_eq, linkedBy_succ hy hne]
  rfl

end Round

variable [LinearOrder K]

/-- What the second loop of `insert` needs on one level. -/
structure Linkable (sl : SkipList K D) (h : Heap K D) (key : K)
    (ctx : TraverseContext) (insertNode : NodeRef)
    (next : NodeRef → ℕ → Option NodeRef) (width : NodeRef → ℕ → ℕ)
    (L : ℕ) (y : NodeRef) : Prop where
  prev : PrevLive h ctx L y
  ne : y ≠ insertNode
  above : sl.headOrAbove h key (some y) = .ok true
  below : nullOrNotAbove h key (next y L) = .ok true
  rank : ctx.prevRank L ≤ ctx.rank
  fits : width y L ≠ 0 → ctx.rank - ctx.prevRank L ≤ width y L

section Round

variable {sl : SkipList K D} {h : Heap K D} {key : K}
  {ctx : TraverseContext} {insertNode y : NodeRef} {n : SkipListNode K}
  {next next' : NodeRef → ℕ → Option NodeRef} {width width' : NodeRef → ℕ → ℕ}
  {level L : ℕ}

/-- Only the links and widths on its own level matter. -/
theorem Linkable.congr
    (hl : Linkable sl h key ctx insertNode next width L y)
    (hnext : ∀ a, next' a L = next a L)
    (hwidth : ∀ a, width' a L = width a L) :
    Linkable sl h key ctx insertNode next' width' L y where
  prev := hl.prev
  ne := hl.ne
  above := hl.above
  below := by rw [hnext]; exact hl.below
  rank := hl.rank
  fits := by rw [hwidth]; exact hl.fits

theorem linkLevels_succ (ndebug : Bool)
    (hn : h.node insertNode = some n) (hheight : level < n.height)
    (hl : Linkable sl h key ctx insertNode next width level y) :
    sl.linkLevels ndebug key ctx insertNode (level + 1)
        (h.withLinks next width) =
      sl.linkLevels ndebug key ctx insertNode level (h.withLinks
        (setAt (setAt next y level (some insertNode)) insertNode level
          (next y level))
        (setAt (setAt width y level (ctx.rank - ctx.prevRank level + 1))
          insertNode level
          (width y level - (ctx.rank - ctx.prevRank level)))) := by
  obtain ⟨hy, ny, hny, hyl⟩ := hl.prev
  have hwidth : insertWidth (width y level)
      (ctx.rank - ctx.prevRank level) =
      .ok (width y level - (ctx.rank - ctx.prevRank level)) := by
    by_cases h0 : width y level = 0
    · simp [h0, insertWidth]
    · simp [h0, insertWidth, subtract_of_le (hl.fits h0)]
  have hn' : ∀ nx w, (h.withLinks nx w).node insertNode = some n :=
    fun _ _ => hn
  have hny' : ∀ nx w, (h.withLinks nx w).node y = some ny :=
    fun _ _ => hny
  have habove : sl.headOrAbove (h.withLinks next width) key (some y) =
      .ok true := hl.above
  have hbelow : nullOrNotAbove (h.withLinks next width) key
      (next y level) = .ok true := hl.below
  simp only [linkLevels, hy, getNext_of_node (hny' _ _) hyl, ok_bind,
    habove, withLinks_next, hbelow, assert_ok_true,
    subtract_of_le hl.rank, getWidth_of_node (hny' _ _) hyl,
    withLinks_width, hwidth, setNext_of_node (hny' _ _) hyl,
    setWidth_of_node (hny' _ _) hyl, withLinks_withLinks,
    setNext_of_node (hn' _ _) hheight, setWidth_of_node (hn' _ _) hheight]

end Round

/-- The second loop of `insert`, by induction on the levels left. -/
theorem linkLevels_spec (sl : SkipList K D) (ndebug : Bool) (key : K)
    (ctx : TraverseContext) {insertNode : NodeRef} {n : SkipListNode K}
    {levels : ℕ} {h : Heap K D} (hn : h.node insertNode = some n)
    (hheight : levels ≤ n.height)
    (next : NodeRef → ℕ → Option NodeRef) (width : NodeRef → ℕ → ℕ)
    (hlink : ∀ L < levels,
      ∃ y, Linkable sl h key ctx insertNode next width L y) :
    sl.linkLevels ndebug key ctx insertNode levels (h.withLinks next width) =
      .ok (h.withLinks (linkedNext ctx insertNode levels next)
        (linkedWidth ctx insertNode levels width)) := by
  induction levels generalizing next width with
  | zero =>
      have hnext : linkedNext ctx insertNode 0 next = next := by
        funext a L
        simp [linkedNext]
      have hwidth : linkedWidth ctx insertNode 0 width = width := by
        funext a L
        simp [linkedWidth]
      rw [linkLevels, hnext, hwidth]
  | succ level ih =>
      obtain ⟨y, hl⟩ := hlink level (Nat.lt_succ_self _)
      rw [linkLevels_succ ndebug hn hheight hl,
        linkedNext_succ hl.prev.1 hl.ne, linkedWidth_succ hl.prev.1 hl.ne]
      apply ih
      · omega
      · intro L hL
        obtain ⟨z, hz⟩ := hlink L (Nat.lt_succ_of_lt hL)
        have hne : L ≠ level := by omega
        exact ⟨z, hz.congr (fun _ => by simp [setAt, hne])
          fun _ => by simp [setAt, hne]⟩

end SkipList

/-! ## Threading the sequence again -/

theorem ref_ne_of_split {p s : List (Entry K)} {x y : Entry K}
    (hdistinct : ((p ++ x :: s).map Entry.ref).Nodup) (hy : y ∈ s) :
    y.ref ≠ x.ref := by
  rw [List.map_append, List.map_cons, List.nodup_append] at hdistinct
  have hx := (List.nodup_cons.mp hdistinct.2.1).1
  intro heq
  exact hx (heq ▸ List.mem_map_of_mem hy)

theorem ref_ne_of_append {xs hi : List (Entry K)} {x y : Entry K}
    (hdistinct : ((xs ++ hi).map Entry.ref).Nodup) (hx : x ∈ xs)
    (hy : y ∈ hi) : x.ref ≠ y.ref := by
  rw [List.map_append, List.nodup_append] at hdistinct
  exact hdistinct.2.2 _ (List.mem_map_of_mem hx) _ (List.mem_map_of_mem hy)

theorem SkipList.Locates.prev_mem {ctx : TraverseContext}
    {xs : List (Entry K)} {levels L : ℕ}
    (hloc : SkipList.Locates ctx xs levels) (hL : L < levels) :
    ∃ y ∈ xs, L < y.tower ∧ ctx.prevNode L = some y.ref := by
  obtain ⟨i, y, hlast, hprev, -⟩ := hloc L hL
  obtain ⟨p, q, rfl, -, hy, -⟩ := Tower.lastAt_split_inv hlast
  exact ⟨y, by simp, hy, hprev⟩

theorem SkipList.Locates.prev_ne_of_mem {ctx : TraverseContext}
    {xs hi : List (Entry K)} {levels L : ℕ}
    (hloc : SkipList.Locates ctx xs levels)
    (hdistinct : ((xs ++ hi).map Entry.ref).Nodup) {x : Entry K}
    (hx : x ∈ hi) (hL : L < levels) : ctx.prevNode L ≠ some x.ref := by
  obtain ⟨y, hy, -, hprev⟩ := hloc.prev_mem hL
  rw [hprev]
  intro heq
  exact ref_ne_of_append hdistinct hy hx (Option.some.inj heq)

theorem SkipList.Locates.prev_ne_of_le {ctx : TraverseContext}
    {xs hi : List (Entry K)} {levels L : ℕ}
    (hloc : SkipList.Locates ctx xs levels)
    (hdistinct : ((xs ++ hi).map Entry.ref).Nodup) {x : Entry K}
    (hx : x ∈ xs) (hle : x.tower ≤ L) (hL : L < levels) :
    ctx.prevNode L ≠ some x.ref := by
  obtain ⟨y, hy, hyL, hprev⟩ := hloc.prev_mem hL
  rw [hprev]
  intro heq
  have hyx : y = x := List.inj_on_of_nodup_map hdistinct
    (List.mem_append_left _ hy) (List.mem_append_left _ hx)
    (Option.some.inj heq)
  subst hyx
  omega

/-- On one of its levels an entry of `xs` is the predecessor unless another
one of the level comes later. -/
theorem SkipList.Locates.prev_cases {ctx : TraverseContext}
    {xs hi p s : List (Entry K)} {x : Entry K} {levels L : ℕ}
    (hloc : SkipList.Locates ctx xs levels)
    (hdistinct : ((xs ++ hi).map Entry.ref).Nodup)
    (hsplit : xs = p ++ x :: s) (hx : L < x.tower) (hL : L < levels) :
    ((∃ z ∈ s, L < z.tower) ∧ ctx.prevNode L ≠ some x.ref) ∨
      ((∀ z ∈ s, z.tower ≤ L) ∧ ctx.prevNode L = some x.ref ∧
        ctx.prevRank L = p.length) := by
  obtain ⟨i, y, hlast, hprev, hrank⟩ := hloc L hL
  subst hsplit
  by_cases hs : ∃ z ∈ s, L < z.tower
  · left
    refine ⟨hs, ?_⟩
    obtain ⟨j, z, hlast', hz⟩ :=
      Tower.lastAt_append_of_exists (p ++ [x]) hs
    rw [List.append_assoc, List.singleton_append, hlast] at hlast'
    obtain ⟨-, rfl⟩ := Prod.mk.inj (Option.some.inj hlast')
    rw [List.append_assoc, List.cons_append] at hdistinct
    rw [hprev]
    intro heq
    exact ref_ne_of_split hdistinct (List.mem_append_left _ hz)
      (Option.some.inj heq)
  · right
    have hlow : ∀ z ∈ s, z.tower ≤ L := by
      intro z hz
      by_contra hlt
      exact hs ⟨z, hz, Nat.lt_of_not_le hlt⟩
    rw [Tower.lastAt_split hx hlow, Option.some.injEq,
      Prod.mk.injEq] at hlast
    obtain ⟨rfl, rfl⟩ := hlast
    exact ⟨hlow, hprev, hrank⟩

section Insert

open SkipList

variable {h h' : Heap K D} {ctx : TraverseContext} {xs hi : List (Entry K)}
  {e : Entry K} {levels : ℕ}

/-- The memory after `insert` has linked the entry `e` between `xs` and
`hi`. -/
structure Inserted (h h' : Heap K D) (ctx : TraverseContext)
    (xs hi : List (Entry K)) (e : Entry K) (levels : ℕ) : Prop where
  threaded : Threaded h (xs ++ hi)
  distinct : ((xs ++ hi).map Entry.ref).Nodup
  fresh : ∀ x ∈ xs ++ hi, x.ref ≠ e.ref
  locates : Locates ctx xs levels
  rank : ctx.rank + 1 = xs.length
  towers : ∀ x ∈ xs, x.tower ≤ levels
  tower : e.tower ≤ levels
  height : e.node.height = e.tower
  node : ∀ x ∈ xs ++ hi, h'.node x.ref = h.node x.ref
  newNode : h'.node e.ref = some e.node
  links : ∃ next width,
    (∀ x ∈ xs ++ hi, next x.ref = h.next x.ref) ∧
    (∀ x ∈ xs ++ hi, width x.ref = h.width x.ref) ∧
    h'.next = linkedNext ctx e.ref e.tower next ∧
    h'.width = linkedWidth ctx e.ref e.tower
      (raisedWidth ctx e.tower levels width)

namespace Inserted

theorem links_of_ne (hins : Inserted h h' ctx xs hi e levels) {x : Entry K}
    (hx : x ∈ xs ++ hi) {L : ℕ}
    (hne : L < levels → ctx.prevNode L ≠ some x.ref) :
    h'.next x.ref L = h.next x.ref L ∧
      h'.width x.ref L = h.width x.ref L := by
  obtain ⟨next, width, hnext, hwidth, hn, hw⟩ := hins.links
  have hfresh := hins.fresh x hx
  have hlow : ¬(L < e.tower ∧ ctx.prevNode L = some x.ref) :=
    fun hand => hne (lt_of_lt_of_le hand.1 hins.tower) hand.2
  have hhigh : ¬(e.tower ≤ L ∧ L < levels ∧ ctx.prevNode L = some x.ref) :=
    fun hand => hne hand.2.1 hand.2.2
  rw [hn, hw]
  simp only [linkedNext, linkedWidth, raisedWidth, hlow, hhigh, hfresh,
    and_false, if_false, hnext x hx, hwidth x hx, and_self]

theorem links_of_lt (hins : Inserted h h' ctx xs hi e levels) {x : Entry K}
    {L : ℕ} (hprev : ctx.prevNode L = some x.ref) (hL : L < e.tower) :
    h'.next x.ref L = some e.ref ∧
      h'.width x.ref L = ctx.rank - ctx.prevRank L + 1 := by
  obtain ⟨next, width, -, -, hn, hw⟩ := hins.links
  rw [hn, hw]
  simp [linkedNext, linkedWidth, hprev, hL]

theorem links_of_le (hins : Inserted h h' ctx xs hi e levels) {x : Entry K}
    (hx : x ∈ xs ++ hi) {L : ℕ} (hprev : ctx.prevNode L = some x.ref)
    (hL : e.tower ≤ L) (hlevel : L < levels) :
    h'.next x.ref L = h.next x.ref L ∧
      h'.width x.ref L = h.width x.ref L + 1 := by
  obtain ⟨next, width, hnext, hwidth, hn, hw⟩ := hins.links
  have hnot : ¬L < e.tower := by omega
  rw [hn, hw]
  simp [linkedNext, linkedWidth, raisedWidth, hprev, hnot, hL, hlevel,
    hnext x hx, hwidth x hx]

theorem threaded_hi (hins : Inserted h h' ctx xs hi e levels) :
    Threaded h' hi := by
  refine hins.threaded.tail.congr ?_ ?_ ?_
  · intro x hx
    exact hins.node x (List.mem_append_right _ hx)
  · intro x hx
    funext L
    exact (hins.links_of_ne (List.mem_append_right _ hx)
      fun hL => hins.locates.prev_ne_of_mem hins.distinct hx hL).1
  · intro x hx
    funext L
    exact (hins.links_of_ne (List.mem_append_right _ hx)
      fun hL => hins.locates.prev_ne_of_mem hins.distinct hx hL).2

theorem links_new (hins : Inserted h h' ctx xs hi e levels) {L : ℕ}
    (hL : L < e.tower) :
    h'.next e.ref L = (Tower.nextAt Entry.tower L hi).map Entry.ref ∧
      h'.width e.ref L = Tower.gap Entry.tower L hi := by
  have hlevel : L < levels := lt_of_lt_of_le hL hins.tower
  obtain ⟨i, y, hlast, hprev, hrank⟩ := hins.locates L hlevel
  obtain ⟨p, q, hsplit, rfl, hy, hq⟩ := Tower.lastAt_split_inv hlast
  have hmem : y ∈ xs ++ hi := by simp [hsplit]
  have hne : y.ref ≠ e.ref := hins.fresh y hmem
  have hly : Linked h y (q ++ hi) := by
    have ht := hins.threaded
    rw [hsplit, List.append_assoc] at ht
    exact ht.linked
  have hlen : ctx.rank - ctx.prevRank L = q.length := by
    have := hins.rank
    rw [hsplit, List.length_append, List.length_cons] at this
    omega
  obtain ⟨next, width, hnext, hwidth, hn, hw⟩ := hins.links
  have hnot : ¬e.tower ≤ L := by omega
  constructor
  · rw [hn]
    simp only [linkedNext, hL, hprev, Option.some.injEq, hne, and_false,
      if_false, and_self, if_true, Option.bind_some, hnext y hmem]
    rw [hly.next L hy, Tower.nextAt_append_of_le hq]
  · rw [hw]
    simp only [linkedWidth, raisedWidth, hL, hprev, Option.some.injEq, hne,
      and_false, if_false, and_self, if_true, Option.elim_some, hnot,
      false_and, hwidth y hmem, hlen]
    rw [hly.width L hy, Tower.gap_append_of_le hq]
    omega

theorem linked_new (hins : Inserted h h' ctx xs hi e levels) :
    Linked h' e hi where
  live := hins.newNode
  tower_le := hins.height.ge
  next := fun _ hL => (hins.links_new hL).1
  width := fun _ hL => (hins.links_new hL).2
  above := by
    intro L hle hlt
    rw [hins.height] at hlt
    omega

/-- On a level of an entry in front of the cut, the new entry only matters
when no other entry comes before it. -/
theorem links_front (hins : Inserted h h' ctx xs hi e levels)
    {p s : List (Entry K)} {x : Entry K} (hsplit : xs = p ++ x :: s)
    {L : ℕ} (hL : L < x.tower) :
    h'.next x.ref L =
        (Tower.nextAt Entry.tower L (s ++ e :: hi)).map Entry.ref ∧
      h'.width x.ref L = Tower.gap Entry.tower L (s ++ e :: hi) := by
  have hx : x ∈ xs := by simp [hsplit]
  have hmem : x ∈ xs ++ hi := List.mem_append_left _ hx
  have hlevel : L < levels := lt_of_lt_of_le hL (hins.towers x hx)
  have hlx : Linked h x (s ++ hi) := by
    have ht := hins.threaded
    rw [hsplit, List.append_assoc] at ht
    exact ht.linked
  rcases hins.locates.prev_cases hins.distinct hsplit hL hlevel with
    ⟨hs, hne⟩ | ⟨hlow, hprev, hrank⟩
  · -- a later entry of the level hides the new one
    obtain ⟨hn, hw⟩ := hins.links_of_ne hmem fun _ => hne
    rw [hn, hw, hlx.next L hL, hlx.width L hL]
    simp only [Tower.nextAt_append_of_exists hs,
      Tower.gap_append_of_exists hs, and_self]
  · -- the entry is the last one of the level in front of the cut
    by_cases he : L < e.tower
    · have hlen : ctx.rank - ctx.prevRank L = s.length := by
        have := hins.rank
        rw [hsplit, List.length_append, List.length_cons] at this
        omega
      obtain ⟨hn, hw⟩ := hins.links_of_lt hprev he
      rw [hn, hw, hlen, Tower.nextAt_split hlow he,
        Tower.gap_split hlow he]
      exact ⟨rfl, rfl⟩
    · have hle : e.tower ≤ L := Nat.le_of_not_lt he
      obtain ⟨hn, hw⟩ := hins.links_of_le hmem hprev hle hlevel
      rw [hn, hw, hlx.next L hL, hlx.width L hL]
      simp only [Tower.nextAt_append_of_le hlow,
        Tower.gap_append_of_le hlow, Tower.nextAt_cons_of_le hle,
        Tower.gap_cons_of_le hle, true_and]
      omega

theorem linked_front (hins : Inserted h h' ctx xs hi e levels)
    {p s : List (Entry K)} {x : Entry K} (hsplit : xs = p ++ x :: s) :
    Linked h' x (s ++ e :: hi) := by
  have hx : x ∈ xs := by simp [hsplit]
  have hmem : x ∈ xs ++ hi := List.mem_append_left _ hx
  obtain ⟨rest, hlx⟩ := hins.threaded.linked_of_mem hmem
  refine ⟨(hins.node x hmem).trans hlx.live, hlx.tower_le,
    fun L hL => (hins.links_front hsplit hL).1,
    fun L hL => (hins.links_front hsplit hL).2, ?_⟩
  intro L hle hlt
  have hne : L < levels → ctx.prevNode L ≠ some x.ref :=
    hins.locates.prev_ne_of_le hins.distinct hx hle
  rw [(hins.links_of_ne hmem hne).1]
  exact hlx.above L hle hlt

theorem threaded_insert (hins : Inserted h h' ctx xs hi e levels) :
    Threaded h' (xs ++ e :: hi) := by
  suffices hsuffix : ∀ s p, xs = p ++ s → Threaded h' (s ++ e :: hi) from
    hsuffix xs [] rfl
  intro s
  induction s with
  | nil => exact fun _ _ => ⟨hins.linked_new, hins.threaded_hi⟩
  | cons x s ih =>
      intro p hsplit
      exact ⟨hins.linked_front hsplit, ih (p ++ [x]) (by simp [hsplit])⟩

end Inserted

end Insert

/-! ## The height of a new node -/

namespace SkipList

theorem generateNodeHeightFrom_bounds (draw : ℕ → ℕ)
    (remaining nodeHeight : ℕ) :
    nodeHeight ≤ generateNodeHeightFrom draw remaining nodeHeight ∧
      generateNodeHeightFrom draw remaining nodeHeight ≤
        nodeHeight + remaining := by
  induction remaining generalizing nodeHeight with
  | zero => simp [generateNodeHeightFrom]
  | succ remaining ih =>
      rw [generateNodeHeightFrom]
      split
      · omega
      · have := ih (nodeHeight + 1)
        omega

theorem chosenHeight_bounds {maxNodeHeight nodeHeight : ℕ}
    (draw : ℕ → ℕ) (hmax : 0 < maxNodeHeight)
    (hle : nodeHeight ≤ maxNodeHeight) :
    0 < chosenHeight maxNodeHeight nodeHeight draw ∧
      chosenHeight maxNodeHeight nodeHeight draw ≤ maxNodeHeight := by
  rw [chosenHeight]
  split
  · have := generateNodeHeightFrom_bounds draw (maxNodeHeight - 1) 1
    rw [generateNodeHeight]
    omega
  · omega

end SkipList

/-! ## Calls of `insert` -/

section Call

open SkipList

variable [LinearOrder K] {sl : SkipList K D} {head : Entry K}
  {lo hi : List (Entry K)} {key : K}

/-- The memory after `insert` has allocated the new node and its row. -/
def allocatedHeap (h : Heap K D) (key : K) (height : ℕ) (data : Option D)
    (size : ℕ) : Heap K D :=
  { h with
    node := Function.update h.node h.nodeCount
      (some ⟨key, some h.rowInfoCount, height⟩)
    next := Function.update h.next h.nodeCount fun _ => none
    width := Function.update h.width h.nodeCount fun _ => 0
    nodeCount := h.nodeCount + 1
    rowInfo := Function.update h.rowInfo h.rowInfoCount
      (some ⟨.none, none, data, size⟩)
    rowInfoCount := h.rowInfoCount + 1 }

/-- The entry of the new node. -/
def newEntry (h : Heap K D) (key : K) (height : ℕ) : Entry K :=
  ⟨h.nodeCount, ⟨key, some h.rowInfoCount, height⟩, height⟩

omit [LinearOrder K] in
theorem setRowInfo_newRowInfo (h : Heap K D) (key : K) (height : ℕ)
    (data : Option D) (size : ℕ) :
    ((newNodeHeap h key height).newRowInfo .none data size).2.setRowInfo
        (some h.nodeCount)
        (some ((newNodeHeap h key height).newRowInfo .none data size).1) =
      .ok (allocatedHeap h key height data size) := by
  simp [newNodeHeap, newRowInfo, setRowInfo, load, allocatedHeap]

omit [LinearOrder K] in
theorem newEntry_live (h : Heap K D) (key : K) (height : ℕ)
    (data : Option D) (size : ℕ) :
    (allocatedHeap h key height data size).node h.nodeCount =
      some (newEntry h key height).node := by
  simp [allocatedHeap, newEntry]

theorem nullOrNotAbove_nextAt {h : Heap K D} {L : ℕ} (ht : Threaded h hi)
    (hhi : ∀ e ∈ hi, key ≤ e.key) :
    nullOrNotAbove h key ((Tower.nextAt Entry.tower L hi).map Entry.ref) =
      .ok true := by
  rcases hw : Tower.nextAt Entry.tower L hi with _ | w
  · rfl
  · have hmem : w ∈ hi := List.mem_of_find?_eq_some hw
    rw [Option.map_some, nullOrNotAbove_of_live (ht.live hmem)]
    simp [hhi w hmem]

theorem headOrAbove_prev {h : Heap K D} {y : Entry K}
    (hhead : sl.head = some head.ref) (hlo : ∀ e ∈ lo, e.key < key)
    (hlive : h.node y.ref = some y.node) (hy : y ∈ head :: lo) :
    sl.headOrAbove h key (some y.ref) = .ok true := by
  rw [headOrAbove]
  split
  · rfl
  · next hne =>
    rcases List.mem_cons.mp hy with rfl | hmem
    · exact absurd hhead.symm hne
    · simp [getKey_of_node hlive, hlo y hmem]

/-- The memory after `insert` has linked the new node. -/
def insertedHeap (h : Heap K D) (ctx : TraverseContext) (levels : ℕ)
    (key : K) (height : ℕ) (data : Option D) (size : ℕ) : Heap K D :=
  let h' := allocatedHeap h key height data size
  h'.withLinks (linkedNext ctx h.nodeCount height h'.next)
    (linkedWidth ctx h.nodeCount height
      (raisedWidth ctx height levels h'.width))

namespace WellFormed

section

variable (wf : WellFormed sl head (lo ++ hi))
  (hlo : ∀ e ∈ lo, e.key < key) (hhi : ∀ e ∈ hi, key ≤ e.key)
  {ctx : TraverseContext} (hrank : ctx.rank = lo.length)
  (hloc : Locates ctx (head :: lo) sl.maxNodeHeight)
  {height : ℕ} (hmax : height ≤ sl.maxNodeHeight)
  (data : Option D) (size : ℕ)

include wf

theorem ne_nodeCount {x : Entry K} (hx : x ∈ head :: (lo ++ hi)) :
    x.ref ≠ sl.heap.nodeCount :=
  (wf.ref_lt hx).ne

theorem allocatedHeap_threaded (key : K) (height : ℕ) :
    Threaded (allocatedHeap sl.heap key height data size)
      (head :: (lo ++ hi)) := by
  refine wf.threaded.congr ?_ ?_ ?_
  · intro x hx
    simp [allocatedHeap, wf.ne_nodeCount hx]
  · intro x hx
    simp [allocatedHeap, wf.ne_nodeCount hx]
  · intro x hx
    simp [allocatedHeap, wf.ne_nodeCount hx]

theorem distinct_inserted (key : K) (height : ℕ) :
    ((head :: (lo ++ newEntry sl.heap key height :: hi)).map
      Entry.ref).Nodup := by
  have hperm : (head :: (lo ++ newEntry sl.heap key height :: hi)).Perm
      (newEntry sl.heap key height :: head :: (lo ++ hi)) :=
    (List.perm_middle.cons _).trans (List.Perm.swap _ _ _)
  rw [(hperm.map Entry.ref).nodup_iff, List.map_cons, List.nodup_cons]
  refine ⟨fun hin => ?_, wf.distinct⟩
  obtain ⟨x, hx, heq⟩ := List.mem_map.mp hin
  exact wf.ne_nodeCount hx heq

theorem owned_inserted (ctx : TraverseContext) (key : K) (height : ℕ)
    {a : NodeRef} {n : SkipListNode K}
    (hn : (insertedHeap sl.heap ctx sl.maxNodeHeight key height data
      size).node a = some n) :
    a ∈ (head :: (lo ++ newEntry sl.heap key height :: hi)).map
      Entry.ref := by
  by_cases ha : a = sl.heap.nodeCount
  · subst ha
    exact List.mem_map.mpr ⟨newEntry sl.heap key height, by simp, rfl⟩
  · simp only [insertedHeap, allocatedHeap, withLinks_node,
      Function.update_of_ne ha] at hn
    obtain ⟨x, hx, rfl⟩ := List.mem_map.mp (wf.owned a n hn)
    apply List.mem_map_of_mem
    simp only [List.mem_cons, List.mem_append] at hx ⊢
    tauto

/-- The new entry has the new row, and the others keep theirs. -/
theorem rowsOwned_inserted (ctx : TraverseContext) (key : K) (height : ℕ) :
    RowsOwned
      (insertedHeap sl.heap ctx sl.maxNodeHeight key height data size)
      (lo ++ newEntry sl.heap key height :: hi) := by
  have hperm : (lo ++ newEntry sl.heap key height :: hi).Perm
      (newEntry sl.heap key height :: (lo ++ hi)) := List.perm_middle
  constructor
  case live =>
    intro x hx
    rcases List.mem_cons.mp (hperm.mem_iff.mp hx) with rfl | hx
    · exact ⟨⟨.none, none, data, size⟩, by
        simp [Heap.rowOf, insertedHeap, allocatedHeap, newEntry], rfl⟩
    · obtain ⟨r, info, hr, hinfo, hnext⟩ := wf.rows.exists_row hx
      have hne : r ≠ sl.heap.rowInfoCount := by
        rintro rfl
        exact wf.rows.ne_rowInfoCount hx hr
      exact ⟨info, by
        simp [Heap.rowOf, hr, insertedHeap, allocatedHeap, hne, hinfo],
        hnext⟩
  case distinct =>
    rw [(hperm.map fun e : Entry K => e.node.rowInfo).nodup_iff,
      List.map_cons, List.nodup_cons]
    refine ⟨fun hin => ?_, wf.rows.distinct⟩
    obtain ⟨x, hx, heq⟩ := List.mem_map.mp hin
    exact wf.rows.ne_rowInfoCount hx heq
  case allocated =>
    intro r hr
    simp only [insertedHeap, allocatedHeap, withLinks_rowInfoCount,
      withLinks_rowInfo] at hr ⊢
    have hne : r ≠ sl.heap.rowInfoCount := by omega
    rw [Function.update_of_ne hne]
    exact wf.rows.allocated r (by omega)
  case owned =>
    intro r info hr
    by_cases hnew : r = sl.heap.rowInfoCount
    · subst hnew
      exact List.mem_map.mpr ⟨newEntry sl.heap key height, by simp, rfl⟩
    · simp only [insertedHeap, allocatedHeap, withLinks_rowInfo,
        Function.update_of_ne hnew] at hr
      obtain ⟨x, hx, heq⟩ := List.mem_map.mp (wf.rows.owned r info hr)
      exact List.mem_map.mpr
        ⟨x, hperm.mem_iff.mpr (List.mem_cons_of_mem _ hx), heq⟩

include hrank hloc hmax

/-- The memory `insert` produces relates to the one before as described by
`Inserted`. -/
theorem inserted (key : K) :
    Inserted sl.heap
      (insertedHeap sl.heap ctx sl.maxNodeHeight key height data size) ctx
      (head :: lo) hi (newEntry sl.heap key height) sl.maxNodeHeight where
  threaded := wf.threaded
  distinct := wf.distinct
  fresh := fun _ hx => wf.ne_nodeCount hx
  locates := hloc
  rank := by rw [hrank, List.length_cons]
  towers := by
    intro x hx
    rcases List.mem_cons.mp hx with rfl | hx
    · exact wf.headTower.le
    · have hmem : x ∈ lo ++ hi := List.mem_append_left _ hx
      have hlx := (wf.threaded.linked_of_mem
        (List.mem_cons_of_mem _ hmem)).choose_spec
      exact hlx.tower_le.trans (wf.towers x hmem).2
  tower := hmax
  height := rfl
  node := by
    intro x hx
    have hne := wf.ne_nodeCount hx
    simp [insertedHeap, allocatedHeap, hne]
  newNode := newEntry_live sl.heap key height data size
  links := by
    refine ⟨_, _, ?_, ?_, rfl, rfl⟩
    · intro x hx
      simp [allocatedHeap, wf.ne_nodeCount hx]
    · intro x hx
      simp [allocatedHeap, wf.ne_nodeCount hx]

include hlo hhi

theorem linkable {L : ℕ} (hL : L < height) :
    ∃ y, Linkable sl (allocatedHeap sl.heap key height data size) key ctx
      sl.heap.nodeCount
      (allocatedHeap sl.heap key height data size).next
      (raisedWidth ctx height sl.maxNodeHeight
        (allocatedHeap sl.heap key height data size).width) L y := by
  have hlevel : L < sl.maxNodeHeight := lt_of_lt_of_le hL hmax
  obtain ⟨i, y, hlast, hprev, hprank⟩ := hloc L hlevel
  obtain ⟨p, q, hsplit, rfl, hy, hq⟩ := Tower.lastAt_split_inv hlast
  have hlen := length_of_split hsplit
  have ht := wf.allocatedHeap_threaded data size key height
  have hmem : y ∈ head :: lo := by simp [hsplit]
  have hly : Linked (allocatedHeap sl.heap key height data size) y
      (q ++ hi) := by
    have ht' := ht
    rw [← List.cons_append, hsplit, List.append_assoc] at ht'
    exact ht'.linked
  have hnot : ¬height ≤ L := by omega
  refine ⟨y.ref, ⟨⟨hprev, y.node, hly.live, ?_⟩, ?_, ?_, ?_, ?_, ?_⟩⟩
  · exact lt_of_lt_of_le hy hly.tower_le
  · exact wf.ne_nodeCount (List.mem_append_left hi hmem)
  · exact headOrAbove_prev wf.headRef hlo hly.live hmem
  · rw [hly.next L hy, Tower.nextAt_append_of_le hq]
    exact nullOrNotAbove_nextAt (Threaded.tail (s := head :: lo) ht) hhi
  · omega
  · intro _
    simp only [raisedWidth, hnot, false_and, if_false]
    rw [hly.width L hy, Tower.gap_append_of_le hq]
    omega

theorem insert_levels (ndebug : Bool) :
    (do
      let h ← raiseWidths ndebug ctx height sl.maxNodeHeight
        (allocatedHeap sl.heap key height data size)
      sl.linkLevels ndebug key ctx sl.heap.nodeCount height h) =
      .ok (insertedHeap sl.heap ctx sl.maxNodeHeight key height data size) := by
  have hlive : ∀ L < sl.maxNodeHeight, ∃ y,
      PrevLive (allocatedHeap sl.heap key height data size) ctx L y := by
    intro L hL
    obtain ⟨y, hy, hyL, hprev⟩ := hloc.prev_mem hL
    have hmem : y ∈ head :: (lo ++ hi) := List.mem_append_left hi hy
    obtain ⟨rest, hly⟩ :=
      (wf.allocatedHeap_threaded data size key height).linked_of_mem hmem
    exact ⟨y.ref, hprev, y.node, hly.live, lt_of_lt_of_le hyL hly.tower_le⟩
  have hraise := raiseWidths_spec ndebug ctx height hlive
    (allocatedHeap sl.heap key height data size).next
    (allocatedHeap sl.heap key height data size).width
  rw [withLinks_self] at hraise
  rw [hraise, ok_bind]
  exact linkLevels_spec sl ndebug key ctx
    (newEntry_live sl.heap key height data size) le_rfl _ _
    fun L hL => wf.linkable hlo hhi hrank hloc hmax data size hL

omit hrank hloc hmax in
theorem sorted_inserted (height : ℕ) :
    (lo ++ newEntry sl.heap key height :: hi).Pairwise
      fun a b => a.key ≤ b.key := by
  have hsorted := List.pairwise_append.mp wf.sorted
  refine List.pairwise_append.mpr ⟨hsorted.1,
    List.pairwise_cons.mpr ⟨hhi, hsorted.2.1⟩, ?_⟩
  intro a ha b hb
  rcases List.mem_cons.mp hb with rfl | hb
  · exact (hlo a ha).le
  · exact hsorted.2.2 a ha b hb

/-- The sequence with the new entry describes the list after the call. -/
theorem insertedList_wellFormed (hpos : 0 < height) :
    WellFormed
      { sl with
        size := sl.size + 1
        heap := insertedHeap sl.heap ctx sl.maxNodeHeight key height data
          size }
      head (lo ++ newEntry sl.heap key height :: hi) where
  ready := wf.ready
  headRef := wf.headRef
  headTower := wf.headTower
  headHeight := wf.headHeight
  headRow := wf.headRow
  levels := wf.levels
  threaded := (wf.inserted hrank hloc hmax data size key).threaded_insert
  distinct := wf.distinct_inserted key height
  towers := by
    intro x hx
    rcases List.mem_cons.mp (List.perm_middle.mem_iff.mp hx) with rfl | hx
    · exact ⟨hpos, hmax⟩
    · exact wf.towers x hx
  sorted := wf.sorted_inserted hlo hhi height
  allocated := by
    intro a ha
    have hne : a ≠ sl.heap.nodeCount := by
      simp only [insertedHeap, allocatedHeap, withLinks_nodeCount] at ha
      omega
    simp only [insertedHeap, allocatedHeap, withLinks_nodeCount,
      withLinks_node, Function.update_of_ne hne] at ha ⊢
    exact wf.allocated a (by omega)
  owned _ _ hn := wf.owned_inserted data size ctx key height hn
  rows := wf.rowsOwned_inserted data size ctx key height
  size := by
    have hsize := wf.size
    simp only [List.length_append, List.length_cons] at hsize ⊢
    omega

end

section

variable (wf : WellFormed sl head (lo ++ hi))
  (hlo : ∀ e ∈ lo, e.key < key) (hhi : ∀ e ∈ hi, key ≤ e.key)

include wf hlo hhi

/-- A call of `insert` that adds an entry: it goes in front of the entries
that are not below the key. -/
theorem insert_spec (ndebug : Bool) (data : Option D) (size : ℕ)
    {nodeHeight : ℕ} (hheight : nodeHeight ≤ sl.maxNodeHeight)
    (draw : ℕ → ℕ)
    (hunique : sl.primaryIndex = true → ∀ e ∈ hi, key ≠ e.key) :
    ∃ sl', (∀ transaction : Option Transaction,
        sl.insert ndebug key data size nodeHeight draw transaction =
          .ok (.returned (true, transaction.map fun t =>
            t.addAffectedRow sl.heap.nodeCount sl.heap.rowInfoCount) sl')) ∧
      WellFormed sl' head (lo ++ newEntry sl.heap key
        (chosenHeight sl.maxNodeHeight nodeHeight draw) :: hi) ∧
      sl'.primaryIndex = sl.primaryIndex ∧
      sl'.maxNodeHeight = sl.maxNodeHeight ∧
      sl'.heap.rowInfo = Function.update sl.heap.rowInfo
        sl.heap.rowInfoCount (some ⟨.none, none, data, size⟩) ∧
      sl'.heap.freed = sl.heap.freed ∧
      sl'.heap.nodeCount = sl.heap.nodeCount + 1 := by
  obtain ⟨ctx, htraverse, hrank, hloc⟩ :=
    wf.traversePrevNodes_spec hlo hhi ndebug false
  obtain ⟨hpos, hmax⟩ := chosenHeight_bounds draw wf.levels hheight
  have hlevels := wf.insert_levels hlo hhi hrank hloc hmax data size ndebug
  refine ⟨_, fun transaction => ?_, wf.insertedList_wellFormed hlo hhi hrank
    hloc hmax data size hpos, rfl, rfl, rfl, rfl, rfl⟩
  have hdup : (sl.primaryIndex && decide (∃ e ∈ hi, key = e.key)) =
      false := by
    rw [Bool.and_eq_false_imp]
    intro hprimary
    rw [decide_eq_false_iff_not]
    rintro ⟨e, he, hkey⟩
    exact hunique hprimary e he hkey
  have hnot : ¬nodeHeight > sl.maxNodeHeight := by omega
  have hnew := newNode_of_pos sl.heap ndebug key hpos
  obtain ⟨h, hraise, hlink⟩ := bind_eq_ok.mp hlevels
  simp only [SkipList.insert, wf.ready, Bool.true_eq_false, if_false, hnot,
    htraverse, ok_bind, Bool.false_or, hdup, Bool.false_eq_true, hnew,
    setRowInfo_newRowInfo, hraise, hlink, pure_eq_ok]
  rfl

theorem insert_duplicate (ndebug : Bool) (data : Option D) (size : ℕ)
    {nodeHeight : ℕ} (hheight : nodeHeight ≤ sl.maxNodeHeight)
    (draw : ℕ → ℕ) (transaction : Option Transaction)
    (hprimary : sl.primaryIndex = true) (hex : ∃ e ∈ hi, key = e.key) :
    sl.insert ndebug key data size nodeHeight draw transaction =
      .ok (.returned (false, transaction) sl) := by
  obtain ⟨ctx, htraverse, -, -⟩ :=
    wf.traversePrevNodes_spec hlo hhi ndebug false
  have hnot : ¬nodeHeight > sl.maxNodeHeight := by omega
  simp [SkipList.insert, wf.ready, hnot, htraverse, hprimary, hex]

end

/-- A call of `insert` with a height above the maximum throws. -/
theorem insert_too_high {spine : List (Entry K)}
    (wf : WellFormed sl head spine) (ndebug : Bool) (key : K)
    (data : Option D) (size : ℕ) {nodeHeight : ℕ}
    (hheight : sl.maxNodeHeight < nodeHeight) (draw : ℕ → ℕ)
    (transaction : Option Transaction) :
    sl.insert ndebug key data size nodeHeight draw transaction =
      .ok (.thrown "SkipList<K>::insert nodeHeight > maxNodeHeight" sl) := by
  simp [SkipList.insert, wf.ready, hheight]

end WellFormed

namespace PrimaryWellFormed

/-- On a primary list the key is new and the new node is linked on all its
levels. -/
theorem insert_spec (wf : PrimaryWellFormed sl head (lo ++ hi))
    (hlo : ∀ e ∈ lo, e.key < key) (hhi : ∀ e ∈ hi, key < e.key)
    (ndebug : Bool) (data : Option D) (size : ℕ) {nodeHeight : ℕ}
    (hheight : nodeHeight ≤ sl.maxNodeHeight) (draw : ℕ → ℕ) :
    ∃ sl', (∀ transaction : Option Transaction,
        sl.insert ndebug key data size nodeHeight draw transaction =
          .ok (.returned (true, transaction.map fun t =>
            t.addAffectedRow sl.heap.nodeCount sl.heap.rowInfoCount) sl')) ∧
      PrimaryWellFormed sl' head (lo ++ newEntry sl.heap key
        (chosenHeight sl.maxNodeHeight nodeHeight draw) :: hi) ∧
      sl'.maxNodeHeight = sl.maxNodeHeight ∧
      sl'.heap.rowInfo = Function.update sl.heap.rowInfo
        sl.heap.rowInfoCount (some ⟨.none, none, data, size⟩) ∧
      sl'.heap.freed = sl.heap.freed := by
  obtain ⟨sl', hrun, hwf, hprimary, hmax, hrow, hfreed, -⟩ :=
    wf.toWellFormed.insert_spec hlo (fun e he => (hhi e he).le) ndebug data
      size hheight draw fun _ e he => (hhi e he).ne
  refine ⟨sl', hrun, ⟨hwf, hprimary.trans wf.primary, ?_, ?_⟩, hmax, hrow,
    hfreed⟩
  · have hstrict := List.pairwise_append.mp wf.strict
    refine List.pairwise_append.mpr ⟨hstrict.1,
      List.pairwise_cons.mpr ⟨hhi, hstrict.2.1⟩, ?_⟩
    intro a ha b hb
    rcases List.mem_cons.mp hb with rfl | hb
    · exact hlo a ha
    · exact hstrict.2.2 a ha b hb
  · intro e he
    rcases List.mem_append.mp he with he | he
    · exact wf.full e (List.mem_append_left _ he)
    · rcases List.mem_cons.mp he with rfl | he
      · rfl
      · exact wf.full e (List.mem_append_right _ he)

end PrimaryWellFormed

end Call

end SquidDB.Core
