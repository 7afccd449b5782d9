import SquidDB.Lib.Tower
import SquidDB.Core.SkipListIterator

/-!
# The shape of a skip list

The nodes of a well-formed list are laid out as a sequence of entries in key
order.  Every entry has a tower, the number of bottom levels it is linked on;
on each of them its pointer leads to the next entry with a taller tower and
its width counts the steps.  The searches are specified against a cut of the
sequence at the key they look for.
-/

namespace SquidDB.Core

open Checked

/-- A node in the sequence.  The tower may be lower than the node's height
when its upper levels have been unlinked. -/
structure Entry (K : Type) where
  ref : NodeRef
  node : SkipListNode K
  tower : ℕ

namespace Entry

/-- The key of the node. -/
abbrev key {K : Type} (e : Entry K) : K := e.node.key

end Entry

variable {K D : Type}

/-- The entry's node is live and linked to what follows it in the
sequence. -/
structure Linked (h : Heap K D) (e : Entry K) (rest : List (Entry K)) :
    Prop where
  live : h.node e.ref = some e.node
  tower_le : e.tower ≤ e.node.height
  next : ∀ L < e.tower,
    h.next e.ref L = (Tower.nextAt Entry.tower L rest).map Entry.ref
  width : ∀ L < e.tower, h.width e.ref L = Tower.gap Entry.tower L rest
  above : ∀ L, e.tower ≤ L → L < e.node.height → h.next e.ref L = none

/-- Every entry of the sequence is linked to what follows it. -/
def Threaded (h : Heap K D) : List (Entry K) → Prop
  | [] => True
  | e :: rest => Linked h e rest ∧ Threaded h rest

theorem Threaded.tail {h : Heap K D} {s l : List (Entry K)}
    (ht : Threaded h (s ++ l)) : Threaded h l := by
  induction s with
  | nil => exact ht
  | cons e s ih => exact ih ht.2

theorem Threaded.linked {h : Heap K D} {s l : List (Entry K)} {e : Entry K}
    (ht : Threaded h (s ++ e :: l)) : Linked h e l :=
  ht.tail.1

theorem Threaded.linked_of_mem {h : Heap K D} {l : List (Entry K)}
    {e : Entry K} (ht : Threaded h l) (he : e ∈ l) :
    ∃ rest, Linked h e rest := by
  obtain ⟨s, t, rfl⟩ := List.append_of_mem he
  exact ⟨t, ht.linked⟩

theorem Threaded.live {h : Heap K D} {l : List (Entry K)} {e : Entry K}
    (ht : Threaded h l) (he : e ∈ l) : h.node e.ref = some e.node :=
  (ht.linked_of_mem he).choose_spec.live

/-- Being threaded only depends on the fields of the entries' nodes. -/
theorem Threaded.congr {h h' : Heap K D} {l : List (Entry K)}
    (ht : Threaded h l)
    (hnode : ∀ e ∈ l, h'.node e.ref = h.node e.ref)
    (hnext : ∀ e ∈ l, h'.next e.ref = h.next e.ref)
    (hwidth : ∀ e ∈ l, h'.width e.ref = h.width e.ref) :
    Threaded h' l := by
  induction l with
  | nil => trivial
  | cons e l ih =>
      have he : e ∈ e :: l := List.mem_cons_self
      refine ⟨?_, ih ht.2 (fun x hx => hnode x (List.mem_cons_of_mem _ hx))
        (fun x hx => hnext x (List.mem_cons_of_mem _ hx))
        (fun x hx => hwidth x (List.mem_cons_of_mem _ hx))⟩
      obtain ⟨hl, -⟩ := ht
      constructor
      · rw [hnode e he, hl.live]
      · exact hl.tower_le
      · rw [hnext e he]
        exact hl.next
      · rw [hwidth e he]
        exact hl.width
      · rw [hnext e he]
        exact hl.above

namespace SkipList

open Heap

/-! ## Searching one level -/

section Level

variable [LinearOrder K] {h : Heap K D} {key : K} {L : ℕ}

theorem keyAbove_of_live {e : Entry K} (hlive : h.node e.ref = some e.node) :
    keyAbove h key (some e.ref) = .ok (decide (key > e.key)) := by
  simp [keyAbove, getKey_of_node hlive]

theorem keyEquals_of_live {e : Entry K}
    (hlive : h.node e.ref = some e.node) :
    keyEquals h key (some e.ref) = .ok (decide (key = e.key)) := by
  simp [keyEquals, getKey_of_node hlive]

theorem nullOrBelow_of_live {e : Entry K}
    (hlive : h.node e.ref = some e.node) :
    nullOrBelow h key (some e.ref) = .ok (decide (key < e.key)) := by
  simp [nullOrBelow, getKey_of_node hlive]

theorem nullOrNotAbove_of_live {e : Entry K}
    (hlive : h.node e.ref = some e.node) :
    nullOrNotAbove h key (some e.ref) = .ok (decide (key ≤ e.key)) := by
  simp [nullOrNotAbove, getKey_of_node hlive]

/-- The searches stop in front of the part of the sequence that is not below
the key. -/
theorem keyAbove_nextAt {hi : List (Entry K)} (ht : Threaded h hi)
    (hhi : ∀ e ∈ hi, key ≤ e.key) :
    keyAbove h key ((Tower.nextAt Entry.tower L hi).map Entry.ref) =
      .ok false := by
  rcases hw : Tower.nextAt Entry.tower L hi with _ | w
  · rfl
  · have hmem : w ∈ hi := List.mem_of_find?_eq_some hw
    rw [Option.map_some, keyAbove_of_live (ht.live hmem)]
    simp [hhi w hmem]

/-- One level of `traversePrevNodes`: starting at `y`, the inner loop arrives
at the last entry of the level below the key, and the rank grows by the number
of entries passed. -/
theorem skipLowerRanked_spec {y : Entry K} {q hi : List (Entry K)}
    (ht : Threaded h (y :: (q ++ hi))) (hy : L < y.tower)
    (hq : ∀ e ∈ q, e.key < key) (hhi : ∀ e ∈ hi, key ≤ e.key)
    (fuel : ℕ) (hfuel : q.length < fuel) (rank : ℕ) :
    ∃ (s : List (Entry K)) (z : Entry K) (t : List (Entry K)),
      y :: q = s ++ z :: t ∧ L < z.tower ∧
      (∀ e ∈ t, e.tower ≤ L) ∧
      skipLowerRanked h key L fuel (some y.ref) (h.next y.ref L) rank =
        .ok (some z.ref, (Tower.nextAt Entry.tower L hi).map Entry.ref,
          rank + s.length) := by
  induction fuel generalizing y q rank with
  | zero => omega
  | succ fuel ih =>
      rcases Tower.all_le_or_split Entry.tower L q with
        hall | ⟨s, w, t, rfl, hs, hw⟩
      · refine ⟨[], y, q, rfl, hy, hall, ?_⟩
        have hnext : h.next y.ref L =
            (Tower.nextAt Entry.tower L hi).map Entry.ref := by
          rw [ht.1.next L hy, Tower.nextAt_append_of_le hall]
        simp [skipLowerRanked, hnext, keyAbove_nextAt ht.2.tail hhi]
      · have hrest : s ++ w :: t ++ hi = s ++ w :: (t ++ hi) := by simp
        rw [hrest] at ht
        have hnext : h.next y.ref L = some w.ref := by
          rw [ht.1.next L hy, Tower.nextAt_split hs hw, Option.map_some]
        have hwidth : h.width y.ref L = s.length + 1 := by
          rw [ht.1.width L hy, Tower.gap_split hs hw]
        have hyl : L < y.node.height := lt_of_lt_of_le hy ht.1.tower_le
        have hlw := ht.2.linked
        have hwl : L < w.node.height := lt_of_lt_of_le hw hlw.tower_le
        have habove : keyAbove h key (some w.ref) = .ok true := by
          rw [keyAbove_of_live hlw.live]
          simp [hq w (by simp)]
        obtain ⟨s', z, t', hsplit, hz, ht', hrun⟩ :=
          ih (y := w) (q := t) ht.2.tail hw
            (fun e he => hq e (by simp [he]))
            (by simp only [List.length_append, List.length_cons] at hfuel
                omega)
            (rank + (s.length + 1))
        refine ⟨y :: (s ++ s'), z, t', by simp [hsplit], hz, ht', ?_⟩
        rw [hnext, skipLowerRanked, habove]
        simp only [ok_bind, if_true, getWidth_of_node ht.1.live hyl,
          getNext_of_node hlw.live hwl, hwidth, hrun, List.length_cons,
          List.length_append]
        congr 3
        omega

theorem skipLower_of_ranked {fuel : ℕ} {trail node : Option NodeRef}
    {rank rank' : ℕ} {trail' node' : Option NodeRef}
    (hrun : skipLowerRanked h key L fuel trail node rank =
      .ok (trail', node', rank')) :
    skipLower h key L fuel trail node = .ok (trail', node') := by
  induction fuel generalizing trail node rank with
  | zero => cases hrun
  | succ fuel ih =>
      rw [skipLowerRanked, bind_eq_ok] at hrun
      obtain ⟨above, habove, hrun⟩ := hrun
      rw [skipLower, habove, ok_bind]
      cases above with
      | false =>
          simp only [Bool.false_eq_true, if_false, pure_eq_ok,
            Except.ok.injEq, Prod.mk.injEq] at hrun ⊢
          exact ⟨hrun.1, hrun.2.1⟩
      | true =>
          simp only [if_true] at hrun ⊢
          obtain ⟨width, -, hrun⟩ := bind_eq_ok.mp hrun
          obtain ⟨next, hnext, hrun⟩ := bind_eq_ok.mp hrun
          rw [hnext, ok_bind]
          exact ih hrun

end Level

/-! ## Descending through the levels -/

/-- The context holds, for every level below `levels`, the last entry of `xs`
on that level and its position. -/
def Locates (ctx : TraverseContext) (xs : List (Entry K)) (levels : ℕ) :
    Prop :=
  ∀ L < levels, ∃ i y, Tower.lastAt Entry.tower L xs = some (i, y) ∧
    ctx.prevNode L = some y.ref ∧ ctx.prevRank L = i

section Descent

variable {h : Heap K D} {key : K} {head : Entry K} {lo hi : List (Entry K)}

theorem mem_of_split {p q : List (Entry K)} {y e : Entry K}
    (hsplit : head :: lo = p ++ y :: q) (he : e ∈ q) : e ∈ lo := by
  cases p with
  | nil =>
      obtain ⟨-, rfl⟩ := List.cons_eq_cons.mp hsplit
      exact he
  | cons x p =>
      obtain ⟨-, rfl⟩ := List.cons_eq_cons.mp hsplit
      simp [he]

theorem length_of_split {p q : List (Entry K)} {y : Entry K}
    (hsplit : head :: lo = p ++ y :: q) : p.length + q.length = lo.length := by
  have := congrArg List.length hsplit
  simp only [List.length_cons, List.length_append] at this
  omega

/-- On level 0 the next entry is the first one. -/
theorem nextAt_zero (hpos : ∀ e ∈ hi, 0 < e.tower) :
    Tower.nextAt Entry.tower 0 hi = hi.head? := by
  cases hi with
  | nil => rfl
  | cons e hi =>
      exact Tower.nextAt_cons_of_lt (hpos e List.mem_cons_self) hi

variable [LinearOrder K]

theorem descend_level (ht : Threaded h ((head :: lo) ++ hi))
    (hlo : ∀ e ∈ lo, e.key < key) (hhi : ∀ e ∈ hi, key ≤ e.key)
    (hcount : lo.length ≤ h.nodeCount)
    {p q : List (Entry K)} {y : Entry K} (hsplit : head :: lo = p ++ y :: q)
    {L : ℕ} (hy : L < y.tower) :
    ∃ (p' : List (Entry K)) (z : Entry K) (q' : List (Entry K)),
      head :: lo = p' ++ z :: q' ∧ L < z.tower ∧
      z.tower ≤ z.node.height ∧ (∀ e ∈ q', e.tower ≤ L) ∧
      h.getNext (some y.ref) L = .ok (h.next y.ref L) ∧
      skipLowerRanked h key L (h.nodeCount + 1) (some y.ref)
          (h.next y.ref L) p.length =
        .ok (some z.ref, (Tower.nextAt Entry.tower L hi).map Entry.ref,
          p'.length) := by
  have hty : Threaded h (y :: (q ++ hi)) := by
    rw [hsplit, List.append_assoc] at ht
    exact ht.tail
  have hlen := length_of_split hsplit
  obtain ⟨s, z, t, hzt, hz, ht', hrun⟩ :=
    skipLowerRanked_spec hty hy (fun e he => hlo e (mem_of_split hsplit he))
      hhi (h.nodeCount + 1) (by omega) p.length
  have hsplit' : head :: lo = (p ++ s) ++ z :: t := by
    rw [hsplit, hzt, List.append_assoc]
  have hlz : Linked h z (t ++ hi) := by
    rw [hsplit', List.append_assoc] at ht
    exact ht.linked
  refine ⟨p ++ s, z, t, hsplit', hz, hlz.tower_le, ht', ?_, ?_⟩
  · exact getNext_of_node hty.1.live (lt_of_lt_of_le hy hty.1.tower_le)
  · rw [hrun, List.length_append]

theorem keyEquals_nextAt (key : K) (ht : Threaded h hi) (L : ℕ) :
    keyEquals h key ((Tower.nextAt Entry.tower L hi).map Entry.ref) =
      .ok (decide (∃ e, Tower.nextAt Entry.tower L hi = some e ∧
        key = e.key)) := by
  rcases hw : Tower.nextAt Entry.tower L hi with _ | w
  · simp [keyEquals]
  · rw [Option.map_some,
      keyEquals_of_live (ht.live (List.mem_of_find?_eq_some hw))]
    simp

theorem nullOrBelow_nextAt (ht : Threaded h hi)
    (hhi : ∀ e ∈ hi, key ≤ e.key) {L : ℕ}
    (hne : ¬∃ e, Tower.nextAt Entry.tower L hi = some e ∧ key = e.key) :
    nullOrBelow h key ((Tower.nextAt Entry.tower L hi).map Entry.ref) =
      .ok true := by
  rcases hw : Tower.nextAt Entry.tower L hi with _ | w
  · rfl
  · have hmem : w ∈ hi := List.mem_of_find?_eq_some hw
    have hlt : key < w.key := by
      refine lt_of_le_of_ne (hhi w hmem) fun heq => hne ⟨w, hw, heq⟩
    rw [Option.map_some, nullOrBelow_of_live (ht.live hmem)]
    simp [hlt]

theorem exists_key_iff_head (hsorted : hi.Pairwise fun a b => a.key ≤ b.key)
    (hhi : ∀ e ∈ hi, key ≤ e.key) :
    (∃ e ∈ hi, key = e.key) ↔ ∃ e, hi.head? = some e ∧ key = e.key := by
  constructor
  · rintro ⟨e, he, rfl⟩
    cases hi with
    | nil => simp at he
    | cons x hi =>
        refine ⟨x, rfl, le_antisymm (hhi x List.mem_cons_self) ?_⟩
        rcases List.mem_cons.mp he with rfl | he
        · exact le_rfl
        · exact (List.pairwise_cons.mp hsorted).1 e he
  · rintro ⟨e, he, hkey⟩
    exact ⟨e, List.mem_of_mem_head? he, hkey⟩

/-- The levels report the key exactly when some entry carries it, because
level 0 reports the first entry that is not below it. -/
theorem duplicate_levels (hpos : ∀ e ∈ hi, 0 < e.tower)
    (hsorted : hi.Pairwise fun a b => a.key ≤ b.key)
    (hhi : ∀ e ∈ hi, key ≤ e.key) (level : ℕ) :
    (decide (∃ e, Tower.nextAt Entry.tower level hi = some e ∧
        key = e.key) ||
      decide (0 < level ∧ ∃ e ∈ hi, key = e.key)) =
      decide (∃ e ∈ hi, key = e.key) := by
  have hsound : (∃ e, Tower.nextAt Entry.tower level hi = some e ∧
      key = e.key) → ∃ e ∈ hi, key = e.key := by
    rintro ⟨e, he, hkey⟩
    exact ⟨e, List.mem_of_find?_eq_some he, hkey⟩
  rw [Bool.eq_iff_iff]
  simp only [Bool.or_eq_true, decide_eq_true_eq]
  constructor
  · rintro (hnext | ⟨-, hex⟩)
    · exact hsound hnext
    · exact hex
  · intro hex
    rcases Nat.eq_zero_or_pos level with rfl | hlevel
    · rw [nextAt_zero hpos]
      exact Or.inl ((exists_key_iff_head hsorted hhi).mp hex)
    · exact Or.inr ⟨hlevel, hex⟩

/-- The loop of `traversePrevNodes`, by induction on the levels left: the
invariant is that the search stands on an entry of the next level, with its
position as the accumulated rank. -/
theorem traverseFrom_spec (ndebug : Bool)
    (ht : Threaded h ((head :: lo) ++ hi))
    (hlo : ∀ e ∈ lo, e.key < key) (hhi : ∀ e ∈ hi, key ≤ e.key)
    (hcount : lo.length ≤ h.nodeCount) (hposlo : ∀ e ∈ lo, 0 < e.tower)
    (hpos : ∀ e ∈ hi, 0 < e.tower)
    (hsorted : hi.Pairwise fun a b => a.key ≤ b.key) {levels : ℕ}
    {p q : List (Entry K)} {y : Entry K} (hsplit : head :: lo = p ++ y :: q)
    (hy : levels ≤ y.tower) (hq : levels = 0 → q = [])
    (dup : Bool) (ctx : TraverseContext) :
    ∃ ctx', traverseFrom ndebug h key levels (some y.ref) p.length dup ctx =
        .ok (ctx', dup ||
          decide (0 < levels ∧ ∃ e ∈ hi, key = e.key)) ∧
      ctx'.rank = lo.length ∧ Locates ctx' (head :: lo) levels ∧
      ∀ L, levels ≤ L → ctx'.prevNode L = ctx.prevNode L ∧
        ctx'.prevRank L = ctx.prevRank L := by
  induction levels generalizing p q y dup ctx with
  | zero =>
      have hlen := length_of_split hsplit
      rw [hq rfl, List.length_nil, Nat.add_zero] at hlen
      refine ⟨ctx.setRank p.length, by simp [traverseFrom], hlen, ?_, ?_⟩
      · intro L hL
        omega
      · intro L _
        exact ⟨rfl, rfl⟩
  | succ level ih =>
      obtain ⟨p', z, q', hsplit', hz, -, hq', hnext, hskip⟩ :=
        descend_level ht hlo hhi hcount hsplit (L := level) (by omega)
      have hend : level = 0 → q' = [] := by
        rintro rfl
        apply List.eq_nil_iff_forall_not_mem.mpr
        intro e he
        have := hposlo e (mem_of_split hsplit' he)
        have := hq' e he
        omega
      obtain ⟨ctx', hrun, hrank, hloc, hframe⟩ :=
        ih hsplit' hz.le hend
          (dup || decide (∃ e, Tower.nextAt Entry.tower level hi = some e ∧
            key = e.key))
          (ctx.setPrev level (some z.ref) p'.length)
      refine ⟨ctx', ?_, hrank, ?_, ?_⟩
      · have hdup := duplicate_levels hpos hsorted hhi level
        simp only [traverseFrom, hnext, ok_bind, hskip,
          keyEquals_nextAt key ht.tail, Option.isSome_some, assert_ok_true,
          hrun]
        rw [Bool.or_assoc, hdup]
        simp
      · intro L hL
        rcases Nat.lt_succ_iff_lt_or_eq.mp hL with hlt | rfl
        · exact hloc L hlt
        · refine ⟨p'.length, z, ?_, ?_, ?_⟩
          · rw [hsplit', Tower.lastAt_split hz hq']
          · rw [(hframe L le_rfl).1]
            simp [TraverseContext.setPrev]
          · rw [(hframe L le_rfl).2]
            simp [TraverseContext.setPrev]
      · intro L hL
        have hne : L ≠ level := by omega
        rw [(hframe L (by omega)).1, (hframe L (by omega)).2]
        simp [TraverseContext.setPrev, hne]

theorem search_level (ht : Threaded h ((head :: lo) ++ hi))
    (hlo : ∀ e ∈ lo, e.key < key) (hhi : ∀ e ∈ hi, key ≤ e.key)
    (hcount : lo.length ≤ h.nodeCount)
    {p q : List (Entry K)} {y : Entry K} (hsplit : head :: lo = p ++ y :: q)
    {L : ℕ} (hy : L < y.tower) :
    ∃ (p' : List (Entry K)) (z : Entry K) (q' : List (Entry K))
        (next : Option NodeRef),
      head :: lo = p' ++ z :: q' ∧ L < z.tower ∧
      next = (Tower.nextAt Entry.tower L hi).map Entry.ref ∧
      h.getNext (some y.ref) L = .ok (h.next y.ref L) ∧
      skipLower h key L (h.nodeCount + 1) (some y.ref) (h.next y.ref L) =
        .ok (some z.ref, next) ∧
      ((∃ e, Tower.nextAt Entry.tower L hi = some e ∧ key = e.key ∧
          keyEquals h key next = .ok true) ∨
        (¬∃ e, Tower.nextAt Entry.tower L hi = some e ∧ key = e.key) ∧
          keyEquals h key next = .ok false ∧
          nullOrBelow h key next = .ok true) := by
  obtain ⟨p', z, q', hsplit', hz, -, -, hnext, hskip⟩ :=
    descend_level ht hlo hhi hcount hsplit hy
  refine ⟨p', z, q', _, hsplit', hz, rfl, hnext, skipLower_of_ranked hskip,
    ?_⟩
  have hequals := keyEquals_nextAt key ht.tail L
  by_cases hkey : ∃ e, Tower.nextAt Entry.tower L hi = some e ∧ key = e.key
  · rw [decide_eq_true hkey] at hequals
    obtain ⟨e, he, hkeye⟩ := hkey
    exact Or.inl ⟨e, he, hkeye, hequals⟩
  · rw [decide_eq_false hkey] at hequals
    exact Or.inr ⟨hkey, hequals, nullOrBelow_nextAt ht.tail hhi hkey⟩

/-- The loop of `findNode`: it ends at an entry with the key, if there is
one. -/
theorem findNodeFrom_spec (ndebug : Bool)
    (ht : Threaded h ((head :: lo) ++ hi))
    (hlo : ∀ e ∈ lo, e.key < key) (hhi : ∀ e ∈ hi, key ≤ e.key)
    (hcount : lo.length ≤ h.nodeCount)
    (hpos : ∀ e ∈ hi, 0 < e.tower)
    (hsorted : hi.Pairwise fun a b => a.key ≤ b.key) {levels : ℕ}
    {p q : List (Entry K)} {y : Entry K} (hsplit : head :: lo = p ++ y :: q)
    (hy : levels ≤ y.tower) :
    ((0 < levels → ∀ e ∈ hi, key ≠ e.key) ∧
        findNodeFrom ndebug h key levels (some y.ref) = .ok none) ∨
      ∃ e ∈ hi, key = e.key ∧
        findNodeFrom ndebug h key levels (some y.ref) = .ok (some e.ref) := by
  induction levels generalizing p q y with
  | zero => exact Or.inl ⟨by omega, rfl⟩
  | succ level ih =>
      obtain ⟨p', z, q', next, hsplit', hz, hlevel, hnext, hlower, hcases⟩ :=
        search_level ht hlo hhi hcount hsplit (L := level) (by omega)
      rcases hcases with ⟨e, he, hkeye, hequals⟩ | ⟨hkey, hequals, hbelow⟩
      · rw [he, Option.map_some] at hlevel
        subst hlevel
        refine Or.inr ⟨e, List.mem_of_find?_eq_some he, hkeye, ?_⟩
        simp [findNodeFrom, hnext, hlower, hequals]
      · have hrun : findNodeFrom ndebug h key (level + 1) (some y.ref) =
            findNodeFrom ndebug h key level (some z.ref) := by
          simp [findNodeFrom, hnext, hlower, hequals, hbelow]
        rw [hrun]
        rcases ih hsplit' hz.le with ⟨hnone, hres⟩ | hfound
        · refine Or.inl ⟨fun _ => ?_, hres⟩
          rcases Nat.eq_zero_or_pos level with rfl | hpositive
          · rw [nextAt_zero hpos, ← exists_key_iff_head hsorted hhi] at hkey
            push Not at hkey
            exact hkey
          · exact hnone hpositive
        · exact Or.inr hfound

/-- The loop of `seek`: it ends at an entry with the key, if there is one, and
otherwise at the first entry above the key.  The entry with the key is the
first one on the highest level where the key is seen. -/
theorem seekFrom_spec (ndebug : Bool)
    (ht : Threaded h ((head :: lo) ++ hi))
    (hlo : ∀ e ∈ lo, e.key < key) (hhi : ∀ e ∈ hi, key ≤ e.key)
    (hcount : lo.length ≤ h.nodeCount)
    (hpos : ∀ e ∈ hi, 0 < e.tower)
    (hsorted : hi.Pairwise fun a b => a.key ≤ b.key) {levels : ℕ}
    {p q : List (Entry K)} {y : Entry K} (hsplit : head :: lo = p ++ y :: q)
    (hy : levels ≤ y.tower) (hlevels : 0 < levels) :
    ((∀ e ∈ hi, key ≠ e.key) ∧
        seekFrom ndebug h key levels (some y.ref) =
          .ok (hi.head?.map Entry.ref)) ∨
      ∃ e ∈ hi, key = e.key ∧
        seekFrom ndebug h key levels (some y.ref) = .ok (some e.ref) ∧
        ∃ L < levels, Tower.nextAt Entry.tower L hi = some e ∧
          ∀ L' < levels, L < L' → ∀ x,
            Tower.nextAt Entry.tower L' hi = some x → key ≠ x.key := by
  induction levels generalizing p q y with
  | zero => omega
  | succ level ih =>
      obtain ⟨p', z, q', next, hsplit', hz, hlevel, hnext, hlower, hcases⟩ :=
        search_level ht hlo hhi hcount hsplit (L := level) (by omega)
      rcases hcases with ⟨e, he, hkeye, hequals⟩ | ⟨hkey, hequals, hbelow⟩
      · rw [he, Option.map_some] at hlevel
        subst hlevel
        refine Or.inr ⟨e, List.mem_of_find?_eq_some he, hkeye, ?_, level,
          Nat.lt_succ_self _, he, fun L' hL' hlt => by omega⟩
        simp [seekFrom, hnext, hlower, hequals]
      · rcases Nat.eq_zero_or_pos level with rfl | hpositive
        · rw [nextAt_zero hpos] at hlevel
          subst hlevel
          rw [nextAt_zero hpos, ← exists_key_iff_head hsorted hhi] at hkey
          push Not at hkey
          refine Or.inl ⟨hkey, ?_⟩
          simp [seekFrom, hnext, hlower, hequals, hbelow]
        · have hne : level ≠ 0 := by omega
          have hrun : seekFrom ndebug h key (level + 1) (some y.ref) =
              seekFrom ndebug h key level (some z.ref) := by
            simp [seekFrom, hnext, hlower, hequals, hbelow, hne]
          rw [hrun]
          apply (ih hsplit' hz.le hpositive).imp_right
          rintro ⟨e, he, hkeye, hseek, L, hL, hfirst, habove⟩
          refine ⟨e, he, hkeye, hseek, L, Nat.lt_succ_of_lt hL, hfirst, ?_⟩
          intro L' hL' hlt x hx heq
          rcases Nat.lt_succ_iff_lt_or_eq.mp hL' with hL' | rfl
          · exact habove L' hL' hlt x hx heq
          · exact hkey ⟨x, hx, heq⟩

end Descent

end SkipList

/-! ## Well-formed lists -/

/-- The row attached to a node, if it is live. -/
def Heap.rowOf (h : Heap K D) (n : SkipListNode K) : Option (RowInfo D) :=
  n.rowInfo.bind h.rowInfo

/-- Every row of the sequence is live, unshared and not chained to older
versions; nothing else is allocated. -/
structure RowsOwned (h : Heap K D) (spine : List (Entry K)) : Prop where
  live : ∀ e ∈ spine, ∃ info, h.rowOf e.node = some info ∧ info.next = none
  distinct : (spine.map fun e => e.node.rowInfo).Nodup
  allocated : ∀ r, h.rowInfoCount ≤ r → h.rowInfo r = none
  owned : ∀ r info, h.rowInfo r = some info →
    some r ∈ spine.map fun e => e.node.rowInfo

namespace RowsOwned

variable {h : Heap K D} {spine : List (Entry K)} {e : Entry K}

/-- The row pointer of an entry and the row behind it. -/
theorem exists_row (hrows : RowsOwned h spine) (he : e ∈ spine) :
    ∃ r info, e.node.rowInfo = some r ∧ h.rowInfo r = some info ∧
      info.next = none := by
  obtain ⟨info, hinfo, hnext⟩ := hrows.live e he
  obtain ⟨r, hr, hinfo⟩ := Option.bind_eq_some_iff.mp hinfo
  exact ⟨r, info, hr, hinfo, hnext⟩

/-- No entry has the row that is allocated next. -/
theorem ne_rowInfoCount (hrows : RowsOwned h spine) (he : e ∈ spine) :
    e.node.rowInfo ≠ some h.rowInfoCount := by
  obtain ⟨r, info, hr, hinfo, -⟩ := hrows.exists_row he
  rw [hr]
  intro heq
  rw [Option.some.inj heq, hrows.allocated _ le_rfl] at hinfo
  cases hinfo

/-- Which rows are owned only depends on the nodes of the sequence. -/
theorem congr (hrows : RowsOwned h spine) {spine' : List (Entry K)}
    (hnode : spine'.map Entry.node = spine.map Entry.node) :
    RowsOwned h spine' := by
  have hrow : (spine'.map fun e => e.node.rowInfo) =
      spine.map fun e => e.node.rowInfo := by
    have hmap := congrArg (List.map SkipListNode.rowInfo) hnode
    rwa [List.map_map, List.map_map] at hmap
  refine ⟨?_, hrow ▸ hrows.distinct, hrows.allocated, ?_⟩
  · intro e he
    have hmem : e.node ∈ spine.map Entry.node :=
      hnode ▸ List.mem_map_of_mem he
    obtain ⟨e', he', heq⟩ := List.mem_map.mp hmem
    rw [← heq]
    exact hrows.live e' he'
  · intro r info hinfo
    rw [hrow]
    exact hrows.owned r info hinfo

end RowsOwned

/-- `head` and `spine` describe the list completely: its nodes in key order,
their links, their rows and its counters. -/
structure WellFormed [LinearOrder K] (sl : SkipList K D) (head : Entry K)
    (spine : List (Entry K)) : Prop where
  ready : sl.initialized = true
  headRef : sl.head = some head.ref
  headTower : head.tower = sl.maxNodeHeight
  headHeight : head.node.height = sl.maxNodeHeight
  headRow : head.node.rowInfo = none
  levels : 0 < sl.maxNodeHeight
  threaded : Threaded sl.heap (head :: spine)
  distinct : ((head :: spine).map Entry.ref).Nodup
  towers : ∀ e ∈ spine, 0 < e.tower ∧ e.node.height ≤ sl.maxNodeHeight
  sorted : spine.Pairwise fun a b => a.key ≤ b.key
  allocated : ∀ a, sl.heap.nodeCount ≤ a → sl.heap.node a = none
  owned : ∀ a n, sl.heap.node a = some n → a ∈ (head :: spine).map Entry.ref
  rows : RowsOwned sl.heap spine
  size : sl.size = spine.length

/-- A well-formed primary list: no key occurs twice, and every node is linked
on all the levels of its height. -/
structure PrimaryWellFormed [LinearOrder K] (sl : SkipList K D)
    (head : Entry K) (spine : List (Entry K)) : Prop
    extends WellFormed sl head spine where
  primary : sl.primaryIndex = true
  strict : spine.Pairwise fun a b => a.key < b.key
  full : ∀ e ∈ spine, e.tower = e.node.height

/-- The entries with the key and those above it are not below it. -/
theorem le_key_of_cut [LinearOrder K] {es gt : List (Entry K)} {key : K}
    (hes : ∀ x ∈ es, x.key = key) (hgt : ∀ x ∈ gt, key < x.key) :
    ∀ x ∈ es ++ gt, key ≤ x.key := by
  intro x hx
  rcases List.mem_append.mp hx with hx | hx
  · exact (hes x hx).ge
  · exact (hgt x hx).le

/-- A sequence in key order is cut by every key. -/
theorem exists_cut [LinearOrder K] {spine : List (Entry K)}
    (hsorted : spine.Pairwise fun a b => a.key ≤ b.key) (key : K) :
    ∃ lo hi, spine = lo ++ hi ∧ (∀ e ∈ lo, e.key < key) ∧
      ∀ e ∈ hi, key ≤ e.key := by
  induction spine with
  | nil => exact ⟨[], [], rfl, by simp, by simp⟩
  | cons e spine ih =>
      obtain ⟨hle, hsorted⟩ := List.pairwise_cons.mp hsorted
      by_cases he : e.key < key
      · obtain ⟨lo, hi, rfl, hlo, hhi⟩ := ih hsorted
        exact ⟨e :: lo, hi, rfl, List.forall_mem_cons.mpr ⟨he, hlo⟩, hhi⟩
      · have hkey := not_lt.mp he
        exact ⟨[], e :: spine, rfl, by simp, List.forall_mem_cons.mpr
          ⟨hkey, fun x hx => hkey.trans (hle x hx)⟩⟩

namespace WellFormed

variable [LinearOrder K] {sl : SkipList K D} {head : Entry K}
  {spine : List (Entry K)}

theorem ref_lt (wf : WellFormed sl head spine) {x : Entry K}
    (hx : x ∈ head :: spine) : x.ref < sl.heap.nodeCount := by
  by_contra hge
  have hnone := wf.allocated x.ref (Nat.le_of_not_lt hge)
  rw [wf.threaded.live hx] at hnone
  cases hnone

/-- There are at least as many allocations as nodes, so the bound on loop
iterations is never reached. -/
theorem length_lt_nodeCount (wf : WellFormed sl head spine) :
    spine.length < sl.heap.nodeCount := by
  have hsub : (head :: spine).map Entry.ref ⊆
      List.range sl.heap.nodeCount := by
    intro a ha
    obtain ⟨e, he, rfl⟩ := List.mem_map.mp ha
    exact List.mem_range.mpr (wf.ref_lt he)
  have hlen := (wf.distinct.subperm hsub).length_le
  simp only [List.length_map, List.length_cons, List.length_range] at hlen
  omega

section Search

variable {lo hi : List (Entry K)} {key : K}
  (wf : WellFormed sl head (lo ++ hi))
  (hlo : ∀ e ∈ lo, e.key < key) (hhi : ∀ e ∈ hi, key ≤ e.key)

include wf hlo hhi

/-- `traversePrevNodes` locates the cut on every level. -/
theorem traversePrevNodes_spec (ndebug dup : Bool) :
    ∃ ctx, sl.traversePrevNodes ndebug key dup =
        .ok (ctx, dup || decide (∃ e ∈ hi, key = e.key)) ∧
      ctx.rank = lo.length ∧
      SkipList.Locates ctx (head :: lo) sl.maxNodeHeight := by
  have hlen := wf.length_lt_nodeCount
  rw [List.length_append] at hlen
  have hne : sl.maxNodeHeight ≠ 0 := wf.levels.ne'
  obtain ⟨ctx, hrun, hrank, hloc, -⟩ :=
    SkipList.traverseFrom_spec (p := []) (q := lo) (y := head)
      ndebug wf.threaded hlo hhi (by omega)
      (fun e he => (wf.towers e (List.mem_append_left _ he)).1)
      (fun e he => (wf.towers e (List.mem_append_right _ he)).1)
      (List.pairwise_append.mp wf.sorted).2.1 rfl wf.headTower.ge
      (fun h => absurd h hne) dup TraverseContext.new
  refine ⟨ctx, ?_, hrank, hloc⟩
  rw [SkipList.traversePrevNodes, wf.headRef]
  simpa [wf.levels] using hrun

/-- `findNode` finds an entry with the key, if there is one. -/
theorem findNode_spec (ndebug : Bool) :
    ((∀ e ∈ hi, key ≠ e.key) ∧ sl.findNode ndebug key = .ok none) ∨
      ∃ e ∈ hi, key = e.key ∧
        sl.findNode ndebug key = .ok (some e.ref) := by
  have hlen := wf.length_lt_nodeCount
  rw [List.length_append] at hlen
  have hspec := SkipList.findNodeFrom_spec (p := []) (q := lo) (y := head)
    ndebug wf.threaded hlo hhi (by omega)
    (fun e he => (wf.towers e (List.mem_append_right _ he)).1)
    (List.pairwise_append.mp wf.sorted).2.1 rfl wf.headTower.ge
  rw [SkipList.findNode, wf.headRef]
  exact hspec.imp_left fun hnone => ⟨hnone.1 wf.levels, hnone.2⟩

/-- The node `seek` starts at. -/
theorem seekFrom_spec (ndebug : Bool) :
    ((∀ e ∈ hi, key ≠ e.key) ∧
        SkipList.seekFrom ndebug sl.heap key sl.maxNodeHeight sl.head =
          .ok (hi.head?.map Entry.ref)) ∨
      ∃ e ∈ hi, key = e.key ∧
        SkipList.seekFrom ndebug sl.heap key sl.maxNodeHeight sl.head =
          .ok (some e.ref) ∧
        ∃ L < sl.maxNodeHeight, Tower.nextAt Entry.tower L hi = some e ∧
          ∀ L' < sl.maxNodeHeight, L < L' → ∀ x,
            Tower.nextAt Entry.tower L' hi = some x → key ≠ x.key := by
  have hlen := wf.length_lt_nodeCount
  rw [List.length_append] at hlen
  rw [wf.headRef]
  exact SkipList.seekFrom_spec (p := []) (q := lo) (y := head)
    ndebug wf.threaded hlo hhi (by omega)
    (fun e he => (wf.towers e (List.mem_append_right _ he)).1)
    (List.pairwise_append.mp wf.sorted).2.1 rfl wf.headTower.ge wf.levels

end Search

end WellFormed

end SquidDB.Core
