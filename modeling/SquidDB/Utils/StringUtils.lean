import SquidDB.Lib.Checked
import SquidDB.Lib.Text

/-!
# String helpers

`StringUtils`.  `trim` never looks for the last character at position 0: when
only the first character is not white space, it copies on behind the end of the
string.  It also keeps the first position in an `int`.
-/

namespace SquidDB.Utils.StringUtils

open Checked

def toUpper (string : Text) : Text := string.map Char.toUpper

/-- The loop of `trim` for the last character, from position `x` down to 1. -/
def lastFrom (string : Text) : ℕ → Option ℕ
  | 0 => none
  | x + 1 =>
      if (string[x + 1]?).any fun c => !Text.isSpace c then some (x + 1)
      else lastFrom string x

def trim (string : Text) : Checked Text :=
  match string.findIdx? fun c => !Text.isSpace c with
  | none => .ok []
  | some x =>
      -- `int first = x` keeps 32 bits; a negative `first` is behind every end
      let first := x % 2 ^ 32
      if 2 ^ 31 ≤ first then .ok []
      else
        match lastFrom string (string.length - 1) with
        | none => .error .outOfBounds
        | some last => .ok ((string.take (last + 1)).drop first)

def split (string : Text) (separator : Char) : List Text :=
  Text.piecesFrom separator [] string

/-- Only the first character is not white space. -/
def RunsOff : Text → Prop
  | [] => False
  | c :: after => Text.isSpace c = false ∧ Text.Blank after

instance : DecidablePred RunsOff
  | [] => .isFalse id
  | c :: after =>
      inferInstanceAs
        (Decidable (Text.isSpace c = false ∧ Text.Blank after))

/-- What `trim` leaves of a string in which it does not run off. -/
def kept (string : Text) : Text :=
  if 2 ^ 31 ≤ Text.indent string % 2 ^ 32 then []
  else (string.rdropWhile Text.isSpace).drop (Text.indent string % 2 ^ 32)

/-- The first character that is no white space stands too far behind for an
`int` to say where. -/
def Far (string : Text) : Prop :=
  ¬Text.Blank string ∧ 2 ^ 31 ≤ Text.indent string

instance : DecidablePred Far := fun string =>
  inferInstanceAs (Decidable (¬Text.Blank string ∧ _))

/-! ## Trimming -/

section Trim

variable {string before core after front : Text} {d : Char}

theorem lastFrom_eq_none (c : Char) (hafter : Text.Blank after) (x : ℕ) :
    lastFrom (c :: after) x = none := by
  induction x with
  | zero => rfl
  | succ x ih =>
      have hspace : ((c :: after)[x + 1]?).any (fun c => !Text.isSpace c) =
          false := by
        rw [List.getElem?_cons_succ, Option.any_eq_false]
        intro a ha
        simp [hafter a (List.mem_of_getElem? ha)]
      rw [lastFrom, hspace, if_neg Bool.false_ne_true, ih]

theorem lastFrom_append (hfront : front ≠ []) (hd : Text.isSpace d = false)
    (hafter : Text.Blank after) (k : ℕ) :
    lastFrom (front ++ d :: after) (front.length + k) =
      some front.length := by
  induction k with
  | zero =>
      obtain ⟨c, front, rfl⟩ := List.exists_cons_of_ne_nil hfront
      have hget : ((c :: front) ++ d :: after)[front.length + 1]? =
          some d := by
        simp
      rw [Nat.add_zero, List.length_cons, lastFrom, hget]
      simp [hd]
  | succ k ih =>
      have hspace : ((front ++ d :: after)[front.length + k + 1]?).any
          (fun c => !Text.isSpace c) = false := by
        rw [List.getElem?_append_right (by omega),
          show front.length + k + 1 - front.length = k + 1 by omega,
          List.getElem?_cons_succ, Option.any_eq_false]
        intro a ha
        simp [hafter a (List.mem_of_getElem? ha)]
      rw [← Nat.add_assoc, lastFrom, hspace, if_neg Bool.false_ne_true, ih]

theorem findIdx?_of_tight (hbefore : Text.Blank before)
    (hcore : Text.Tight core) :
    (before ++ (core ++ after)).findIdx? (fun c => !Text.isSpace c) =
      some before.length := by
  obtain ⟨c, rest, rfl, hc⟩ := hcore.begins
  have hnone : before.findIdx? (fun c => !Text.isSpace c) = none := by
    rw [List.findIdx?_eq_none_iff]
    intro a ha
    simp [hbefore a ha]
  rw [List.findIdx?_append, hnone, List.cons_append, List.findIdx?_cons]
  simp [hc]

theorem trim_of_blank (h : Text.Blank string) : trim string = .ok [] := by
  have hnone : string.findIdx? (fun c => !Text.isSpace c) = none := by
    rw [List.findIdx?_eq_none_iff]
    intro a ha
    simp [h a ha]
  rw [trim, hnone]

/-- What `trim` does with a string that is not blank. -/
theorem trim_eq (hbefore : Text.Blank before) (hcore : Text.Tight core)
    (hafter : Text.Blank after) :
    trim (before ++ (core ++ after)) =
      if 2 ^ 31 ≤ before.length % 2 ^ 32 then .ok []
      else if before = [] ∧ core.length = 1 then .error .outOfBounds
      else .ok ((before ++ core).drop (before.length % 2 ^ 32)) := by
  rw [trim, findIdx?_of_tight hbefore hcore]
  by_cases hfar : 2 ^ 31 ≤ before.length % 2 ^ 32
  · simp only [hfar, if_true]
  simp only [hfar, if_false]
  obtain ⟨front, d, rfl, hd⟩ := hcore.ends
  by_cases hsingle : before = [] ∧ (front ++ [d]).length = 1
  · obtain ⟨rfl, hlength⟩ := hsingle
    obtain rfl : front = [] := by
      simpa using hlength
    rw [if_pos ⟨rfl, rfl⟩]
    simp only [List.nil_append, List.singleton_append]
    rw [lastFrom_eq_none d hafter]
  · rw [if_neg hsingle]
    have hfront : before ++ front ≠ [] := by
      rintro hnil
      obtain ⟨rfl, rfl⟩ := List.append_eq_nil_iff.mp hnil
      exact hsingle ⟨rfl, rfl⟩
    have hlast := lastFrom_append hfront hd hafter after.length
    have hstring : before ++ (front ++ [d] ++ after) =
        before ++ front ++ d :: after := by
      simp
    have hlength : (before ++ front ++ d :: after).length - 1 =
        (before ++ front).length + after.length := by
      simp
      omega
    rw [hstring, hlength, hlast]
    have htake : (before ++ front ++ d :: after).take
        ((before ++ front).length + 1) = before ++ (front ++ [d]) := by
      rw [List.take_length_add_append]
      simp
    simp only [htake]

theorem runsOff_iff (hbefore : Text.Blank before) (hcore : Text.Tight core)
    (hafter : Text.Blank after) :
    RunsOff (before ++ (core ++ after)) ↔ before = [] ∧ core.length = 1 := by
  obtain ⟨c, rest, rfl, hc⟩ := hcore.begins
  rcases before with _ | ⟨b, before⟩
  · constructor
    · rintro ⟨-, hblank⟩
      refine ⟨rfl, ?_⟩
      obtain ⟨front, d, hends, hd⟩ := hcore.ends
      rcases front with _ | ⟨a, front⟩
      · rw [hends]
        rfl
      · obtain ⟨-, rfl⟩ := List.cons_eq_cons.mp hends
        have hspace := hblank d (by simp)
        rw [hd] at hspace
        cases hspace
    · rintro ⟨-, hlength⟩
      obtain rfl : rest = [] := by
        simpa using hlength
      exact ⟨hc, hafter⟩
  · simp only [List.cons_append, RunsOff, reduceCtorEq, false_and, iff_false,
      not_and]
    intro hb
    rw [hbefore b List.mem_cons_self] at hb
    cases hb

theorem not_runsOff_of_blank (h : Text.Blank string) : ¬RunsOff string := by
  cases string with
  | nil => exact id
  | cons c after =>
      rintro ⟨hc, -⟩
      rw [h c List.mem_cons_self] at hc
      cases hc

theorem kept_of_blank (h : Text.Blank string) : kept string = [] := by
  rw [kept, List.rdropWhile_eq_nil_iff.mpr h, List.drop_nil, ite_self]

theorem kept_eq (hbefore : Text.Blank before) (hcore : Text.Tight core)
    (hafter : Text.Blank after) :
    kept (before ++ (core ++ after)) =
      if 2 ^ 31 ≤ before.length % 2 ^ 32 then []
      else (before ++ core).drop (before.length % 2 ^ 32) := by
  obtain ⟨front, d, hends, hd⟩ := hcore.ends
  have hrdrop : (before ++ core ++ after).rdropWhile Text.isSpace =
      before ++ core :=
    Text.rdropWhile_append_blank
      ⟨before ++ front, d, by rw [hends, List.append_assoc], hd⟩ hafter
  rw [kept, Text.indent_eq hbefore hcore, ← List.append_assoc, hrdrop]

theorem trim_eq_kept (string : Text) :
    trim string =
      if RunsOff string then .error .outOfBounds else .ok (kept string) := by
  rcases Text.blank_or_tight string with
    hblank | ⟨before, core, after, rfl, hbefore, hcore, hafter⟩
  · rw [trim_of_blank hblank, if_neg (not_runsOff_of_blank hblank),
      kept_of_blank hblank]
  · rw [trim_eq hbefore hcore hafter, kept_eq hbefore hcore hafter]
    simp only [runsOff_iff hbefore hcore hafter]
    by_cases hsingle : before = [] ∧ core.length = 1
    · have hnear : ¬2 ^ 31 ≤ before.length % 2 ^ 32 := by
        rw [hsingle.1]
        decide
      simp only [if_neg hnear, if_pos hsingle]
    · simp only [if_neg hsingle]
      split <;> rfl

/-- Nothing is kept, or all that should be, behind white space when it stood
far from the beginning. -/
theorem kept_eq_nil_or_append (string : Text) :
    kept string = [] ∨
      ∃ before, kept string = before ++ Text.trimmed string ∧
        Text.Blank before ∧
        (2 ^ 31 ≤ Text.indent string → 2 ^ 31 ≤ before.length) := by
  rcases Text.blank_or_tight string with
    hblank | ⟨before, core, after, rfl, hbefore, hcore, hafter⟩
  · exact .inl (kept_of_blank hblank)
  rw [kept_eq hbefore hcore hafter, Text.trimmed_eq hbefore hcore hafter,
    Text.indent_eq hbefore hcore]
  by_cases hfar : 2 ^ 31 ≤ before.length % 2 ^ 32
  · exact .inl (if_pos hfar)
  · refine .inr ⟨before.drop (before.length % 2 ^ 32), ?_, ?_, ?_⟩
    · rw [if_neg hfar, List.drop_append_of_le_length (Nat.mod_le _ _)]
    · exact fun c hc => hbefore c (List.mem_of_mem_drop hc)
    · intro hindent
      rw [List.length_drop]
      omega

theorem kept_eq_trimmed_iff :
    kept string = Text.trimmed string ↔
      Text.Blank string ∨ Text.indent string < 2 ^ 31 := by
  rcases Text.blank_or_tight string with
    hblank | ⟨before, core, after, rfl, hbefore, hcore, hafter⟩
  · simp [kept_of_blank hblank, Text.trimmed_of_blank hblank, hblank]
  have hnotBlank : ¬Text.Blank (before ++ (core ++ after)) := by
    obtain ⟨c, rest, rfl, hc⟩ := hcore.begins
    intro hblank
    have hspace := hblank c (by simp)
    rw [hc] at hspace
    cases hspace
  rw [kept_eq hbefore hcore hafter, Text.indent_eq hbefore hcore,
    Text.trimmed_eq hbefore hcore hafter, or_iff_right hnotBlank]
  constructor
  · intro hequal
    by_contra hfar
    split at hequal
    · exact hcore.ne_nil hequal.symm
    · have hlength := congrArg List.length hequal
      simp only [List.length_drop, List.length_append] at hlength
      omega
  · intro hnear
    rw [Nat.mod_eq_of_lt (by omega), if_neg (by omega), List.drop_left]

theorem kept_of_not_far (h : ¬Far string) :
    kept string = Text.trimmed string := by
  rw [kept_eq_trimmed_iff]
  by_contra hcases
  rw [not_or] at hcases
  exact h ⟨hcases.1, Nat.not_lt.mp hcases.2⟩

/-- Of a text that stands too far behind nothing is kept, or it is kept with
white space in front. -/
theorem kept_of_far (h : Far string) :
    2 ^ 31 ≤ Text.indent string % 2 ^ 32 ∧ kept string = [] ∨
      Text.indent string % 2 ^ 32 < 2 ^ 31 ∧
        ∃ c before, kept string = c :: (before ++ Text.trimmed string) ∧
          Text.Blank (c :: before) := by
  by_cases hlost : 2 ^ 31 ≤ Text.indent string % 2 ^ 32
  · exact .inl ⟨hlost, if_pos hlost⟩
  refine .inr ⟨Nat.not_le.mp hlost, ?_⟩
  rcases Text.blank_or_tight string with
    hblank | ⟨before, core, after, rfl, hbefore, hcore, hafter⟩
  · exact absurd hblank h.1
  have hfar := h.2
  rw [Text.indent_eq hbefore hcore] at hfar hlost
  rw [kept_eq hbefore hcore hafter, if_neg hlost,
    Text.trimmed_eq hbefore hcore hafter,
    List.drop_append_of_le_length (Nat.mod_le _ _)]
  have hdrop : before.drop (before.length % 2 ^ 32) ≠ [] := by
    rw [Ne, List.drop_eq_nil_iff]
    omega
  obtain ⟨c, rest, hrest⟩ := List.exists_cons_of_ne_nil hdrop
  refine ⟨c, rest, by rw [hrest]; rfl, fun a ha => ?_⟩
  rw [← hrest] at ha
  exact hbefore a (List.mem_of_mem_drop ha)

/-- `trim` removes exactly the white space at the two ends, except where it runs
off and where the position of the first character does not fit. -/
theorem trim_eq_trimmed_iff (string : Text) :
    trim string = .ok (Text.trimmed string) ↔
      Text.Blank string ∨
        Text.indent string < 2 ^ 31 ∧ ¬RunsOff string := by
  rw [trim_eq_kept]
  by_cases hoff : RunsOff string
  · rw [if_pos hoff]
    simp only [reduceCtorEq, hoff, not_true_eq_false, and_false, or_false,
      false_iff]
    intro hblank
    exact not_runsOff_of_blank hblank hoff
  · rw [if_neg hoff, Except.ok.injEq, kept_eq_trimmed_iff]
    simp [hoff]

/-- A string that ends with another character than white space is not changed
when the length of its indent is taken for zero. -/
theorem trim_of_indent (hbefore : Text.Blank before)
    (hcore : Text.Tight core) (hlength : core.length ≠ 1)
    (hindent : 2 ^ 32 ∣ before.length) :
    trim (before ++ core) = .ok (before ++ core) := by
  have hnil : Text.Blank [] := fun c hc => absurd hc List.not_mem_nil
  have htrim := trim_eq hbefore hcore hnil
  rw [List.append_nil, Nat.mod_eq_zero_of_dvd hindent, if_neg (by decide),
    if_neg (fun h => hlength h.2), List.drop_zero] at htrim
  exact htrim

/-- What `trim` returns consists of characters of the string, and the white
space left at its beginning has a length that is taken for zero. -/
theorem trim_indent {text : Text} (htrim : trim string = .ok text) :
    (∀ a ∈ text, a ∈ string) ∧ 2 ^ 32 ∣ Text.indent text := by
  rcases Text.blank_or_tight string with
    hblank | ⟨before, core, after, rfl, hbefore, hcore, hafter⟩
  · rw [trim_of_blank hblank] at htrim
    obtain rfl := Except.ok.inj htrim
    exact ⟨by simp, by simp [Text.indent]⟩
  rw [trim_eq hbefore hcore hafter] at htrim
  split at htrim
  · obtain rfl := Except.ok.inj htrim
    exact ⟨by simp, by simp [Text.indent]⟩
  split at htrim
  · cases htrim
  · obtain rfl := Except.ok.inj htrim
    constructor
    · intro a ha
      rw [← List.append_assoc]
      exact List.mem_append_left _ (List.mem_of_mem_drop ha)
    · have hle : before.length % 2 ^ 32 ≤ before.length := Nat.mod_le _ _
      have hdrop : Text.Blank (before.drop (before.length % 2 ^ 32)) :=
        fun c hc => hbefore c (List.mem_of_mem_drop hc)
      have hindent : Text.indent
          (before.drop (before.length % 2 ^ 32) ++ (core ++ [])) =
            (before.drop (before.length % 2 ^ 32)).length :=
        Text.indent_eq hdrop hcore
      rw [List.append_nil] at hindent
      rw [List.drop_append_of_le_length hle, hindent, List.length_drop]
      exact Nat.dvd_sub_mod before.length

end Trim

/-! ## Upper case -/

theorem toUpper_ne {text : Text}
    (htext : ∀ c ∈ text.head?, Text.isSpace c = true)
    (word : Text)
    (hword : (word.head?.any fun c => !Text.isSpace c) = true) :
    toUpper text ≠ word := by
  rintro rfl
  cases text with
  | nil => cases hword
  | cons c rest =>
      have hc : Text.isSpace c = true := htext c rfl
      have hupper : c.toUpper = c := by
        have hsame := Text.of_isSpace (P := fun c => c.toUpper == c)
          (by decide) hc
        exact beq_iff_eq.mp hsame
      simp [toUpper, hupper, hc] at hword

end SquidDB.Utils.StringUtils
