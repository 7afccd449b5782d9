import Mathlib

/-!
# Byte strings

A `std::string` is a sequence of bytes; it is kept as a list of characters, of
which bytes are the first 256.  The operations are those of the C++ standard
library, in the C locale.
-/

/-- A byte string. -/
abbrev Text := List Char

namespace Text

/-- `find_last_of` a single character. -/
def findLastOf (c : Char) : Text → Option ℕ
  | [] => none
  | a :: text =>
      match findLastOf c text with
      | some i => some (i + 1)
      | none => if a = c then some 0 else none

/-- The white space of the C locale. -/
def isSpace (c : Char) : Bool :=
  c = ' ' || c = '\t' || c = '\n' || c = '\x0b' || c = '\x0c' || c = '\r'

/-- A text of white space only. -/
def Blank (text : Text) : Prop := ∀ c ∈ text, isSpace c = true

instance (text : Text) : Decidable (Blank text) :=
  decidable_of_iff (text.all isSpace = true) List.all_eq_true

/-- The length of the white space that a text begins with. -/
def indent (text : Text) : ℕ := (text.takeWhile isSpace).length

/-- The text without the white space at its two ends. -/
def trimmed (text : Text) : Text :=
  (text.dropWhile isSpace).rdropWhile isSpace

/-- The value of a decimal digit. -/
def digitValue (c : Char) : ℕ := c.toNat - 48

/-- The value of a sequence of decimal digits, read behind `value`. -/
def digitsFrom (value : ℕ) (digits : Text) : ℕ :=
  digits.foldl (fun value c => value * 10 + digitValue c) value

/-- A sign, and what follows it. -/
def takeSign : Text → Bool × Text
  | '-' :: text => (true, text)
  | '+' :: text => (false, text)
  | text => (false, text)

/-- `std::stoi`: white space, a sign and digits; what follows is ignored. -/
def stoi (text : Text) : Except String ℤ :=
  let (negative, text) := takeSign (text.dropWhile isSpace)
  let digits := text.takeWhile Char.isDigit
  if digits = [] then .error "stoi"
  else
    let value : ℤ := digitsFrom 0 digits
    let value := if negative then -value else value
    if -2 ^ 31 ≤ value ∧ value < 2 ^ 31 then .ok value else .error "stoi"

/-- The integer that a text is the notation of: a sign or none, and digits. -/
def literal (text : Text) : Option ℤ :=
  let (negative, digits) := takeSign text
  if digits ≠ [] ∧ digits.all Char.isDigit = true then
    let value : ℤ := digitsFrom 0 digits
    some (if negative then -value else value)
  else none

/-- `std::stoul`: as `std::stoi`, but a negative number wraps around. -/
def stoul (text : Text) : Except String ℕ :=
  let (negative, text) := takeSign (text.dropWhile isSpace)
  let digits := text.takeWhile Char.isDigit
  if digits = [] then .error "stoul"
  else
    let value := digitsFrom 0 digits
    if 2 ^ 64 ≤ value then .error "stoul"
    else if negative then .ok ((2 ^ 64 - value) % 2 ^ 64)
    else .ok value

/-- An unsigned number written to a stream. -/
def decimal (n : ℕ) : Text := Nat.toDigits 10 n

/-- The pieces between separators; `piece` is the one begun. -/
def piecesFrom (separator : Char) (piece : Text) : Text → List Text
  | [] => [piece]
  | c :: text =>
      if c = separator then piece :: piecesFrom separator [] text
      else piecesFrom separator (piece ++ [c]) text

/-- The lines that `std::getline` reads, one after the other, from a file;
`line` is the one begun. -/
def linesFrom (line : Text) : Text → List Text
  | [] => if line = [] then [] else [line]
  | c :: text =>
      if c = '\n' then line :: linesFrom [] text
      else linesFrom (line ++ [c]) text

def lines (text : Text) : List Text := linesFrom [] text

/-- `%03d` for a number below 1000. -/
def threeDigits (n : ℕ) : Text :=
  [Nat.digitChar (n / 100), Nat.digitChar (n / 10 % 10),
    Nat.digitChar (n % 10)]

/-! ## Last positions -/

variable {c : Char} {text after : Text}

theorem findLastOf_eq_none (h : c ∉ text) : findLastOf c text = none := by
  induction text with
  | nil => rfl
  | cons a text ih =>
      rw [List.mem_cons, not_or] at h
      simp [findLastOf, ih h.2, Ne.symm h.1]

theorem findLastOf_append (before : Text) (h : c ∉ after) :
    findLastOf c (before ++ c :: after) = some before.length := by
  induction before with
  | nil => simp [findLastOf, findLastOf_eq_none h]
  | cons a before ih =>
      rw [List.cons_append, findLastOf, ih, List.length_cons]

/-! ## White space -/

section WhiteSpace

variable {before core : Text}

/-- A text that begins and ends with another character than white space. -/
structure Tight (text : Text) : Prop where
  begins : ∃ c rest, text = c :: rest ∧ isSpace c = false
  ends : ∃ front d, text = front ++ [d] ∧ isSpace d = false

theorem Tight.ne_nil (h : Tight text) : text ≠ [] := by
  obtain ⟨c, rest, rfl, -⟩ := h.begins
  exact List.cons_ne_nil c rest

theorem rdropWhile_append_blank (hcore : ∃ front d, core = front ++ [d] ∧
      isSpace d = false) (hafter : Blank after) :
    (core ++ after).rdropWhile isSpace = core := by
  obtain ⟨front, d, rfl, hd⟩ := hcore
  rw [List.rdropWhile, List.reverse_append,
    List.dropWhile_append_of_pos (by simpa [Blank] using hafter),
    List.reverse_append, List.reverse_singleton, List.singleton_append,
    List.dropWhile_cons_of_neg (by simp [hd]), List.reverse_cons,
    List.reverse_reverse]

theorem trimmed_of_blank (h : Blank text) : trimmed text = [] := by
  rw [trimmed, List.dropWhile_eq_nil_iff.mpr h, List.rdropWhile_nil]

theorem takeWhile_append_tight (hbefore : Blank before) (hcore : Tight core) :
    (before ++ (core ++ after)).takeWhile isSpace = before := by
  obtain ⟨c, rest, rfl, hc⟩ := hcore.begins
  rw [List.takeWhile_append_of_pos hbefore, List.cons_append,
    List.takeWhile_cons_of_neg (by simp [hc]), List.append_nil]

theorem dropWhile_append_tight (hbefore : Blank before) (hcore : Tight core) :
    (before ++ (core ++ after)).dropWhile isSpace = core ++ after := by
  obtain ⟨c, rest, rfl, hc⟩ := hcore.begins
  rw [List.dropWhile_append_of_pos hbefore, List.cons_append,
    List.dropWhile_cons_of_neg (by simp [hc])]

theorem indent_eq (hbefore : Blank before) (hcore : Tight core) :
    indent (before ++ (core ++ after)) = before.length := by
  rw [indent, takeWhile_append_tight hbefore hcore]

theorem indent_append {rest : Text}
    (hrest : ∀ c, rest.head? = some c → isSpace c = false) :
    indent (text ++ rest) = indent text := by
  have hnil : rest.takeWhile isSpace = [] := by
    cases rest with
    | nil => rfl
    | cons c rest => simp [hrest c rfl]
  rw [indent, List.takeWhile_append, hnil, List.append_nil]
  split
  · next hall => exact hall.symm
  · rfl

theorem length_le_indent (hbefore : Blank before) (rest : Text) :
    before.length ≤ indent (before ++ rest) := by
  rw [indent, List.takeWhile_append_of_pos hbefore, List.length_append]
  exact Nat.le_add_right _ _

theorem trimmed_eq (hbefore : Blank before) (hcore : Tight core)
    (hafter : Blank after) : trimmed (before ++ (core ++ after)) = core := by
  rw [trimmed, dropWhile_append_tight hbefore hcore,
    rdropWhile_append_blank hcore.ends hafter]

theorem tight_trimmed (h : ¬Blank text) : Tight (trimmed text) := by
  have hdrop : text.dropWhile isSpace ≠ [] := by
    rwa [Ne, List.dropWhile_eq_nil_iff]
  obtain ⟨c, rest, hrest⟩ := List.exists_cons_of_ne_nil hdrop
  have hc : isSpace c = false := by
    have hhead := List.head_dropWhile_not isSpace hdrop
    simpa [hrest] using hhead
  have htrimmed : trimmed text ≠ [] := by
    intro hnil
    rw [trimmed, List.rdropWhile_eq_nil_iff] at hnil
    have hspace := hnil c (by rw [hrest]; exact List.mem_cons_self)
    rw [hc] at hspace
    cases hspace
  refine ⟨?_, ?_⟩
  · obtain ⟨d, rest', hrest'⟩ := List.exists_cons_of_ne_nil htrimmed
    have hprefix : trimmed text <+: c :: rest := by
      rw [← hrest]
      exact List.rdropWhile_prefix _ _
    rw [hrest', List.cons_prefix_cons] at hprefix
    exact ⟨d, rest', hrest', hprefix.1 ▸ hc⟩
  · refine ⟨_, _, (List.dropLast_append_getLast htrimmed).symm, ?_⟩
    exact Bool.eq_false_iff.mpr
      (List.rdropWhile_last_not isSpace _ htrimmed)

/-- A text is blank, or some other character is the first and some the
last. -/
theorem blank_or_tight (text : Text) :
    Blank text ∨ ∃ before core after, text = before ++ (core ++ after) ∧
      Blank before ∧ Tight core ∧ Blank after := by
  by_cases hblank : Blank text
  · exact .inl hblank
  · refine .inr ⟨text.takeWhile isSpace, trimmed text,
      (text.dropWhile isSpace).rtakeWhile isSpace, ?_, ?_,
      tight_trimmed hblank, ?_⟩
    · rw [trimmed, List.rdropWhile_append_rtakeWhile,
        List.takeWhile_append_dropWhile]
    · intro c hc
      exact List.mem_takeWhile_imp hc
    · intro c hc
      exact List.mem_rtakeWhile_imp hc

theorem of_isSpace {P : Char → Bool}
    (hall : [' ', '\t', '\n', '\x0b', '\x0c', '\r'].all P = true) {c : Char}
    (hc : isSpace c = true) : P c = true := by
  rw [List.all_eq_true] at hall
  refine hall c ?_
  simpa [isSpace, or_assoc] using hc

end WhiteSpace

/-! ## Numbers -/

theorem isDigit_digitChar {d : ℕ} (hd : d < 10) :
    (Nat.digitChar d).isDigit = true ∧ digitValue (Nat.digitChar d) = d := by
  interval_cases d <;> decide

theorem isSpace_of_isDigit {c : Char} (hc : c.isDigit = true) :
    isSpace c = false := by
  rw [Bool.eq_false_iff]
  intro hspace
  have hnot := of_isSpace (P := fun c => !c.isDigit) (by decide) hspace
  simp [hc] at hnot

theorem takeSign_of_ne {c : Char} (hminus : c ≠ '-') (hplus : c ≠ '+')
    (text : Text) : takeSign (c :: text) = (false, c :: text) := by
  rw [takeSign]
  · rintro _ ⟨⟩
    exact hminus rfl
  · rintro _ ⟨⟩
    exact hplus rfl

theorem takeSign_of_isDigit {c : Char} (hc : c.isDigit = true)
    (text : Text) :
    takeSign ((c :: text).dropWhile isSpace) = (false, c :: text) := by
  rw [List.dropWhile_cons_of_neg (by simp [isSpace_of_isDigit hc])]
  apply takeSign_of_ne
  · rintro rfl
    cases hc
  · rintro rfl
    cases hc

theorem stoi_blank_append {before : Text}
    (hbefore : Blank before) (text : Text) :
    stoi (before ++ text) = stoi text := by
  rw [stoi, List.dropWhile_append_of_pos hbefore, stoi]

theorem dropWhile_of_literal {number : ℤ} (h : literal text = some number) :
    text.dropWhile isSpace = text := by
  cases text with
  | nil => rfl
  | cons c rest =>
      refine List.dropWhile_cons_of_neg ?_
      intro hspace
      have hnot := of_isSpace (P := fun c => c != '-' && c != '+') (by decide)
        hspace
      rw [Bool.and_eq_true, bne_iff_ne, bne_iff_ne] at hnot
      have hsign := takeSign_of_ne hnot.1 hnot.2 rest
      rw [literal, hsign] at h
      simp only [Option.ite_none_right_eq_some, List.all_eq_true] at h
      rw [isSpace_of_isDigit (h.1.2 c List.mem_cons_self)] at hspace
      cases hspace

theorem stoi_of_literal {number n : ℤ} (h : literal text = some number)
    (hstoi : stoi text = .ok n) : n = number := by
  rw [stoi, dropWhile_of_literal h] at hstoi
  rw [literal] at h
  generalize takeSign text = signed at h hstoi
  obtain ⟨negative, digits⟩ := signed
  simp only [Option.ite_none_right_eq_some, Option.some.injEq,
    List.all_eq_true] at h
  obtain ⟨⟨hne, hdigits⟩, rfl⟩ := h
  simp only [List.takeWhile_eq_self_iff.mpr hdigits, if_neg hne] at hstoi
  generalize (if negative = true then -(digitsFrom 0 digits : ℤ)
    else digitsFrom 0 digits) = value at hstoi ⊢
  split at hstoi
  · exact (Except.ok.inj hstoi).symm
  · cases hstoi

theorem stoi_threeDigits {n : ℕ} (hn : n < 1000) :
    stoi (threeDigits n) = .ok n := by
  obtain ⟨hdigit₁, hvalue₁⟩ := isDigit_digitChar (d := n / 100) (by omega)
  obtain ⟨hdigit₂, hvalue₂⟩ :=
    isDigit_digitChar (d := n / 10 % 10) (by omega)
  obtain ⟨hdigit₃, hvalue₃⟩ := isDigit_digitChar (d := n % 10) (by omega)
  have hvalue : ((0 * 10 + n / 100) * 10 + n / 10 % 10) * 10 + n % 10 =
      n := by
    omega
  have hrange : -2 ^ 31 ≤ (n : ℤ) ∧ (n : ℤ) < 2 ^ 31 := by
    omega
  rw [threeDigits, stoi, takeSign_of_isDigit hdigit₁]
  simp only [List.takeWhile_cons, hdigit₁, hdigit₂, hdigit₃, if_true,
    List.takeWhile_nil, reduceCtorEq, if_false, digitsFrom, List.foldl_cons,
    List.foldl_nil, hvalue₁, hvalue₂, hvalue₃, hvalue, Bool.false_eq_true,
    hrange, and_self]

theorem threeDigits_injective {m n : ℕ} (hm : m < 1000) (hn : n < 1000)
    (h : threeDigits m = threeDigits n) : m = n := by
  have hread := (stoi_threeDigits hm).symm.trans
    (h ▸ stoi_threeDigits hn)
  exact_mod_cast Except.ok.inj hread

theorem notMem_threeDigits {n : ℕ} (hn : n < 1000)
    (hc : c.isDigit = false) : c ∉ threeDigits n := by
  have hne : ∀ {d}, d < 10 → c ≠ Nat.digitChar d := by
    rintro d hd rfl
    rw [(isDigit_digitChar hd).1] at hc
    cases hc
  simp [threeDigits, hne (d := n / 100) (by omega),
    hne (d := n / 10 % 10) (by omega), hne (d := n % 10) (by omega)]

theorem digitsFrom_eq (value : ℕ) (digits : Text) :
    digitsFrom value digits = Nat.ofDigitChars 10 digits value := by
  rw [digitsFrom, Nat.ofDigitChars_eq_foldl]
  have hstep : (fun (value : ℕ) c => value * 10 + digitValue c) =
      fun value c => 10 * value + (c.toNat - '0'.toNat) := by
    funext value c
    rw [Nat.mul_comm]
    rfl
  rw [hstep]

theorem isDigit_of_mem_decimal {n : ℕ} {c : Char} (hc : c ∈ decimal n) :
    c.isDigit = true :=
  Nat.isDigit_of_mem_toDigits (by decide) (by decide) hc

theorem notMem_decimal {n : ℕ} {c : Char} (hc : c.isDigit = false) :
    c ∉ decimal n := by
  intro hmem
  rw [isDigit_of_mem_decimal hmem] at hc
  cases hc

theorem stoul_decimal {n : ℕ} (hn : n < 2 ^ 64) :
    stoul (decimal n) = .ok n := by
  have hne : decimal n ≠ [] := Nat.toDigits_ne_nil
  have hdigits : (decimal n).takeWhile Char.isDigit = decimal n :=
    List.takeWhile_eq_self_iff.mpr fun c hc => isDigit_of_mem_decimal hc
  have hvalue : digitsFrom 0 (decimal n) = n := by
    rw [digitsFrom_eq, decimal]
    exact Nat.ofDigitChars_toDigits (by decide) (by decide)
  have hsign : takeSign ((decimal n).dropWhile isSpace) =
      (false, decimal n) := by
    obtain ⟨c, text, htext⟩ := List.exists_cons_of_ne_nil hne
    have hc := isDigit_of_mem_decimal (n := n) (htext ▸ List.mem_cons_self)
    rw [htext]
    exact takeSign_of_isDigit hc text
  rw [stoul, hsign]
  simp only [hdigits, hne, if_false, hvalue, Nat.not_le.mpr hn,
    Bool.false_eq_true]

/-! ## Pieces and lines -/

section Pieces

variable {separator : Char} {piece line rest : Text}

theorem piecesFrom_of_notMem (h : separator ∉ text) :
    piecesFrom separator piece text = [piece ++ text] := by
  induction text generalizing piece with
  | nil => simp [piecesFrom]
  | cons a text ih =>
      rw [List.mem_cons, not_or] at h
      rw [piecesFrom, if_neg (Ne.symm h.1), ih h.2]
      simp

theorem piecesFrom_append (h : separator ∉ text) :
    piecesFrom separator piece (text ++ separator :: rest) =
      (piece ++ text) :: piecesFrom separator [] rest := by
  induction text generalizing piece with
  | nil => simp [piecesFrom]
  | cons a text ih =>
      rw [List.mem_cons, not_or] at h
      rw [List.cons_append, piecesFrom, if_neg (Ne.symm h.1), ih h.2]
      simp

theorem piecesFrom_append_left {before : Text} (h : separator ∉ before)
    (text : Text) :
    ∃ p ps, piecesFrom separator [] text = p :: ps ∧
      piecesFrom separator [] (before ++ text) = (before ++ p) :: ps := by
  by_cases hmem : separator ∈ text
  · obtain ⟨p, rest, rfl, hp⟩ := List.eq_append_cons_of_mem hmem
    have hbefore : separator ∉ before ++ p := by
      simp [h, hp]
    refine ⟨p, _, piecesFrom_append hp, ?_⟩
    rw [← List.append_assoc, piecesFrom_append hbefore]
    rfl
  · have hbefore : separator ∉ before ++ text := by
      simp [h, hmem]
    exact ⟨text, [], piecesFrom_of_notMem hmem,
      piecesFrom_of_notMem hbefore⟩

theorem notMem_piecesFrom (hpiece : separator ∉ piece) {p : Text}
    (hp : p ∈ piecesFrom separator piece text) : separator ∉ p := by
  induction text generalizing piece with
  | nil =>
      obtain rfl := List.mem_singleton.mp hp
      exact hpiece
  | cons a text ih =>
      rw [piecesFrom] at hp
      split at hp
      · rcases List.mem_cons.mp hp with rfl | hp
        · exact hpiece
        · exact ih (by simp) hp
      · next hne => exact ih (by simp [hpiece, Ne.symm hne]) hp

theorem piecesFrom_begins (separator : Char) (piece text : Text) :
    ∃ p ps rest, piecesFrom separator piece text = p :: ps ∧
      piece ++ text = p ++ rest ∧ ∀ c, rest.head? = some c → c = separator := by
  induction text generalizing piece with
  | nil => exact ⟨piece, [], [], rfl, rfl, by simp⟩
  | cons a text ih =>
      rw [piecesFrom]
      split
      · next ha => exact ⟨piece, _, a :: text, rfl, rfl, by simp [ha]⟩
      · obtain ⟨p, ps, rest, hpieces, htext, hrest⟩ := ih (piece ++ [a])
        exact ⟨p, ps, rest, hpieces, by rw [← htext]; simp, hrest⟩

theorem linesFrom_append (h : '\n' ∉ text) :
    linesFrom line (text ++ '\n' :: rest) =
      (line ++ text) :: linesFrom [] rest := by
  induction text generalizing line with
  | nil => simp [linesFrom]
  | cons a text ih =>
      rw [List.mem_cons, not_or] at h
      rw [List.cons_append, linesFrom, if_neg (Ne.symm h.1), ih h.2]
      simp

theorem notMem_linesFrom (hline : '\n' ∉ line) {l : Text}
    (hl : l ∈ linesFrom line text) : '\n' ∉ l := by
  induction text generalizing line with
  | nil =>
      rw [linesFrom] at hl
      split at hl
      · cases hl
      · obtain rfl := List.mem_singleton.mp hl
        exact hline
  | cons a text ih =>
      rw [linesFrom] at hl
      split at hl
      · rcases List.mem_cons.mp hl with rfl | hl
        · exact hline
        · exact ih (by simp) hl
      · next hne => exact ih (by simp [hline, Ne.symm hne]) hl

theorem lines_flatMap {α : Type} {f : α → Text} {items : List α}
    (h : ∀ a ∈ items, '\n' ∉ f a) :
    lines (items.flatMap fun a => f a ++ ['\n']) = items.map f := by
  induction items with
  | nil => rfl
  | cons a items ih =>
      obtain ⟨ha, hitems⟩ := List.forall_mem_cons.mp h
      rw [lines, List.flatMap_cons, List.append_assoc, List.singleton_append,
        linesFrom_append ha]
      exact congrArg _ (ih hitems)

end Pieces

end Text
