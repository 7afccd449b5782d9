import SquidDB.Storage.FileManager

/-!
# File names

The name of a file determines its table, its number and its extension, and
`getSequenceNumber` reads back the number that `addFile` has printed.
-/

namespace SquidDB.Storage

/-! ## Components -/

/-- The last component of a path. -/
def lastComponent (filePath : Text) : Text :=
  match Text.findLastOf '/' filePath with
  | none => filePath
  | some i => filePath.drop (i + 1)

/-- The paths that lead into the directory. -/
inductive LeadsTo (dataPath fileName : Text) : Text → Prop where
  | slash : LeadsTo dataPath fileName (dataPath ++ '/' :: fileName)
  | direct (h : ∃ base, dataPath = base ++ ['/']) :
      LeadsTo dataPath fileName (dataPath ++ fileName)
  | bare (h : dataPath = []) : LeadsTo dataPath fileName fileName

theorem joinPath_leadsTo (dataPath fileName : Text) :
    LeadsTo dataPath fileName (joinPath dataPath fileName) := by
  rw [joinPath]
  rcases hlast : dataPath.getLast? with _ | c
  · exact .bare (List.getLast?_eq_none_iff.mp hlast)
  · by_cases hc : c = '/'
    · subst hc
      simp only [if_true]
      obtain ⟨base, hbase⟩ := List.getLast?_eq_some_iff.mp hlast
      exact .direct ⟨base, hbase⟩
    · simp only [hc, if_false]
      exact .slash

theorem LeadsTo.lastComponent_eq {dataPath fileName filePath : Text}
    (h : LeadsTo dataPath fileName filePath) (hname : '/' ∉ fileName) :
    lastComponent filePath = fileName := by
  cases h with
  | slash =>
      rw [lastComponent, Text.findLastOf_append _ hname]
      simp
  | direct h =>
      obtain ⟨base, rfl⟩ := h
      rw [List.append_assoc, List.singleton_append, lastComponent,
        Text.findLastOf_append _ hname]
      simp
  | bare h => rw [lastComponent, Text.findLastOf_eq_none hname]

theorem LeadsTo.exists_front {dataPath fileName filePath : Text}
    (h : LeadsTo dataPath fileName filePath) :
    ∃ front, filePath = front ++ fileName := by
  cases h with
  | slash => exact ⟨dataPath ++ ['/'], by simp⟩
  | direct h => exact ⟨dataPath, rfl⟩
  | bare h => exact ⟨[], rfl⟩

/-! ## Numbers in paths -/

theorem getSequenceNumber_of_dots (base : Text) {digits tail : Text}
    (hdigits : '.' ∉ digits) (htail : '.' ∉ tail) {num : ℤ}
    (hnum : Text.stoi digits = .ok num) (hpos : 0 ≤ num)
    (hle : num ≤ 255) :
    FileManager.getSequenceNumber (base ++ '.' :: digits ++ '.' :: tail) =
      .ok (UInt8.ofNat num.toNat) := by
  have hlast := Text.findLastOf_append (base ++ '.' :: digits) htail
  have hprev := Text.findLastOf_append base hdigits
  have hzero : (base ++ '.' :: digits).length ≠ 0 := by
    simp
  have hstart : base.length + 1 ≤ (base ++ '.' :: digits).length := by
    simp
  have hnumString : ((base ++ '.' :: digits ++ '.' :: tail).drop
        (base.length + 1)).take
      ((base ++ '.' :: digits).length - (base.length + 1)) = digits := by
    have hlen : (base ++ '.' :: digits).length - (base.length + 1) =
        digits.length := by
      rw [List.length_append, List.length_cons]
      omega
    have hdrop : (base ++ '.' :: digits ++ '.' :: tail).drop
        (base.length + 1) = digits ++ '.' :: tail := by
      simp
    rw [hlen, hdrop, List.take_left]
  have hrange : ¬(num < 0 ∨ num > 255) := by
    omega
  simp only [FileManager.getSequenceNumber, hlast, hzero, if_false,
    List.take_left, hprev, hstart, if_true, hnumString, hnum]
  change (if num < 0 ∨ num > 255 then _ else _) = _
  rw [if_neg hrange]

/-! ## Names -/

/-- The two kinds of files of a table. -/
inductive FileKind where
  | ls
  | vs
  deriving DecidableEq, Repr

/-- The extension of the files of a kind. -/
def FileKind.extension : FileKind → Text
  | .ls => ".ls".toList
  | .vs => ".vs".toList

/-- The name of a file of a table. -/
def fileName (tableName : TableName) (kind : FileKind)
    (sequenceNumber : UInt8) : Text :=
  tableName.text ++ '.' :: (Text.threeDigits sequenceNumber.toNat ++
    kind.extension)

section Names

variable {t u : TableName} {kind kind' : FileKind} {m n : UInt8}

theorem FileKind.exists_tail (kind : FileKind) :
    ∃ tail, kind.extension = '.' :: tail ∧ '.' ∉ tail ∧
      '/' ∉ kind.extension ∧ tail.length = 2 := by
  cases kind with
  | ls => exact ⟨['l', 's'], rfl, by decide, by decide, rfl⟩
  | vs => exact ⟨['v', 's'], rfl, by decide, by decide, rfl⟩

theorem FileKind.extension_injective
    (h : kind.extension = kind'.extension) : kind = kind' := by
  cases kind <;> cases kind' <;> first | rfl | exact absurd h (by decide)

theorem toNat_lt_thousand (n : UInt8) : n.toNat < 1000 := by
  have := n.toNat_lt
  omega

theorem slash_notMem_fileName : '/' ∉ fileName t kind n := by
  obtain ⟨tail, -, -, hslash, -⟩ := kind.exists_tail
  have hdigits : '/' ∉ Text.threeDigits n.toNat :=
    Text.notMem_threeDigits (toNat_lt_thousand n) (by decide)
  simp only [fileName, List.mem_append, List.mem_cons, not_or]
  exact ⟨t.component.1, by decide, hdigits, hslash⟩

theorem prefix_fileName : t.text <+: fileName t kind n :=
  List.prefix_append _ _

/-- Table, kind and number can be read off the name. -/
theorem fileName_injective (heq : fileName t kind m = fileName u kind' n) :
    t = u ∧ kind = kind' ∧ m = n := by
  obtain ⟨tail, hext, -, -, htail⟩ := kind.exists_tail
  obtain ⟨tail', hext', -, -, htail'⟩ := kind'.exists_tail
  have hlen : ('.' :: (Text.threeDigits m.toNat ++ kind.extension)).length =
      ('.' :: (Text.threeDigits n.toNat ++ kind'.extension)).length := by
    simp [Text.threeDigits, hext, hext', htail, htail']
  obtain ⟨htext, hrest⟩ := List.append_inj' heq hlen
  obtain ⟨hdigits, hextension⟩ := List.append_inj
    (List.cons.inj hrest).2 rfl
  have hnumber := Text.threeDigits_injective (toNat_lt_thousand m)
    (toNat_lt_thousand n) hdigits
  refine ⟨?_, FileKind.extension_injective hextension,
    UInt8.toNat_inj.mp hnumber⟩
  cases t
  cases u
  simp_all

theorem fileExtension_fileName :
    fileExtension (fileName t kind n) = kind.extension := by
  obtain ⟨tail, hext, hdot, -, htail⟩ := kind.exists_tail
  have hsplit : fileName t kind n =
      (t.text ++ '.' :: Text.threeDigits n.toNat) ++ '.' :: tail := by
    simp [fileName, hext]
  have hne : ∀ name ∈ [".".toList, "..".toList],
      fileName t kind n ≠ name := by
    intro name hname heq
    have hlen := congrArg List.length heq
    simp only [List.mem_cons, List.not_mem_nil, or_false] at hname
    rcases hname with rfl | rfl <;>
      simp [fileName, Text.threeDigits] at hlen <;> omega
  rw [fileExtension, if_neg (by
    rintro (heq | heq)
    · exact hne _ (by simp) heq
    · exact hne _ (by simp) heq)]
  rw [hsplit, Text.findLastOf_append _ hdot]
  have hpos : (t.text ++ '.' :: Text.threeDigits n.toNat).length ≠ 0 := by
    simp
  split
  · next heq => cases heq
  · next heq => exact absurd (Option.some.inj heq) hpos
  · next i _ heq =>
      obtain rfl := Option.some.inj heq
      simp [hext]

theorem getSequenceNumber_fileName (front : Text) :
    FileManager.getSequenceNumber (front ++ fileName t kind n) = .ok n := by
  obtain ⟨tail, hext, hdot, -, -⟩ := kind.exists_tail
  have hnot : '.' ∉ Text.threeDigits n.toNat :=
    Text.notMem_threeDigits (toNat_lt_thousand n) (by decide)
  have hread := getSequenceNumber_of_dots (front ++ t.text) hnot hdot
    (Text.stoi_threeDigits (toNat_lt_thousand n)) (by omega)
    (by have := n.toNat_lt; omega)
  rw [Int.toNat_natCast, UInt8.ofNat_toNat] at hread
  rw [← hread]
  simp [fileName, hext]

end Names

end SquidDB.Storage
