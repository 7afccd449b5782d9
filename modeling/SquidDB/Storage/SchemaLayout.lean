import SquidDB.Storage.Schema

/-!
# The layout of rows

`Schema::addColumn` keeps the offset of a column under its name and the total
size, both in 16 bits.  The offsets are the sums of the sizes in front as long
as these sums fit, and as long as no later column has taken over the name.
-/

namespace SquidDB.Storage

open Checked

namespace Schema

variable {columns before between after : List Column} {c d : Column}

/-! ## Offsets by name -/

theorem offset_ofColumns (hafter : ∀ d ∈ after, d.name ≠ c.name) :
    (ofColumns (before ++ c :: after)).offset c.name =
      some (sizeSum before % 2 ^ 16) := by
  induction after using List.reverseRecOn with
  | nil =>
      rw [ofColumns_concat]
      simp [addColumn, totalSize_ofColumns]
  | append_singleton after d ih =>
      have hd : d.name ≠ c.name := hafter d (by simp)
      have hrest := ih fun e he => hafter e (List.mem_append_left _ he)
      rw [← List.cons_append, ← List.append_assoc, ofColumns_concat]
      simp only [addColumn, Function.update_of_ne hd.symm, hrest]

theorem getOffset_ofColumns (hafter : ∀ d ∈ after, d.name ≠ c.name)
    (hsum : sizeSum before < 2 ^ 16) :
    (ofColumns (before ++ c :: after)).getOffset c.name =
      .ok (sizeSum before) := by
  rw [getOffset, offset_ofColumns hafter, Nat.mod_eq_of_lt hsum]

section Reads

variable {schema : Schema} {columnName : Text} {offset : ℕ} (row : RowBuffer)

theorem readInt32_of_getOffset
    (hoffset : schema.getOffset columnName = .ok offset) :
    schema.readInt32 columnName row = (row.readInt32 offset).map .ok := by
  rw [readInt32, hoffset]
  simp only
  cases row.readInt32 offset <;> rfl

theorem readInt64_of_getOffset
    (hoffset : schema.getOffset columnName = .ok offset) :
    schema.readInt64 columnName row = (row.readInt64 offset).map .ok := by
  rw [readInt64, hoffset]
  simp only
  cases row.readInt64 offset <;> rfl

end Reads

theorem exists_last_name (c : Column) (after : List Column) :
    (∀ d ∈ after, d.name ≠ c.name) ∨
      ∃ (between : List Column) (d : Column) (rest : List Column),
        after = between ++ d :: rest ∧ d.name = c.name ∧
        ∀ e ∈ rest, e.name ≠ c.name := by
  induction after with
  | nil => exact .inl (by simp)
  | cons d after ih =>
      rcases ih with hnone | ⟨between, e, rest, rfl, he, hrest⟩
      · by_cases hd : d.name = c.name
        · exact .inr ⟨[], d, after, rfl, hd, hnone⟩
        · exact .inl (List.forall_mem_cons.mpr ⟨hd, hnone⟩)
      · exact .inr ⟨d :: between, e, rest, rfl, he, hrest⟩

theorem primarySize_ofColumns (hprimary : c.keyType = .primary)
    (hafter : ∀ d ∈ after, d.keyType ≠ .primary) :
    (ofColumns (before ++ c :: after)).primarySize = c.size := by
  induction after using List.reverseRecOn with
  | nil =>
      rw [ofColumns_concat]
      simp [addColumn, hprimary]
  | append_singleton after d ih =>
      have hd : d.keyType ≠ .primary := hafter d (by simp)
      have hrest := ih fun e he => hafter e (List.mem_append_left _ he)
      rw [← List.cons_append, ← List.append_assoc, ofColumns_concat]
      simp [addColumn, hd, hrest]

theorem sizeSum_eq_zero_iff :
    sizeSum columns = 0 ↔ ∀ c ∈ columns, c.size = 0 := by
  rw [sizeSum, List.sum_eq_zero_iff]
  simp

/-! ## Distinct names -/

/-- The bytes of a column. -/
def occupied (schema : Schema) (column : Column) : Set ℕ :=
  { position | ∃ offset, schema.getOffset column.name = .ok offset ∧
      offset ≤ position ∧ position < offset + column.size }

/-- The row of a schema is laid out without gaps or overlaps. -/
structure LaidOut (columns : List Column) : Prop where
  offset : ∀ (before : List Column) (c : Column) (after : List Column),
    columns = before ++ c :: after →
      (ofColumns columns).getOffset c.name = .ok (sizeSum before)
  totalSize : (ofColumns columns).getTotalSize = sizeSum columns
  consecutive : ∀ (before : List Column) (c d : Column) (after : List Column),
    columns = before ++ c :: d :: after →
      ∃ offset, (ofColumns columns).getOffset c.name = .ok offset ∧
        (ofColumns columns).getOffset d.name = .ok (offset + c.size)
  disjoint : ∀ (before : List Column) (c : Column) (between : List Column)
    (d : Column) (after : List Column),
    columns = before ++ c :: (between ++ d :: after) →
      Disjoint ((ofColumns columns).occupied c)
        ((ofColumns columns).occupied d)
  inside : ∀ c ∈ columns, ∀ position ∈ (ofColumns columns).occupied c,
    position < (ofColumns columns).getTotalSize

theorem mem_occupied {schema : Schema} {offset position : ℕ}
    (hoffset : schema.getOffset c.name = .ok offset) :
    position ∈ schema.occupied c ↔
      offset ≤ position ∧ position < offset + c.size := by
  simp [occupied, hoffset]

theorem name_ne_of_nodup
    (hnames : ((before ++ c :: after).map Column.name).Nodup) :
    ∀ d ∈ after, d.name ≠ c.name := by
  intro d hd hequal
  rw [List.map_append, List.map_cons, List.nodup_append,
    List.nodup_cons] at hnames
  exact hnames.2.1.1 (hequal ▸ List.mem_map_of_mem hd)

theorem getOffset_of_nodup (hsum : sizeSum columns < 2 ^ 16)
    (hnames : (columns.map Column.name).Nodup)
    (hcolumns : columns = before ++ c :: after) :
    (ofColumns columns).getOffset c.name = .ok (sizeSum before) := by
  subst hcolumns
  rw [sizeSum_append] at hsum
  exact getOffset_ofColumns (name_ne_of_nodup hnames) (by omega)

/-- With distinct names the layout is as it should be exactly when the sum of
the sizes fits 16 bits. -/
theorem laidOut_iff (hnames : (columns.map Column.name).Nodup) :
    LaidOut columns ↔ sizeSum columns < 2 ^ 16 := by
  constructor
  · intro hlaid
    have htotal := hlaid.totalSize
    rw [getTotalSize, totalSize_ofColumns] at htotal
    rw [← htotal]
    exact Nat.mod_lt _ (by decide)
  · intro hsum
    have htotal : (ofColumns columns).getTotalSize = sizeSum columns := by
      rw [getTotalSize, totalSize_ofColumns, Nat.mod_eq_of_lt hsum]
    have hoffset : ∀ (before : List Column) (c : Column) (after : List Column),
        columns = before ++ c :: after →
          (ofColumns columns).getOffset c.name = .ok (sizeSum before) :=
      fun before c after => getOffset_of_nodup hsum hnames
    refine ⟨hoffset, htotal, ?_, ?_, ?_⟩
    · intro before c d after hcolumns
      refine ⟨sizeSum before, hoffset before c (d :: after) hcolumns, ?_⟩
      have hd := hoffset (before ++ [c]) d after (by simp [hcolumns])
      rw [hd, sizeSum_append, sizeSum_cons]
      rfl
    · intro before c between d after hcolumns
      have hc := hoffset before c _ hcolumns
      have hd := hoffset (before ++ c :: between) d after
        (by simp [hcolumns])
      rw [Set.disjoint_left]
      intro position hposition
      rw [mem_occupied hc] at hposition
      rw [mem_occupied hd, sizeSum_append, sizeSum_cons]
      omega
    · intro c hc position hposition
      obtain ⟨before, after, rfl⟩ := List.append_of_mem hc
      rw [mem_occupied (hoffset before c after rfl)] at hposition
      rw [htotal, sizeSum_append, sizeSum_cons]
      omega

/-- Two columns whose sizes add up to 65535. -/
theorem laidOut_iff_two_columns :
    LaidOut [⟨"key".toList, 4, .int32, .primary⟩,
      ⟨"value".toList, 65531, .string, .none⟩] :=
  (laidOut_iff (by decide)).mpr (by decide)

/-- Two columns whose sizes add up to 65536. -/
def wideColumns : List Column :=
  [⟨"key".toList, 65535, .int32, .primary⟩,
    ⟨"value".toList, 1, .string, .none⟩]

/-- Their total size wraps around to 0. -/
theorem not_laidOut_wideColumns :
    ¬∀ columns : List Column, (∀ c ∈ columns, c.size < 2 ^ 16) →
      (columns.map Column.name).Nodup → LaidOut columns := by
  intro hlaidOut
  have hlaid := hlaidOut wideColumns (by simp [wideColumns]) (by decide)
  have htotal := hlaid.totalSize
  rw [getTotalSize, totalSize_ofColumns] at htotal
  simp [wideColumns, sizeSum] at htotal

/-! ## Repeated names -/

/-- Looking a column up by its name finds the bytes that its position and, for
the only primary column, the cached fields assign to it. -/
structure NamesAgree (columns : List Column) : Prop where
  offset : ∀ (before : List Column) (c : Column) (after : List Column),
    columns = before ++ c :: after →
      (ofColumns columns).getOffset c.name = .ok (sizeSum before)
  primary : ∀ (before : List Column) (c : Column) (after : List Column),
    columns = before ++ c :: after → c.keyType = .primary →
    (∀ d ∈ before ++ after, d.keyType ≠ .primary) →
      (ofColumns columns).getOffset c.name =
          .ok (ofColumns columns).getPrimaryOffset ∧
        (ofColumns columns).getPrimarySize = c.size
  int32 : ∀ (before : List Column) (c : Column) (after : List Column)
    (row : RowBuffer), columns = before ++ c :: after →
      (ofColumns columns).readInt32 c.name row =
        (row.readInt32 (sizeSum before)).map .ok
  int64 : ∀ (before : List Column) (c : Column) (after : List Column)
    (row : RowBuffer), columns = before ++ c :: after →
      (ofColumns columns).readInt64 c.name row =
        (row.readInt64 (sizeSum before)).map .ok

theorem getOffset_of_shadowed
    (hcolumns : columns = before ++ c :: after)
    (hsum : sizeSum columns < 2 ^ 16)
    (hempty : ∀ (between : List Column) (d : Column) (rest : List Column),
      after = between ++ d :: rest → d.name = c.name →
        ∀ e ∈ c :: between, e.size = 0) :
    (ofColumns columns).getOffset c.name = .ok (sizeSum before) := by
  rw [hcolumns, sizeSum_append] at hsum
  rcases exists_last_name c after with
    hlast | ⟨between, d, rest, rfl, hname, hrest⟩
  · rw [hcolumns]
    exact getOffset_ofColumns hlast (by omega)
  · have hzero : sizeSum (c :: between) = 0 :=
      sizeSum_eq_zero_iff.mpr (hempty between d rest rfl hname)
    have hoffset : (ofColumns ((before ++ c :: between) ++ d :: rest)).getOffset
        d.name = .ok (sizeSum (before ++ c :: between)) := by
      apply getOffset_ofColumns
      · intro e he
        exact hname ▸ hrest e he
      · rw [sizeSum_append]
        omega
    rw [hcolumns, ← hname]
    simpa [sizeSum_append, hzero] using hoffset

/-- When the sum of the sizes fits, names agree with positions exactly when
columns of one name have only empty columns between them, the first of them
included. -/
theorem namesAgree_iff (hsum : sizeSum columns < 2 ^ 16) :
    NamesAgree columns ↔
      ∀ (before : List Column) (c : Column) (between : List Column)
        (d : Column) (after : List Column),
        columns = before ++ c :: (between ++ d :: after) → d.name = c.name →
          ∀ e ∈ c :: between, e.size = 0 := by
  constructor
  · intro hagree before c between d after hcolumns hname
    have hc := hagree.offset before c _ hcolumns
    have hd := hagree.offset (before ++ c :: between) d after
      (by simp [hcolumns])
    rw [hname, hc, Except.ok.injEq, sizeSum_append] at hd
    rw [← sizeSum_eq_zero_iff]
    omega
  · intro hempty
    have hoffset : ∀ (before : List Column) (c : Column) (after : List Column),
        columns = before ++ c :: after →
          (ofColumns columns).getOffset c.name = .ok (sizeSum before) := by
      intro before c after hcolumns
      apply getOffset_of_shadowed hcolumns hsum
      rintro between d rest rfl hname
      exact hempty before c between d rest hcolumns hname
    refine ⟨hoffset, ?_, ?_, ?_⟩
    · intro before c after hcolumns hprimary hothers
      have hafter : ∀ d ∈ after, d.keyType ≠ .primary :=
        fun d hd => hothers d (List.mem_append_right _ hd)
      have hbefore : sizeSum before < 2 ^ 16 := by
        rw [hcolumns, sizeSum_append] at hsum
        omega
      refine ⟨?_, ?_⟩
      · rw [hoffset before c after hcolumns, hcolumns, getPrimaryOffset,
          primaryOffset_ofColumns hprimary hafter, Nat.mod_eq_of_lt hbefore]
      · rw [hcolumns]
        exact primarySize_ofColumns hprimary hafter
    · intro before c after row hcolumns
      exact readInt32_of_getOffset row (hoffset before c after hcolumns)
    · intro before c after row hcolumns
      exact readInt64_of_getOffset row (hoffset before c after hcolumns)

/-- Two columns of the same name, the first one of size 0. -/
theorem namesAgree_iff_empty_homonym :
    NamesAgree [⟨"key".toList, 0, .string, .none⟩,
      ⟨"key".toList, 4, .int32, .primary⟩] := by
  refine (namesAgree_iff (by decide)).mpr ?_
  rintro (_ | ⟨_, _ | ⟨_, before⟩⟩) c (_ | ⟨_, between⟩) d after hsplit -
  · cases hsplit
    simp
  · simp at hsplit
  · simp at hsplit
  · simp at hsplit
  · simp at hsplit
  · simp at hsplit

/-- A primary column and a later column of the same name. -/
def homonyms : List Column :=
  [⟨"key".toList, 4, .int32, .primary⟩, ⟨"key".toList, 4, .int32, .none⟩]

theorem not_namesAgree_homonyms :
    ¬∀ columns : List Column, sizeSum columns < 2 ^ 16 →
      NamesAgree columns := by
  intro hagree
  have hoffset := (hagree homonyms (by decide)).offset [] _ _ rfl
  have hlater : (ofColumns homonyms).getOffset "key".toList = .ok 4 := rfl
  rw [hlater] at hoffset
  cases hoffset

end Schema

end SquidDB.Storage
