import SquidDB.Lib.Circle
import SquidDB.Storage.FileNumbering

/-!
# The sequence of the files

`initialize` orders the log files and the value files that it finds, each kind
by itself; `validate` checks that both kinds carry the same numbers, one after
the other.  The check succeeds exactly when the directory holds the same
numbers of both kinds, without a hole.
-/

namespace SquidDB.Storage

open Checked Circle

namespace FileManager

/-! ## The check -/

/-- The number `validate` expects behind `sequenceNumber`. -/
def followingNumber (sequenceNumber : UInt8) : UInt8 :=
  if sequenceNumber = 255 then 0 else sequenceNumber + 1

/-- The loop of `validate` over the positions of the log files; before the
first file there is no next number. -/
def validateFrom (ndebug : Bool) :
    List StreamFile → List StreamFile → Option UInt8 → Bool → Checked Bool
  | [], _, _, valid => .ok valid
  | _ :: _, [], _, _ => .error .outOfBounds
  | lsFile :: lsFiles, vsFile :: vsFiles, nextSequenceNumber, valid => do
      let lsSequenceNumber := lsFile.sequenceNumber
      let vsSequenceNumber := vsFile.sequenceNumber
      assert ndebug (.ok (decide (lsSequenceNumber = vsSequenceNumber)))
      let valid := valid && decide (lsSequenceNumber = vsSequenceNumber)
      match nextSequenceNumber with
      | none =>
          validateFrom ndebug lsFiles vsFiles
            (some (followingNumber lsSequenceNumber)) valid
      | some next => do
          assert ndebug (.ok (decide (lsSequenceNumber = next)))
          let valid := valid && decide (lsSequenceNumber = next)
          validateFrom ndebug lsFiles vsFiles (some (followingNumber next))
            valid

def validate (ndebug : Bool) (fm : FileManager) : Checked Bool := do
  let valid := decide (fm.lsFiles.length = fm.vsFiles.length)
  assert ndebug (.ok valid)
  validateFrom ndebug fm.lsFiles fm.vsFiles none valid

/-- The files of both kinds have the same numbers, position by position, and
every number is the successor of the one in front of it. -/
structure Sequential (fm : FileManager) : Prop where
  sameNumbers : fm.lsFiles.map StreamFile.sequenceNumber =
    fm.vsFiles.map StreamFile.sequenceNumber
  successive : ∀ kind,
    ((fm.files kind).map StreamFile.sequenceNumber).IsChain Follows

theorem followingNumber_eq (n : UInt8) : followingNumber n = n + 1 := by
  rw [followingNumber]
  split
  · next h =>
      rw [h]
      decide
  · rfl

theorem assert_bind_eq_true {ndebug condition : Bool} {result : Checked Bool}
    (h : result = .ok true → condition = true) :
    ((do
      assert ndebug (.ok condition)
      result) = .ok true) ↔ result = .ok true := by
  constructor
  · intro hresult
    obtain ⟨-, -, hresult⟩ := bind_eq_ok.mp hresult
    exact hresult
  · intro hresult
    rw [h hresult, assert_ok_true]
    exact hresult

theorem valid_of_validateFrom {ndebug : Bool}
    {lsFiles vsFiles : List StreamFile} {next : Option UInt8} {valid : Bool}
    (h : validateFrom ndebug lsFiles vsFiles next valid = .ok true) :
    valid = true := by
  induction lsFiles generalizing vsFiles next valid with
  | nil => exact Except.ok.inj h
  | cons lsFile lsFiles ih =>
      rcases vsFiles with _ | ⟨vsFile, vsFiles⟩
      · cases h
      obtain ⟨-, -, h⟩ := bind_eq_ok.mp h
      cases next with
      | none => exact (Bool.and_eq_true_iff.mp (ih h)).1
      | some n =>
          obtain ⟨-, -, h⟩ := bind_eq_ok.mp h
          have hboth := (Bool.and_eq_true_iff.mp (ih h)).1
          exact (Bool.and_eq_true_iff.mp hboth).1

/-- The loop ends with `true` when it began with it, the numbers agree and
follow each other, and the first one is the one that was expected. -/
theorem validateFrom_eq_true {ndebug : Bool}
    {lsFiles vsFiles : List StreamFile}
    (hlength : lsFiles.length = vsFiles.length) (next : Option UInt8)
    (valid : Bool) :
    validateFrom ndebug lsFiles vsFiles next valid = .ok true ↔
      valid = true ∧
      lsFiles.map StreamFile.sequenceNumber =
        vsFiles.map StreamFile.sequenceNumber ∧
      (lsFiles.map StreamFile.sequenceNumber).IsChain Follows ∧
      ∀ n ∈ next, ∀ m ∈ (lsFiles.map StreamFile.sequenceNumber).head?,
        m = n := by
  induction lsFiles generalizing vsFiles next valid with
  | nil =>
      obtain rfl := List.length_eq_zero_iff.mp hlength.symm
      simp [validateFrom]
  | cons lsFile lsFiles ih =>
      rcases vsFiles with _ | ⟨vsFile, vsFiles⟩
      · cases hlength
      rw [List.length_cons, List.length_cons, Nat.add_right_cancel_iff]
        at hlength
      simp only [List.map_cons, List.cons.injEq, List.isChain_cons,
        List.head?_cons, Option.mem_def, Option.some.injEq, forall_eq']
      cases next with
      | none =>
          rw [validateFrom, assert_bind_eq_true, ih hlength]
          · simp only [followingNumber_eq, Bool.and_eq_true, decide_eq_true_eq,
              Option.mem_def, Option.some.injEq, forall_eq', Follows,
              reduceCtorEq, false_implies, implies_true, and_true]
            tauto
          · intro hresult
            have hvalid := valid_of_validateFrom hresult
            exact (Bool.and_eq_true_iff.mp hvalid).2
      | some n =>
          rw [validateFrom, assert_bind_eq_true, assert_bind_eq_true,
            ih hlength]
          · simp only [followingNumber_eq, Bool.and_eq_true, decide_eq_true_eq,
              Option.mem_def, Option.some.injEq, forall_eq', Follows]
            constructor
            · rintro ⟨⟨⟨hvalid, hsame⟩, rfl⟩, hrest, hchain, hnext⟩
              exact ⟨hvalid, ⟨hsame, hrest⟩, ⟨hnext, hchain⟩, rfl⟩
            · rintro ⟨hvalid, ⟨hsame, hrest⟩, ⟨hnext, hchain⟩, rfl⟩
              exact ⟨⟨⟨hvalid, hsame⟩, rfl⟩, hrest, hchain, hnext⟩
          · intro hresult
            have hvalid := valid_of_validateFrom hresult
            exact (Bool.and_eq_true_iff.mp hvalid).2
          · intro hresult
            obtain ⟨-, -, hresult⟩ := bind_eq_ok.mp hresult
            have hvalid := valid_of_validateFrom hresult
            have hsame := (Bool.and_eq_true_iff.mp hvalid).1
            exact (Bool.and_eq_true_iff.mp hsame).2

/-- `validate` succeeds exactly on managers whose files are sequential. -/
theorem validate_eq_true {ndebug : Bool} {fm : FileManager} :
    fm.validate ndebug = .ok true ↔ fm.Sequential := by
  by_cases hlength : fm.lsFiles.length = fm.vsFiles.length
  · rw [validate, decide_eq_true hlength, assert_ok_true, ok_bind,
      validateFrom_eq_true hlength]
    constructor
    · rintro ⟨-, hsame, hchain, -⟩
      refine ⟨hsame, ?_⟩
      rintro (_ | _)
      · exact hchain
      · rw [hsame] at hchain
        exact hchain
    · intro h
      exact ⟨rfl, h.sameNumbers, h.successive .ls, by simp⟩
  · constructor
    · intro h
      obtain ⟨-, -, h⟩ := bind_eq_ok.mp h
      exact absurd (of_decide_eq_true (valid_of_validateFrom h)) hlength
    · intro h
      have hnumbers := congrArg List.length h.sameNumbers
      rw [List.length_map, List.length_map] at hnumbers
      exact absurd hnumbers hlength

/-! ## The order on the numbers alone -/

/-- What `orderFiles` does to the numbers of the files. -/
def orderNumbers (numbers : List UInt8) : List UInt8 :=
  let sorted := numbers.insertionSort fun a b => a.toNat ≤ b.toNat
  if sorted.length = 256 then sorted
  else
    match findGap (sorted.map UInt8.toNat) with
    | none => sorted
    | some gap => sorted.drop (gap + 1) ++ sorted.take (gap + 1)

theorem isChain_of_findGap_eq_none {numbers : List UInt8}
    (h : Increasing numbers)
    (hgap : findGap (numbers.map UInt8.toNat) = none) :
    numbers.IsChain Follows := by
  induction numbers with
  | nil => exact List.isChain_nil
  | cons a numbers ih =>
      rcases numbers with _ | ⟨b, numbers⟩
      · exact List.isChain_singleton a
      obtain ⟨ha, htail⟩ := List.pairwise_cons.mp h
      have hab := ha b List.mem_cons_self
      rw [List.map_cons, List.map_cons, findGap] at hgap
      split at hgap
      · cases hgap
      · rw [List.isChain_cons_cons]
        constructor
        · exact follows_of_toNat (by omega)
        · exact ih htail (Option.map_eq_none_iff.mp hgap)

theorem exists_of_findGap_eq_some {numbers : List UInt8} {gap : ℕ}
    (hgap : findGap (numbers.map UInt8.toNat) = some gap) :
    ∃ (front : List UInt8) (a b : UInt8) (back : List UInt8),
      numbers = front ++ a :: b :: back ∧ front.length = gap ∧
      1 < b.toNat - a.toNat := by
  induction numbers generalizing gap with
  | nil => cases hgap
  | cons a numbers ih =>
      rcases numbers with _ | ⟨b, numbers⟩
      · cases hgap
      rw [List.map_cons, List.map_cons, findGap] at hgap
      split at hgap
      · next hlt => exact ⟨[], a, b, numbers, rfl, Option.some.inj hgap, hlt⟩
      · obtain ⟨gap', hgap', rfl⟩ := Option.map_eq_some_iff.mp hgap
        obtain ⟨front, x, y, back, hnumbers, hlength, hlt⟩ := ih hgap'
        exact ⟨a :: front, x, y, back, by rw [hnumbers]; rfl,
          by rw [List.length_cons, hlength], hlt⟩

theorem increasing_insertionSort {numbers : List UInt8}
    (h : numbers.Nodup) :
    Increasing (numbers.insertionSort fun a b => a.toNat ≤ b.toNat) := by
  have hsorted := List.pairwise_insertionSort
    (fun a b : UInt8 => a.toNat ≤ b.toNat) numbers
  have hnodup := (List.perm_insertionSort
    (fun a b : UInt8 => a.toNat ≤ b.toNat) numbers).nodup_iff.mpr h
  apply (hsorted.and hnodup).imp
  rintro a b ⟨hle, hne⟩
  exact Nat.lt_of_le_of_ne hle fun heq => hne (UInt8.toNat_inj.mp heq)

theorem isChain_orderNumbers {numbers : List UInt8} (h : numbers.Nodup)
    (hwhole : Contiguous {n | n ∈ numbers}) :
    (orderNumbers numbers).IsChain Follows := by
  have hincreasing := increasing_insertionSort h
  have hwhole : Contiguous {n | n ∈
      numbers.insertionSort fun a b => a.toNat ≤ b.toNat} := by
    refine (Contiguous.congr fun n => ?_).mpr hwhole
    exact (List.perm_insertionSort _ numbers).mem_iff
  rw [orderNumbers]
  generalize (numbers.insertionSort fun a b => a.toNat ≤ b.toNat) = sorted
    at hincreasing hwhole ⊢
  split
  · next hlength => exact isChain_of_length_eq hincreasing hlength
  · split
    · next hgap => exact isChain_of_findGap_eq_none hincreasing hgap
    · next gap hgap =>
      obtain ⟨front, a, b, back, rfl, rfl, hlt⟩ :=
        exists_of_findGap_eq_some hgap
      have hnot : ¬Follows a b := by
        rintro rfl
        have hle : (a + 1).toNat ≤ a.toNat + 1 := by
          rw [UInt8.toNat_add, UInt8.toNat_one]
          exact Nat.mod_le _ _
        omega
      have hsplit : front ++ a :: b :: back = (front ++ [a]) ++ (b :: back) :=
        by simp
      have hlength : front.length + 1 = (front ++ [a]).length := by simp
      have hturned := isChain_turned hincreasing hnot hwhole
      rwa [hsplit, hlength, List.drop_left, List.take_left]

theorem eq_insertionSort {sorted numbers : List UInt8}
    (hsorted : sorted.Pairwise fun a b => a.toNat ≤ b.toNat)
    (hperm : sorted.Perm numbers) :
    sorted = numbers.insertionSort fun a b => a.toNat ≤ b.toNat := by
  refine List.Perm.eq_of_pairwise ?_ hsorted
    (List.pairwise_insertionSort _ numbers)
    (hperm.trans (List.perm_insertionSort _ numbers).symm)
  intro a b _ _ hab hba
  exact UInt8.toNat_inj.mp (hab.antisymm hba)

theorem orderNumbers_congr {numbers numbers' : List UInt8}
    (h : numbers.Perm numbers') :
    orderNumbers numbers = orderNumbers numbers' := by
  have hsorted := eq_insertionSort (List.pairwise_insertionSort _ numbers)
    ((List.perm_insertionSort _ numbers).trans h)
  rw [orderNumbers, orderNumbers, hsorted]

theorem numbers_sort (std : StdSort) (files : List StreamFile) :
    (std.sort files).map StreamFile.sequenceNumber =
      (files.map StreamFile.sequenceNumber).insertionSort
        fun a b => a.toNat ≤ b.toNat :=
  eq_insertionSort (List.pairwise_map.mpr (std.sorted files))
    ((std.perm files).map _)

/-- `orderFiles` orders the numbers. -/
theorem orderFiles_numbers {fm : FileManager} {std : StdSort}
    {files ordered : List StreamFile}
    (h : fm.orderFiles std files = .ok ordered) :
    ordered.map StreamFile.sequenceNumber =
      orderNumbers (files.map StreamFile.sequenceNumber) := by
  rw [orderFiles] at h
  by_cases hone : files.length ≤ 1
  · rw [if_pos hone] at h
    obtain rfl := Except.ok.inj h
    rcases files with _ | ⟨a, _ | ⟨b, files⟩⟩
    · rfl
    · rfl
    · simp at hone
  by_cases hmany : files.length > 256
  · rw [if_neg hone, if_pos hmany] at h
    cases h
  rw [if_neg hone, if_neg hmany] at h
  rw [orderNumbers, ← numbers_sort std]
  generalize std.sort files = sorted at h ⊢
  simp only [List.length_map, List.map_map] at h ⊢
  by_cases hfull : sorted.length = 256
  · rw [if_pos hfull] at h ⊢
    rw [Except.ok.inj h]
  · rw [if_neg hfull] at h ⊢
    split at h
    · next hgap =>
      obtain rfl := Except.ok.inj h
      change findGap (sorted.map (UInt8.toNat ∘ _)) = none at hgap
      rw [hgap]
    · next gap hgap =>
      obtain rfl := Except.ok.inj h
      change findGap (sorted.map (UInt8.toNat ∘ _)) = some gap at hgap
      rw [hgap, List.map_append, List.map_drop, List.map_take]

end FileManager

/-! ## What `initialize` finds -/

/-- A directory with nothing but files of the table. -/
structure OwnFiles (t : TableName) (directory : List Text) : Prop where
  nodup : directory.Nodup
  own : ∀ name ∈ directory, ∃ kind n, name = fileName t kind n

/-- The directory holds the same numbers of both kinds, without a hole. -/
def Complete (t : TableName) (directory : List Text) : Prop :=
  (∀ n, fileName t .ls n ∈ directory ↔ fileName t .vs n ∈ directory) ∧
    Contiguous {n | fileName t .ls n ∈ directory}

namespace OwnFiles

variable {t : TableName} {directory names : List Text}

theorem wellNamed (h : OwnFiles t directory)
    (hnames : Lists names directory) : ∀ name ∈ names, WellNamed name := by
  intro name hname
  obtain ⟨kind, n, rfl⟩ := h.own name (hnames.mem_iff.mp hname)
  exact ⟨t, kind, n, rfl⟩

/-- The names of a kind are found. -/
theorem mem_filter (h : OwnFiles t directory)
    (hnames : Lists names directory) (dataPath : Text) (kind : FileKind)
    {name : Text} :
    name ∈ names.filter
        ((FileManager.new dataPath t).matchesFile kind.extension) ↔
      name ∈ directory ∧ ∃ n, name = fileName t kind n := by
  rw [List.mem_filter, hnames.mem_iff]
  apply and_congr_right
  intro hname
  obtain ⟨kind', n, rfl⟩ := h.own name hname
  rw [FileManager.matchesFile_fileName]
  constructor
  · rintro ⟨-, rfl⟩
    exact ⟨n, rfl⟩
  · rintro ⟨m, heq⟩
    exact ⟨prefix_fileName, (fileName_injective heq).2.1⟩

theorem map_found (dataPath : Text) (kind : FileKind) (names : List Text) :
    (FileManager.found dataPath t kind names).map StreamFile.sequenceNumber =
      (names.filter ((FileManager.new dataPath t).matchesFile
        kind.extension)).map numberIn := by
  rw [FileManager.found, List.map_map]
  rfl

theorem mem_found_numbers (h : OwnFiles t directory)
    (hnames : Lists names directory) (dataPath : Text) (kind : FileKind)
    {n : UInt8} :
    n ∈ (FileManager.found dataPath t kind names).map
        StreamFile.sequenceNumber ↔ fileName t kind n ∈ directory := by
  rw [map_found, List.mem_map]
  constructor
  · rintro ⟨name, hname, rfl⟩
    obtain ⟨hmem, n, rfl⟩ := (h.mem_filter hnames dataPath kind).mp hname
    rwa [numberIn_fileName]
  · intro hmem
    exact ⟨_, (h.mem_filter hnames dataPath kind).mpr ⟨hmem, n, rfl⟩,
      numberIn_fileName t kind n⟩

theorem nodup_found_numbers (h : OwnFiles t directory)
    (hnames : Lists names directory) (dataPath : Text) (kind : FileKind) :
    ((FileManager.found dataPath t kind names).map
      StreamFile.sequenceNumber).Nodup := by
  rw [map_found]
  apply ((hnames.nodup_iff.mpr h.nodup).filter _).map_on
  intro a ha b hb hab
  obtain ⟨-, m, rfl⟩ := (h.mem_filter hnames dataPath kind).mp ha
  obtain ⟨-, n, rfl⟩ := (h.mem_filter hnames dataPath kind).mp hb
  rw [numberIn_fileName, numberIn_fileName] at hab
  rw [hab]

theorem initialized_numbers (h : OwnFiles t directory) {dataPath : Text}
    {lsNames vsNames : List Text} (hls : Lists lsNames directory)
    (hvs : Lists vsNames directory) {std : StdSort}
    {canOpen : Text → Bool} {fm : FileManager}
    (hinit : (FileManager.new dataPath t).initializeFiles std canOpen
      (some (regularFiles lsNames)) (some (regularFiles vsNames)) =
        .returned () fm) (kind : FileKind) :
    (∀ n, n ∈ (fm.files kind).map StreamFile.sequenceNumber ↔
        fileName t kind n ∈ directory) ∧
      ∃ numbers : List UInt8, numbers.Nodup ∧
        (∀ n, n ∈ numbers ↔ fileName t kind n ∈ directory) ∧
        (fm.files kind).map StreamFile.sequenceNumber =
          FileManager.orderNumbers numbers := by
  have horder := FileManager.orderLists_returned
    (FileManager.orderLists_of_initializeFiles (h.wellNamed hls)
      (h.wellNamed hvs) hinit) kind
  have hperm := (FileManager.orderFiles_perm horder).map
    StreamFile.sequenceNumber
  have hnumbers := FileManager.orderFiles_numbers horder
  obtain ⟨names, hnames, hfound⟩ := FileManager.exists_files_found dataPath t
    (P := fun names => Lists names directory) hls hvs kind
  rw [hfound] at hperm hnumbers
  have hmem : ∀ n, _ ↔ fileName t kind n ∈ directory :=
    fun n => h.mem_found_numbers hnames dataPath kind
  refine ⟨fun n => ?_, _, h.nodup_found_numbers hnames dataPath kind, hmem,
    hnumbers⟩
  rw [hperm.mem_iff, hmem]

end OwnFiles

/-- The files that `initialize` returns are sequential, which is what
`validate` checks, exactly when the directory is complete. -/
theorem initialize_sequential_iff {t : TableName} {directory : List Text}
    (h : OwnFiles t directory) {dataPath : Text}
    {lsNames vsNames : List Text} (hls : Lists lsNames directory)
    (hvs : Lists vsNames directory) {std : StdSort}
    {canOpen : Text → Bool} {fm : FileManager}
    (hinit : (FileManager.new dataPath t).initializeFiles std canOpen
      (some (regularFiles lsNames)) (some (regularFiles vsNames)) =
        .returned () fm) :
    (fm.Sequential ↔ Complete t directory) ∧
      ∀ ndebug, fm.validate ndebug = .ok true ↔ Complete t directory := by
  suffices hiff : fm.Sequential ↔ Complete t directory from
    ⟨hiff, fun ndebug => FileManager.validate_eq_true.trans hiff⟩
  obtain ⟨hlsDirectory, lsNumbers, hlsNodup, hlsMem, hlsFiles⟩ :=
    h.initialized_numbers hls hvs hinit .ls
  obtain ⟨hvsDirectory, vsNumbers, hvsNodup, hvsMem, hvsFiles⟩ :=
    h.initialized_numbers hls hvs hinit .vs
  constructor
  · intro hsequential
    have hnumbers : (fm.files .ls).map StreamFile.sequenceNumber =
        (fm.files .vs).map StreamFile.sequenceNumber :=
      hsequential.sameNumbers
    constructor
    · intro n
      rw [← hlsDirectory, ← hvsDirectory, hnumbers]
    · have hwhole := contiguous_of_isChain (hsequential.successive .ls)
      exact (Contiguous.congr fun n => hlsDirectory n).mp hwhole
  · rintro ⟨hsame, hwhole⟩
    have hwhole' : Contiguous {n | n ∈ lsNumbers} :=
      (Contiguous.congr fun n => hlsMem n).mpr hwhole
    have hperm : lsNumbers.Perm vsNumbers := by
      rw [List.perm_ext_iff_of_nodup hlsNodup hvsNodup]
      intro n
      rw [hlsMem, hvsMem, hsame]
    have hequal := FileManager.orderNumbers_congr hperm
    have hchain := FileManager.isChain_orderNumbers hlsNodup hwhole'
    constructor
    · exact hlsFiles.trans (hequal.trans hvsFiles.symm)
    · rintro (_ | _)
      · rw [hlsFiles]
        exact hchain
      · rw [hvsFiles, ← hequal]
        exact hchain

/-- A directory after the numbers have rolled over. -/
def rolledNames : List Text :=
  [fileName Store.testTable .ls 0, fileName Store.testTable .vs 255,
    fileName Store.testTable .vs 0, fileName Store.testTable .ls 255]

theorem initialize_sequential_rolled_over :
    ∃ fm, (FileManager.new "./data/".toList Store.testTable).initializeFiles
        .stable (fun _ => true) (some (regularFiles rolledNames))
        (some (regularFiles rolledNames)) = .returned () fm ∧
      fm.validate false = .ok true ∧ Complete Store.testTable rolledNames := by
  have hown : OwnFiles Store.testTable rolledNames := by
    refine ⟨by decide, ?_⟩
    simp only [rolledNames, List.forall_mem_cons, List.not_mem_nil]
    exact ⟨⟨.ls, 0, rfl⟩, ⟨.vs, 255, rfl⟩, ⟨.vs, 0, rfl⟩, ⟨.ls, 255, rfl⟩,
      fun _ h => h.elim⟩
  obtain ⟨fm, hinit, hvalid⟩ : ∃ fm,
      (FileManager.new "./data/".toList Store.testTable).initializeFiles
          .stable (fun _ => true) (some (regularFiles rolledNames))
          (some (regularFiles rolledNames)) = .returned () fm ∧
        fm.validate false = .ok true :=
    ⟨_, rfl, rfl⟩
  have hiff := initialize_sequential_iff hown (List.Perm.refl _)
    (List.Perm.refl _) hinit
  exact ⟨fm, hinit, hvalid, (hiff.2 false).mp hvalid⟩

/-- A log file without its value file makes `initialize` return lists that
`validate` rejects. -/
theorem initialize_missing_vsFile :
    ∃ fm, (FileManager.new "./data/".toList Store.testTable).initializeFiles
        .stable (fun _ => true)
        (some (regularFiles [fileName Store.testTable .ls 0]))
        (some (regularFiles [fileName Store.testTable .ls 0])) =
          .returned () fm ∧
      fm.lsFiles.length = 1 ∧ fm.vsFiles.length = 0 ∧
      fm.validate false = .error .assertFailed :=
  ⟨_, rfl, rfl, rfl, rfl⟩

end SquidDB.Storage
