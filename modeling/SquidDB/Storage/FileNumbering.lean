import SquidDB.Lib.Machine
import SquidDB.Storage.Discovery

/-!
# File numbering

The files of a table over adds and restarts.  As long as a list has fewer than
256 files when one is added, its files are numbered from 0 without a gap, and
`initialize` recovers them in this order from any listing.
-/

namespace SquidDB.Storage

/-! ## Numberings -/

/-- The number and the name of a file. -/
def StreamFile.identity (streamFile : StreamFile) : UInt8 × Text :=
  (streamFile.sequenceNumber, streamFile.name)

/-- The number and the name that file `i` of a kind gets. -/
def nthFile (tableName : TableName) (kind : FileKind) (i : ℕ) :
    UInt8 × Text :=
  (UInt8.ofNat i, fileName tableName kind (UInt8.ofNat i))

/-- The numbers and the names of the first `n` files of a kind. -/
def numbering (tableName : TableName) (kind : FileKind) (n : ℕ) :
    List (UInt8 × Text) :=
  (List.range n).map (nthFile tableName kind)

section Numbering

variable {t : TableName} {kind : FileKind} {n : ℕ} {files : List StreamFile}

theorem numbering_succ (t : TableName) (kind : FileKind) (n : ℕ) :
    numbering t kind (n + 1) = numbering t kind n ++ [nthFile t kind n] := by
  simp [numbering, List.range_succ]

theorem length_numbering : (numbering t kind n).length = n := by
  simp [numbering]

theorem map_toNat_numbering (hn : n ≤ 256) :
    (numbering t kind n).map (fun entry => entry.1.toNat) =
      List.range n := by
  rw [numbering, List.map_map]
  refine (List.map_congr_left fun i hi => ?_).trans (List.map_id' _)
  exact UInt8.toNat_ofNat_of_lt' ((List.mem_range.mp hi).trans_le hn)

theorem nodup_numbering (hn : n ≤ 256) :
    ((numbering t kind n).map Prod.fst).Nodup ∧
      ((numbering t kind n).map Prod.snd).Nodup := by
  have hnumbers : ((numbering t kind n).map
      fun entry => entry.1.toNat).Nodup := by
    rw [map_toNat_numbering hn]
    exact List.nodup_range
  have hentries := hnumbers.of_map
  constructor
  · apply List.Nodup.of_map UInt8.toNat
    rwa [List.map_map]
  · apply hentries.map_on
    intro a ha b hb hab
    obtain ⟨i, -, rfl⟩ := List.mem_map.mp ha
    obtain ⟨j, -, rfl⟩ := List.mem_map.mp hb
    rw [nthFile, nthFile, (fileName_injective hab).2.2]

theorem nextNumber_of_numbering
    (h : files.map StreamFile.identity = numbering t kind n) :
    FileManager.nextNumber files = UInt8.ofNat n := by
  cases n with
  | zero =>
      obtain rfl := List.map_eq_nil_iff.mp h
      rfl
  | succ n =>
      have hlast : (files.map StreamFile.identity).getLast? =
          some (nthFile t kind n) := by
        rw [h, numbering_succ, List.getLast?_concat]
      rw [List.getLast?_map, Option.map_eq_some_iff] at hlast
      obtain ⟨streamFile, hlast, hidentity⟩ := hlast
      have hnumber : streamFile.sequenceNumber = UInt8.ofNat n :=
        congrArg Prod.fst hidentity
      rw [FileManager.nextNumber, hlast, UInt8.ofNat_add, ← hnumber]
      simp only
      split
      · rfl
      · next hlimit =>
          rw [not_not.mp hlimit]
          rfl

/-! ## Ordering a numbering -/

theorem findGap_range' (start n : ℕ) :
    FileManager.findGap (List.range' start n) = none := by
  induction n generalizing start with
  | zero => rfl
  | succ n ih =>
      cases n with
      | zero => rfl
      | succ n =>
          have htail := ih (start + 1)
          rw [List.range'_succ] at htail ⊢
          rw [List.range'_succ, FileManager.findGap, if_neg (by omega), htail]
          rfl

theorem eq_numbering_of_sorted (hn : n ≤ 256)
    (hperm : (files.map StreamFile.identity).Perm (numbering t kind n))
    (hsorted : files.Pairwise fun a b =>
      a.sequenceNumber.toNat ≤ b.sequenceNumber.toNat) :
    files.map StreamFile.identity = numbering t kind n := by
  have hrange : (numbering t kind n).map (fun entry => entry.1.toNat) =
      List.range n := map_toNat_numbering hn
  have hincreasing : (numbering t kind n).Pairwise fun a b =>
      a.1.toNat < b.1.toNat := by
    have hnumbers : (List.range n).Pairwise (· < ·) :=
      List.pairwise_lt_range
    rw [← hrange] at hnumbers
    exact List.pairwise_map.mp hnumbers
  have hinjective : ∀ a ∈ numbering t kind n, ∀ b ∈ numbering t kind n,
      a.1 = b.1 → a = b := by
    intro a ha b hb hab
    obtain ⟨i, -, rfl⟩ := List.mem_map.mp ha
    obtain ⟨j, -, rfl⟩ := List.mem_map.mp hb
    rw [nthFile, nthFile] at hab ⊢
    simp only at hab
    rw [hab]
  have hfiles : (files.map StreamFile.identity).Pairwise fun a b =>
      a.1.toNat ≤ b.1.toNat := List.pairwise_map.mpr hsorted
  refine List.Perm.eq_of_pairwise ?_ hfiles
    (hincreasing.imp Nat.le_of_lt) hperm
  intro a b ha hb hab hba
  exact hinjective a (hperm.subset ha) b hb
    (UInt8.toNat_inj.mp (hab.antisymm hba))

/-- `orderFiles` recovers a numbering. -/
theorem orderFiles_of_perm_numbering {fm : FileManager} {std : StdSort}
    {ordered : List StreamFile} (hn : n ≤ 256)
    (hperm : (files.map StreamFile.identity).Perm (numbering t kind n))
    (h : fm.orderFiles std files = .ok ordered) :
    ordered.map StreamFile.identity = numbering t kind n := by
  have hlength : files.length = n := by
    have := hperm.length_eq
    rwa [List.length_map, length_numbering] at this
  rw [FileManager.orderFiles] at h
  by_cases hone : files.length ≤ 1
  · rw [if_pos hone, Except.ok.injEq] at h
    subst h
    apply eq_numbering_of_sorted hn hperm
    rcases files with _ | ⟨a, _ | ⟨b, files⟩⟩
    · exact List.Pairwise.nil
    · exact List.pairwise_singleton _ _
    · simp at hone
  · rw [if_neg hone, if_neg (by omega)] at h
    simp only at h
    generalize hsorted : std.sort files = sorted at h
    have hresult : sorted.map StreamFile.identity = numbering t kind n := by
      subst hsorted
      refine eq_numbering_of_sorted hn ?_ ?_
      · exact ((std.perm files).map _).trans hperm
      · exact std.sorted files
    have hgap : FileManager.findGap
        (sorted.map fun f => f.sequenceNumber.toNat) = none := by
      have hnumbers : (sorted.map fun f => f.sequenceNumber.toNat) =
          List.range n := by
        have hrange := hresult ▸ map_toNat_numbering hn
        rwa [List.map_map] at hrange
      rw [hnumbers, List.range_eq_range']
      exact findGap_range' 0 n
    rw [hgap] at h
    split at h
    all_goals
      cases h
      exact hresult

end Numbering

/-! ## A table and its directory -/

/-- A manager and the names in its data directory, which exists. -/
structure Store where
  manager : FileManager
  directory : List Text

/-- A call of `addLsFile` or `addVsFile`, or a restart, with the orders in
which the directory is listed. -/
inductive StoreCall where
  | add (kind : FileKind) (canOpen : Text → Bool)
  | restart (std : StdSort) (canOpen : Text → Bool) (lsNames vsNames : List Text)

/-- The directory after opening a file. -/
def openIn (directory : List Text) (streamFile : StreamFile) : List Text :=
  if streamFile.name ∈ directory then directory
  else directory ++ [streamFile.name]

theorem mem_openIn {directory : List Text} {streamFile : StreamFile}
    {name : Text} : name ∈ openIn directory streamFile ↔
      name ∈ directory ∨ name = streamFile.name := by
  rw [openIn]
  split
  · next h =>
      constructor
      · exact Or.inl
      · rintro (hname | rfl)
        · exact hname
        · exact h
  · rw [List.mem_append, List.mem_singleton]

theorem nodup_openIn {directory : List Text} (streamFile : StreamFile)
    (h : directory.Nodup) : (openIn directory streamFile).Nodup := by
  rw [openIn]
  split
  · exact h
  · next hnew =>
      exact List.nodup_append_comm.mp (List.nodup_cons.mpr ⟨hnew, h⟩)

/-- The listing of a directory, in any order. -/
def Lists (names directory : List Text) : Prop :=
  names.Perm directory

instance {names directory : List Text} :
    Decidable (Lists names directory) :=
  inferInstanceAs (Decidable (names.Perm directory))

theorem Lists.forall_mem {names directory : List Text} {P : Text → Prop}
    (hnames : Lists names directory) (h : ∀ name ∈ directory, P name) :
    ∀ name ∈ names, P name := fun name hname =>
  h name (hnames.mem_iff.mp hname)

namespace Store

/-- A new manager in an empty directory. -/
def new (dataPath : Text) (tableName : TableName) : Store :=
  ⟨.new dataPath tableName, []⟩

/-- A new manager on the directory. -/
def restart (s : Store) (std : StdSort) (canOpen : Text → Bool)
    (lsNames vsNames : List Text) : Outcome FileManager Unit :=
  (FileManager.new s.manager.dataPath s.manager.tableName).initializeFiles
    std canOpen (some (regularFiles lsNames)) (some (regularFiles vsNames))

/-- A restart that lists the directory and can open its files. -/
def Restartable (s : Store) (canOpen : Text → Bool)
    (lsNames vsNames : List Text) : Prop :=
  Lists lsNames s.directory ∧ Lists vsNames s.directory ∧
    ∀ name ∈ s.directory,
      canOpen (joinPath s.manager.dataPath name) = true

instance {s : Store} {canOpen : Text → Bool} {lsNames vsNames : List Text} :
    Decidable (s.Restartable canOpen lsNames vsNames) :=
  inferInstanceAs (Decidable (_ ∧ _ ∧ _))

/-- One call; an add that throws leaves the manager in use, and a restart has
to succeed. -/
def step (s : Store) : StoreCall → Option Store
  | .add kind canOpen =>
      match s.manager.add kind canOpen with
      | .thrown _ manager => some { s with manager := manager }
      | .returned streamFile manager =>
          some ⟨manager, openIn s.directory streamFile⟩
  | .restart std canOpen lsNames vsNames =>
      if s.Restartable canOpen lsNames vsNames then
        match s.restart std canOpen lsNames vsNames with
        | .thrown _ _ => none
        | .returned () manager => some { s with manager := manager }
      else none

/-- A file is added to fewer than 256 files. -/
def BelowLimit (s : Store) : StoreCall → Prop
  | .add kind canOpen =>
      canOpen (s.manager.nextFile kind).filePath = true →
        (s.manager.files kind).length < 256
  | .restart _ _ _ _ => True

/-- The manager numbers its files from 0, and the directory holds them. -/
structure Numbered (s : Store) (count : FileKind → ℕ) : Prop where
  bound : ∀ kind, count kind ≤ 256
  files : ∀ kind, (s.manager.files kind).map StreamFile.identity =
    numbering s.manager.tableName kind (count kind)
  leadsTo : ∀ kind, ∀ streamFile ∈ s.manager.files kind,
    LeadsTo s.manager.dataPath streamFile.name streamFile.filePath
  nodup : s.directory.Nodup
  mem_directory : ∀ name, name ∈ s.directory ↔
    ∃ kind, ∃ i < count kind,
      name = fileName s.manager.tableName kind (UInt8.ofNat i)

variable {s s' : Store} {count : FileKind → ℕ} {kind : FileKind}
  {canOpen : Text → Bool}

theorem nextFile_identity {fm : FileManager} {n : ℕ}
    (h : (fm.files kind).map StreamFile.identity =
      numbering fm.tableName kind n) :
    (fm.nextFile kind).identity = nthFile fm.tableName kind n ∧
      LeadsTo fm.dataPath (fm.nextFile kind).name
        (fm.nextFile kind).filePath := by
  obtain ⟨hname, hleads⟩ := fm.nextFile_name kind
  have hnumber : (fm.nextFile kind).sequenceNumber = UInt8.ofNat n :=
    nextNumber_of_numbering h
  refine ⟨?_, hleads⟩
  rw [StreamFile.identity, hname, hnumber, nthFile]

theorem files_push_identity {fm : FileManager} {n : ℕ}
    (h : (fm.files kind).map StreamFile.identity =
      numbering fm.tableName kind n) :
    ((fm.push kind (fm.nextFile kind)).files kind).map
        StreamFile.identity =
      numbering fm.tableName kind (n + 1) := by
  rw [FileManager.files_push, List.map_append, h, List.map_singleton,
    (nextFile_identity h).1, numbering_succ]

theorem new_numbered (dataPath : Text) (tableName : TableName) :
    (new dataPath tableName).Numbered fun _ => 0 where
  bound _ := Nat.zero_le _
  files kind := by cases kind <;> rfl
  leadsTo kind := by cases kind <;> exact fun _ h => nomatch h
  nodup := List.nodup_nil
  mem_directory name := by simp [new]

namespace Numbered

theorem length_files (h : s.Numbered count) (kind : FileKind) :
    (s.manager.files kind).length = count kind := by
  have := congrArg List.length (h.files kind)
  rwa [List.length_map, length_numbering] at this

theorem nextFile_notMem (h : s.Numbered count) (hlimit : count kind < 256) :
    (s.manager.nextFile kind).name ∉ s.directory := by
  have hname : (s.manager.nextFile kind).name = _ :=
    congrArg Prod.snd (nextFile_identity (h.files kind)).1
  intro hmem
  rw [hname, h.mem_directory] at hmem
  obtain ⟨kind', i, hi, heq⟩ := hmem
  obtain ⟨-, rfl, hnumber⟩ := fileName_injective heq
  have hcount := congrArg UInt8.toNat hnumber
  rw [UInt8.toNat_ofNat_of_lt' hlimit,
    UInt8.toNat_ofNat_of_lt' (hi.trans hlimit)] at hcount
  omega

/-- Opening the next file below the limit. -/
theorem push (h : s.Numbered count) (hlimit : count kind < 256) :
    Numbered ⟨s.manager.push kind (s.manager.nextFile kind),
        openIn s.directory (s.manager.nextFile kind)⟩
      (Function.update count kind (count kind + 1)) := by
  obtain ⟨hidentity, hleads⟩ := nextFile_identity (h.files kind)
  have hname : (s.manager.nextFile kind).name = _ :=
    congrArg Prod.snd hidentity
  constructor
  case bound =>
    intro kind'
    by_cases hk : kind' = kind
    · subst hk
      rw [Function.update_self]
      omega
    · rw [Function.update_of_ne hk]
      exact h.bound kind'
  case files =>
    intro kind'
    by_cases hk : kind' = kind
    · subst hk
      rw [Function.update_self, FileManager.push_tableName]
      exact files_push_identity (h.files kind')
    · rw [Function.update_of_ne hk, FileManager.push_tableName,
        FileManager.files_push_of_ne hk]
      exact h.files kind'
  case leadsTo =>
    intro kind' streamFile hmem
    rw [FileManager.push_dataPath]
    rcases FileManager.mem_files_push.mp hmem with hmem | ⟨rfl, rfl⟩
    · exact h.leadsTo kind' streamFile hmem
    · exact hleads
  case nodup => exact nodup_openIn _ h.nodup
  case mem_directory =>
    intro name
    rw [mem_openIn, h.mem_directory, hname]
    simp only [FileManager.push_tableName]
    constructor
    · rintro (⟨kind', i, hi, rfl⟩ | rfl)
      · refine ⟨kind', i, ?_, rfl⟩
        by_cases hk : kind' = kind
        · subst hk
          rw [Function.update_self]
          omega
        · rwa [Function.update_of_ne hk]
      · exact ⟨kind, count kind, by rw [Function.update_self]; omega, rfl⟩
    · rintro ⟨kind', i, hi, rfl⟩
      by_cases hk : kind' = kind
      · subst hk
        rw [Function.update_self] at hi
        by_cases hlast : i = count kind'
        · exact .inr (by rw [hlast]; rfl)
        · exact .inl ⟨kind', i, by omega, rfl⟩
      · rw [Function.update_of_ne hk] at hi
        exact .inl ⟨kind', i, hi, rfl⟩

theorem wellNamed (h : s.Numbered count) {name : Text}
    (hname : name ∈ s.directory) : WellNamed name := by
  obtain ⟨kind, i, -, rfl⟩ := (h.mem_directory name).mp hname
  exact ⟨_, _, _, rfl⟩

theorem filter_perm (h : s.Numbered count) {names : List Text}
    (hnames : Lists names s.directory) (kind : FileKind) :
    (names.filter ((FileManager.new s.manager.dataPath
        s.manager.tableName).matchesFile kind.extension)).Perm
      ((numbering s.manager.tableName kind (count kind)).map Prod.snd) := by
  refine (List.perm_ext_iff_of_nodup
    ((hnames.nodup_iff.mpr h.nodup).filter _)
    (nodup_numbering (h.bound kind)).2).mpr ?_
  intro name
  rw [List.mem_filter, hnames.mem_iff, h.mem_directory, numbering,
    List.map_map, List.mem_map]
  constructor
  · rintro ⟨⟨kind', i, hi, rfl⟩, hmatch⟩
    obtain ⟨-, rfl⟩ := FileManager.matchesFile_fileName.mp hmatch
    exact ⟨i, List.mem_range.mpr hi, rfl⟩
  · rintro ⟨i, hi, rfl⟩
    exact ⟨⟨kind, i, List.mem_range.mp hi, rfl⟩,
      FileManager.matchesFile_fileName.mpr ⟨prefix_fileName, rfl⟩⟩

theorem found_perm (h : s.Numbered count) {names : List Text}
    (hnames : Lists names s.directory) (kind : FileKind) :
    ((FileManager.found s.manager.dataPath s.manager.tableName kind
        names).map StreamFile.identity).Perm
      (numbering s.manager.tableName kind (count kind)) := by
  have hfound : (FileManager.found s.manager.dataPath s.manager.tableName
      kind names).map StreamFile.identity =
      (names.filter ((FileManager.new s.manager.dataPath
        s.manager.tableName).matchesFile kind.extension)).map
          fun name => (numberIn name, name) := by
    rw [FileManager.found, List.map_map]
    apply List.map_congr_left
    intro name hname
    have hwell := h.wellNamed
      (hnames.mem_iff.mp (List.mem_filter.mp hname).1)
    exact Prod.ext rfl (hwell.name_discovered _)
  have hnumbering : numbering s.manager.tableName kind (count kind) =
      ((numbering s.manager.tableName kind (count kind)).map Prod.snd).map
        fun name => (numberIn name, name) := by
    rw [numbering, List.map_map, List.map_map]
    apply List.map_congr_left
    intro i _
    exact Prod.ext (numberIn_fileName _ _ _).symm rfl
  rw [hfound, hnumbering]
  exact (h.filter_perm hnames kind).map _

/-- A restart finds the numbered files in their order. -/
theorem restart (h : s.Numbered count) (std : StdSort) {lsNames vsNames : List Text}
    (hrestart : s.Restartable canOpen lsNames vsNames) :
    ∃ fm, s.restart std canOpen lsNames vsNames = .returned () fm ∧
      fm.dataPath = s.manager.dataPath ∧
      fm.tableName = s.manager.tableName ∧
      Numbered ⟨fm, s.directory⟩ count := by
  obtain ⟨hls, hvs, hopen⟩ := hrestart
  have hlisted : ∀ name ∈ s.directory, WellNamed name ∧
      canOpen (joinPath s.manager.dataPath name) = true :=
    fun name hname => ⟨h.wellNamed hname, hopen name hname⟩
  have hinit : s.restart std canOpen lsNames vsNames = _ :=
    FileManager.initializeFiles_wellNamed std (hls.forall_mem hlisted)
      (hvs.forall_mem hlisted)
  have hlisting := FileManager.exists_files_found s.manager.dataPath
    s.manager.tableName (P := fun names => Lists names s.directory) hls hvs
  generalize hfound : FileManager.mk s.manager.dataPath s.manager.tableName
    _ _ = found at hinit hlisting
  have hfiles : ∀ kind, ((found.files kind).map StreamFile.identity).Perm
      (numbering s.manager.tableName kind (count kind)) := by
    intro kind
    obtain ⟨names, hnames, heq⟩ := hlisting kind
    rw [heq]
    exact h.found_perm hnames kind
  have hlength : ∀ kind, (found.files kind).length ≤ 256 := by
    intro kind
    have := (hfiles kind).length_eq
    rw [List.length_map, length_numbering] at this
    exact this.trans_le (h.bound kind)
  have hleads : ∀ kind, ∀ streamFile ∈ found.files kind,
      LeadsTo s.manager.dataPath streamFile.name streamFile.filePath := by
    intro kind streamFile hmem
    obtain ⟨names, hnames, heq⟩ := hlisting kind
    rw [heq] at hmem
    apply FileManager.leadsTo_of_mem_found _ hmem
    exact hnames.forall_mem fun name hname => h.wellNamed hname
  obtain ⟨fm, horder, hdata, htable⟩ := found.exists_orderLists std hlength
  have hordered := FileManager.orderLists_returned horder
  have hdata : fm.dataPath = s.manager.dataPath := by rw [hdata, ← hfound]
  have htable : fm.tableName = s.manager.tableName := by
    rw [htable, ← hfound]
  refine ⟨fm, hinit.trans horder, hdata, htable, h.bound, ?_, ?_, h.nodup, ?_⟩
  · intro kind
    simp only [htable]
    exact orderFiles_of_perm_numbering (h.bound kind) (hfiles kind)
      (hordered kind)
  · intro kind streamFile hmem
    simp only [hdata]
    exact hleads kind streamFile
      ((FileManager.orderFiles_perm (hordered kind)).mem_iff.mp hmem)
  · simp only [htable]
    exact h.mem_directory

/-- One call below the limit. -/
theorem step (h : s.Numbered count) {call : StoreCall}
    (hguard : s.BelowLimit call) (hst : s.step call = some s') :
    ∃ count, s'.Numbered count := by
  cases call with
  | add kind canOpen =>
      rw [Store.step, FileManager.add_eq] at hst
      by_cases hopen : canOpen (s.manager.nextFile kind).filePath = true
      · simp only [hopen, if_true, Option.some.injEq] at hst
        subst hst
        have hlimit := hguard hopen
        rw [h.length_files] at hlimit
        exact ⟨_, h.push hlimit⟩
      · simp only [hopen, if_false, Bool.false_eq_true,
          Option.some.injEq] at hst
        exact ⟨count, hst ▸ h⟩
  | restart std canOpen lsNames vsNames =>
      rw [Store.step] at hst
      by_cases hrestart : s.Restartable canOpen lsNames vsNames
      · obtain ⟨fm, hinit, -, -, hnumbered⟩ := h.restart std hrestart
        rw [if_pos hrestart, hinit] at hst
        simp only [Option.some.injEq] at hst
        exact ⟨count, hst ▸ hnumbered⟩
      · rw [if_neg hrestart] at hst
        cases hst

end Numbered

/-! ## Runs -/

/-- The numbers and the paths of a list are distinct. -/
def Distinct (s : Store) : Prop :=
  ∀ kind, ((s.manager.files kind).map StreamFile.sequenceNumber).Nodup ∧
    ((s.manager.files kind).map StreamFile.filePath).Nodup

/-- A call of `addLsFile` or `addVsFile` returns a file that was not in the
directory before. -/
def AddsNewFile (s : Store) : StoreCall → Prop
  | .add kind canOpen => ∀ streamFile manager,
      s.manager.add kind canOpen = .returned streamFile manager →
        LeadsTo s.manager.dataPath streamFile.name streamFile.filePath ∧
          streamFile.name ∉ s.directory
  | .restart _ _ _ _ => True

/-- The same file in the data directory: the same name and number, and paths
that lead to it. -/
structure SameFile (dataPath : Text) (a b : StreamFile) : Prop where
  identity : a.identity = b.identity
  left : LeadsTo dataPath a.name a.filePath
  right : LeadsTo dataPath b.name b.filePath

/-- A restart returns, with the same files in the same order; the current
files are the same. -/
def Restarts (s : Store) : Prop :=
  ∀ std canOpen lsNames vsNames, s.Restartable canOpen lsNames vsNames →
    ∃ fm, s.restart std canOpen lsNames vsNames = .returned () fm ∧
      ∀ kind, List.Forall₂ (SameFile s.manager.dataPath)
          (s.manager.files kind) (fm.files kind) ∧
        ∀ streamFile, s.manager.getCurrentFile kind = .ok streamFile →
          ∃ streamFile', fm.getCurrentFile kind = .ok streamFile' ∧
            SameFile s.manager.dataPath streamFile streamFile'

theorem getCurrentFile_eq_ok {fm : FileManager} {streamFile : StreamFile} :
    fm.getCurrentFile kind = .ok streamFile ↔
      (fm.files kind).getLast? = some streamFile := by
  cases kind with
  | ls =>
      change fm.getCurrentLsFile = _ ↔ fm.lsFiles.getLast? = _
      rw [FileManager.getCurrentLsFile]
      cases fm.lsFiles.getLast? <;> simp
  | vs =>
      change fm.getCurrentVsFile = _ ↔ fm.vsFiles.getLast? = _
      rw [FileManager.getCurrentVsFile]
      cases fm.vsFiles.getLast? <;> simp

theorem forall₂_sameFile {dataPath : Text} {files files' : List StreamFile}
    (h : files.map StreamFile.identity = files'.map StreamFile.identity)
    (hleft : ∀ f ∈ files, LeadsTo dataPath f.name f.filePath)
    (hright : ∀ f ∈ files', LeadsTo dataPath f.name f.filePath) :
    List.Forall₂ (SameFile dataPath) files files' := by
  induction files generalizing files' with
  | nil =>
      obtain rfl := List.map_eq_nil_iff.mp h.symm
      exact .nil
  | cons a files ih =>
      obtain ⟨b, files', rfl, hab, htail⟩ := List.map_eq_cons_iff.mp h.symm
      obtain ⟨ha, hleft⟩ := List.forall_mem_cons.mp hleft
      obtain ⟨hb, hright⟩ := List.forall_mem_cons.mp hright
      exact .cons ⟨hab.symm, ha, hb⟩ (ih htail.symm hleft hright)

namespace Numbered

theorem distinct (h : s.Numbered count) : s.Distinct := by
  intro kind
  obtain ⟨hnumbers, hnames⟩ :
      (((s.manager.files kind).map StreamFile.identity).map
        Prod.fst).Nodup ∧
      (((s.manager.files kind).map StreamFile.identity).map
        Prod.snd).Nodup := by
    rw [h.files kind]
    exact nodup_numbering (h.bound kind)
  rw [List.map_map] at hnumbers hnames
  refine ⟨hnumbers, List.Nodup.of_map lastComponent ?_⟩
  rwa [List.map_map]

theorem addsNewFile (h : s.Numbered count) {call : StoreCall}
    (hguard : s.BelowLimit call) : s.AddsNewFile call := by
  cases call with
  | restart => trivial
  | add kind canOpen =>
      intro streamFile manager hadd
      rw [FileManager.add_eq] at hadd
      by_cases hopen : canOpen (s.manager.nextFile kind).filePath = true
      · rw [if_pos hopen] at hadd
        cases hadd
        have hlimit := hguard hopen
        rw [h.length_files] at hlimit
        exact ⟨(nextFile_identity (h.files kind)).2,
          h.nextFile_notMem hlimit⟩
      · rw [if_neg hopen] at hadd
        cases hadd

theorem restarts (h : s.Numbered count) : s.Restarts := by
  intro std canOpen lsNames vsNames hrestart
  obtain ⟨fm, hinit, hdata, htable, hfm⟩ := h.restart std hrestart
  refine ⟨fm, hinit, fun kind => ?_⟩
  have hfiles : (s.manager.files kind).map StreamFile.identity =
      (fm.files kind).map StreamFile.identity := by
    have hfiles := hfm.files kind
    simp only [htable] at hfiles
    rw [h.files kind, hfiles]
  have hleads : ∀ f ∈ fm.files kind,
      LeadsTo s.manager.dataPath f.name f.filePath :=
    hdata ▸ hfm.leadsTo kind
  refine ⟨forall₂_sameFile hfiles (h.leadsTo kind) hleads, ?_⟩
  intro streamFile hcurrent
  rw [getCurrentFile_eq_ok] at hcurrent
  have hlast := congrArg List.getLast? hfiles
  rw [List.getLast?_map, List.getLast?_map, hcurrent] at hlast
  obtain ⟨streamFile', hcurrent', hidentity⟩ :=
    Option.map_eq_some_iff.mp hlast.symm
  refine ⟨streamFile', getCurrentFile_eq_ok.mpr hcurrent', hidentity.symm,
    h.leadsTo kind streamFile (List.mem_of_getLast? hcurrent),
    hleads streamFile' (List.mem_of_getLast? hcurrent')⟩

end Numbered

theorem Numbered.not_distinct (h : s.Numbered count) {call : StoreCall}
    (hguard : ¬ s.BelowLimit call) (hst : s.step call = some s') :
    ¬ s'.Distinct := by
  cases call with
  | restart => exact absurd trivial hguard
  | add kind canOpen =>
      obtain ⟨hopen, hlimit⟩ := not_forall.mp hguard
      rw [Store.step, FileManager.add_eq, if_pos hopen] at hst
      cases hst
      have hfull : count kind = 256 := by
        have := h.bound kind
        rw [h.length_files] at hlimit
        omega
      have hfiles := files_push_identity (h.files kind)
      rw [hfull] at hfiles
      intro hdistinct
      have hnumbers := (hdistinct kind).1
      have hpositions : ((s.manager.push kind
          (s.manager.nextFile kind)).files kind).map
            StreamFile.sequenceNumber = (List.range 257).map UInt8.ofNat := by
        have hmap := congrArg (List.map Prod.fst) hfiles
        rw [numbering, List.map_map, List.map_map] at hmap
        exact hmap
      rw [hpositions] at hnumbers
      have hsame := List.inj_on_of_nodup_map hnumbers
        (List.mem_range.mpr (by decide : 0 < 257))
        (List.mem_range.mpr (by decide : 256 < 257)) rfl
      cases hsame

/-- Up to the limit, files can be added in a row. -/
theorem run_adds (dataPath : Text) (tableName : TableName) {n : ℕ}
    (hn : n ≤ 256) :
    ∃ s count, Machine.run step (new dataPath tableName)
        (List.replicate n (.add .ls fun _ => true)) = some s ∧
      s.Numbered count ∧ count .ls = n := by
  induction n with
  | zero => exact ⟨_, _, rfl, new_numbered dataPath tableName, rfl⟩
  | succ n ih =>
      obtain ⟨s, count, hrun, h, hcount⟩ := ih (by omega)
      have hlimit : count .ls < 256 := by omega
      refine ⟨_, _, ?_, h.push hlimit, ?_⟩
      · rw [List.replicate_succ', Machine.run_concat, hrun,
          Option.bind_some, step, FileManager.add_eq, if_pos rfl]
      · rw [Function.update_self, hcount]

/-- A run whose adds stay below the limit keeps the files numbered: numbers
and paths are distinct, a file that is added is a new one, and every restart
finds the same files in the same order. -/
theorem numbering_survives (dataPath : Text) (tableName : TableName)
    (calls : List StoreCall) {s : Store}
    (hguard : Machine.Guarded step BelowLimit (new dataPath tableName) calls)
    (hrun : Machine.run step (new dataPath tableName) calls = some s) :
    s.Distinct ∧ (∀ call, s.BelowLimit call → s.AddsNewFile call) ∧
      s.Restarts := by
  obtain ⟨count, h⟩ := Machine.run_invariant_of_guarded
    (P := fun s : Store => ∃ count, s.Numbered count)
    (fun _ _ _ ⟨_, h⟩ hguard hst => h.step hguard hst)
    ⟨_, new_numbered dataPath tableName⟩ hguard hrun
  exact ⟨h.distinct, fun _ hguard => h.addsNewFile hguard, h.restarts⟩

/-- The table of the unit tests. -/
def testTable : TableName :=
  ⟨"TestTable".toList, by decide⟩

/-- The names of its files, in the order of a listing. -/
def testNames : List Text :=
  ["TestTable.001.ls".toList, "TestTable.000.vs".toList,
    "TestTable.000.ls".toList]

/-- Two log files and a value file are added, and the manager is restarted. -/
def testCalls : List StoreCall :=
  [.add .ls fun _ => true, .add .vs fun _ => true, .add .ls fun _ => true,
    .restart .stable (fun _ => true) testNames testNames]

theorem numbering_survives_restart :
    ∃ s, Machine.run step (new "./data/".toList testTable) testCalls =
        some s ∧
      s.Distinct ∧ (∀ call, s.BelowLimit call → s.AddsNewFile call) ∧
      s.Restarts := by
  refine ⟨_, rfl, numbering_survives "./data/".toList testTable testCalls
    ?_ rfl⟩
  refine ⟨fun _ => by decide, fun s₁ h₁ => ?_⟩
  obtain rfl : _ = s₁ := Option.some.inj h₁
  refine ⟨fun _ => by decide, fun s₂ h₂ => ?_⟩
  obtain rfl : _ = s₂ := Option.some.inj h₂
  exact ⟨fun _ => by decide, fun _ _ => ⟨trivial, fun _ _ => trivial⟩⟩

/-- With 256 files in the list, the next one is the first file again. -/
theorem numbering_wraps :
    ∃ s, Machine.run step (new "./data/".toList testTable)
        (List.replicate 257 (.add .ls fun _ => true)) = some s ∧
      ¬ s.Distinct := by
  obtain ⟨s, count, hrun, h, hcount⟩ :=
    run_adds "./data/".toList testTable le_rfl
  have hfull : ¬ s.BelowLimit (.add .ls fun _ => true) := by
    intro hlimit
    have := hlimit rfl
    rw [h.length_files] at this
    omega
  have hst : s.step (.add .ls fun _ => true) =
      some ⟨s.manager.push .ls (s.manager.nextFile .ls),
        openIn s.directory (s.manager.nextFile .ls)⟩ := by
    rw [step, FileManager.add_eq, if_pos rfl]
  refine ⟨_, ?_, h.not_distinct hfull hst⟩
  rw [List.replicate_succ', Machine.run_concat, hrun, Option.bind_some, hst]

end Store

end SquidDB.Storage
