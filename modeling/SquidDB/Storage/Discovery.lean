import SquidDB.Storage.FileNames

/-!
# Discovery

What `initialize` makes of a directory whose files carry the names that
managers give: the files of a manager are those whose names begin with its
table and end with the extension, whatever the order of the listing.
-/

namespace SquidDB.Storage

/-! ## Kinds -/

namespace FileManager

/-- The files of one kind. -/
def files (fm : FileManager) : FileKind → List StreamFile
  | .ls => fm.lsFiles
  | .vs => fm.vsFiles

/-- The call that adds a file of a kind. -/
def add (fm : FileManager) : FileKind → (Text → Bool) →
    Outcome FileManager StreamFile
  | .ls => fm.addLsFile
  | .vs => fm.addVsFile

/-- The current file of a kind. -/
def getCurrentFile (fm : FileManager) : FileKind → Except String StreamFile
  | .ls => fm.getCurrentLsFile
  | .vs => fm.getCurrentVsFile

/-- The manager with one more file. -/
def push (fm : FileManager) : FileKind → StreamFile → FileManager
  | .ls, streamFile => { fm with lsFiles := fm.lsFiles ++ [streamFile] }
  | .vs, streamFile => { fm with vsFiles := fm.vsFiles ++ [streamFile] }

/-- The file that the next call adds. -/
def nextFile (fm : FileManager) (kind : FileKind) : StreamFile :=
  let sequenceNumber := nextNumber (fm.files kind)
  ⟨fm.dataPath ++ '/' :: fileName fm.tableName kind sequenceNumber,
    sequenceNumber⟩

variable {fm fm' : FileManager} {kind kind' : FileKind}
  {canOpen : Text → Bool} {streamFile : StreamFile}

@[simp] theorem push_dataPath :
    (fm.push kind streamFile).dataPath = fm.dataPath := by
  cases kind <;> rfl

@[simp] theorem push_tableName :
    (fm.push kind streamFile).tableName = fm.tableName := by
  cases kind <;> rfl

theorem files_push : (fm.push kind streamFile).files kind =
    fm.files kind ++ [streamFile] := by
  cases kind <;> rfl

theorem files_push_of_ne (h : kind' ≠ kind) :
    (fm.push kind streamFile).files kind' = fm.files kind' := by
  cases kind <;> cases kind' <;> first | rfl | exact absurd rfl h

theorem mem_files_push {f : StreamFile} :
    f ∈ (fm.push kind streamFile).files kind' ↔
      f ∈ fm.files kind' ∨ kind' = kind ∧ f = streamFile := by
  by_cases hk : kind' = kind
  · subst hk
    simp [files_push]
  · simp [files_push_of_ne hk, hk]

theorem addFile_eq (fm : FileManager) (kind : FileKind)
    (canOpen : Text → Bool) :
    fm.addFile canOpen kind.extension (fm.files kind) =
      openFile canOpen (fm.nextFile kind).filePath
        (fm.nextFile kind).sequenceNumber := by
  simp [addFile, nextFile, fileName]

/-- A call adds the next file, or throws and changes nothing. -/
theorem add_eq (fm : FileManager) (kind : FileKind)
    (canOpen : Text → Bool) :
    fm.add kind canOpen =
      if canOpen (fm.nextFile kind).filePath then
        .returned (fm.nextFile kind) (fm.push kind (fm.nextFile kind))
      else
        .thrown ("StreamFile::open could not open file " ++
          String.ofList (fm.nextFile kind).filePath) fm := by
  have hadd := addFile_eq fm kind canOpen
  cases kind with
  | ls =>
      change addLsFile fm canOpen = _
      change fm.addFile canOpen ".ls".toList fm.lsFiles = _ at hadd
      rw [addLsFile, hadd, openFile]
      by_cases hopen : canOpen (fm.nextFile .ls).filePath = true
      · simp only [hopen, if_true]
        rfl
      · simp only [hopen, if_false, Bool.false_eq_true]
  | vs =>
      change addVsFile fm canOpen = _
      change fm.addFile canOpen ".vs".toList fm.vsFiles = _ at hadd
      rw [addVsFile, hadd, openFile]
      by_cases hopen : canOpen (fm.nextFile .vs).filePath = true
      · simp only [hopen, if_true]
        rfl
      · simp only [hopen, if_false, Bool.false_eq_true]

end FileManager

/-! ## Names in a directory -/

/-- The name of an open file. -/
def StreamFile.name (streamFile : StreamFile) : Text :=
  lastComponent streamFile.filePath

theorem FileManager.nextFile_name (fm : FileManager) (kind : FileKind) :
    (fm.nextFile kind).name = fileName fm.tableName kind
        (fm.nextFile kind).sequenceNumber ∧
      LeadsTo fm.dataPath (fm.nextFile kind).name
        (fm.nextFile kind).filePath := by
  have hleads : LeadsTo fm.dataPath _ (fm.nextFile kind).filePath := .slash
  have hname : (fm.nextFile kind).name = _ :=
    hleads.lastComponent_eq slash_notMem_fileName
  exact ⟨hname, hname ▸ hleads⟩

/-- The names that managers give. -/
def WellNamed (name : Text) : Prop :=
  ∃ tableName kind sequenceNumber,
    name = fileName tableName kind sequenceNumber

/-- The number in a name. -/
def numberIn (name : Text) : UInt8 :=
  match FileManager.getSequenceNumber name with
  | .ok sequenceNumber => sequenceNumber
  | .error _ => 0

/-- A listing of regular files. -/
def regularFiles (names : List Text) : List DirectoryEntry :=
  names.map fun name => ⟨name, true⟩

/-- The file that `initialize` opens for a name. -/
def discovered (dataPath name : Text) : StreamFile :=
  ⟨joinPath dataPath name, numberIn name⟩

section Names

variable {name dataPath : Text} {tableName : TableName} {kind : FileKind}
  {canOpen : Text → Bool} {names : List Text} {fm : FileManager}

@[simp] theorem numberIn_fileName (t : TableName) (kind : FileKind)
    (n : UInt8) : numberIn (fileName t kind n) = n := by
  have hread : FileManager.getSequenceNumber ([] ++ fileName t kind n) =
      .ok n := getSequenceNumber_fileName []
  rw [List.nil_append] at hread
  rw [numberIn, hread]

theorem WellNamed.slash_notMem (h : WellNamed name) : '/' ∉ name := by
  obtain ⟨t, kind, n, rfl⟩ := h
  exact slash_notMem_fileName

theorem WellNamed.name_discovered (h : WellNamed name) (dataPath : Text) :
    (discovered dataPath name).name = name :=
  (joinPath_leadsTo dataPath name).lastComponent_eq h.slash_notMem

theorem WellNamed.discoverFile_openFile (h : WellNamed name)
    (dataPath : Text) (canOpen : Text → Bool) :
    FileManager.discoverFile canOpen (joinPath dataPath name) =
      openFile canOpen (joinPath dataPath name) (numberIn name) := by
  obtain ⟨t, kind, n, rfl⟩ := h
  obtain ⟨front, hfront⟩ :=
    (joinPath_leadsTo dataPath (fileName t kind n)).exists_front
  have hnumber : FileManager.getSequenceNumber
      (joinPath dataPath (fileName t kind n)) = .ok n := by
    rw [hfront]
    exact getSequenceNumber_fileName front
  rw [FileManager.discoverFile, hnumber, numberIn_fileName]
  rfl

theorem WellNamed.discoverFile_eq (h : WellNamed name)
    (hopen : canOpen (joinPath dataPath name) = true) :
    FileManager.discoverFile canOpen (joinPath dataPath name) =
      .ok (discovered dataPath name) := by
  rw [h.discoverFile_openFile, openFile, if_pos hopen]
  rfl

theorem WellNamed.eq_of_discoverFile {streamFile : StreamFile}
    (h : WellNamed name)
    (hfile : FileManager.discoverFile canOpen (joinPath dataPath name) =
      .ok streamFile) :
    streamFile = discovered dataPath name := by
  rw [h.discoverFile_openFile, openFile] at hfile
  split at hfile
  · exact (Except.ok.inj hfile).symm
  · cases hfile

namespace FileManager

theorem matchesFile_fileName {u : TableName} {kind' : FileKind} {n : UInt8} :
    fm.matchesFile kind.extension (fileName u kind' n) = true ↔
      fm.tableName.text <+: fileName u kind' n ∧ kind' = kind := by
  rw [matchesFile, Bool.and_eq_true, List.isPrefixOf_iff_prefix,
    decide_eq_true_eq, fileExtension_fileName]
  refine and_congr_right fun _ => ⟨FileKind.extension_injective, ?_⟩
  exact congrArg FileKind.extension

theorem filePathsOf_regularFiles (fm : FileManager) (extension : Text)
    (names : List Text) :
    fm.filePathsOf extension (regularFiles names) =
      .ok ((names.filter (fm.matchesFile extension)).map
        (joinPath fm.dataPath)) := by
  induction names with
  | nil => rfl
  | cons name names ih =>
      rw [regularFiles, List.map_cons, filePathsOf, if_neg (by simp)]
      change (filePathsOf fm extension (regularFiles names)).bind _ = _
      rw [ih]
      by_cases hmatch : fm.matchesFile extension name = true
      · simp [Except.bind, hmatch, pure, Except.pure]
      · simp [Except.bind, hmatch, pure, Except.pure]

theorem discoverFiles_wellNamed (hnames : ∀ name ∈ names, WellNamed name)
    (hopen : ∀ name ∈ names, canOpen (joinPath dataPath name) = true)
    (files : List StreamFile) :
    discoverFiles canOpen (names.map (joinPath dataPath)) files =
      .returned () (files ++ names.map (discovered dataPath)) := by
  induction names generalizing files with
  | nil => simp [discoverFiles]
  | cons name names ih =>
      obtain ⟨hname, hnames⟩ := List.forall_mem_cons.mp hnames
      obtain ⟨hfirst, hopen⟩ := List.forall_mem_cons.mp hopen
      rw [List.map_cons, discoverFiles, hname.discoverFile_eq hfirst]
      simp only
      rw [ih hnames hopen]
      simp

theorem eq_of_discoverFiles {files files' : List StreamFile}
    (hnames : ∀ name ∈ names, WellNamed name)
    (h : discoverFiles canOpen (names.map (joinPath dataPath)) files =
      .returned () files') :
    files' = files ++ names.map (discovered dataPath) := by
  induction names generalizing files with
  | nil =>
      cases h
      simp
  | cons name names ih =>
      obtain ⟨hname, hnames⟩ := List.forall_mem_cons.mp hnames
      rw [List.map_cons, discoverFiles] at h
      split at h
      · cases h
      · next streamFile hfile =>
          rw [ih hnames h, hname.eq_of_discoverFile hfile]
          simp

/-- The files that a fresh manager finds before it orders them. -/
def found (dataPath : Text) (tableName : TableName) (kind : FileKind)
    (names : List Text) : List StreamFile :=
  (names.filter ((new dataPath tableName).matchesFile kind.extension)).map
    (discovered dataPath)

theorem leadsTo_of_mem_found {streamFile : StreamFile}
    (hnames : ∀ name ∈ names, WellNamed name)
    (hmem : streamFile ∈ found dataPath tableName kind names) :
    LeadsTo dataPath streamFile.name streamFile.filePath := by
  obtain ⟨name, hname, rfl⟩ := List.mem_map.mp hmem
  have hwell := hnames name (List.mem_filter.mp hname).1
  rw [hwell.name_discovered dataPath]
  exact joinPath_leadsTo dataPath name

/-- The files of a kind are found in one of the two listings. -/
theorem exists_files_found (dataPath : Text) (tableName : TableName)
    {P : List Text → Prop} {lsNames vsNames : List Text} (hls : P lsNames)
    (hvs : P vsNames) (kind : FileKind) :
    ∃ names, P names ∧
      files ⟨dataPath, tableName, found dataPath tableName .ls lsNames,
          found dataPath tableName .vs vsNames⟩ kind =
        found dataPath tableName kind names := by
  cases kind with
  | ls => exact ⟨lsNames, hls, rfl⟩
  | vs => exact ⟨vsNames, hvs, rfl⟩

theorem discoverFiles_found (tableName : TableName) (kind : FileKind)
    (h : ∀ name ∈ names,
      WellNamed name ∧ canOpen (joinPath dataPath name) = true) :
    discoverFiles canOpen
        ((names.filter
          ((new dataPath tableName).matchesFile kind.extension)).map
            (joinPath dataPath)) [] =
      .returned () (found dataPath tableName kind names) :=
  discoverFiles_wellNamed
    (fun name hname => (h name (List.mem_filter.mp hname).1).1)
    (fun name hname => (h name (List.mem_filter.mp hname).1).2) []

theorem initializeFiles_wellNamed (std : StdSort) {lsNames vsNames : List Text}
    (hls : ∀ name ∈ lsNames,
      WellNamed name ∧ canOpen (joinPath dataPath name) = true)
    (hvs : ∀ name ∈ vsNames,
      WellNamed name ∧ canOpen (joinPath dataPath name) = true) :
    (new dataPath tableName).initializeFiles std canOpen
        (some (regularFiles lsNames)) (some (regularFiles vsNames)) =
      orderLists ⟨dataPath, tableName,
        found dataPath tableName .ls lsNames,
        found dataPath tableName .vs vsNames⟩ std := by
  have hlsFiles : discoverFiles canOpen _
      (new dataPath tableName).lsFiles = _ :=
    discoverFiles_found tableName .ls hls
  have hvsFiles : discoverFiles canOpen _
      (new dataPath tableName).vsFiles = _ :=
    discoverFiles_found tableName .vs hvs
  simp only [FileKind.extension] at hlsFiles hvsFiles
  simp only [initializeFiles, getFilePaths, filePathsOf_regularFiles]
  rw [show (new dataPath tableName).dataPath = dataPath from rfl, hlsFiles]
  simp only [hvsFiles]
  rfl

/-- A fresh manager that `initialize` returns has found the files of both kinds
and ordered them. -/
theorem orderLists_of_initializeFiles {std : StdSort} {lsNames vsNames : List Text}
    {fm : FileManager} (hls : ∀ name ∈ lsNames, WellNamed name)
    (hvs : ∀ name ∈ vsNames, WellNamed name)
    (h : (new dataPath tableName).initializeFiles std canOpen
      (some (regularFiles lsNames)) (some (regularFiles vsNames)) =
        .returned () fm) :
    orderLists ⟨dataPath, tableName,
        found dataPath tableName .ls lsNames,
        found dataPath tableName .vs vsNames⟩ std = .returned () fm := by
  simp only [initializeFiles, getFilePaths, filePathsOf_regularFiles] at h
  split at h
  · cases h
  · next lsFiles hlsFiles =>
      split at h
      · cases h
      · next vsFiles hvsFiles =>
          have hls' := eq_of_discoverFiles
            (fun name hname => hls name (List.mem_filter.mp hname).1) hlsFiles
          have hvs' := eq_of_discoverFiles
            (fun name hname => hvs name (List.mem_filter.mp hname).1) hvsFiles
          rw [hls', hvs'] at h
          exact h

/-! ## Ordering -/

theorem exists_orderFiles (fm : FileManager) (std : StdSort)
    {files : List StreamFile}
    (h : files.length ≤ 256) : ∃ ordered,
      fm.orderFiles std files = .ok ordered ∧ ordered.Perm files := by
  rw [orderFiles]
  by_cases hone : files.length ≤ 1
  · rw [if_pos hone]
    exact ⟨files, rfl, List.Perm.refl _⟩
  · rw [if_neg hone, if_neg (by omega)]
    simp only
    have hsorted := std.perm files
    split
    · exact ⟨_, rfl, hsorted⟩
    · split
      · exact ⟨_, rfl, hsorted⟩
      · refine ⟨_, rfl, List.perm_append_comm.trans ?_⟩
        rwa [List.take_append_drop]

/-- Ordering fails above the limit only. -/
theorem orderFiles_perm {std : StdSort} {files ordered : List StreamFile}
    (h : fm.orderFiles std files = .ok ordered) : ordered.Perm files := by
  by_cases hlength : files.length ≤ 256
  · obtain ⟨_, hordered, hperm⟩ := fm.exists_orderFiles std hlength
    rw [hordered, Except.ok.injEq] at h
    exact h ▸ hperm
  · rw [orderFiles, if_neg (by omega), if_pos (by omega)] at h
    cases h

/-- Both lists are ordered. -/
theorem orderLists_returned {std : StdSort} {fm' : FileManager}
    (h : fm.orderLists std = .returned () fm') (kind : FileKind) :
    fm.orderFiles std (fm.files kind) = .ok (fm'.files kind) := by
  rw [orderLists] at h
  split at h
  · cases h
  · next lsFiles hls =>
      simp only at h
      split at h
      · cases h
      · next vsFiles hvs =>
          cases h
          cases kind with
          | ls => exact hls
          | vs => exact hvs

theorem exists_orderLists (fm : FileManager) (std : StdSort)
    (h : ∀ kind, (fm.files kind).length ≤ 256) :
    ∃ fm', fm.orderLists std = .returned () fm' ∧
      fm'.dataPath = fm.dataPath ∧ fm'.tableName = fm.tableName := by
  obtain ⟨lsFiles, hls, -⟩ := fm.exists_orderFiles std (h .ls)
  obtain ⟨vsFiles, hvs, -⟩ :=
    exists_orderFiles { fm with lsFiles := lsFiles } std (h .vs)
  simp only [files] at hls hvs
  refine ⟨{ fm with lsFiles := lsFiles, vsFiles := vsFiles }, ?_, rfl, rfl⟩
  rw [orderLists, hls]
  simp only [hvs]

end FileManager

end Names

end SquidDB.Storage
