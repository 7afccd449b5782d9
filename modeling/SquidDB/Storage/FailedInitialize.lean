import SquidDB.Lib.Intake
import SquidDB.Storage.FileManager

/-!
# Initializations that fail

`FileManager::initialize` puts a file into its list as soon as the file is
open.  When it throws later on, these files stay, behind those that the manager
had before and in the order of the listing.
-/

namespace SquidDB.Storage

namespace FileManager

/-! ## Opening the files of a listing -/

/-- What the loops of `initialize` do with a path. -/
def fileVerdict (canOpen : Text → Bool) (filePath : Text) :
    Verdict StreamFile :=
  match discoverFile canOpen filePath with
  | .error message => .refuse message
  | .ok streamFile => .take streamFile

/-- The files that are opened at these paths. -/
def openedFiles (canOpen : Text → Bool) (filePaths : List Text) :
    List StreamFile :=
  Intake.taken (fileVerdict canOpen) filePaths

/-- Every path leads to a file with a number that can be opened. -/
def AllOpen (canOpen : Text → Bool) (filePaths : List Text) : Prop :=
  ∀ filePath ∈ filePaths, (fileVerdict canOpen filePath).Accepts

variable {canOpen : Text → Bool} {filePaths : List Text} {filePath : Text}
  {files files' : List StreamFile} {message : String}

theorem discoverFiles_eq_run (canOpen : Text → Bool) (filePaths : List Text)
    (files : List StreamFile) :
    Intake.run (fileVerdict canOpen) (fun files f => files ++ [f]) filePaths
        files = .ok (discoverFiles canOpen filePaths files) := by
  induction filePaths generalizing files with
  | nil => rfl
  | cons filePath filePaths ih =>
      rw [Intake.run, discoverFiles, fileVerdict]
      cases discoverFile canOpen filePath with
      | error message => rfl
      | ok streamFile => exact ih (files ++ [streamFile])

theorem foldl_concat (files opened : List StreamFile) :
    opened.foldl (fun files f => files ++ [f]) files = files ++ opened := by
  induction opened generalizing files with
  | nil => simp
  | cons f opened ih => simp [ih]

theorem fileVerdict_eq_refuse_iff :
    fileVerdict canOpen filePath = .refuse message ↔
      discoverFile canOpen filePath = .error message := by
  rw [fileVerdict]
  cases discoverFile canOpen filePath <;> simp

/-- The loop returns when every path leads to a file. -/
theorem discoverFiles_returned_iff :
    discoverFiles canOpen filePaths files = .returned () files' ↔
      AllOpen canOpen filePaths ∧
        files' = files ++ openedFiles canOpen filePaths := by
  have hrun := Intake.run_eq_returned_iff (fileVerdict canOpen)
    (fun files f => files ++ [f]) filePaths files files'
  rw [discoverFiles_eq_run, foldl_concat, Except.ok.injEq] at hrun
  exact hrun

/-- The loop throws at the first path that leads to no file. -/
theorem discoverFiles_thrown_iff :
    discoverFiles canOpen filePaths files = .thrown message files' ↔
      ∃ before filePath after, filePaths = before ++ filePath :: after ∧
        AllOpen canOpen before ∧
        discoverFile canOpen filePath = .error message ∧
        files' = files ++ openedFiles canOpen before := by
  have hrun := Intake.run_eq_thrown_iff (fileVerdict canOpen)
    (fun files f => files ++ [f]) filePaths files files' message
  simp only [discoverFiles_eq_run, foldl_concat, Except.ok.injEq,
    fileVerdict_eq_refuse_iff] at hrun
  exact hrun

theorem discoverFiles_of_allOpen (files : List StreamFile)
    (hopen : AllOpen canOpen filePaths) :
    discoverFiles canOpen filePaths files =
      .returned () (files ++ openedFiles canOpen filePaths) :=
  discoverFiles_returned_iff.mpr ⟨hopen, rfl⟩

theorem discoverFiles_throws {before : List Text} (after : List Text)
    (files : List StreamFile) (hopen : AllOpen canOpen before)
    (hfile : discoverFile canOpen filePath = .error message) :
    discoverFiles canOpen (before ++ filePath :: after) files =
      .thrown message (files ++ openedFiles canOpen before) :=
  discoverFiles_thrown_iff.mpr ⟨before, filePath, after, rfl, hopen, hfile,
    rfl⟩

/-! ## The ways to fail -/

/-- How `initialize` throws, and what it leaves in the manager. -/
inductive Abandons (fm : FileManager) (std : StdSort) (canOpen : Text → Bool)
    (lsListing vsListing : Option (List DirectoryEntry)) (message : String) :
    FileManager → Prop
  /-- No list of the log files: nothing has changed. -/
  | lsPathsFail (hls : fm.getFilePaths ".ls".toList lsListing =
      .error message) : Abandons fm std canOpen lsListing vsListing message fm
  /-- No list of the value files: nothing has changed. -/
  | vsPathsFail {lsPaths : List Text}
      (hls : fm.getFilePaths ".ls".toList lsListing = .ok lsPaths)
      (hvs : fm.getFilePaths ".vs".toList vsListing = .error message) :
      Abandons fm std canOpen lsListing vsListing message fm
  /-- A log file has no number or cannot be opened: those before it stay. -/
  | lsFileFails {before after vsPaths : List Text} {filePath : Text}
      (hls : fm.getFilePaths ".ls".toList lsListing =
        .ok (before ++ filePath :: after))
      (hvs : fm.getFilePaths ".vs".toList vsListing = .ok vsPaths)
      (hopen : AllOpen canOpen before)
      (hfile : discoverFile canOpen filePath = .error message) :
      Abandons fm std canOpen lsListing vsListing message
        { fm with lsFiles := fm.lsFiles ++ openedFiles canOpen before }
  /-- The same for a value file: all log files stay, too. -/
  | vsFileFails {lsPaths before after : List Text} {filePath : Text}
      (hls : fm.getFilePaths ".ls".toList lsListing = .ok lsPaths)
      (hvs : fm.getFilePaths ".vs".toList vsListing =
        .ok (before ++ filePath :: after))
      (hlsOpen : AllOpen canOpen lsPaths) (hopen : AllOpen canOpen before)
      (hfile : discoverFile canOpen filePath = .error message) :
      Abandons fm std canOpen lsListing vsListing message
        { fm with
          lsFiles := fm.lsFiles ++ openedFiles canOpen lsPaths
          vsFiles := fm.vsFiles ++ openedFiles canOpen before }
  /-- Too many log files: all files stay, in no order. -/
  | lsOrderFails {lsPaths vsPaths : List Text}
      (hls : fm.getFilePaths ".ls".toList lsListing = .ok lsPaths)
      (hvs : fm.getFilePaths ".vs".toList vsListing = .ok vsPaths)
      (hlsOpen : AllOpen canOpen lsPaths) (hvsOpen : AllOpen canOpen vsPaths)
      (horder : fm.orderFiles std
        (fm.lsFiles ++ openedFiles canOpen lsPaths) = .error message) :
      Abandons fm std canOpen lsListing vsListing message
        { fm with
          lsFiles := fm.lsFiles ++ openedFiles canOpen lsPaths
          vsFiles := fm.vsFiles ++ openedFiles canOpen vsPaths }
  /-- Too many value files: all files stay, and the log files are in order. -/
  | vsOrderFails {lsPaths vsPaths : List Text} {ordered : List StreamFile}
      (hls : fm.getFilePaths ".ls".toList lsListing = .ok lsPaths)
      (hvs : fm.getFilePaths ".vs".toList vsListing = .ok vsPaths)
      (hlsOpen : AllOpen canOpen lsPaths) (hvsOpen : AllOpen canOpen vsPaths)
      (hordered : fm.orderFiles std
        (fm.lsFiles ++ openedFiles canOpen lsPaths) = .ok ordered)
      (horder : fm.orderFiles std
        (fm.vsFiles ++ openedFiles canOpen vsPaths) = .error message) :
      Abandons fm std canOpen lsListing vsListing message
        { fm with
          lsFiles := ordered
          vsFiles := fm.vsFiles ++ openedFiles canOpen vsPaths }

variable {fm fm' : FileManager} {std : StdSort}
  {lsListing vsListing : Option (List DirectoryEntry)}

/-- Ordering throws at the first list that is too long. -/
theorem orderLists_thrown_iff {lsFiles vsFiles : List StreamFile} :
    ({ fm with lsFiles := lsFiles, vsFiles := vsFiles } :
        FileManager).orderLists std = .thrown message fm' ↔
      (fm.orderFiles std lsFiles = .error message ∧
        fm' = { fm with lsFiles := lsFiles, vsFiles := vsFiles }) ∨
      ∃ ordered, fm.orderFiles std lsFiles = .ok ordered ∧
        fm.orderFiles std vsFiles = .error message ∧
        fm' = { fm with lsFiles := ordered, vsFiles := vsFiles } := by
  have hls : ({ fm with lsFiles := lsFiles, vsFiles := vsFiles } :
      FileManager).orderFiles std lsFiles = fm.orderFiles std lsFiles := rfl
  have hvs : ∀ ordered, ({ fm with lsFiles := ordered, vsFiles := vsFiles } :
      FileManager).orderFiles std vsFiles = fm.orderFiles std vsFiles :=
    fun _ => rfl
  rw [orderLists]
  simp only [hls]
  cases fm.orderFiles std lsFiles with
  | error message' => simp [eq_comm]
  | ok ordered =>
      simp only [hvs]
      cases fm.orderFiles std vsFiles with
      | error message' => simp [eq_comm]
      | ok vsOrdered => simp

/-- These are all the ways in which `initialize` throws, and what it leaves. -/
theorem initializeFiles_thrown_iff (fm fm' : FileManager) (std : StdSort)
    (canOpen : Text → Bool)
    (lsListing vsListing : Option (List DirectoryEntry)) (message : String) :
    fm.initializeFiles std canOpen lsListing vsListing = .thrown message fm' ↔
      Abandons fm std canOpen lsListing vsListing message fm' := by
  constructor
  · intro h
    rw [initializeFiles] at h
    split at h
    · next hls =>
      cases h
      exact .lsPathsFail hls
    next lsPaths hls =>
    split at h
    · next hvs =>
      cases h
      exact .vsPathsFail hls hvs
    next vsPaths hvs =>
    split at h
    · next hthrown =>
      cases h
      obtain ⟨before, filePath, after, rfl, hopen, hfile, rfl⟩ :=
        discoverFiles_thrown_iff.mp hthrown
      exact .lsFileFails hls hvs hopen hfile
    next hlsReturned =>
    obtain ⟨hlsOpen, rfl⟩ := discoverFiles_returned_iff.mp hlsReturned
    simp only at h
    split at h
    · next hthrown =>
      cases h
      obtain ⟨before, filePath, after, rfl, hopen, hfile, rfl⟩ :=
        discoverFiles_thrown_iff.mp hthrown
      exact .vsFileFails hls hvs hlsOpen hopen hfile
    next hvsReturned =>
    obtain ⟨hvsOpen, rfl⟩ := discoverFiles_returned_iff.mp hvsReturned
    rcases orderLists_thrown_iff.mp h with
      ⟨horder, rfl⟩ | ⟨ordered, hordered, horder, rfl⟩
    · exact .lsOrderFails hls hvs hlsOpen hvsOpen horder
    · exact .vsOrderFails hls hvs hlsOpen hvsOpen hordered horder
  · intro h
    cases h with
    | lsPathsFail hls => simp only [initializeFiles, hls]
    | vsPathsFail hls hvs => simp only [initializeFiles, hls, hvs]
    | lsFileFails hls hvs hopen hfile =>
        simp only [initializeFiles, hls, hvs,
          discoverFiles_throws _ _ hopen hfile]
    | vsFileFails hls hvs hlsOpen hopen hfile =>
        simp only [initializeFiles, hls, hvs,
          discoverFiles_of_allOpen _ hlsOpen,
          discoverFiles_throws _ _ hopen hfile]
    | lsOrderFails hls hvs hlsOpen hvsOpen horder =>
        simp only [initializeFiles, hls, hvs,
          discoverFiles_of_allOpen _ hlsOpen,
          discoverFiles_of_allOpen _ hvsOpen]
        exact orderLists_thrown_iff.mpr (.inl ⟨horder, rfl⟩)
    | vsOrderFails hls hvs hlsOpen hvsOpen hordered horder =>
        simp only [initializeFiles, hls, hvs,
          discoverFiles_of_allOpen _ hlsOpen,
          discoverFiles_of_allOpen _ hvsOpen]
        exact orderLists_thrown_iff.mpr (.inr ⟨_, hordered, horder, rfl⟩)

/-- The manager of a table `T`. -/
def managerOfT : FileManager :=
  new "./data".toList ⟨"T".toList, by decide⟩

/-- A log file that is found, and one whose name has no number. -/
def halfGoodListing : List DirectoryEntry :=
  [⟨"T.000.ls".toList, true⟩, ⟨"T.old.ls".toList, true⟩]

theorem initialize_halfGoodListing :
    managerOfT.initializeFiles .stable (fun _ => true) (some halfGoodListing)
        (some halfGoodListing) =
      .thrown "stoi" { managerOfT with
        lsFiles := [⟨"./data/T.000.ls".toList, 0⟩] } :=
  rfl

/-- The file that was found stays in the manager. -/
theorem initialize_thrown_changes :
    ¬∀ (fm fm' : FileManager) (std : StdSort) (canOpen : Text → Bool)
        (lsListing vsListing : Option (List DirectoryEntry))
        (message : String),
      fm.initializeFiles std canOpen lsListing vsListing =
          .thrown message fm' →
        fm'.lsFiles = fm.lsFiles ∧ fm'.vsFiles = fm.vsFiles := by
  intro hunchanged
  obtain ⟨hls, -⟩ := hunchanged _ _ _ _ _ _ _ initialize_halfGoodListing
  exact List.cons_ne_nil _ _ hls

end FileManager

end SquidDB.Storage
