import SquidDB.Lib.Checked
import SquidDB.Lib.Text

/-!
# File managers

The log and value files of a table.  A file belongs to a table by its name,
`table.nnn.ls` or `table.nnn.vs`, and the order of the files is reconstructed
from the numbers in the names when a manager is initialized.  The directory
listings, the outcome of `std::fopen` and the way `std::sort` orders files with
equal numbers are arguments.
-/

namespace SquidDB.Storage

/-- The name of a table, which becomes part of a single component of a
path. -/
structure TableName where
  text : Text
  component : '/' ∉ text ∧ '\x00' ∉ text
  deriving DecidableEq

/-- `std::filesystem::directory_entry`. -/
structure DirectoryEntry where
  fileName : Text
  isRegularFile : Bool
  deriving DecidableEq, Repr

/-- `StreamFile`, without its stream. -/
structure StreamFile where
  filePath : Text
  sequenceNumber : UInt8
  deriving DecidableEq, Repr

/-- `FileManager`, without its mutexes and the maximal file size, which nothing
reads. -/
structure FileManager where
  dataPath : Text
  tableName : TableName
  lsFiles : List StreamFile
  vsFiles : List StreamFile
  deriving DecidableEq

/-- `std::sort` on the sequence numbers.  It leaves the order of files with
equal numbers open. -/
structure StdSort where
  sort : List StreamFile → List StreamFile
  perm : ∀ files, (sort files).Perm files
  sorted : ∀ files, (sort files).Pairwise fun a b =>
    a.sequenceNumber.toNat ≤ b.sequenceNumber.toNat

/-- One that keeps the order of files with equal numbers. -/
def StdSort.stable : StdSort where
  sort := List.insertionSort fun a b =>
    a.sequenceNumber.toNat ≤ b.sequenceNumber.toNat
  perm := List.perm_insertionSort _
  sorted := List.pairwise_insertionSort _

/-! ## Paths -/

/-- `operator/` of `std::filesystem::path`, for a file name. -/
def joinPath (dataPath fileName : Text) : Text :=
  match dataPath.getLast? with
  | none => fileName
  | some c =>
      if c = '/' then dataPath ++ fileName
      else dataPath ++ '/' :: fileName

/-- `std::filesystem::path::extension`, of a file name. -/
def fileExtension (fileName : Text) : Text :=
  if fileName = ".".toList ∨ fileName = "..".toList then []
  else
    match Text.findLastOf '.' fileName with
    | none | some 0 => []
    | some i => fileName.drop i

/-- `StreamFile::open` on a new object; opening creates the file. -/
def openFile (canOpen : Text → Bool) (filePath : Text)
    (sequenceNumber : UInt8) : Except String StreamFile :=
  if canOpen filePath then .ok ⟨filePath, sequenceNumber⟩
  else .error ("StreamFile::open could not open file " ++
    String.ofList filePath)

namespace FileManager

/-- The constructor. -/
def new (dataPath : Text) (tableName : TableName) : FileManager :=
  ⟨dataPath, tableName, [], []⟩

/-! ## Adding files -/

def getCurrentLsFile (fm : FileManager) : Except String StreamFile :=
  match fm.lsFiles.getLast? with
  | none => .error ("FileManager::getCurrentLsFile ls files empty " ++
      String.ofList fm.tableName.text)
  | some streamFile => .ok streamFile

def getCurrentVsFile (fm : FileManager) : Except String StreamFile :=
  match fm.vsFiles.getLast? with
  | none => .error ("FileManager::getCurrentVsFile vs files empty " ++
      String.ofList fm.tableName.text)
  | some streamFile => .ok streamFile

/-- The number of the file that follows `files`. -/
def nextNumber (files : List StreamFile) : UInt8 :=
  match files.getLast? with
  | none => 0
  | some streamFile =>
      if streamFile.sequenceNumber ≠ 255 then streamFile.sequenceNumber + 1
      else 0

/-- What `addLsFile` and `addVsFile` share: the new file behind `files`. -/
def addFile (fm : FileManager) (canOpen : Text → Bool) (extension : Text)
    (files : List StreamFile) : Except String StreamFile :=
  let sequenceNumber := nextNumber files
  let buffer := Text.threeDigits sequenceNumber.toNat
  let filePath := fm.dataPath ++ "/".toList ++ fm.tableName.text ++
    ".".toList ++ buffer ++ extension
  openFile canOpen filePath sequenceNumber

def addLsFile (fm : FileManager) (canOpen : Text → Bool) :
    Outcome FileManager StreamFile :=
  match fm.addFile canOpen ".ls".toList fm.lsFiles with
  | .error message => .thrown message fm
  | .ok streamFile =>
      .returned streamFile { fm with lsFiles := fm.lsFiles ++ [streamFile] }

def addVsFile (fm : FileManager) (canOpen : Text → Bool) :
    Outcome FileManager StreamFile :=
  match fm.addFile canOpen ".vs".toList fm.vsFiles with
  | .error message => .thrown message fm
  | .ok streamFile =>
      .returned streamFile { fm with vsFiles := fm.vsFiles ++ [streamFile] }

/-! ## Discovering files -/

/-- The file belongs to the table and has the extension. -/
def matchesFile (fm : FileManager) (extension fileName : Text) : Bool :=
  let tableMatch := fm.tableName.text.isPrefixOf fileName
  let extensionMatch := decide (fileExtension fileName = extension)
  tableMatch && extensionMatch

/-- The loop of `getFilePaths` over the listing. -/
def filePathsOf (fm : FileManager) (extension : Text) :
    List DirectoryEntry → Except String (List Text)
  | [] => .ok []
  | directoryEntry :: listing =>
      if directoryEntry.isRegularFile = false then
        .error ("FileManager::getFilePaths directory contains abnormal file "
          ++ String.ofList fm.dataPath)
      else do
        let filePaths ← filePathsOf fm extension listing
        if fm.matchesFile extension directoryEntry.fileName then
          pure (joinPath fm.dataPath directoryEntry.fileName :: filePaths)
        else pure filePaths

/-- `getFilePaths`; the listing is missing when the data path is not a
directory. -/
def getFilePaths (fm : FileManager) (extension : Text)
    (listing : Option (List DirectoryEntry)) : Except String (List Text) :=
  match listing with
  | none => .error ("FileManager::getFilePaths directory doesn't exist " ++
      String.ofList fm.dataPath)
  | some listing => fm.filePathsOf extension listing

/-- `getSequenceNumber`; positions are unsigned, so that the search for the
dot in front of position 0 runs over the whole path, and a negative length is
the rest of the path. -/
def getSequenceNumber (filePath : Text) : Except String UInt8 :=
  let invalidName : Except String UInt8 :=
    .error ("FileManager::getSequenceNumber invalid file name " ++
      String.ofList filePath)
  match Text.findLastOf '.' filePath with
  | none => invalidName
  | some lastDot =>
      let front := if lastDot = 0 then filePath else filePath.take lastDot
      match Text.findLastOf '.' front with
      | none => invalidName
      | some prevDot => do
          let start := prevDot + 1
          let numString :=
            if start ≤ lastDot then
              (filePath.drop start).take (lastDot - start)
            else filePath.drop start
          let num ← Text.stoi numString
          if num < 0 ∨ num > 255 then
            .error ("FileManager::getSequenceNumber invalid sequence number "
              ++ String.ofList filePath)
          else .ok (UInt8.ofNat num.toNat)

/-- The body of the loops in `initialize`. -/
def discoverFile (canOpen : Text → Bool) (filePath : Text) :
    Except String StreamFile := do
  let sequenceNumber ← getSequenceNumber filePath
  openFile canOpen filePath sequenceNumber

/-- The loops in `initialize`. -/
def discoverFiles (canOpen : Text → Bool) :
    List Text → List StreamFile → Outcome (List StreamFile) Unit
  | [], files => .returned () files
  | filePath :: filePaths, files =>
      match discoverFile canOpen filePath with
      | .error message => .thrown message files
      | .ok streamFile =>
          discoverFiles canOpen filePaths (files ++ [streamFile])

/-! ## Ordering files -/

/-- `std::adjacent_find` on sequence numbers, for a distance above 1. -/
def findGap : List ℕ → Option ℕ
  | a :: b :: numbers =>
      if b - a > 1 then some 0
      else (findGap (b :: numbers)).map (· + 1)
  | _ => none

def orderFiles (fm : FileManager) (std : StdSort) (files : List StreamFile) :
    Except String (List StreamFile) :=
  if files.length ≤ 1 then .ok files
  else if files.length > 256 then
    .error ("FileManager::orderFiles too many files " ++
      String.ofList fm.tableName.text)
  else
    let files := std.sort files
    if files.length = 256 then .ok files
    else
      match findGap (files.map fun f => f.sequenceNumber.toNat) with
      | none => .ok files
      | some gap => .ok (files.drop (gap + 1) ++ files.take (gap + 1))

/-- The end of `initialize`: both lists are ordered. -/
def orderLists (fm : FileManager) (std : StdSort) : Outcome FileManager Unit :=
  match fm.orderFiles std fm.lsFiles with
  | .error message => .thrown message fm
  | .ok lsFiles =>
      let fm := { fm with lsFiles := lsFiles }
      match fm.orderFiles std fm.vsFiles with
      | .error message => .thrown message fm
      | .ok vsFiles => .returned () { fm with vsFiles := vsFiles }

/-- `initialize`; the directory is listed twice. -/
def initializeFiles (fm : FileManager) (std : StdSort)
    (canOpen : Text → Bool) (lsListing vsListing : Option (List DirectoryEntry)) :
    Outcome FileManager Unit :=
  match fm.getFilePaths ".ls".toList lsListing with
  | .error message => .thrown message fm
  | .ok lsFilePaths =>
    match fm.getFilePaths ".vs".toList vsListing with
    | .error message => .thrown message fm
    | .ok vsFilePaths =>
      match discoverFiles canOpen lsFilePaths fm.lsFiles with
      | .thrown message lsFiles =>
          .thrown message { fm with lsFiles := lsFiles }
      | .returned () lsFiles =>
        let fm := { fm with lsFiles := lsFiles }
        match discoverFiles canOpen vsFilePaths fm.vsFiles with
        | .thrown message vsFiles =>
            .thrown message { fm with vsFiles := vsFiles }
        | .returned () vsFiles => { fm with vsFiles := vsFiles }.orderLists std

end FileManager

end SquidDB.Storage
