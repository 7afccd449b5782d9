import SquidDB.Storage.FileNumbering

/-!
# Files of several tables

Several managers share a data directory, and `initialize` decides by the first
characters of a name whose file it is.  A table finds its own files again if
and only if no file of another table has a name that begins with its own.
-/

namespace SquidDB.Storage

/-- The managers of the tables, and the names in their data directory, which
exists. -/
structure Tables where
  managers : TableName → FileManager
  directory : List Text

/-- A call of `addLsFile` or `addVsFile` for a table. -/
structure TableAdd where
  table : TableName
  kind : FileKind
  canOpen : Text → Bool

namespace Tables

/-- The tables before the first call, with an empty directory. -/
def new (dataPath : Text) : Tables :=
  ⟨fun t => .new dataPath t, []⟩

/-- One call. -/
def add (s : Tables) (call : TableAdd) : Tables :=
  match (s.managers call.table).add call.kind call.canOpen with
  | .thrown _ manager =>
      { s with managers := Function.update s.managers call.table manager }
  | .returned streamFile manager =>
      ⟨Function.update s.managers call.table manager,
        openIn s.directory streamFile⟩

/-- The names of the files that a table has created. -/
def created (s : Tables) (t : TableName) (kind : FileKind) : List Text :=
  ((s.managers t).files kind).map StreamFile.name

/-- A fresh manager for a table discovers exactly the files that the table has
created. -/
def Isolated (dataPath : Text) (s : Tables) (t : TableName) : Prop :=
  ∀ std canOpen lsNames vsNames, Lists lsNames s.directory →
    Lists vsNames s.directory →
    (∀ name ∈ s.directory, canOpen (joinPath dataPath name) = true) →
    ∃ fm, (FileManager.new dataPath t).initializeFiles std canOpen
        (some (regularFiles lsNames)) (some (regularFiles vsNames)) =
          .returned () fm ∧
      ∀ kind, ((fm.files kind).map StreamFile.name).Nodup ∧
        (∀ f ∈ fm.files kind, LeadsTo dataPath f.name f.filePath) ∧
        ∀ name, name ∈ (fm.files kind).map StreamFile.name ↔
          name ∈ s.created t kind

/-- No other table has created a file whose name begins with the name of the
table. -/
def Separate (s : Tables) (t : TableName) : Prop :=
  ∀ u, u ≠ t → ∀ kind, ∀ name ∈ s.created u kind, ¬ t.text <+: name

/-! ## What the directory holds -/

/-- The managers give their files their own names, and the directory holds
these names. -/
structure Filed (dataPath : Text) (s : Tables) : Prop where
  manager : ∀ t, (s.managers t).dataPath = dataPath ∧
    (s.managers t).tableName = t
  names : ∀ t kind, ∀ f ∈ (s.managers t).files kind,
    f.name = fileName t kind f.sequenceNumber ∧
      LeadsTo dataPath f.name f.filePath
  nodup : s.directory.Nodup
  mem_directory : ∀ name, name ∈ s.directory ↔
    ∃ t kind, name ∈ s.created t kind

variable {dataPath : Text} {s : Tables} {t u : TableName}

theorem new_filed (dataPath : Text) : (new dataPath).Filed dataPath where
  manager _ := ⟨rfl, rfl⟩
  names t kind := by cases kind <;> exact fun _ h => nomatch h
  nodup := List.nodup_nil
  mem_directory name := by
    constructor
    · exact fun h => nomatch h
    · rintro ⟨t, _ | _, h⟩ <;> exact nomatch h

/-- One call files the new name. -/
theorem Filed.add (h : s.Filed dataPath) (call : TableAdd) :
    (s.add call).Filed dataPath := by
  obtain ⟨t, kind, canOpen⟩ := call
  obtain ⟨hdata, htable⟩ := h.manager t
  rw [Tables.add, FileManager.add_eq]
  by_cases hopen : canOpen ((s.managers t).nextFile kind).filePath = true
  · simp only [hopen, if_true]
    obtain ⟨hname, hleads⟩ := (s.managers t).nextFile_name kind
    generalize (s.managers t).nextFile kind = f at hname hleads
    have hfiles : ∀ u kind' g, g ∈ (Function.update s.managers t
          ((s.managers t).push kind f) u).files kind' ↔
        g ∈ (s.managers u).files kind' ∨
          (u = t ∧ kind' = kind) ∧ g = f := by
      intro u kind' g
      by_cases hu : u = t
      · subst hu
        simp [FileManager.mem_files_push]
      · simp [hu]
    refine ⟨fun u => ?_, fun u kind' g hg => ?_, nodup_openIn f h.nodup,
      fun name => ?_⟩
    · by_cases hu : u = t
      · subst hu
        simp [hdata, htable]
      · simp [hu, h.manager u]
    · rcases (hfiles u kind' g).mp hg with hg | ⟨⟨rfl, rfl⟩, rfl⟩
      · exact h.names u kind' g hg
      · exact ⟨htable ▸ hname, hdata ▸ hleads⟩
    · rw [mem_openIn, h.mem_directory]
      simp only [created, List.mem_map, hfiles]
      constructor
      · rintro (⟨u, kind', g, hg, rfl⟩ | rfl)
        · exact ⟨u, kind', g, .inl hg, rfl⟩
        · exact ⟨t, kind, f, .inr ⟨⟨rfl, rfl⟩, rfl⟩, rfl⟩
      · rintro ⟨u, kind', g, hg | ⟨-, rfl⟩, rfl⟩
        · exact .inl ⟨u, kind', g, hg, rfl⟩
        · exact .inr rfl
  · simp only [hopen, if_false, Bool.false_eq_true, Function.update_eq_self]
    exact h

theorem filed_of_calls (dataPath : Text) (calls : List TableAdd) :
    (calls.foldl add (new dataPath)).Filed dataPath := by
  induction calls using List.reverseRecOn with
  | nil => exact new_filed dataPath
  | append_singleton calls call ih =>
      rw [List.foldl_append]
      exact ih.add call

/-! ## Whose file it is -/

namespace Filed

theorem wellNamed (h : s.Filed dataPath) {name : Text}
    (hname : name ∈ s.directory) : WellNamed name := by
  obtain ⟨t, kind, hname⟩ := (h.mem_directory name).mp hname
  obtain ⟨f, hf, rfl⟩ := List.mem_map.mp hname
  exact ⟨_, _, _, (h.names t kind f hf).1⟩

theorem exists_of_created (h : s.Filed dataPath) {kind : FileKind}
    {name : Text} (hname : name ∈ s.created t kind) :
    ∃ n, name = fileName t kind n := by
  obtain ⟨f, hf, rfl⟩ := List.mem_map.mp hname
  exact ⟨_, (h.names t kind f hf).1⟩

/-- A fresh manager takes the names that begin with its table. -/
theorem mem_filter (h : s.Filed dataPath) {names : List Text}
    (hnames : Lists names s.directory) {kind : FileKind} {name : Text} :
    name ∈ names.filter
        ((FileManager.new dataPath t).matchesFile kind.extension) ↔
      ∃ u, name ∈ s.created u kind ∧ t.text <+: name := by
  rw [List.mem_filter, hnames.mem_iff, h.mem_directory]
  constructor
  · rintro ⟨⟨u, kind', hname⟩, hmatch⟩
    obtain ⟨n, rfl⟩ := h.exists_of_created hname
    obtain ⟨hbegins, rfl⟩ := FileManager.matchesFile_fileName.mp hmatch
    exact ⟨u, hname, hbegins⟩
  · rintro ⟨u, hname, hbegins⟩
    obtain ⟨n, rfl⟩ := h.exists_of_created hname
    exact ⟨⟨u, kind, hname⟩,
      FileManager.matchesFile_fileName.mpr ⟨hbegins, rfl⟩⟩

theorem map_name_found (h : s.Filed dataPath) {names : List Text}
    (hnames : Lists names s.directory) (t : TableName) (kind : FileKind) :
    (FileManager.found dataPath t kind names).map StreamFile.name =
      names.filter
        ((FileManager.new dataPath t).matchesFile kind.extension) := by
  rw [FileManager.found, List.map_map]
  refine (List.map_congr_left fun name hname => ?_).trans (List.map_id' _)
  exact (h.wellNamed (hnames.mem_iff.mp
    (List.mem_filter.mp hname).1)).name_discovered dataPath

theorem initializeFiles_eq (h : s.Filed dataPath) (t : TableName)
    (std : StdSort) (canOpen : Text → Bool) {lsNames vsNames : List Text}
    (hls : Lists lsNames s.directory) (hvs : Lists vsNames s.directory)
    (hopen : ∀ name ∈ s.directory,
      canOpen (joinPath dataPath name) = true) :
    ∃ found : FileManager,
      (FileManager.new dataPath t).initializeFiles std canOpen
        (some (regularFiles lsNames)) (some (regularFiles vsNames)) =
          found.orderLists std ∧
      ∀ kind, (∀ f ∈ found.files kind,
          LeadsTo dataPath f.name f.filePath) ∧
        ((found.files kind).map StreamFile.name).Nodup ∧
        ∀ name, name ∈ (found.files kind).map StreamFile.name ↔
          ∃ u, name ∈ s.created u kind ∧ t.text <+: name := by
  have hlisted : ∀ name ∈ s.directory, WellNamed name ∧
      canOpen (joinPath dataPath name) = true :=
    fun name hname => ⟨h.wellNamed hname, hopen name hname⟩
  refine ⟨_, FileManager.initializeFiles_wellNamed std (hls.forall_mem hlisted)
    (hvs.forall_mem hlisted), fun kind => ?_⟩
  obtain ⟨names, hnames, hfound⟩ := FileManager.exists_files_found dataPath t
    (P := fun names => Lists names s.directory) hls hvs kind
  rw [hfound]
  refine ⟨fun f hf => ?_, ?_, ?_⟩
  · apply FileManager.leadsTo_of_mem_found _ hf
    exact hnames.forall_mem fun name hname => h.wellNamed hname
  · rw [h.map_name_found hnames]
    exact (hnames.nodup_iff.mpr h.nodup).filter _
  · intro name
    rw [h.map_name_found hnames]
    exact h.mem_filter hnames

end Filed

theorem length_le_of_fileNames {t : TableName} {kind : FileKind}
    {names : List Text} (hnodup : names.Nodup)
    (h : ∀ name ∈ names, ∃ n, name = fileName t kind n) :
    names.length ≤ 256 := by
  have hnumbers : (names.map fun name => (numberIn name).toNat).Nodup := by
    apply hnodup.map_on
    intro a ha b hb hab
    obtain ⟨m, rfl⟩ := h a ha
    obtain ⟨n, rfl⟩ := h b hb
    rw [numberIn_fileName, numberIn_fileName] at hab
    rw [UInt8.toNat_inj.mp hab]
  have hsubset : (names.map fun name => (numberIn name).toNat) ⊆
      List.range 256 := by
    intro n hn
    obtain ⟨name, -, rfl⟩ := List.mem_map.mp hn
    exact List.mem_range.mpr (numberIn name).toNat_lt
  have hlength := (hnumbers.subperm hsubset).length_le
  rwa [List.length_map, List.length_range] at hlength

/-- The files of a table are discovered if and only if they are separate from
those of the other tables. -/
theorem Filed.isolated_iff (h : s.Filed dataPath) (t : TableName) :
    s.Isolated dataPath t ↔ s.Separate t := by
  constructor
  · intro hisolated u hu kind name hname hbegins
    obtain ⟨fm, hinit, hfm⟩ := hisolated .stable (fun _ => true)
      s.directory s.directory (List.Perm.refl _) (List.Perm.refl _) fun _ _ => rfl
    obtain ⟨found, horder, hfound⟩ := h.initializeFiles_eq t
      .stable (fun _ => true) (List.Perm.refl _) (List.Perm.refl _) fun _ _ => rfl
    have hordered := FileManager.orderLists_returned
      (horder.symm.trans hinit) kind
    have hmem : name ∈ (fm.files kind).map StreamFile.name :=
      ((FileManager.orderFiles_perm hordered).map _).mem_iff.mpr
        (((hfound kind).2.2 name).mpr ⟨u, hname, hbegins⟩)
    obtain ⟨m, rfl⟩ := h.exists_of_created hname
    obtain ⟨n, heq⟩ := h.exists_of_created (((hfm kind).2.2 _).mp hmem)
    exact hu (fileName_injective heq).1
  · intro hseparate std canOpen lsNames vsNames hls hvs hopen
    obtain ⟨found, horder, hfound⟩ :=
      h.initializeFiles_eq t std canOpen hls hvs hopen
    have hown : ∀ kind name,
        (∃ u, name ∈ s.created u kind ∧ t.text <+: name) ↔
          name ∈ s.created t kind := by
      intro kind name
      constructor
      · rintro ⟨u, hname, hbegins⟩
        by_cases hu : u = t
        · exact hu ▸ hname
        · exact absurd hbegins (hseparate u hu kind name hname)
      · intro hname
        obtain ⟨n, rfl⟩ := h.exists_of_created hname
        exact ⟨t, hname, prefix_fileName⟩
    have hlength : ∀ kind, (found.files kind).length ≤ 256 := by
      intro kind
      have hnames : ∀ name ∈ (found.files kind).map StreamFile.name,
          ∃ n, name = fileName t kind n := by
        intro name hname
        rw [(hfound kind).2.2, hown] at hname
        exact h.exists_of_created hname
      rw [← List.length_map StreamFile.name]
      exact length_le_of_fileNames (hfound kind).2.1 hnames
    obtain ⟨fm, hreturn, -, -⟩ := found.exists_orderLists std hlength
    refine ⟨fm, horder.trans hreturn, fun kind => ?_⟩
    have hperm := FileManager.orderFiles_perm
      (FileManager.orderLists_returned hreturn kind)
    obtain ⟨hleads, hnodup, hmem⟩ := hfound kind
    refine ⟨(hperm.map _).nodup_iff.mpr hnodup,
      fun f hf => hleads f (hperm.mem_iff.mp hf), fun name => ?_⟩
    rw [(hperm.map _).mem_iff, hmem, hown]

/-- After any calls, a table discovers exactly its own files if and only if
no other table has created a file whose name begins with its own. -/
theorem isolated_iff_separate (dataPath : Text) (calls : List TableAdd)
    (t : TableName) :
    (calls.foldl add (new dataPath)).Isolated dataPath t ↔
      (calls.foldl add (new dataPath)).Separate t :=
  (filed_of_calls dataPath calls).isolated_iff t

/-- Two tables, the name of one a prefix of the other's. -/
def orders : TableName :=
  ⟨"Orders".toList, by decide⟩

def orders2 : TableName :=
  ⟨"Orders2".toList, by decide⟩

/-- `Orders2` has created its first log file. -/
def twoTables : Tables :=
  [⟨orders2, .ls, fun _ => true⟩].foldl add (new "./data/".toList)

/-- `Orders` has created no file, and discovers the one of `Orders2`. -/
theorem other_table_discovered :
    (∃ fm, (FileManager.new "./data/".toList orders).initializeFiles
        .stable (fun _ => true) (some (regularFiles twoTables.directory))
        (some (regularFiles twoTables.directory)) = .returned () fm ∧
      fm.lsFiles.map StreamFile.name = ["Orders2.000.ls".toList]) ∧
      twoTables.created orders .ls = [] ∧
      ¬ twoTables.Isolated "./data/".toList orders := by
  refine ⟨⟨_, rfl, by decide⟩, by decide, fun hisolated => ?_⟩
  have hfiled : twoTables.Filed "./data/".toList := filed_of_calls _ _
  exact (hfiled.isolated_iff orders).mp hisolated orders2 (by decide) .ls
    "Orders2.000.ls".toList (by decide) (by decide)

end Tables

end SquidDB.Storage
