import SquidDB.Storage.FileSequence

/-!
# Files found by their numbers

A row remembers its value file by the number of the file.  The number leads to
the same file for as long as the table exists, over adds and restarts, as long
as no kind gets more than 256 files.  The check of the manager, on the other
hand, depends on how many files of each kind have been added so far.
-/

namespace SquidDB.Storage

open Checked

/-- Items whose keys count up are found at the position of their key. -/
theorem find?_eq_getElem? {α : Type} {key : α → ℕ}
    {items : List α} {start n : ℕ}
    (h : items.map key = List.range' start n) (i : ℕ) :
    items.find? (fun item => key item = start + i) = items[i]? := by
  induction items generalizing start n i with
  | nil => rfl
  | cons item items ih =>
      obtain _ | n := n
      · cases h
      rw [List.map_cons, List.range'_succ, List.cons.injEq] at h
      obtain ⟨hhead, htail⟩ := h
      rcases i with _ | i
      · simp [hhead]
      · have hne : ¬key item = start + (i + 1) := by omega
        rw [List.find?_cons_of_neg (by simpa using hne),
          List.getElem?_cons_succ, ← ih htail i]
        simp only [Nat.add_assoc, Nat.add_comm 1]

namespace FileManager

/-! ## The two lookups -/

/-- What `getLsFile` and `getVsFile` share. -/
def findFile (fm : FileManager) (caller : String) (files : List StreamFile)
    (sequenceNumber : UInt8) : Except String StreamFile :=
  match files.find? fun f => f.sequenceNumber = sequenceNumber with
  | none => .error (caller ++ " did not find sequence number " ++
      toString sequenceNumber.toNat ++ " table " ++
      String.ofList fm.tableName.text)
  | some found => .ok found

def getLsFile (fm : FileManager) (sequenceNumber : UInt8) :
    Except String StreamFile :=
  fm.findFile "FileManager::getLsFile" fm.lsFiles sequenceNumber

def getVsFile (fm : FileManager) (sequenceNumber : UInt8) :
    Except String StreamFile :=
  fm.findFile "FileManager::getVsFile" fm.vsFiles sequenceNumber

/-- The file of a kind with a number. -/
def getFile (fm : FileManager) : FileKind → UInt8 → Except String StreamFile
  | .ls => fm.getLsFile
  | .vs => fm.getVsFile

theorem getFile_eq_ok {fm : FileManager} {kind : FileKind}
    {sequenceNumber : UInt8} {f : StreamFile} :
    fm.getFile kind sequenceNumber = .ok f ↔
      (fm.files kind).find?
        (fun f => f.sequenceNumber = sequenceNumber) = some f := by
  cases kind with
  | ls =>
      change fm.getLsFile sequenceNumber = _ ↔ fm.lsFiles.find? _ = _
      rw [getLsFile, findFile]
      split <;> simp [*]
  | vs =>
      change fm.getVsFile sequenceNumber = _ ↔ fm.vsFiles.find? _ = _
      rw [getVsFile, findFile]
      split <;> simp [*]

end FileManager

namespace Store

variable {s s' : Store} {count : FileKind → ℕ} {kind : FileKind}
  {sequenceNumber : UInt8} {f : StreamFile}

/-! ## Numbers as addresses -/

theorem Numbered.getFile_eq_ok (h : s.Numbered count) :
    s.manager.getFile kind sequenceNumber = .ok f ↔
      (s.manager.files kind)[sequenceNumber.toNat]? = some f := by
  have hnumbers : (s.manager.files kind).map
      (fun f => f.sequenceNumber.toNat) = List.range' 0 (count kind) := by
    have hrange : (numbering s.manager.tableName kind (count kind)).map
        (fun entry => entry.1.toNat) = List.range (count kind) :=
      map_toNat_numbering (h.bound kind)
    rwa [← h.files kind, List.map_map, List.range_eq_range'] at hrange
  rw [FileManager.getFile_eq_ok,
    ← find?_eq_getElem? hnumbers sequenceNumber.toNat]
  simp only [Nat.zero_add, UInt8.toNat_inj]

/-- A file is found by the number it has, and has the number it is found by. -/
theorem Numbered.identity_of_getElem? (h : s.Numbered count) {i : ℕ}
    (hget : (s.manager.files kind)[i]? = some f) :
    f.identity = nthFile s.manager.tableName kind i := by
  have hidentity := congrArg (fun entries => entries[i]?) (h.files kind)
  simp only [List.getElem?_map, hget, Option.map_some] at hidentity
  have hlt : i < count kind := by
    rw [← h.length_files kind]
    exact (List.getElem?_eq_some_iff.mp hget).1
  rw [numbering, List.getElem?_map, List.getElem?_range hlt,
    Option.map_some] at hidentity
  exact Option.some.inj hidentity

/-- Files are only added. -/
structure Grows (s s' : Store) : Prop where
  dataPath : s'.manager.dataPath = s.manager.dataPath
  tableName : s'.manager.tableName = s.manager.tableName
  length : ∀ kind,
    (s.manager.files kind).length ≤ (s'.manager.files kind).length

theorem Grows.refl (s : Store) : s.Grows s :=
  ⟨rfl, rfl, fun _ => le_rfl⟩

theorem Grows.trans {s'' : Store} (h : s.Grows s') (h' : s'.Grows s'') :
    s.Grows s'' :=
  ⟨h'.dataPath.trans h.dataPath, h'.tableName.trans h.tableName,
    fun kind => (h.length kind).trans (h'.length kind)⟩

theorem Numbered.grows (h : s.Numbered count) {call : StoreCall}
    (hst : s.step call = some s') : s.Grows s' := by
  cases call with
  | add kind canOpen =>
      rw [Store.step, FileManager.add_eq] at hst
      by_cases hopen : canOpen (s.manager.nextFile kind).filePath = true
      · simp only [hopen, if_true, Option.some.injEq] at hst
        subst hst
        refine ⟨FileManager.push_dataPath, FileManager.push_tableName,
          fun kind' => ?_⟩
        by_cases hk : kind' = kind
        · subst hk
          rw [FileManager.files_push, List.length_append]
          omega
        · rw [FileManager.files_push_of_ne hk]
      · simp only [hopen, if_false, Bool.false_eq_true,
          Option.some.injEq] at hst
        exact hst ▸ Grows.refl s
  | restart std canOpen lsNames vsNames =>
      rw [Store.step] at hst
      by_cases hrestart : s.Restartable canOpen lsNames vsNames
      · obtain ⟨fm, hinit, hdata, htable, hnumbered⟩ := h.restart std hrestart
        rw [if_pos hrestart, hinit] at hst
        obtain rfl := Option.some.inj hst
        refine ⟨hdata, htable, fun kind => ?_⟩
        rw [h.length_files, hnumbered.length_files]
      · rw [if_neg hrestart] at hst
        cases hst

/-- Over a run below the limit. -/
theorem Numbered.grows_run (h : s.Numbered count) {calls : List StoreCall}
    (hguard : Machine.Guarded Store.step BelowLimit s calls)
    (hrun : Machine.run Store.step s calls = some s') :
    (∃ count', s'.Numbered count') ∧ s.Grows s' := by
  have hstep : ∀ (t : Store) (call : StoreCall) (t' : Store),
      ((∃ count', t.Numbered count') ∧ s.Grows t) → t.BelowLimit call →
        t.step call = some t' →
          (∃ count', t'.Numbered count') ∧ s.Grows t' := by
    rintro t call t' ⟨⟨count', ht⟩, hgrows⟩ hguard hst
    exact ⟨ht.step hguard hst, hgrows.trans (ht.grows hst)⟩
  exact Machine.run_invariant_of_guarded hstep ⟨⟨count, h⟩, Grows.refl s⟩
    hguard hrun

/-- Every file of a table is found by its own number.  A number that leads to a
file at some point leads to the same file from then on, whatever is added and
however often the program is started again. -/
theorem address_stays (dataPath : Text) (tableName : TableName)
    {calls later : List StoreCall}
    (hguard : Machine.Guarded step BelowLimit (new dataPath tableName) calls)
    (hrun : Machine.run step (new dataPath tableName) calls = some s)
    (hguard' : Machine.Guarded step BelowLimit s later)
    (hlater : Machine.run step s later = some s') (kind : FileKind) :
    (∀ f ∈ s.manager.files kind,
      s.manager.getFile kind f.sequenceNumber = .ok f) ∧
    ∀ sequenceNumber f, s.manager.getFile kind sequenceNumber = .ok f →
      f.sequenceNumber = sequenceNumber ∧
      ∃ f', s'.manager.getFile kind sequenceNumber = .ok f' ∧
        SameFile dataPath f f' := by
  obtain ⟨⟨count, h⟩, hgrows⟩ :=
    (new_numbered dataPath tableName).grows_run hguard hrun
  obtain ⟨⟨count', h'⟩, hgrows'⟩ := h.grows_run hguard' hlater
  have hown : ∀ {i : ℕ} {f : StreamFile},
      (s.manager.files kind)[i]? = some f → f.sequenceNumber.toNat = i := by
    intro i f hget
    have hnumber : f.sequenceNumber = UInt8.ofNat i :=
      congrArg Prod.fst (h.identity_of_getElem? hget)
    have hlt := (List.getElem?_eq_some_iff.mp hget).1
    rw [h.length_files] at hlt
    rw [hnumber, UInt8.toNat_ofNat_of_lt' (hlt.trans_le (h.bound kind))]
  constructor
  · intro f hf
    obtain ⟨i, hget⟩ := List.mem_iff_getElem?.mp hf
    rwa [h.getFile_eq_ok, hown hget]
  · intro sequenceNumber f hfind
    rw [h.getFile_eq_ok] at hfind
    have hlt := (List.getElem?_eq_some_iff.mp hfind).1
    have hget := List.getElem?_eq_getElem
      (hlt.trans_le (hgrows'.length kind))
    refine ⟨UInt8.toNat_inj.mp (hown hfind), _,
      h'.getFile_eq_ok.mpr hget, ?_, ?_, ?_⟩
    · rw [h.identity_of_getElem? hfind, h'.identity_of_getElem? hget,
        hgrows'.tableName]
    · have hpath : s.manager.dataPath = dataPath := hgrows.dataPath
      rw [← hpath]
      exact h.leadsTo kind f (List.mem_of_getElem? hfind)
    · have hpath : s'.manager.dataPath = dataPath :=
        (hgrows.trans hgrows').dataPath
      rw [← hpath]
      exact h'.leadsTo kind _ (List.mem_of_getElem? hget)

/-- The value file that is added first, over another one and a restart. -/
theorem address_stays_restarted :
    ∃ s s' f f', Machine.run step (new "./data/".toList testTable)
        [.add .vs fun _ => true] = some s ∧
      Machine.run step s [.add .vs fun _ => true,
        .restart .stable (fun _ => true)
          ["TestTable.001.vs".toList, "TestTable.000.vs".toList]
          ["TestTable.001.vs".toList, "TestTable.000.vs".toList]] =
        some s' ∧
      s.manager.getFile .vs 0 = .ok f ∧ s'.manager.getFile .vs 0 = .ok f' ∧
      SameFile "./data/".toList f f' := by
  obtain ⟨s, f, hrun, hfind, hlimit⟩ : ∃ s f,
      Machine.run step (new "./data/".toList testTable)
        [.add .vs fun _ => true] = some s ∧
      s.manager.getFile .vs 0 = .ok f ∧
      s.BelowLimit (.add .vs fun _ => true) :=
    ⟨_, _, rfl, rfl, fun _ => by decide⟩
  obtain ⟨s', hlater⟩ : ∃ s', Machine.run step s [.add .vs fun _ => true,
      .restart .stable (fun _ => true)
        ["TestTable.001.vs".toList, "TestTable.000.vs".toList]
        ["TestTable.001.vs".toList, "TestTable.000.vs".toList]] =
        some s' := by
    obtain rfl := Option.some.inj hrun
    exact ⟨_, rfl⟩
  have hguard : Machine.Guarded step BelowLimit
      (new "./data/".toList testTable) [.add .vs fun _ => true] :=
    ⟨fun _ => by decide, fun _ _ => trivial⟩
  have hguard' : Machine.Guarded step BelowLimit s [.add .vs fun _ => true,
      .restart .stable (fun _ => true)
        ["TestTable.001.vs".toList, "TestTable.000.vs".toList]
        ["TestTable.001.vs".toList, "TestTable.000.vs".toList]] :=
    ⟨hlimit, fun _ _ => ⟨trivial, fun _ _ => trivial⟩⟩
  obtain ⟨-, hstays⟩ := address_stays "./data/".toList testTable hguard hrun
    hguard' hlater .vs
  obtain ⟨-, f', hfind', hsame⟩ := hstays 0 f hfind
  exact ⟨s, s', f, f', hrun, hlater, hfind, hfind', hsame⟩

/-! ## The check over a run -/

/-- The loop of `validate` over files whose numbers count up, without
assertions: it runs out of value files, or it finds nothing wrong. -/
theorem validateFrom_counting {lsFiles vsFiles : List StreamFile}
    {start n m : ℕ} {next : Option UInt8} {valid : Bool}
    (hls : lsFiles.map StreamFile.sequenceNumber =
      (List.range' start n).map UInt8.ofNat)
    (hvs : vsFiles.map StreamFile.sequenceNumber =
      (List.range' start m).map UInt8.ofNat)
    (hnext : ∀ number ∈ next, number = UInt8.ofNat start) :
    FileManager.validateFrom true lsFiles vsFiles next valid =
      if n ≤ m then .ok valid else .error .outOfBounds := by
  induction lsFiles generalizing vsFiles start n m next valid with
  | nil =>
      have hn : n = 0 := by simpa using congrArg List.length hls.symm
      rw [hn, if_pos (Nat.zero_le m)]
      rfl
  | cons lsFile lsFiles ih =>
      obtain _ | n := n
      · cases hls
      rw [List.range'_succ, List.map_cons, List.map_cons,
        List.cons.injEq] at hls
      rcases vsFiles with _ | ⟨vsFile, vsFiles⟩
      · have hm : m = 0 := by simpa using congrArg List.length hvs.symm
        rw [hm, if_neg (by omega)]
        rfl
      obtain _ | m := m
      · cases hvs
      rw [List.range'_succ, List.map_cons, List.map_cons,
        List.cons.injEq] at hvs
      have hsame : lsFile.sequenceNumber = vsFile.sequenceNumber :=
        hls.1.trans hvs.1.symm
      have hfollowing : FileManager.followingNumber (UInt8.ofNat start) =
          UInt8.ofNat (start + 1) := by
        rw [FileManager.followingNumber_eq, UInt8.ofNat_add]
        rfl
      have hrest : ∀ valid, FileManager.validateFrom true lsFiles vsFiles
          (some (UInt8.ofNat (start + 1))) valid =
            if n + 1 ≤ m + 1 then .ok valid else .error .outOfBounds := by
        intro valid
        rw [ih hls.2 hvs.2 (by simp)]
        simp only [Nat.add_le_add_iff_right]
      cases next with
      | none =>
          simp only [FileManager.validateFrom, assert_ndebug, ok_bind, hsame,
            decide_true, Bool.and_true]
          rw [← hsame, hls.1, hfollowing, hrest]
      | some number =>
          obtain rfl := hnext number rfl
          simp only [FileManager.validateFrom, assert_ndebug, ok_bind, hsame,
            decide_true, Bool.and_true]
          rw [← hsame, hls.1, hfollowing, hrest]
          simp

theorem Numbered.numbers (h : s.Numbered count) (kind : FileKind) :
    (s.manager.files kind).map StreamFile.sequenceNumber =
      (List.range' 0 (count kind)).map UInt8.ofNat := by
  have hnumbers := congrArg (List.map Prod.fst) (h.files kind)
  rw [numbering, List.map_map, List.map_map, List.range_eq_range'] at hnumbers
  exact hnumbers

theorem Numbered.validate_ndebug (h : s.Numbered count) :
    s.manager.validate true =
      if count .ls ≤ count .vs then .ok (decide (count .ls = count .vs))
      else .error .outOfBounds := by
  have hls : s.manager.lsFiles.length = count .ls := h.length_files .ls
  have hvs : s.manager.vsFiles.length = count .vs := h.length_files .vs
  rw [FileManager.validate, assert_ndebug, ok_bind, hls, hvs]
  exact validateFrom_counting (h.numbers .ls) (h.numbers .vs) (by simp)

/-- After any adds and restarts below the limit the check is right as long as
there are as many log files as value files.  With more log files it reads past
the value files; with more value files it reports them; and with assertions it
ends in a failed assertion either way. -/
theorem validate_counts (dataPath : Text) (tableName : TableName)
    {calls : List StoreCall}
    (hguard : Machine.Guarded step BelowLimit (new dataPath tableName) calls)
    (hrun : Machine.run step (new dataPath tableName) calls = some s)
    (ndebug : Bool) :
    s.manager.validate ndebug =
      if s.manager.lsFiles.length = s.manager.vsFiles.length then .ok true
      else if ndebug = false then .error .assertFailed
      else if s.manager.lsFiles.length < s.manager.vsFiles.length then
        .ok false
      else .error .outOfBounds := by
  obtain ⟨⟨count, h⟩, -⟩ :=
    (new_numbered dataPath tableName).grows_run hguard hrun
  have hls : s.manager.lsFiles.length = count .ls := h.length_files .ls
  have hvs : s.manager.vsFiles.length = count .vs := h.length_files .vs
  have hrelease := h.validate_ndebug
  by_cases hsame : s.manager.lsFiles.length = s.manager.vsFiles.length
  · rw [if_pos hsame]
    rw [hls, hvs] at hsame
    rw [if_pos hsame.le, decide_eq_true hsame] at hrelease
    exact FileManager.validate_eq_true.mpr
      (FileManager.validate_eq_true.mp hrelease)
  · rw [if_neg hsame]
    cases ndebug with
    | false =>
        rw [FileManager.validate, decide_eq_false hsame]
        rfl
    | true =>
        rw [hls, hvs] at hsame
        simp only [hrelease, hls, hvs, Bool.true_eq_false, if_false]
        by_cases hlt : count .ls < count .vs
        · rw [if_pos hlt.le, if_pos hlt, decide_eq_false hsame]
        · rw [if_neg hlt, if_neg (by omega)]

/-- A log file without a value file. -/
theorem validate_counts_one_log :
    ∃ s, Machine.run step (new "./data/".toList testTable)
        [.add .ls fun _ => true] = some s ∧
      s.manager.validate true = .error .outOfBounds ∧
      s.manager.validate false = .error .assertFailed := by
  obtain ⟨s, hrun, hls, hvs⟩ : ∃ s,
      Machine.run step (new "./data/".toList testTable)
        [.add .ls fun _ => true] = some s ∧
      s.manager.lsFiles.length = 1 ∧ s.manager.vsFiles.length = 0 :=
    ⟨_, rfl, rfl, rfl⟩
  have hguard : Machine.Guarded step BelowLimit
      (new "./data/".toList testTable) [.add .ls fun _ => true] :=
    ⟨fun _ => by decide, fun _ _ => trivial⟩
  have hcheck := validate_counts "./data/".toList testTable hguard hrun
  refine ⟨s, hrun, ?_, ?_⟩
  · rw [hcheck, hls, hvs]
    rfl
  · rw [hcheck, hls, hvs]
    rfl

end Store

end SquidDB.Storage
