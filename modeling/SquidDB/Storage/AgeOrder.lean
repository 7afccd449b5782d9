import SquidDB.Storage.FileSequence

/-!
# The order of age

Fewer than 256 files whose numbers follow each other, from any number on and
possibly beyond 255, are put into the order in which they were made, whatever
the order in which they are found.
-/

namespace SquidDB.Storage

open Checked Circle

namespace FileManager

variable {files ordered : List StreamFile}

theorem eq_of_numbers_eq (hperm : ordered.Perm files)
    (hnodup : (files.map StreamFile.sequenceNumber).Nodup)
    (hnumbers : ordered.map StreamFile.sequenceNumber =
      files.map StreamFile.sequenceNumber) : ordered = files := by
  apply List.ext_getElem hperm.length_eq
  intro i hi hi'
  have hmem : ordered[i] ∈ files := hperm.subset (List.getElem_mem hi)
  apply List.inj_on_of_nodup_map hnodup hmem (List.getElem_mem hi')
  have hget := congrArg (fun numbers => numbers[i]?) hnumbers
  simpa [hi, hi'] using hget

theorem orderFiles_of_perm (fm : FileManager) (std : StdSort) {s : UInt8} {n : ℕ}
    (hn : n ≤ 255) (hperm : ordered.Perm files)
    (hfiles : files.map StreamFile.sequenceNumber = arc s n) :
    fm.orderFiles std ordered = .ok files := by
  have hlength : ordered.length = n := by
    rw [hperm.length_eq, ← length_arc s n, ← hfiles, List.length_map]
  have hlimit : ordered.length ≤ 256 := by
    omega
  obtain ⟨result, hresult, hresultOrdered⟩ := exists_orderFiles fm std hlimit
  have hnumbers : (ordered.map StreamFile.sequenceNumber).Perm (arc s n) := by
    rw [← hfiles]
    exact hperm.map _
  have hnodup : (ordered.map StreamFile.sequenceNumber).Nodup :=
    hnumbers.nodup_iff.mpr (nodup_arc s (by omega))
  have hwhole : Contiguous {m | m ∈ ordered.map StreamFile.sequenceNumber} :=
    (Contiguous.congr fun m => hnumbers.mem_iff).mpr
      (contiguous_of_isChain (isChain_arc s n))
  have hchain := isChain_orderNumbers hnodup hwhole
  rw [← orderFiles_numbers hresult] at hchain
  have hresultPerm : result.Perm files :=
    hresultOrdered.trans hperm
  have harc : result.map StreamFile.sequenceNumber = arc s n := by
    apply eq_arc_of_perm hn hchain
    rw [← hfiles]
    exact hresultPerm.map _
  have hequal : result = files := by
    apply eq_of_numbers_eq hresultPerm
    · rw [hfiles]
      exact nodup_arc s (by omega)
    · rw [harc, hfiles]
  rw [hresult, hequal]

/-- `orderFiles` puts both kinds of files into the order of their age, and then
`validate` returns true. -/
theorem orderFiles_recovers_age (fm : FileManager) (std : StdSort)
    (ndebug : Bool) (s : UInt8) {n : ℕ} (hn : n ≤ 255) {lsFiles vsFiles : List StreamFile}
    (hls : lsFiles.map StreamFile.sequenceNumber = arc s n)
    (hvs : vsFiles.map StreamFile.sequenceNumber = arc s n)
    (hlsPerm : fm.lsFiles.Perm lsFiles) (hvsPerm : fm.vsFiles.Perm vsFiles) :
    fm.orderFiles std fm.lsFiles = .ok lsFiles ∧
      fm.orderFiles std fm.vsFiles = .ok vsFiles ∧
      fm.orderLists std = .returned ()
        { fm with lsFiles := lsFiles, vsFiles := vsFiles } ∧
      ({ fm with lsFiles := lsFiles, vsFiles := vsFiles } :
        FileManager).validate ndebug = .ok true := by
  have hlsOrdered := orderFiles_of_perm fm std hn hlsPerm hls
  have hvsOrdered := orderFiles_of_perm fm std hn hvsPerm hvs
  refine ⟨hlsOrdered, hvsOrdered, ?_, ?_⟩
  · have hvsAfter := orderFiles_of_perm { fm with lsFiles := lsFiles } std
      hn hvsPerm hvs
    simp only [orderLists, hlsOrdered, hvsAfter]
  · rw [validate_eq_true]
    refine ⟨hls.trans hvs.symm, ?_⟩
    rintro (_ | _)
    · change (lsFiles.map _).IsChain Follows
      rw [hls]
      exact isChain_arc s n
    · change (vsFiles.map _).IsChain Follows
      rw [hvs]
      exact isChain_arc s n

/-- Files whose numbers have rolled over, in the order of their age and in that
of a listing. -/
def rolledFiles (numbers : List UInt8) : List StreamFile :=
  numbers.map fun n => ⟨Text.threeDigits n.toNat, n⟩

theorem orderFiles_recovers_rolledFiles :
    let found : FileManager := ⟨"./data/".toList, Store.testTable,
      rolledFiles [0, 254, 1, 255], rolledFiles [255, 1, 0, 254]⟩
    let ordered : FileManager := ⟨"./data/".toList, Store.testTable,
      rolledFiles [254, 255, 0, 1], rolledFiles [254, 255, 0, 1]⟩
    found.orderFiles .stable found.lsFiles = .ok ordered.lsFiles ∧
      found.orderFiles .stable found.vsFiles = .ok ordered.vsFiles ∧
      found.orderLists .stable = .returned () ordered ∧
      ordered.validate false = .ok true :=
  orderFiles_recovers_age _ _ false 254 (by decide : 4 ≤ 255) rfl rfl
    (by decide) (by decide)

end FileManager

end SquidDB.Storage
