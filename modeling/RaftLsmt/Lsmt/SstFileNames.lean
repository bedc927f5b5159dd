import RaftLsmt.Lib.TerminatedString
import RaftLsmt.Lsmt.SstFile

/-!
# The names of the files of an SST

`new_sstable_filename` makes the paths of the two files that `memtable_to_disk` and `sst_merge`
write, and `create_sst_metadata` records them. The paths are formatted in a buffer of 256 characters
and the recorded names are cut behind 127 of them, so in a directory with a long path the record
names other files, or the same one twice.

`recorded_names_iff` says for which lengths the record names the files written.
-/

set_option autoImplicit false

namespace RaftLsmt.Lsmt.FileNames

open RaftLsmt.Lib.ByteCodec
open RaftLsmt.Lib.TerminatedString

/-- `SST_FILENAME_MAX_LENGTH`. -/
def sstFilenameMaxLength : Nat := 256

/-- `SST_EXT`. -/
def sstExt : CString := ⟨['.', 's', 'b', 'r', 'o', 'l', 'f'], by decide⟩

/-- `SST_INDEX_EXT`. -/
def sstIndexExt : CString := ⟨['.', 'p', 'r', 'o', 't'], by decide⟩

/-- `/db_` in the format of a file name. -/
def namePrefix : CString := ⟨['/', 'd', 'b', '_'], by decide⟩

/-- `_` in the format of a file name. -/
def nameSeparator : CString := ⟨['_'], by decide⟩

/-- `sst_file_paths_t`. -/
structure SstFilePaths where
  sstFile : CString
  indexFile : CString

/-- `filename` of `new_sstable_filename`. -/
def filenameOf (dir : CString) (epochMs : UInt64) (counterVal : UInt16) : CString :=
  CString.snprintf sstFilenameMaxLength
    (dir ++ namePrefix ++ CString.ofNat epochMs.toNat ++ nameSeparator ++
      CString.ofNat counterVal.toNat)

/-- `new_sstable_filename`. -/
def newSstableFilename (dir : CString) (epochMs : UInt64) (counterVal : UInt16) : SstFilePaths :=
  let filename := filenameOf dir epochMs counterVal
  { sstFile := CString.snprintf (filename.length + sstExt.length + 1) (filename ++ sstExt)
    indexFile :=
      CString.snprintf (filename.length + sstIndexExt.length + 1) (filename ++ sstIndexExt) }

/-- The names in `sst_metadata_record_t`: two arrays of 256 characters. -/
structure SstNames where
  sstableFilename : List Char
  sstIndexFilename : List Char

/-- `strncpy(name, path, 128 - 1)` and `name[128-1] = '\0'` on a name of zeros. -/
def recordName (path : CString) : List Char :=
  (CString.strncpy (List.replicate 256 nul) path (128 - 1)).set (128 - 1) nul

/-- The names that `create_sst_metadata` records; `new_node` copies them. -/
def createSstMetadata (sstPath indexPath : CString) : SstNames where
  sstableFilename := recordName sstPath
  sstIndexFilename := recordName indexPath

/-! ## The files -/

/-- The files of the disk, by their paths. -/
def Disk := CString → Option Bytes

/-- `fopen(path, "wb")`, and what is written until the file is closed. -/
def Disk.write (disk : Disk) (path : CString) (content : Bytes) : Disk :=
  fun p => if p = path then some content else disk p

/-- `remove`. -/
def Disk.remove (disk : Disk) (path : CString) : Disk :=
  fun p => if p = path then none else disk p

/-- The two files that `memtable_to_disk` and `sst_merge` write. -/
def writeFiles (disk : Disk) (files : SstFilePaths) (sst index : Bytes) : Disk :=
  (disk.write files.sstFile sst).write files.indexFile index

/-- What `sst_iterator_ensure_open` finds: it returns `false`, it ends the process, or it has the
content of the two files. -/
inductive Opened where
  | failed
  | exited
  | files (sst index : Bytes)
  deriving DecidableEq

/-- `sst_iterator_ensure_open`, when neither the file nor the index has been opened before. -/
def sstIteratorEnsureOpen (disk : Disk) (names : SstNames) : Opened :=
  match disk (CString.read names.sstableFilename) with
  | none => .failed
  | some sst =>
    match disk (CString.read names.sstIndexFilename) with
    | none => .exited
    | some index => .files sst index

/-- What the last `sst_metadata_record_release` of an old record removes. -/
def sstMetadataRecordRelease (disk : Disk) (names : SstNames) : Disk :=
  (disk.remove (CString.read names.sstableFilename)).remove (CString.read names.sstIndexFilename)

/-- The record names the two files written, which are different ones. -/
structure NamesRight (files : SstFilePaths) (names : SstNames) : Prop where
  sst_eq : CString.read names.sstableFilename = files.sstFile
  index_eq : CString.read names.sstIndexFilename = files.indexFile
  ne : CString.read names.sstableFilename ≠ CString.read names.sstIndexFilename

/-- Opening and removing act on the files written. -/
structure FilesFound (files : SstFilePaths) (names : SstNames) : Prop where
  opened : ∀ disk sst index,
    sstIteratorEnsureOpen (writeFiles disk files sst index) names = .files sst index
  removed : ∀ disk sst index p,
    sstMetadataRecordRelease (writeFiles disk files sst index) names p =
      if p = files.sstFile ∨ p = files.indexFile then none else disk p

theorem NamesRight.filesFound {files : SstFilePaths} {names : SstNames}
    (h : NamesRight files names) : FilesFound files names where
  opened disk sst index := by
    have hne : files.sstFile ≠ files.indexFile := by
      rw [← h.sst_eq, ← h.index_eq]
      exact h.ne
    have hsst : writeFiles disk files sst index files.sstFile = some sst := by
      unfold writeFiles Disk.write
      rw [if_neg hne, if_pos rfl]
    have hindex : writeFiles disk files sst index files.indexFile = some index := if_pos rfl
    unfold sstIteratorEnsureOpen
    rw [h.sst_eq, h.index_eq, hsst, hindex]
  removed disk sst index p := by
    unfold sstMetadataRecordRelease Disk.remove writeFiles Disk.write
    rw [h.sst_eq, h.index_eq]
    by_cases hindex : p = files.indexFile
    · rw [if_pos hindex, if_pos (Or.inr hindex)]
    · by_cases hsst : p = files.sstFile
      · rw [if_neg hindex, if_pos hsst, if_pos (Or.inl hsst)]
      · rw [if_neg hindex, if_neg hsst, if_neg hindex, if_neg hsst,
          if_neg (fun h => h.elim hsst hindex)]

/-! ## The lengths -/

section Lengths

variable (dir : CString) (epochMs : UInt64) (counterVal : UInt16)

theorem length_filenameOf : (filenameOf dir epochMs counterVal).length =
    min 255 (dir.length + (CString.ofNat epochMs.toNat).length +
      (CString.ofNat counterVal.toNat).length + 5) := by
  have hfront : namePrefix.length = 4 := rfl
  have hseparator : nameSeparator.length = 1 := rfl
  unfold filenameOf CString.snprintf
  simp only [CString.length_take, CString.length_append, sstFilenameMaxLength]
  omega

/-- The extensions are not cut. -/
theorem newSstableFilename_eq : newSstableFilename dir epochMs counterVal =
    ⟨filenameOf dir epochMs counterVal ++ sstExt, filenameOf dir epochMs counterVal ++ sstIndexExt⟩ := by
  have hwhole (ext : CString) : CString.snprintf
      ((filenameOf dir epochMs counterVal).length + ext.length + 1)
        (filenameOf dir epochMs counterVal ++ ext) = filenameOf dir epochMs counterVal ++ ext := by
    unfold CString.snprintf
    rw [CString.take_eq_self, CString.length_append]
    omega
  unfold newSstableFilename
  simp only [hwhole]

/-- A recorded name has the first 127 characters of the path. -/
theorem read_recordName (path : CString) : CString.read (recordName path) = path.take 127 :=
  CString.read_terminated (by decide) path

end Lengths

/-- The metadata record names the files that were written, two different ones, and opening and
removing act on these, exactly when the path of the directory and the two numbers have at most 115
characters. -/
theorem recorded_names_iff (dir : CString) (epochMs : UInt64) (counterVal : UInt16) :
    NamesRight (newSstableFilename dir epochMs counterVal)
        (createSstMetadata (newSstableFilename dir epochMs counterVal).sstFile
          (newSstableFilename dir epochMs counterVal).indexFile) ∧
      FilesFound (newSstableFilename dir epochMs counterVal)
        (createSstMetadata (newSstableFilename dir epochMs counterVal).sstFile
          (newSstableFilename dir epochMs counterVal).indexFile) ↔
    dir.length + (CString.ofNat epochMs.toNat).length + (CString.ofNat counterVal.toNat).length ≤
      115 := by
  have hlength := length_filenameOf dir epochMs counterVal
  have hext : sstExt.length = 7 := rfl
  have hindexExt : sstIndexExt.length = 5 := rfl
  rw [newSstableFilename_eq]
  constructor
  · rintro ⟨hright, -⟩
    have hsst := hright.sst_eq
    unfold createSstMetadata at hsst
    rw [read_recordName, CString.take_eq_self, CString.length_append] at hsst
    omega
  · intro hshort
    have hright : NamesRight ⟨filenameOf dir epochMs counterVal ++ sstExt,
        filenameOf dir epochMs counterVal ++ sstIndexExt⟩
        (createSstMetadata (filenameOf dir epochMs counterVal ++ sstExt)
          (filenameOf dir epochMs counterVal ++ sstIndexExt)) := by
      have hwhole {ext : CString} (hle : ext.length ≤ 7) :
          CString.read (recordName (filenameOf dir epochMs counterVal ++ ext)) =
            filenameOf dir epochMs counterVal ++ ext := by
        rw [read_recordName, CString.take_eq_self, CString.length_append]
        omega
      refine ⟨hwhole (by omega), hwhole (by omega), ?_⟩
      unfold createSstMetadata
      rw [hwhole (by omega), hwhole (by omega)]
      intro heq
      have hlen := congrArg CString.length heq
      rw [CString.length_append, CString.length_append] at hlen
      omega
    exact ⟨hright, hright.filesFound⟩

/-- The path of a directory of 110 characters. -/
def longDir : CString := ⟨List.replicate 110 'd', by decide⟩

/-- The names of the SST are cut inside its extension and its number. -/
theorem not_recorded_names : ¬ ∀ (dir : CString) (epochMs : UInt64) (counterVal : UInt16),
    NamesRight (newSstableFilename dir epochMs counterVal)
      (createSstMetadata (newSstableFilename dir epochMs counterVal).sstFile
        (newSstableFilename dir epochMs counterVal).indexFile) := by
  intro hclaim
  have hsst := (hclaim longDir 1700000000000 0).sst_eq
  have hlength := length_filenameOf longDir 1700000000000 0
  rw [newSstableFilename_eq] at hsst
  unfold createSstMetadata at hsst
  rw [read_recordName, CString.take_eq_self, CString.length_append, hlength] at hsst
  revert hsst
  decide

end RaftLsmt.Lsmt.FileNames
