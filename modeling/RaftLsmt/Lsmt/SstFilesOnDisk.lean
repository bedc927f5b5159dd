import RaftLsmt.Lib.FileOwners
import RaftLsmt.Lsmt.SstFileNames
import RaftLsmt.Lsmt.SstLifetime
import RaftLsmt.Lsmt.SstQueries

/-!
# The files of the store

`Lifetime` counts the references to the metadata records; here every record also has the names of its
two files, and the files are on a disk. `memtable_to_disk` and `sst_merge` draw a name, from the time
and a counter of 16 bits that all calls of `new_sstable_filename` share, open the file of the SST,
which truncates what is there, and in the end write it and its index. The last release of an old
record removes the files it names.

The SSTs on the heap and those in the making are the owners of the files. A name is good when no owner
has it yet: `sst_files_on_disk` says that this decides whether every file is the one its record
describes, and that 65536 names of one process are always good. Every run of `Lifetime` is one with
files (`Files.exists_run_life`).
-/

set_option autoImplicit false

namespace RaftLsmt.Lsmt.FilesOnDisk

open RaftLsmt.Lib.ByteCodec
open RaftLsmt.Lib.FileOwners
open RaftLsmt.Lib.StepMachine
open RaftLsmt.Lib.TerminatedString
open FileNames (Disk SstFilePaths SstNames filenameOf newSstableFilename sstExt sstIndexExt
  sstMetadataRecordRelease writeFiles)

/-! ## Names -/

/-- What `new_sstable_filename` reads: the time, and the counter. -/
structure Stamp where
  epochMs : UInt64
  counterVal : UInt16
  deriving DecidableEq

/-- The paths made from what was read. -/
def Stamp.paths (dir : CString) (stamp : Stamp) : SstFilePaths :=
  newSstableFilename dir stamp.epochMs stamp.counterVal

/-- The two paths of an SST. -/
def pair (files : SstFilePaths) : List CString := [files.sstFile, files.indexFile]

theorem ofNat_injective {m n : Nat} (h : CString.ofNat m = CString.ofNat n) : m = n := by
  have hdigits : Nat.toDigits 10 m = Nat.toDigits 10 n := congrArg CString.chars h
  have hread : Nat.ofDigitChars 10 (Nat.toDigits 10 m) 0 =
      Nat.ofDigitChars 10 (Nat.toDigits 10 n) 0 := by
    rw [hdigits]
  rwa [Nat.ofDigitChars_ten_toDigits, Nat.ofDigitChars_ten_toDigits] at hread

/-- A number of at most `n` digits. -/
theorem length_ofNat_le {m n : Nat} (hn : 0 < n) (h : m < 10 ^ n) : (CString.ofNat m).length ≤ n :=
  (Nat.length_toDigits_le_iff (by decide) hn).mpr h

theorem length_stamp_le (stamp : Stamp) :
    (CString.ofNat stamp.epochMs.toNat).length + (CString.ofNat stamp.counterVal.toNat).length ≤
      25 := by
  have hepoch : (CString.ofNat stamp.epochMs.toNat).length ≤ 20 :=
    length_ofNat_le (by decide) (lt_of_lt_of_le stamp.epochMs.toNat_lt (by decide))
  have hcounter : (CString.ofNat stamp.counterVal.toNat).length ≤ 5 :=
    length_ofNat_le (by decide) (lt_of_lt_of_le stamp.counterVal.toNat_lt (by decide))
  omega

/-- The paths made from `stamp` have at most 127 characters, so a record names them in full. -/
def Fits (dir : CString) (stamp : Stamp) : Prop :=
  dir.length + (CString.ofNat stamp.epochMs.toNat).length +
    (CString.ofNat stamp.counterVal.toNat).length ≤ 115

section Names

variable {dir : CString}

theorem fits_of_le (hdir : dir.length ≤ 90) (stamp : Stamp) : Fits dir stamp := by
  have hdigits := length_stamp_le stamp
  unfold Fits
  omega

/-- In a short directory the name is not cut. -/
theorem chars_filenameOf (hdir : dir.length ≤ 90) (stamp : Stamp) :
    (filenameOf dir stamp.epochMs stamp.counterVal).chars =
      (dir.chars ++ ['/', 'd', 'b', '_']) ++ (Nat.toDigits 10 stamp.epochMs.toNat ++
        '_' :: Nat.toDigits 10 stamp.counterVal.toNat) := by
  have hdigits := length_stamp_le stamp
  have hfront : FileNames.namePrefix.length = 4 := rfl
  have hseparator : FileNames.nameSeparator.length = 1 := rfl
  unfold filenameOf CString.snprintf
  rw [CString.take_eq_self.mpr]
  · simp [FileNames.namePrefix, FileNames.nameSeparator, CString.ofNat]
  · simp only [CString.length_append, FileNames.sstFilenameMaxLength]
    omega

/-- The name tells the time and the counter. -/
theorem filenameOf_injective (hdir : dir.length ≤ 90) {stamp stamp' : Stamp}
    (h : filenameOf dir stamp.epochMs stamp.counterVal =
      filenameOf dir stamp'.epochMs stamp'.counterVal) : stamp = stamp' := by
  have hchars := congrArg CString.chars h
  rw [chars_filenameOf hdir, chars_filenameOf hdir, List.append_cancel_left_eq,
    List.append_cons_inj_of_notMem Nat.underscore_not_in_toDigits Nat.underscore_not_in_toDigits]
    at hchars
  obtain ⟨hepoch, -, hcounter⟩ := hchars
  have hepoch := UInt64.toNat_inj.mp (ofNat_injective (CString.ext hepoch))
  have hcounter := UInt16.toNat_inj.mp (ofNat_injective (CString.ext hcounter))
  cases stamp
  cases stamp'
  exact congrArg₂ Stamp.mk hepoch hcounter

/-- The two files of an SST have different names. -/
theorem sstFile_ne_indexFile (stamp stamp' : Stamp) :
    (stamp.paths dir).sstFile ≠ (stamp'.paths dir).indexFile := by
  intro h
  have hchars := congrArg CString.chars h
  unfold Stamp.paths at hchars
  rw [FileNames.newSstableFilename_eq, FileNames.newSstableFilename_eq] at hchars
  -- one ends in `f` and the other one in `t`
  have hlast := congrArg List.getLast? hchars
  simp [sstExt, sstIndexExt] at hlast

theorem nodup_pair (stamp : Stamp) : (pair (stamp.paths dir)).Nodup := by
  unfold pair
  simpa using sstFile_ne_indexFile stamp stamp

/-- Different stamps share no path. -/
theorem not_mem_pair (hdir : dir.length ≤ 90) {stamp stamp' : Stamp} (hne : stamp ≠ stamp')
    {p : CString} (hp : p ∈ pair (stamp.paths dir)) : p ∉ pair (stamp'.paths dir) := by
  have hext {ext : CString} (h : filenameOf dir stamp.epochMs stamp.counterVal ++ ext =
      filenameOf dir stamp'.epochMs stamp'.counterVal ++ ext) : False := by
    apply hne
    apply filenameOf_injective hdir
    apply CString.ext
    exact List.append_cancel_right (congrArg CString.chars h)
  intro hp'
  unfold pair at hp hp'
  simp only [List.mem_cons, List.not_mem_nil, or_false] at hp hp'
  rcases hp with rfl | rfl
  · rcases hp' with hsst | hindex
    · unfold Stamp.paths at hsst
      rw [FileNames.newSstableFilename_eq, FileNames.newSstableFilename_eq] at hsst
      exact hext hsst
    · exact sstFile_ne_indexFile stamp stamp' hindex
  · rcases hp' with hsst | hindex
    · exact sstFile_ne_indexFile stamp' stamp hsst.symm
    · unfold Stamp.paths at hindex
      rw [FileNames.newSstableFilename_eq, FileNames.newSstableFilename_eq] at hindex
      exact hext hindex

end Names

/-! ## The machine -/

/-- `sst_metadata_record_t` in its node: the description of an SST, and the names of its files. -/
structure HeapRecord where
  content : SstMetadataRecord
  names : SstNames

/-- The files of `memtable_to_disk` or `sst_merge`: named, the one of the SST opened, or both
written and closed. In between the file counts as empty. -/
inductive Output where
  | named (stamp : Stamp)
  | opened (stamp : Stamp)
  | written (stamp : Stamp) (sst : SstMetadataRecord)

/-- The store with its disk. `counter` is the static variable of `new_sstable_filename`, `flushOutput`
and `mergeOutput` are the files that `memtable_to_disk` and `sst_merge` are working on, and `records`
is what the records on the heap contain. `drawn` is history: what the names were made from. -/
structure Files where
  life : Lifetime
  disk : Disk
  counter : UInt16
  flushOutput : Option Output
  mergeOutput : Option Output
  records : Nat → HeapRecord
  drawn : List Stamp

/-- A step of the store or of an iterator, with the time it reads, or `sst_merge` opens its file. -/
inductive FileAction where
  | life (act : LifeAction) (now : UInt64)
  | mergeFopen

/-- The step of the store or of an iterator. -/
def FileAction.ofLife : FileAction → Option LifeAction
  | .life act _ => some act
  | .mergeFopen => none

/-- A step of one of the two daemons, but for the one that opens a file. -/
def FileAction.ofDaemon : FileAction → Bool
  | .life (.store a) _ => a.ofDaemon
  | _ => false

/-- `create_sst_metadata` with the paths of `files`. -/
def recordOf (files : SstFilePaths) (content : SstMetadataRecord) : HeapRecord :=
  ⟨content, FileNames.createSstMetadata files.sstFile files.indexFile⟩

namespace Files

/-- The store before its first step, without a file of an SST. -/
def init : Files where
  life := Lifetime.init
  disk := fun _ => none
  counter := 0
  flushOutput := none
  mergeOutput := none
  records := fun _ => recordOf ⟨⟨[], by decide⟩, ⟨[], by decide⟩⟩ (writeSst 0 0 [])
  drawn := []

/-- The next stamp; the counter wraps around. -/
def stamp (s : Files) (now : UInt64) : Stamp := ⟨now, s.counter⟩

/-- `new_sstable_filename`. -/
def draw (s : Files) (now : UInt64) : Files :=
  { s with counter := s.counter + 1, drawn := s.drawn ++ [s.stamp now] }

/-- A step of the flush daemon to `life`. An empty memtable gets no name. -/
def afterFlush (dir : CString) (now : UInt64) (s : Files) (life : Lifetime) : Files :=
  match s.life.world.flushPc, life.world.flushPc with
  | .draining, .writing memtable =>
    if memtable.bottomLevel = [] then { s with life := life }
    else
      { s.draw now with
        life := life
        disk := s.disk.write ((s.stamp now).paths dir).sstFile []
        flushOutput := some (.opened (s.stamp now)) }
  | .writing _, .registering _ sst =>
    match s.flushOutput with
    | some (.opened stamp) =>
      { s with
        life := life
        disk := writeFiles s.disk (stamp.paths dir) sst.sstFile (indexFlush sst.sstIndexFile)
        flushOutput := some (.written stamp sst) }
    | _ => { s with life := life }
  | .registering _ _, .writingMetadata _ _ _ =>
    match s.flushOutput with
    | some (.written stamp sst) =>
      { s with
        life := life
        flushOutput := none
        records := Function.update s.records s.life.heap.refs.allocated
          (recordOf (stamp.paths dir) { sst with id := s.life.world.lsmt.sstableId }) }
    | _ => { s with life := life }
  | _, _ => { s with life := life }

/-- A step of the compaction to `life`. -/
def afterCompact (dir : CString) (now : UInt64) (s : Files) (life : Lifetime) : Files :=
  match s.life.world.compactPc, life.world.compactPc with
  | .scanning _, .mergeWait _ _ =>
    { s.draw now with life := life, mergeOutput := some (.named (s.stamp now)) }
  | .merging _ _, .adding _ _ newSst =>
    match s.mergeOutput with
    | some (.opened stamp) =>
      { s with
        life := life
        disk := writeFiles s.disk (stamp.paths dir) newSst.sstFile (indexFlush newSst.sstIndexFile)
        mergeOutput := some (.written stamp newSst) }
    | _ => { s with life := life }
  | .adding _ _ _, .scanning _ =>
    match s.mergeOutput with
    | some (.written stamp newSst) =>
      { s with
        life := life
        mergeOutput := none
        records := Function.update s.records s.life.heap.refs.allocated
          (recordOf (stamp.paths dir) newSst) }
    | _ => { s with life := life }
  | _, _ => { s with life := life }

/-- A step of the store or of an iterator to `life`, but for the files it removes. -/
def after (dir : CString) (now : UInt64) (s : Files) (life : Lifetime) : LifeAction → Files
  | .store .flushDaemon => s.afterFlush dir now life
  | .store (.compact _) => s.afterCompact dir now life
  | _ => { s with life := life }

/-- The last releases of the records `as` remove their files. -/
def removeFiles (s : Files) (as : List Nat) : Files :=
  { s with disk := as.foldl (fun disk a => sstMetadataRecordRelease disk (s.records a).names) s.disk }

/-- `sst_merge` opens its file before it waits for the flush daemon. -/
def mergeUnopened (s : Files) : LifeAction → Bool
  | .store (.compact _) =>
    match s.life.world.compactPc, s.mergeOutput with
    | .mergeWait _ _, some (.named _) => true
    | _, _ => false
  | _ => false

/-- One step of one thread. -/
def step (dir : CString) (s : Files) : FileAction → Option Files
  | .life act now =>
    if s.mergeUnopened act then none
    else
      match s.life.step act with
      | none => none
      | some life =>
        some ((s.after dir now life act).removeFiles
          (life.heap.removed.drop s.life.heap.removed.length))
  | .mergeFopen =>
    match s.life.world.compactPc, s.mergeOutput with
    | .mergeWait _ _, some (.named stamp) =>
      -- the iterators of the merge have been created
      if s.life.world.status ≠ .running ∨ s.life.mergeTodo ≠ [] then none
      else
        some { s with
          disk := s.disk.write (stamp.paths dir).sstFile []
          mergeOutput := some (.opened stamp) }
    | _, _ => none

/-! ## Who owns which file -/

/-- Of the records allocated so far those whose files have not been removed. -/
def live (allocated : Nat) (removed : List Nat) : List Nat :=
  (List.range allocated).filter fun a => a ∉ removed

end Files

/-- The owner of the files `files` with the contents they have so far. -/
def fileOwner (sstFile indexFile : CString) (sst index : Option Bytes) : Owner CString Bytes where
  paths := [sstFile, indexFile]
  file := fun p => if p = sstFile then sst else if p = indexFile then index else none

/-- The owner of the two files that `record` names. -/
def HeapRecord.owner (record : HeapRecord) : Owner CString Bytes :=
  fileOwner (CString.read record.names.sstableFilename) (CString.read record.names.sstIndexFilename)
    (some record.content.sstFile) (some (indexFlush record.content.sstIndexFile))

/-- The owner of the files in the making. -/
def Output.owner (dir : CString) : Output → Owner CString Bytes
  | .named stamp => fileOwner (stamp.paths dir).sstFile (stamp.paths dir).indexFile none none
  | .opened stamp => fileOwner (stamp.paths dir).sstFile (stamp.paths dir).indexFile (some []) none
  | .written stamp sst =>
    fileOwner (stamp.paths dir).sstFile (stamp.paths dir).indexFile (some sst.sstFile)
      (some (indexFlush sst.sstIndexFile))

/-- What an output was named after. -/
def Output.stamp : Output → Stamp
  | .named stamp => stamp
  | .opened stamp => stamp
  | .written stamp _ => stamp

namespace Files

/-- The owners of files: the records on the heap, and the SSTs in the making. -/
def ownersOf (dir : CString) (records : Nat → HeapRecord) (live : List Nat)
    (outputs : List Output) : List (Owner CString Bytes) :=
  outputs.map (Output.owner dir) ++ live.map fun a => (records a).owner

/-- The SSTs in the making. -/
def outputs (s : Files) : List Output := s.flushOutput.toList ++ s.mergeOutput.toList

/-- The owners of files while those of `removed` are gone. -/
def ownersBut (dir : CString) (s : Files) (removed : List Nat) : List (Owner CString Bytes) :=
  ownersOf dir s.records (live s.life.heap.refs.allocated removed) s.outputs

/-- All owners of files. -/
def owners (dir : CString) (s : Files) : List (Owner CString Bytes) :=
  s.ownersBut dir s.life.heap.removed

/-- The paths in use. -/
def paths (dir : CString) (s : Files) : List CString := pathsOf (s.owners dir)

/-- The names of the SSTs in the making fit. -/
def OutputsFit (dir : CString) (s : Files) : Prop := ∀ output ∈ s.outputs, Fits dir output.stamp

/-- The nodes on the list, and those the compaction holds. -/
def nodes (life : Lifetime) : List SstNode :=
  life.world.lsmt.metadata.list ++ (life.inputs ++ life.sstToDelete)

end Files

/-! ## What the threads do to the SSTs -/

namespace Files

/-- The daemons stay where they are and no record is allocated. -/
structure Frame (life life' : Lifetime) : Prop where
  flushPc : life'.world.flushPc = life.world.flushPc
  compactPc : life'.world.compactPc = life.world.compactPc
  allocated : life'.heap.refs.allocated = life.heap.refs.allocated
  nodes : nodes life' ⊆ nodes life

theorem mem_nodes {life : Lifetime} {n : SstNode} :
    n ∈ nodes life ↔
      n ∈ life.world.lsmt.metadata.list ∨ n ∈ life.inputs ∨ n ∈ life.sstToDelete := by
  simp only [nodes, List.mem_append]

/-- A step of the store that leaves the list alone. -/
theorem nodes_world {life : Lifetime} {w : World} (h : w.lsmt.metadata = life.world.lsmt.metadata) :
    nodes { life with world := w } = nodes life := by
  simp only [nodes, h]

theorem prefix_release (heap : SstHeap) (a : Nat) : heap.removed <+: (heap.release a).removed := by
  unfold SstHeap.release
  simp only
  split
  · exact List.prefix_append _ _
  · exact List.prefix_rfl

theorem prefix_delete (heap : SstHeap) (a : Nat) : heap.removed <+: (heap.delete a).removed :=
  prefix_release { heap with old := Function.update heap.old a true } a

/-- Records that are marked and released one after the other. -/
theorem foldl_delete (heap : SstHeap) (ns : List SstNode) :
    (ns.foldl (fun heap n => heap.delete n.addr) heap).refs.allocated = heap.refs.allocated ∧
      heap.removed <+: (ns.foldl (fun heap n => heap.delete n.addr) heap).removed := by
  induction ns generalizing heap with
  | nil => exact ⟨rfl, List.prefix_rfl⟩
  | cons n ns ih =>
    obtain ⟨hallocated, hremoved⟩ := ih (heap.delete n.addr)
    exact ⟨hallocated, (prefix_delete heap n.addr).trans hremoved⟩

/-- What a step of the store to `w` does to the references. -/
def afterStore (life : Lifetime) (w : World) : Action → Option Lifetime
  | .flushDaemon => some (life.afterFlush w)
  | .compact _ => life.afterCompact w
  | _ => some { life with world := w }

theorem storeStep_cases {life life' : Lifetime} {a : Action} (h : life.storeStep a = some life') :
    ∃ w, life.world.step a = some w ∧ afterStore life w a = some life' := by
  unfold Lifetime.storeStep at h
  split at h
  · cases h
  · split at h
    · cases h
    · rename_i w hw
      exact ⟨w, hw, h⟩

theorem storeStep_of_step {life life' : Lifetime} {a : Action}
    (h : life.step (.store a) = some life') : life.storeStep a = some life' := by
  unfold Lifetime.step at h
  split at h
  · cases h
  · exact h

theorem step_flushDaemon {life life' : Lifetime} (h : life.step (.store .flushDaemon) = some life') :
    life.world.status = .running ∧
      ∃ w, life.world.FlushDaemonStep w ∧ life' = life.afterFlush w := by
  obtain ⟨w, hw, hlife⟩ := storeStep_cases (storeStep_of_step h)
  cases hlife
  exact ⟨(World.step_cases hw).1, w, World.flushDaemonStep_of_step hw, rfl⟩

theorem step_compact {life life' : Lifetime} {faults : List IoFaults}
    (h : life.step (.store (.compact faults)) = some life') :
    life.world.status = .running ∧
      ∃ w, life.world.CompactStep faults w ∧ life.afterCompact w = some life' := by
  obtain ⟨w, hw, hlife⟩ := storeStep_cases (storeStep_of_step h)
  exact ⟨(World.step_cases hw).1, w, World.compactStep_of_step hw, hlife⟩

theorem removed_afterFlush (life : Lifetime) (w : World) :
    (life.afterFlush w).heap.removed = life.heap.removed := by
  unfold Lifetime.afterFlush
  split
  · split <;> rfl
  · rfl

theorem removed_afterCompact {life life' : Lifetime} {w : World}
    (h : life.afterCompact w = some life') : life.heap.removed <+: life'.heap.removed := by
  unfold Lifetime.afterCompact at h
  split at h
  · cases h
    exact List.prefix_rfl
  · split at h <;> cases h
    exact List.prefix_rfl
  · split at h
    · cases h
    · split at h <;> cases h
      · exact (foldl_delete life.heap.alloc _).2
      · exact List.prefix_rfl
  · split at h <;> cases h
    exact List.prefix_rfl
  · cases h
    exact List.prefix_rfl

/-- The calls of `lsmt_insert` and `lsmt_flush`. -/
theorem frame_storeStep {life life' : Lifetime} {a : Action} (hflush : a ≠ .flushDaemon)
    (hcompact : ∀ faults, a ≠ .compact faults) (h : life.storeStep a = some life') :
    Frame life life' ∧ life'.heap = life.heap := by
  obtain ⟨w, hw, hlife⟩ := storeStep_cases h
  have hlife : life' = { life with world := w } := by
    cases a with
    | flushDaemon => exact absurd rfl hflush
    | compact faults => exact absurd rfl (hcompact faults)
    | _ =>
      cases hlife
      rfl
  have hlist : w.lsmt.metadata = life.world.lsmt.metadata := by
    cases World.step_metadata hcompact hw with
    | same hlist _ _ _ => exact hlist
    | registers => exact absurd rfl hflush
    | writes => exact absurd rfl hflush
  subst hlife
  have hnodes := nodes_world hlist
  exact ⟨⟨(World.step_sameFlushPc hflush hw).1, (World.step_sameCompaction hcompact hw).compactPc,
    rfl, hnodes ▸ List.Subset.refl _⟩, rfl⟩

/-- Every step that is none of the daemons. -/
theorem frame_of_step {life life' : Lifetime} {act : LifeAction} (hflush : act ≠ .store .flushDaemon)
    (hcompact : ∀ faults, act ≠ .store (.compact faults)) (h : life.step act = some life') :
    Frame life life' ∧ life.heap.removed <+: life'.heap.removed := by
  have hsame : Frame life life := ⟨rfl, rfl, rfl, List.Subset.refl _⟩
  unfold Lifetime.step at h
  split at h
  · cases h
  · cases act with
    | store a =>
      -- a daemon's step of the store is one of the daemons
      have hflush : a ≠ .flushDaemon := fun heq => hflush (congrArg LifeAction.store heq)
      have hcompact : ∀ faults, a ≠ .compact faults :=
        fun faults heq => hcompact faults (congrArg LifeAction.store heq)
      obtain ⟨hframe, hheap⟩ := frame_storeStep hflush hcompact h
      exact ⟨hframe, hheap ▸ List.prefix_rfl⟩
    | mergeCreate =>
      simp only at h
      split at h <;> cases h
      exact ⟨⟨rfl, rfl, rfl, List.Subset.refl _⟩, List.prefix_rfl⟩
    | mergeOpen j =>
      simp only at h
      split at h <;> cases h
      exact ⟨hsame, List.prefix_rfl⟩
    | mergeFree j =>
      simp only at h
      split at h <;> cases h
      exact ⟨⟨rfl, rfl, rfl, List.Subset.refl _⟩, prefix_release _ _⟩
    | deleteInput =>
      simp only at h
      split at h
      · cases h
      · rename_i n rest hdelete
        cases h
        refine ⟨⟨rfl, rfl, rfl, ?_⟩, prefix_delete _ _⟩
        -- the input leaves `sst_to_delete`
        intro m hm
        rw [mem_nodes] at hm ⊢
        rw [hdelete]
        exact hm.imp_right (Or.imp_right (List.mem_cons_of_mem n))
    | readerCreate =>
      simp only at h
      split at h <;> cases h
      exact ⟨⟨rfl, rfl, rfl, List.Subset.refl _⟩, List.prefix_rfl⟩
    | readerRetain =>
      simp only at h
      split at h <;> cases h
      exact ⟨⟨rfl, rfl, rfl, List.Subset.refl _⟩, List.prefix_rfl⟩
    | readerOpen i j =>
      simp only at h
      split at h
      · cases h
      · split at h <;> cases h
        exact ⟨hsame, List.prefix_rfl⟩
    | readerFree i j =>
      simp only at h
      split at h
      · cases h
      · split at h
        · cases h
        · split at h <;> cases h
          exact ⟨⟨rfl, rfl, rfl, List.Subset.refl _⟩, prefix_release _ _⟩

end Files

/-! ## The owners -/

/-- Where the names fit, the record names the files that were written. -/
theorem owner_recordOf {dir : CString} {stamp : Stamp} (hfits : Fits dir stamp)
    (content : SstMetadataRecord) :
    (recordOf (stamp.paths dir) content).owner = (Output.written stamp content).owner dir := by
  have hright := ((FileNames.recorded_names_iff dir stamp.epochMs stamp.counterVal).mpr hfits).1
  unfold HeapRecord.owner Output.owner recordOf Stamp.paths
  simp only
  rw [hright.sst_eq, hright.index_eq]

section FileOwner

variable {sstFile indexFile p : CString} {sst index : Option Bytes}

theorem mem_fileOwner :
    p ∈ (fileOwner sstFile indexFile sst index).paths ↔ p = sstFile ∨ p = indexFile := by
  simp [fileOwner]

theorem fileOwner_sst : (fileOwner sstFile indexFile sst index).file sstFile = sst := if_pos rfl

theorem fileOwner_index (hne : sstFile ≠ indexFile) :
    (fileOwner sstFile indexFile sst index).file indexFile = index := by
  simp [fileOwner, hne.symm]

end FileOwner

theorem Output.paths_owner (output : Output) {dir : CString} :
    (output.owner dir).paths = pair (output.stamp.paths dir) := by
  cases output <;> rfl

/-- The owners have the files of the disk, under names that were drawn. -/
structure Claimed (dir : CString) (disk : Disk) (drawn : List Stamp)
    (owners : List (Owner CString Bytes)) : Prop where
  owned : Owned disk owners
  stamped : ∀ owner ∈ owners, ∃ stamp ∈ drawn, owner.paths = pair (stamp.paths dir)

namespace Claimed

variable {dir : CString} {disk : Disk} {drawn : List Stamp}
  {owners owners' : List (Owner CString Bytes)} {stamp : Stamp}

theorem perm (h : Claimed dir disk drawn owners) (hperm : owners.Perm owners') :
    Claimed dir disk drawn owners' where
  owned := h.owned.perm hperm
  stamped owner howner := h.stamped owner (hperm.mem_iff.mpr howner)

/-- The first owner has other files under the same names. -/
theorem change {owner owner' : Owner CString Bytes} (h : Claimed dir disk drawn (owner :: owners))
    {disk' : Disk} (howned : Owned disk' (owner' :: owners)) (hpaths : owner'.paths = owner.paths) :
    Claimed dir disk' drawn (owner' :: owners) where
  owned := howned
  stamped o ho := by
    rcases List.mem_cons.mp ho with rfl | ho
    · rw [hpaths]
      exact h.stamped owner List.mem_cons_self
    · exact h.stamped o (List.mem_cons_of_mem _ ho)

/-- A new name. -/
theorem named (h : Claimed dir disk drawn owners)
    (hnew : ∀ p ∈ pair (stamp.paths dir), p ∉ pathsOf owners) :
    Claimed dir disk (drawn ++ [stamp]) ((Output.named stamp).owner dir :: owners) := by
  refine ⟨?_, fun owner howner => ?_⟩
  · have hnone : (Output.named stamp).owner dir = ⟨pair (stamp.paths dir), fun _ => none⟩ := by
      unfold Output.owner fileOwner
      simp only [ite_self]
      rfl
    rw [hnone]
    exact h.owned.reserve (nodup_pair stamp) hnew
  · rcases List.mem_cons.mp howner with rfl | howner
    · exact ⟨stamp, by simp, rfl⟩
    · obtain ⟨old, hold, hpaths⟩ := h.stamped owner howner
      exact ⟨old, List.mem_append_left _ hold, hpaths⟩

/-- `fopen` of the file of the SST. -/
theorem opened (h : Claimed dir disk drawn ((Output.named stamp).owner dir :: owners)) :
    Claimed dir (disk.write (stamp.paths dir).sstFile []) drawn
      ((Output.opened stamp).owner dir :: owners) := by
  refine h.change ?_ rfl
  refine h.owned.update (fun p hp => ?_) fun p hp => ?_
  · unfold FileNames.Disk.write
    by_cases hsst : p = (stamp.paths dir).sstFile
    · rw [if_pos hsst, if_pos hsst]
    · rw [if_neg hsst, if_neg hsst, h.owned.file_eq _ List.mem_cons_self p hp]
      exact if_neg hsst
  · exact if_neg (not_or.mp (mt mem_fileOwner.mpr hp)).1

/-- Both files are written. -/
theorem written (h : Claimed dir disk drawn ((Output.opened stamp).owner dir :: owners))
    (sst : SstMetadataRecord) :
    Claimed dir (writeFiles disk (stamp.paths dir) sst.sstFile (indexFlush sst.sstIndexFile)) drawn
      ((Output.written stamp sst).owner dir :: owners) := by
  have hne : (stamp.paths dir).sstFile ≠ (stamp.paths dir).indexFile := sstFile_ne_indexFile stamp stamp
  refine h.change ?_ rfl
  refine h.owned.update (fun p hp => ?_) fun p hp => ?_
  · unfold writeFiles FileNames.Disk.write
    rcases mem_fileOwner.mp hp with rfl | rfl
    · rw [if_neg hne, if_pos rfl, if_pos rfl]
    · rw [if_pos rfl, if_neg hne.symm, if_pos rfl]
  · obtain ⟨hsst, hindex⟩ := not_or.mp (mt mem_fileOwner.mpr hp)
    unfold writeFiles FileNames.Disk.write
    rw [if_neg hindex, if_neg hsst]

/-- The last release of a record removes its files. -/
theorem release {record : HeapRecord} (h : Claimed dir disk drawn (record.owner :: owners)) :
    Claimed dir (sstMetadataRecordRelease disk record.names) drawn owners := by
  refine ⟨h.owned.remove (fun p hp => ?_) fun p hp => ?_, fun owner howner =>
    h.stamped owner (List.mem_cons_of_mem _ howner)⟩
  · unfold sstMetadataRecordRelease FileNames.Disk.remove
    rcases mem_fileOwner.mp hp with rfl | rfl
    · by_cases heq : CString.read record.names.sstableFilename =
          CString.read record.names.sstIndexFilename
      · rw [if_pos heq]
      · rw [if_neg heq, if_pos rfl]
    · rw [if_pos rfl]
  · obtain ⟨hsst, hindex⟩ := not_or.mp (mt mem_fileOwner.mpr hp)
    unfold sstMetadataRecordRelease FileNames.Disk.remove
    rw [if_neg hindex, if_neg hsst]

/-- What the record names is found. -/
theorem found {record : HeapRecord} (h : Claimed dir disk drawn owners)
    (howner : record.owner ∈ owners) : FileNames.sstIteratorEnsureOpen disk record.names =
      .files record.content.sstFile (indexFlush record.content.sstIndexFile) := by
  have hne : CString.read record.names.sstableFilename ≠ CString.read record.names.sstIndexFilename := by
    have hpaths : record.owner.paths.Nodup := (List.nodup_flatMap.mp h.owned.nodup).1 _ howner
    exact fun heq => (List.nodup_cons.mp hpaths).1 (heq ▸ List.mem_cons_self)
  have hsst : disk (CString.read record.names.sstableFilename) = some record.content.sstFile :=
    (h.owned.file_eq _ howner _ (mem_fileOwner.mpr (Or.inl rfl))).trans fileOwner_sst
  have hindex : disk (CString.read record.names.sstIndexFilename) =
      some (indexFlush record.content.sstIndexFile) :=
    (h.owned.file_eq _ howner _ (mem_fileOwner.mpr (Or.inr rfl))).trans (fileOwner_index hne)
  unfold FileNames.sstIteratorEnsureOpen
  rw [hsst, hindex]

end Claimed

namespace Files

section Live

variable {dir : CString} {records : Nat → HeapRecord} {outputs : List Output} {n a : Nat}
  {removed : List Nat}

theorem mem_live : a ∈ live n removed ↔ a < n ∧ a ∉ removed := by
  unfold live
  rw [List.mem_filter, List.mem_range, decide_eq_true_iff]

theorem live_succ (h : ∀ a ∈ removed, a < n) : live (n + 1) removed = live n removed ++ [n] := by
  have hn : n ∉ removed := fun hmem => Nat.lt_irrefl n (h n hmem)
  unfold live
  rw [List.range_succ, List.filter_append]
  simp [hn]

theorem perm_live (hn : a < n) (ha : a ∉ removed) :
    (live n removed).Perm (a :: live n (removed ++ [a])) := by
  have hnodup : (live n removed).Nodup := List.nodup_range.filter _
  have herase : (live n removed).erase a = live n (removed ++ [a]) := by
    rw [hnodup.erase_eq_filter]
    unfold live
    rw [List.filter_filter]
    apply List.filter_congr
    intro b _
    by_cases hb : b = a <;> simp [hb]
  rw [← herase]
  exact List.perm_cons_erase (mem_live.mpr ⟨hn, ha⟩)

/-- An SST in the making changes places with the new record on the heap. -/
theorem perm_register {outputs' : List Output} {output : Output} {record : HeapRecord}
    (hremoved : ∀ a ∈ removed, a < n) (houtputs : outputs.Perm (output :: outputs'))
    (howner : record.owner = output.owner dir) :
    (ownersOf dir records (live n removed) outputs).Perm
      (ownersOf dir (Function.update records n record) (live (n + 1) removed) outputs') := by
  have hsame : (live n removed).map (fun a => (Function.update records n record a).owner) =
      (live n removed).map fun a => (records a).owner := by
    apply List.map_congr_left
    intro a ha
    rw [Function.update_of_ne (ne_of_lt (mem_live.mp ha).1)]
  unfold ownersOf
  rw [live_succ hremoved, List.map_append, hsame, List.map_singleton, Function.update_self, howner]
  apply ((houtputs.map _).append_right _).trans
  rw [List.map_cons, List.cons_append, ← List.append_assoc]
  exact (List.perm_append_singleton _ _).symm

end Live

end Files

/-! ## What each step keeps -/

/-- The flush daemon has files from the start of a memtable that is not empty until it has registered
their record. -/
def FlushFiles (output : Option Output) : FlushPc → Prop
  | .writing memtable =>
    if memtable.bottomLevel = [] then output = none else ∃ stamp, output = some (.opened stamp)
  | .registering _ sst => ∃ stamp, output = some (.written stamp sst)
  | _ => output = none

theorem flushFiles_empty {output : Option Output} {memtable : Sl} (h : memtable.bottomLevel = []) :
    FlushFiles output (.writing memtable) ↔ output = none := by
  show (if _ then _ else _) ↔ _
  rw [if_pos h]

theorem flushFiles_opened {output : Option Output} {memtable : Sl} (h : memtable.bottomLevel ≠ []) :
    FlushFiles output (.writing memtable) ↔ ∃ stamp, output = some (.opened stamp) := by
  show (if _ then _ else _) ↔ _
  rw [if_neg h]

/-- The compaction has files while it merges, until it has registered their record. -/
def MergeFiles (output : Option Output) : CompactPc → Prop
  | .mergeWait _ _ => ∃ stamp, output = some (.named stamp) ∨ output = some (.opened stamp)
  | .merging _ _ => ∃ stamp, output = some (.opened stamp)
  | .adding _ _ newSst => ∃ stamp, output = some (.written stamp newSst)
  | _ => output = none

namespace Files

/-- The owners but for the records `removed` have the files of the disk, and the nodes are the records
on the heap. -/
structure Holds (dir : CString) (s : Files) (removed : List Nat) : Prop where
  flush : FlushFiles s.flushOutput s.life.world.flushPc
  merge : MergeFiles s.mergeOutput s.life.world.compactPc
  linked : ∀ n ∈ nodes s.life, (s.records n.addr).content = n.content
  claimed : Claimed dir s.disk s.drawn (s.ownersBut dir removed)

/-- The invariant. -/
structure Inv (dir : CString) (s : Files) : Prop where
  life : s.life.Inv
  holds : s.Holds dir s.life.heap.removed

namespace Holds

variable {dir : CString} {s : Files} {removed : List Nat} {life' : Lifetime}

/-- A step that neither names, writes nor registers a file. -/
theorem move (h : s.Holds dir removed) (hflush : FlushFiles s.flushOutput life'.world.flushPc)
    (hmerge : MergeFiles s.mergeOutput life'.world.compactPc)
    (hallocated : life'.heap.refs.allocated = s.life.heap.refs.allocated)
    (hnodes : nodes life' ⊆ nodes s.life) : Holds dir { s with life := life' } removed := by
  have howners : ownersBut dir { s with life := life' } removed = s.ownersBut dir removed := by
    show ownersOf dir s.records (live life'.heap.refs.allocated removed) s.outputs = _
    rw [hallocated]
    rfl
  refine ⟨hflush, hmerge, fun n hn => h.linked n (hnodes hn), ?_⟩
  rw [howners]
  exact h.claimed

/-- The records `as` are released for the last time. -/
theorem removeFiles (h : s.Holds dir removed) {as : List Nat} (hnodup : (removed ++ as).Nodup)
    (hlt : ∀ a ∈ as, a < s.life.heap.refs.allocated) :
    (s.removeFiles as).Holds dir (removed ++ as) := by
  induction as generalizing s removed with
  | nil =>
    rw [List.append_nil]
    exact h
  | cons a as ih =>
    have hsplit : removed ++ a :: as = (removed ++ [a]) ++ as := by simp
    rw [hsplit] at hnodup
    have ha : a ∉ removed := by
      have hfront := (List.nodup_append.mp hnodup).1
      exact fun hmem => (List.nodup_append.mp hfront).2.2 a hmem a List.mem_cons_self rfl
    -- the record leaves the owners with its files
    have hperm : (s.ownersBut dir removed).Perm
        ((s.records a).owner :: s.ownersBut dir (removed ++ [a])) := by
      have hlive := (perm_live (hlt a List.mem_cons_self) ha).map fun a => (s.records a).owner
      exact (hlive.append_left _).trans List.perm_middle
    have hone : Holds dir
        { s with disk := sstMetadataRecordRelease s.disk (s.records a).names } (removed ++ [a]) :=
      ⟨h.flush, h.merge, h.linked, (h.claimed.perm hperm).release⟩
    rw [hsplit]
    exact ih hone hnodup fun b hb => hlt b (List.mem_cons_of_mem a hb)

end Holds

end Files

namespace Files

/-- What a step comes to, before it removes files: it draws no name and the files are kept, or it draws
a name, and they are kept when nobody has that name. -/
inductive Outcome (dir : CString) (s s' : Files) : Prop where
  | keeps (hdrawn : s'.drawn = s.drawn) (h : s'.Holds dir s.life.heap.removed)
  | draws (output : Output) (hdrawn : s'.drawn = s.drawn ++ [output.stamp])
      (houtputs : s'.outputs.Perm (output :: s.outputs)) (hrecords : s'.records = s.records)
      (hheap : s'.life.heap = s.life.heap)
      (h : (∀ p ∈ pair (output.stamp.paths dir), p ∉ s.paths dir) →
        s'.Holds dir s.life.heap.removed)

section Steps

variable {dir : CString} {s : Files} {now : UInt64}

theorem perm_ownersOf {records : Nat → HeapRecord} {live : List Nat} {outputs outputs' : List Output}
    (h : outputs.Perm outputs') :
    (ownersOf dir records live outputs).Perm (ownersOf dir records live outputs') :=
  (h.map _).append_right _

/-- The nodes are allocated. -/
theorem Inv.addr_lt (hs : s.Inv dir) {n : SstNode} (hn : n ∈ nodes s.life) :
    n.addr < s.life.heap.refs.allocated := by
  have howner : n.addr ∈ s.life.owners := by
    unfold Lifetime.owners SstMetadata.addrs
    rw [← List.map_append]
    exact List.mem_map_of_mem hn
  exact (hs.life.not_removed (List.mem_append_left _ howner)).1

theorem Inv.removed_lt (hs : s.Inv dir) {a : Nat} (ha : a ∈ s.life.heap.removed) :
    a < s.life.heap.refs.allocated := by
  rw [hs.life.holds.removed] at ha
  exact ((hs.life.holds.accounts.mem_freed a).mp ha).1

/-- The node that a record is registered with. -/
theorem list_add {m m' : SstMetadata} {record : SstMetadataRecord}
    (h : sstMetadataAdd m record = some m') : m'.list = ⟨m.nextAddr, record⟩ :: m.list := by
  unfold sstMetadataAdd at h
  split at h <;> cases h
  rfl

/-- A written SST is registered: the record on the heap and its node say the same, and it has the
files that its writer had. -/
theorem Inv.register (hs : s.Inv dir) {life' : Lifetime}
    {flushOutput mergeOutput : Option Output} {stamp : Stamp} {record : SstMetadataRecord}
    (hfits : Fits dir stamp) (sst : SstMetadataRecord)
    (hfiles : record.sstFile = sst.sstFile ∧ record.sstIndexFile = sst.sstIndexFile)
    (houtputs : s.outputs.Perm (.written stamp sst :: (flushOutput.toList ++ mergeOutput.toList)))
    (hflush : FlushFiles flushOutput life'.world.flushPc)
    (hmerge : MergeFiles mergeOutput life'.world.compactPc)
    (hallocated : life'.heap.refs.allocated = s.life.heap.refs.allocated + 1)
    (hnodes : ∀ n ∈ nodes life', n = ⟨s.life.heap.refs.allocated, record⟩ ∨ n ∈ nodes s.life) :
    Holds dir
      { s with
        life := life'
        flushOutput := flushOutput
        mergeOutput := mergeOutput
        records := Function.update s.records s.life.heap.refs.allocated
          (recordOf (stamp.paths dir) record) } s.life.heap.removed := by
  refine ⟨hflush, hmerge, fun n hn => ?_, ?_⟩
  · show (Function.update s.records _ _ n.addr).content = n.content
    rcases hnodes n hn with rfl | hn
    · rw [Function.update_self]
      rfl
    · rw [Function.update_of_ne (ne_of_lt (hs.addr_lt hn))]
      exact hs.holds.linked n hn
  · apply hs.holds.claimed.perm
    show (ownersOf dir s.records (live s.life.heap.refs.allocated s.life.heap.removed) s.outputs).Perm
      (ownersOf dir _ (live life'.heap.refs.allocated s.life.heap.removed) _)
    rw [hallocated]
    apply perm_register (fun a ha => hs.removed_lt ha) houtputs
    rw [owner_recordOf hfits]
    show fileOwner _ _ (some record.sstFile) (some (indexFlush record.sstIndexFile)) = _
    rw [hfiles.1, hfiles.2]
    rfl

theorem writeError_iff {memtable : Sl} :
    memtableToDisk memtable = .writeError ↔ memtable.bottomLevel = [] := by
  unfold memtableToDisk
  constructor
  · intro h
    by_contra hne
    rw [if_neg hne] at h
    split at h <;> cases h
  · exact fun h => if_pos h

theorem Inv.afterFlush (hs : s.Inv dir) (hfits : s.OutputsFit dir) {w : World}
    (hrunning : s.life.world.status = .running) (hw : s.life.world.FlushDaemonStep w) :
    Outcome dir s (s.afterFlush dir now (s.life.afterFlush w)) := by
  have hflush := hs.holds.flush
  have hmerge : MergeFiles s.mergeOutput w.compactPc := by
    rw [hw.sameCompaction.compactPc]
    exact hs.holds.merge
  -- a step that leaves the list alone
  have hmove (life' : Lifetime) (hfiles : FlushFiles s.flushOutput life'.world.flushPc)
      (hcompact : life'.world.compactPc = w.compactPc)
      (hallocated : life'.heap.refs.allocated = s.life.heap.refs.allocated)
      (hnodes : nodes life' = nodes s.life) : Outcome dir s { s with life := life' } :=
    .keeps rfl (hs.holds.move hfiles (hcompact ▸ hmerge) hallocated (hnodes ▸ List.Subset.refl _))
  unfold Files.afterFlush Lifetime.afterFlush
  cases hw with
  | wake hpc =>
    rw [hpc] at hflush ⊢
    exact hmove _ hflush rfl rfl rfl
  | idle hpc =>
    rw [hpc] at hflush ⊢
    exact hmove _ hflush rfl rfl rfl
  | drain memtable rest hpc himm =>
    rw [hpc] at hflush ⊢
    have hnone : s.flushOutput = none := hflush
    simp only
    by_cases hempty : memtable.bottomLevel = []
    · rw [if_pos hempty]
      exact hmove _ ((flushFiles_empty hempty).mpr hnone) rfl rfl rfl
    · rw [if_neg hempty]
      have hperm : (some (Output.opened (s.stamp now))).toList ++ s.mergeOutput.toList =
          .opened (s.stamp now) :: s.outputs := by
        unfold outputs
        rw [hnone]
        rfl
      refine .draws (.opened (s.stamp now)) rfl (.of_eq hperm) rfl rfl fun hnew => ?_
      refine ⟨(flushFiles_opened hempty).mpr ⟨_, rfl⟩, hmerge, hs.holds.linked, ?_⟩
      apply (hs.holds.claimed.named hnew).opened.perm
      exact perm_ownersOf (.of_eq hperm.symm)
  | writeError memtable hpc hdisk =>
    rw [hpc] at hflush ⊢
    exact hmove _ ((flushFiles_empty (writeError_iff.mp hdisk)).mp hflush) rfl rfl rfl
  | written memtable sst hpc hdisk =>
    have hne : memtable.bottomLevel ≠ [] := by
      intro hempty
      rw [writeError_iff.mpr hempty] at hdisk
      cases hdisk
    rw [hpc] at hflush ⊢
    obtain ⟨stamp, hopened⟩ := (flushFiles_opened hne).mp hflush
    rw [hopened]
    have hclaimed := hs.holds.claimed
    unfold ownersBut outputs at hclaimed
    rw [hopened] at hclaimed
    exact .keeps rfl ⟨⟨stamp, rfl⟩, hmerge, hs.holds.linked, hclaimed.written sst⟩
  | overrun memtable hpc hdisk =>
    rw [hpc] at hflush ⊢
    exact hmove _ hflush rfl rfl rfl
  | refused memtable sst hpc hadd =>
    rw [hpc] at hflush ⊢
    rw [if_neg (by simp)]
    exact hmove _ hflush rfl rfl rfl
  | register memtable sst metadata hpc hadd =>
    rw [hpc] at hflush ⊢
    obtain ⟨stamp, hwritten⟩ := hflush
    rw [if_pos hrunning, hwritten]
    have hperm : s.outputs.Perm (.written stamp sst :: ((none : Option Output).toList ++
        s.mergeOutput.toList)) := by
      unfold outputs
      rw [hwritten]
      exact List.Perm.refl _
    have hname : Fits dir stamp := hfits _ (hperm.mem_iff.mpr List.mem_cons_self)
    refine .keeps rfl (hs.register hname sst ⟨rfl, rfl⟩ hperm rfl hmerge rfl fun n hn => ?_)
    rw [mem_nodes] at hn ⊢
    rw [list_add hadd, ← hs.life.allocated, List.mem_cons, or_assoc] at hn
    exact hn
  | writeFile memtable generation snapshot hpc =>
    rw [hpc] at hflush ⊢
    exact hmove _ hflush rfl rfl (nodes_world (writeMetadata_same _ _ _).2.2)
  | unregister memtable registered hpc =>
    rw [hpc] at hflush ⊢
    refine hmove _ ?_ rfl rfl rfl
    cases registered <;> exact hflush
  | signal hpc =>
    rw [hpc] at hflush ⊢
    exact hmove _ hflush rfl rfl rfl

/-- What the compaction pops was on the list. -/
theorem nodes_scan {life : Lifetime} {w : World} {pass : CompactPass} (hm : life.world.lsmt.metadata.Wf)
    (hscan : life.world.Scans pass w) (mergeTodo : List Nat) :
    nodes { life with world := w, inputs := life.world.popped pass, mergeTodo := mergeTodo } ⊆
      nodes life := by
  have hlist : life.world.popped pass ++ w.lsmt.metadata.list ⊆ life.world.lsmt.metadata.list := by
    unfold World.popped
    cases hscan with
    | finish htier =>
      rw [if_pos htier]
      exact List.Subset.refl _
    | select selected htier hsize hselected =>
      rw [if_neg (Nat.not_lt.mpr htier), if_pos hsize]
      obtain ⟨popped, hpopped, -, -, -, -, hperm⟩ := sstPopNodes_spec pass.tier
        (life.world.lsmt.metadata.tierSize pass.tier - tierSizeThreshold pass.tier)
        sstableMergeLimit hm []
      rw [← List.map_nil, sstPopInputs_eq] at hselected
      subst hselected
      rw [List.nil_append] at hpopped
      rw [hpopped]
      exact hperm.symm.subset
    | skip htier hsize =>
      rw [if_neg (Nat.not_lt.mpr htier), if_neg (Nat.not_lt.mpr hsize)]
      exact List.Subset.refl _
  intro n hn
  rw [mem_nodes] at hn ⊢
  rcases hn with hn | hn | hn
  · exact Or.inl (hlist (List.mem_append_right _ hn))
  · exact Or.inl (hlist (List.mem_append_left _ hn))
  · exact Or.inr (Or.inr hn)

/-- The output of the merge among all outputs. -/
theorem perm_outputs {output : Output} (h : s.mergeOutput = some output) :
    s.outputs.Perm (output :: s.flushOutput.toList) := by
  unfold outputs
  rw [h]
  exact List.perm_append_singleton _ _

theorem Inv.afterCompact (hs : s.Inv dir) (hfits : s.OutputsFit dir) {w : World} {life' : Lifetime}
    {faults : List IoFaults} (hrunning : s.life.world.status = .running)
    (hopen : s.mergeUnopened (.store (.compact faults)) = false)
    (hw : s.life.world.CompactStep faults w) (hlife : s.life.afterCompact w = some life') :
    Outcome dir s (s.afterCompact dir now life') := by
  have hmerge := hs.holds.merge
  have hflush : FlushFiles s.flushOutput w.flushPc := by
    rw [hw.sameFlush.flushPc]
    exact hs.holds.flush
  unfold Lifetime.afterCompact at hlife
  unfold Files.afterCompact
  cases hw with
  | wake hpc =>
    rw [hpc] at hmerge hlife ⊢
    cases hlife
    exact .keeps rfl (hs.holds.move hflush hmerge rfl (List.Subset.refl _))
  | start hpc =>
    rw [hpc] at hmerge hlife ⊢
    cases hlife
    exact .keeps rfl (hs.holds.move hflush hmerge rfl (List.Subset.refl _))
  | scan pass _ hpc hscan =>
    rw [hpc] at hmerge hlife ⊢
    cases hlife
    have hnone : s.mergeOutput = none := hmerge
    have hscan := compactScan_cases hscan
    have hnodes := nodes_scan hs.life.wf hscan ((s.life.world.popped pass).map SstNode.addr)
    cases hscan with
    | finish htier =>
      cases hmust : pass.mustFlush with
      | false => exact .keeps rfl (hs.holds.move hflush hnone rfl hnodes)
      | true => exact .keeps rfl (hs.holds.move hflush hnone rfl hnodes)
    | select selected htier hsize hselected =>
      simp only
      by_cases hfew : selected.1.length < 2
      · simp only [if_pos hfew]
        exact .keeps rfl (hs.holds.move hflush hnone rfl hnodes)
      · -- `sst_merge` begins with a name
        simp only [if_neg hfew]
        have hperm : (s.flushOutput.toList ++ (some (Output.named (s.stamp now))).toList).Perm
            (.named (s.stamp now) :: s.outputs) := by
          unfold outputs
          rw [hnone, Option.toList_none, List.append_nil]
          exact List.perm_append_singleton _ _
        refine .draws (.named (s.stamp now)) rfl hperm rfl rfl fun hnew => ?_
        refine ⟨hflush, ⟨_, Or.inl rfl⟩, fun n hn => hs.holds.linked n (hnodes hn), ?_⟩
        apply (hs.holds.claimed.named hnew).perm
        exact perm_ownersOf hperm.symm
    | skip htier hsize => exact .keeps rfl (hs.holds.move hflush hnone rfl hnodes)
  | merge pass inputs hpc hwait =>
    -- the file is opened before the wait
    have hopened : ∃ stamp, s.mergeOutput = some (.opened stamp) := by
      rw [hpc] at hmerge
      obtain ⟨stamp, hnamed | hopened⟩ := hmerge
      · unfold mergeUnopened at hopen
        simp only [hpc, hnamed] at hopen
        cases hopen
      · exact ⟨stamp, hopened⟩
    rw [hpc] at hlife ⊢
    simp only at hlife
    split at hlife <;> cases hlife
    exact .keeps rfl (hs.holds.move hflush hopened rfl (List.Subset.refl _))
  | mergeStops pass inputs hpc hlen hnone =>
    rw [hpc] at hmerge hlife ⊢
    cases hlife
    exact .keeps rfl (hs.holds.move hflush hmerge rfl (List.Subset.refl _))
  | merged pass inputs newSst hpc hlen hsst =>
    rw [hpc] at hmerge hlife ⊢
    cases hlife
    obtain ⟨stamp, hopened⟩ := hmerge
    rw [hopened]
    refine .keeps rfl ⟨hflush, ⟨stamp, rfl⟩, hs.holds.linked, ?_⟩
    have hclaimed := hs.holds.claimed.perm (perm_ownersOf (perm_outputs hopened))
    apply (hclaimed.written newSst).perm
    exact perm_ownersOf (List.perm_append_singleton (Output.written stamp newSst) _).symm
  | refused pass inputs newSst hpc hadd =>
    rw [hpc] at hmerge hlife ⊢
    simp only at hlife
    split at hlife
    · cases hlife
    · rw [if_neg (by simp)] at hlife
      cases hlife
      exact .keeps rfl (hs.holds.move hflush hmerge rfl (List.Subset.refl _))
  | add pass inputs newSst metadata hpc hadd =>
    rw [hpc] at hmerge hlife ⊢
    obtain ⟨stamp, hwritten⟩ := hmerge
    simp only at hlife
    split at hlife
    · cases hlife
    · cases hlife
      rw [hwritten]
      have hperm := perm_outputs hwritten
      have hname : Fits dir stamp := hfits _ (hperm.mem_iff.mpr List.mem_cons_self)
      rw [← List.append_nil s.flushOutput.toList] at hperm
      refine .keeps rfl (hs.register hname newSst ⟨rfl, rfl⟩ hperm hflush rfl
        (foldl_delete _ _).1 fun n hn => ?_)
      -- the inputs move to `sst_to_delete`
      rw [mem_nodes] at hn ⊢
      rw [list_add hadd, ← hs.life.allocated, List.mem_cons, List.mem_append] at hn
      rcases hn with (hn | hn) | hn | hn | hn
      · exact Or.inl hn
      · exact Or.inr (Or.inl hn)
      · cases hn
      · exact Or.inr (Or.inr (Or.inr hn))
      · exact Or.inr (Or.inr (Or.inl (List.mem_of_mem_take hn)))
  | copyList sstToDelete hpc =>
    rw [hpc] at hmerge hlife ⊢
    cases hlife
    exact .keeps rfl (hs.holds.move hflush hmerge rfl (List.Subset.refl _))
  | writeFile generation snapshot sstToDelete hpc =>
    rw [hpc] at hmerge hlife ⊢
    cases hlife
    refine .keeps rfl (hs.holds.move hflush hmerge rfl ?_)
    rw [nodes_world (writeMetadata_same _ _ _).2.2]
    exact List.Subset.refl _
  | release sstToDelete hpc =>
    rw [hpc] at hmerge hlife ⊢
    simp only at hlife
    split at hlife <;> cases hlife
    exact .keeps rfl (hs.holds.move hflush hmerge rfl (List.Subset.refl _))
  | quit inputs hpc =>
    rw [hpc] at hmerge hlife ⊢
    cases hlife
    exact .keeps rfl (hs.holds.move hflush hmerge rfl (List.Subset.refl _))

/-- A step that is none of the daemons. -/
theorem Inv.frame (hs : s.Inv dir) {life' : Lifetime} (h : Frame s.life life') :
    Outcome dir s { s with life := life' } :=
  .keeps rfl (hs.holds.move (h.flushPc ▸ hs.holds.flush) (h.compactPc ▸ hs.holds.merge) h.allocated
    h.nodes)

theorem life_after (dir : CString) (now : UInt64) (s : Files) (life' : Lifetime) (act : LifeAction) :
    (s.after dir now life' act).life = life' := by
  unfold Files.after
  split
  · unfold Files.afterFlush
    split
    · split <;> rfl
    · split <;> rfl
    · split <;> rfl
    · rfl
  · unfold Files.afterCompact
    split
    · rfl
    · split <;> rfl
    · split <;> rfl
    · rfl
  · rfl

/-- Every step of the store and its iterators. -/
theorem Inv.after (hs : s.Inv dir) (hfits : s.OutputsFit dir) (now : UInt64) {act : LifeAction}
    {life' : Lifetime} (hopen : s.mergeUnopened act = false) (hstep : s.life.step act = some life') :
    Outcome dir s (s.after dir now life' act) ∧ s.life.heap.removed <+: life'.heap.removed := by
  by_cases hflush : act = .store .flushDaemon
  · subst hflush
    obtain ⟨hrunning, w, hw, rfl⟩ := step_flushDaemon hstep
    exact ⟨hs.afterFlush hfits hrunning hw, removed_afterFlush s.life w ▸ List.prefix_rfl⟩
  · by_cases hcompact : ∃ faults, act = .store (.compact faults)
    · obtain ⟨faults, rfl⟩ := hcompact
      obtain ⟨hrunning, w, hw, hlife⟩ := step_compact hstep
      exact ⟨hs.afterCompact hfits hrunning hopen hw hlife, removed_afterCompact hlife⟩
    · have hcompact : ∀ faults, act ≠ .store (.compact faults) :=
        fun faults heq => hcompact ⟨faults, heq⟩
      obtain ⟨hframe, hremoved⟩ := frame_of_step hflush hcompact hstep
      refine ⟨?_, hremoved⟩
      have hafter : s.after dir now life' act = { s with life := life' } := by
        unfold Files.after
        split
        · exact absurd rfl hflush
        · exact absurd rfl (hcompact _)
        · rfl
      rw [hafter]
      exact hs.frame hframe

end Steps

end Files

/-! ## Runs -/

namespace Files

/-- Every SST in use has two paths for itself; what the record of an SST on the list, of an input of
the compaction or of an iterator names is found as the record describes it; nodes and records agree;
and there are no other files of SSTs. -/
structure FilesRight (dir : CString) (s : Files) : Prop where
  own : (s.paths dir).Nodup
  found : ∀ a ∈ s.life.owners ++ s.life.iterators,
    FileNames.sstIteratorEnsureOpen s.disk (s.records a).names =
      .files (s.records a).content.sstFile (indexFlush (s.records a).content.sstIndexFile)
  linked : ∀ n ∈ nodes s.life, (s.records n.addr).content = n.content
  noLeak : ∀ p content, s.disk p = some content → p ∈ s.paths dir

/-- If the step draws a name, nobody has it. -/
def DrawsFresh (dir : CString) (s : Files) (act : FileAction) : Prop :=
  ∀ s' stamp, s.step dir act = some s' → s'.drawn = s.drawn ++ [stamp] →
    ∀ p ∈ pair (stamp.paths dir), p ∉ s.paths dir

section Runs

variable {dir : CString} {s s' : Files} {act : FileAction}

theorem Inv.filesRight (hs : s.Inv dir) : FilesRight dir s where
  own := hs.holds.claimed.owned.nodup
  found a ha := by
    obtain ⟨hlt, hremoved⟩ := hs.life.not_removed ha
    apply hs.holds.claimed.found
    apply List.mem_append_right
    exact List.mem_map.mpr ⟨a, mem_live.mpr ⟨hlt, hremoved⟩, rfl⟩
  linked := hs.holds.linked
  noLeak _ _ hp := hs.holds.claimed.owned.mem_of_eq_some hp

theorem inv_init : init.Inv dir where
  life := Lifetime.inv_init
  holds := ⟨rfl, rfl, fun _ hn => absurd hn List.not_mem_nil,
    ⟨Owned.nil, fun _ howner => absurd howner List.not_mem_nil⟩⟩

/-- A step that draws nothing. -/
theorem drawsFresh_of_eq (hstep : s.step dir act = some s') (hdrawn : s'.drawn = s.drawn) :
    DrawsFresh dir s act := by
  intro t stamp ht hnew
  rw [hstep] at ht
  cases ht
  rw [hdrawn] at hnew
  simp at hnew

/-- The files of the records that have been freed are removed. -/
theorem Holds.inv {removed : List Nat} (h : s.Holds dir removed) {life' : Lifetime}
    (hlife : s.life = life') (hs : life'.Inv) (hgrows : removed <+: life'.heap.removed) :
    (s.removeFiles (life'.heap.removed.drop removed.length)).Inv dir := by
  obtain ⟨freed, hfreed⟩ := hgrows
  have hdrop : life'.heap.removed.drop removed.length = freed := by
    rw [← hfreed]
    exact List.drop_left
  have hnodup : (removed ++ freed).Nodup := by
    rw [hfreed, hs.holds.removed]
    exact hs.holds.accounts.freed_nodup
  have hlt : ∀ a ∈ freed, a < s.life.heap.refs.allocated := by
    intro a ha
    have hmem : a ∈ life'.heap.refs.freed := by
      rw [← hs.holds.removed, ← hfreed]
      exact List.mem_append_right _ ha
    rw [hlife]
    exact ((hs.holds.accounts.mem_freed a).mp hmem).1
  have hholds := h.removeFiles hnodup hlt
  rw [hdrop]
  subst hlife
  refine ⟨hs, ?_⟩
  show Holds dir _ s.life.heap.removed
  rw [← hfreed]
  exact hholds

/-- A drawn name that somebody has. -/
theorem not_filesRight {output : Output} (houtputs : s'.outputs.Perm (output :: s.outputs))
    (hrecords : s'.records = s.records) (hheap : s'.life.heap = s.life.heap)
    (hused : ¬ ∀ p ∈ pair (output.stamp.paths dir), p ∉ s.paths dir) : ¬ FilesRight dir s' := by
  intro hright
  apply hused
  intro p hp hmem
  have hperm : (s'.paths dir).Perm (pathsOf (output.owner dir :: s.owners dir)) := by
    apply perm_pathsOf
    show (ownersOf dir s'.records (live s'.life.heap.refs.allocated s'.life.heap.removed) _).Perm _
    rw [hrecords, hheap]
    exact perm_ownersOf houtputs
  have hnodup := hperm.nodup_iff.mp hright.own
  rw [pathsOf_cons, output.paths_owner] at hnodup
  exact (List.nodup_append.mp hnodup).2.2 p hp p hmem rfl

theorem Inv.step (hs : s.Inv dir) (hfits : s.OutputsFit dir) (hstep : s.step dir act = some s') :
    DrawsFresh dir s act ∧ s'.Inv dir ∨ ¬ DrawsFresh dir s act ∧ ¬ FilesRight dir s' := by
  have hact := hstep
  unfold Files.step at hstep
  cases act with
  | mergeFopen =>
    simp only at hstep
    split at hstep
    · rename_i stamp hpc hnamed
      split at hstep <;> cases hstep
      refine Or.inl ⟨drawsFresh_of_eq hact rfl, hs.life, hs.holds.flush, ?_, hs.holds.linked, ?_⟩
      · rw [hpc]
        exact ⟨stamp, Or.inr rfl⟩
      · have hclaimed := hs.holds.claimed.perm (perm_ownersOf (perm_outputs hnamed))
        apply hclaimed.opened.perm
        exact perm_ownersOf (List.perm_append_singleton (Output.opened stamp) _).symm
    · cases hstep
  | life act now =>
    simp only at hstep
    split at hstep
    · cases hstep
    · rename_i hopen
      split at hstep
      · cases hstep
      · rename_i life' hlife
        cases hstep
        rw [Bool.not_eq_true] at hopen
        obtain ⟨houtcome, hgrows⟩ := hs.after hfits now hopen hlife
        have hinv := (hs.life.step hlife).1
        have hafter := life_after dir now s life' act
        cases houtcome with
        | keeps hdrawn hholds =>
          exact Or.inl ⟨drawsFresh_of_eq hact hdrawn, hholds.inv hafter hinv hgrows⟩
        | draws output hdrawn houtputs hrecords hheap hholds =>
          -- no record is freed where a name is drawn
          by_cases hnew : ∀ p ∈ pair (output.stamp.paths dir), p ∉ s.paths dir
          · refine Or.inl ⟨?_, (hholds hnew).inv hafter hinv hgrows⟩
            intro t stamp ht hstamp
            rw [hact] at ht
            cases ht
            have hsame := List.append_cancel_left (hdrawn.symm.trans hstamp)
            cases hsame
            exact hnew
          · refine Or.inr ⟨fun hfresh => hnew (hfresh _ _ hact hdrawn), ?_⟩
            exact not_filesRight houtputs hrecords hheap hnew

/-! ### The records -/

/-- Under a step of the files is one of the records. -/
theorem step_life {act : LifeAction} {now : UInt64} (hstep : s.step dir (.life act now) = some s') :
    s.life.step act = some s'.life := by
  unfold Files.step at hstep
  simp only at hstep
  split at hstep
  · cases hstep
  · split at hstep
    · cases hstep
    · rename_i life' hlife
      cases hstep
      rw [hlife]
      exact congrArg some (life_after dir now s life' act).symm

theorem step_mergeFopen (hstep : s.step dir .mergeFopen = some s') :
    s'.life = s.life ∧ s'.records = s.records := by
  unfold Files.step at hstep
  simp only at hstep
  split at hstep
  · split at hstep <;> cases hstep
    exact ⟨rfl, rfl⟩
  · cases hstep

theorem allocated_step {life life' : Lifetime} {act : LifeAction} (h : life.step act = some life') :
    life.heap.refs.allocated ≤ life'.heap.refs.allocated := by
  by_cases hflush : act = .store .flushDaemon
  · subst hflush
    obtain ⟨-, w, -, rfl⟩ := step_flushDaemon h
    unfold Lifetime.afterFlush
    split
    · split
      · exact Nat.le_succ _
      · exact Nat.le_refl _
    · exact Nat.le_refl _
  · by_cases hcompact : ∃ faults, act = .store (.compact faults)
    · obtain ⟨faults, rfl⟩ := hcompact
      obtain ⟨-, w, -, hlife⟩ := step_compact h
      unfold Lifetime.afterCompact at hlife
      split at hlife
      · cases hlife
        exact Nat.le_refl _
      · split at hlife <;> cases hlife
        exact Nat.le_refl _
      · split at hlife
        · cases hlife
        · split at hlife <;> cases hlife
          · rw [(foldl_delete _ _).1]
            exact Nat.le_succ _
          · exact Nat.le_refl _
      · split at hlife <;> cases hlife
        exact Nat.le_refl _
      · cases hlife
        exact Nat.le_refl _
    · have hcompact : ∀ faults, act ≠ .store (.compact faults) :=
        fun faults heq => hcompact ⟨faults, heq⟩
      exact (frame_of_step hflush hcompact h).1.allocated.ge

/-- The records on the heap keep the names of their files. -/
theorem records_after (dir : CString) (now : UInt64) (s : Files) (life' : Lifetime) (act : LifeAction)
    {a : Nat} (ha : a < s.life.heap.refs.allocated) :
    (s.after dir now life' act).records a = s.records a := by
  unfold Files.after
  split
  · unfold Files.afterFlush
    split
    · split <;> rfl
    · split <;> rfl
    · split
      · exact Function.update_of_ne (ne_of_lt ha) _ _
      · rfl
    · rfl
  · unfold Files.afterCompact
    split
    · rfl
    · split <;> rfl
    · split
      · exact Function.update_of_ne (ne_of_lt ha) _ _
      · rfl
    · rfl
  · rfl

theorem step_records (hstep : s.step dir act = some s') {a : Nat}
    (ha : a < s.life.heap.refs.allocated) :
    s'.records a = s.records a ∧ a < s'.life.heap.refs.allocated := by
  cases act with
  | mergeFopen =>
    obtain ⟨hlife, hrecords⟩ := step_mergeFopen hstep
    rw [hlife, hrecords]
    exact ⟨rfl, ha⟩
  | life act now =>
    refine ⟨?_, ha.trans_le (allocated_step (step_life hstep))⟩
    unfold Files.step at hstep
    simp only at hstep
    split at hstep
    · cases hstep
    · split at hstep
      · cases hstep
      · cases hstep
        exact records_after dir now s _ act ha

/-! ### The names drawn -/

/-- One of the two daemons draws the next stamp, or nobody does. -/
theorem drawn_step (hstep : s.step dir act = some s') :
    s'.drawn = s.drawn ∧ s'.counter = s.counter ∨
      act.ofDaemon = true ∧
        ∃ now, s'.drawn = s.drawn ++ [s.stamp now] ∧ s'.counter = s.counter + 1 := by
  unfold Files.step at hstep
  split at hstep
  · split at hstep
    · cases hstep
    · split at hstep
      · cases hstep
      · rename_i now _ _ life' _
        cases hstep
        unfold Files.after
        split
        · unfold Files.afterFlush
          split
          · split
            · exact Or.inl ⟨rfl, rfl⟩
            · exact Or.inr ⟨rfl, now, rfl, rfl⟩
          · split <;> exact Or.inl ⟨rfl, rfl⟩
          · split <;> exact Or.inl ⟨rfl, rfl⟩
          · exact Or.inl ⟨rfl, rfl⟩
        · unfold Files.afterCompact
          split
          · exact Or.inr ⟨rfl, now, rfl, rfl⟩
          · split <;> exact Or.inl ⟨rfl, rfl⟩
          · split <;> exact Or.inl ⟨rfl, rfl⟩
          · exact Or.inl ⟨rfl, rfl⟩
        · exact Or.inl ⟨rfl, rfl⟩
  · split at hstep
    · split at hstep <;> cases hstep
      exact Or.inl ⟨rfl, rfl⟩
    · cases hstep

/-- What is in the making has a name that was drawn. -/
structure Named (s : Files) : Prop where
  flush : ∀ output, s.flushOutput = some output → output.stamp ∈ s.drawn
  merge : ∀ output, s.mergeOutput = some output → output.stamp ∈ s.drawn

theorem Named.outputs (h : s.Named) : ∀ output ∈ s.outputs, output.stamp ∈ s.drawn := by
  intro output houtput
  unfold Files.outputs at houtput
  rw [List.mem_append, Option.mem_toList, Option.mem_toList] at houtput
  exact houtput.elim (h.flush output) (h.merge output)

theorem Named.afterFlush (h : s.Named) (now : UInt64) (life' : Lifetime) :
    (s.afterFlush dir now life').Named := by
  unfold Files.afterFlush
  split
  · split
    · exact ⟨h.flush, h.merge⟩
    · refine ⟨?_, fun output heq => List.mem_append_left _ (h.merge output heq)⟩
      rintro _ ⟨⟩
      exact List.mem_append_right _ List.mem_cons_self
  · split
    · rename_i stamp hopened
      refine ⟨?_, h.merge⟩
      rintro _ ⟨⟩
      exact h.flush (.opened stamp) hopened
    · exact ⟨h.flush, h.merge⟩
  · split
    · exact ⟨nofun, h.merge⟩
    · exact ⟨h.flush, h.merge⟩
  · exact ⟨h.flush, h.merge⟩

theorem Named.afterCompact (h : s.Named) (now : UInt64) (life' : Lifetime) :
    (s.afterCompact dir now life').Named := by
  unfold Files.afterCompact
  split
  · refine ⟨fun output heq => List.mem_append_left _ (h.flush output heq), ?_⟩
    rintro _ ⟨⟩
    exact List.mem_append_right _ List.mem_cons_self
  · split
    · rename_i stamp hopened
      refine ⟨h.flush, ?_⟩
      rintro _ ⟨⟩
      exact h.merge (.opened stamp) hopened
    · exact ⟨h.flush, h.merge⟩
  · split
    · exact ⟨h.flush, nofun⟩
    · exact ⟨h.flush, h.merge⟩
  · exact ⟨h.flush, h.merge⟩

theorem Named.step (h : s.Named) (hstep : s.step dir act = some s') : s'.Named := by
  unfold Files.step at hstep
  split at hstep
  · split at hstep
    · cases hstep
    · split at hstep
      · cases hstep
      · cases hstep
        unfold Files.after
        split
        · exact ⟨(h.afterFlush _ _).flush, (h.afterFlush _ _).merge⟩
        · exact ⟨(h.afterCompact _ _).flush, (h.afterCompact _ _).merge⟩
        · exact ⟨h.flush, h.merge⟩
  · split at hstep
    · rename_i stamp _ hnamed
      split at hstep <;> cases hstep
      refine ⟨h.flush, ?_⟩
      rintro _ ⟨⟩
      exact h.merge (.named stamp) hnamed
    · cases hstep

theorem drawn_grows {as : List FileAction} (hrun : run (Files.step dir) s as = some s') :
    s.drawn <+: s'.drawn := by
  refine run_invariant (P := fun t => s.drawn <+: t.drawn) (fun t a t' (_ : True) ht hstep => ?_)
    (fun _ _ => trivial) List.prefix_rfl hrun
  rcases drawn_step hstep with ⟨hdrawn, -⟩ | ⟨-, now, hdrawn, -⟩
  · rw [hdrawn]
    exact ht
  · rw [hdrawn]
    exact ht.trans (List.prefix_append _ _)

/-- There are no more names than the daemons have made steps. -/
theorem length_drawn_le {as : List FileAction} (hrun : run (Files.step dir) s as = some s') :
    s'.drawn.length ≤ s.drawn.length + as.countP FileAction.ofDaemon := by
  induction as generalizing s with
  | nil =>
    cases hrun
    exact Nat.le_refl _
  | cons a as ih =>
    obtain ⟨t, ht, hrest⟩ := run_cons_eq_some.mp hrun
    have htail := ih hrest
    rw [List.countP_cons]
    rcases drawn_step ht with ⟨hdrawn, -⟩ | ⟨hdaemon, now, hdrawn, -⟩
    · rw [hdrawn] at htail
      omega
    · rw [hdrawn, List.length_append, List.length_singleton] at htail
      rw [if_pos hdaemon]
      omega

/-- The counter counts the names, modulo its 16 bits. -/
structure Counted (s : Files) : Prop where
  counter : s.counter = UInt16.ofNat s.drawn.length
  drawn : s.drawn.map Stamp.counterVal = (List.range s.drawn.length).map UInt16.ofNat

theorem Counted.of_run {as : List FileAction} (hrun : run (Files.step dir) init as = some s) :
    s.Counted := by
  refine run_invariant (fun t a t' (_ : True) ht hstep => ?_) (fun _ _ => trivial) ⟨rfl, rfl⟩ hrun
  rcases drawn_step hstep with ⟨hdrawn, hcounter⟩ | ⟨-, now, hdrawn, hcounter⟩
  · refine ⟨?_, ?_⟩
    · rw [hcounter, hdrawn]
      exact ht.counter
    · rw [hdrawn]
      exact ht.drawn
  · refine ⟨?_, ?_⟩
    · rw [hcounter, hdrawn, List.length_append, ht.counter, UInt16.ofNat_add]
      rfl
    · rw [hdrawn, List.map_append, List.length_append, List.length_singleton, List.range_succ,
        List.map_append, ht.drawn]
      show _ ++ [t.counter] = _
      rw [ht.counter]
      rfl

/-- The counter does not come around within 65536 names. -/
theorem Counted.nodup (h : s.Counted) (hfew : s.drawn.length ≤ 65536) : s.drawn.Nodup := by
  apply List.Nodup.of_map Stamp.counterVal
  rw [h.drawn]
  apply List.nodup_range.map_on
  intro m hm n hn heq
  rw [List.mem_range] at hm hn
  have htoNat := congrArg UInt16.toNat heq
  have hmod : m % 65536 = n % 65536 := htoNat
  rwa [Nat.mod_eq_of_lt (by omega), Nat.mod_eq_of_lt (by omega)] at hmod

/-- A stamp that has not been drawn gives a name that nobody has. -/
theorem Inv.drawsFresh (hdir : dir.length ≤ 90) (hs : s.Inv dir) (hstep : s.step dir act = some s')
    (hnodup : s'.drawn.Nodup) : DrawsFresh dir s act := by
  intro t stamp ht hdrawn p hp hmem
  rw [hstep] at ht
  cases ht
  obtain ⟨owner, howner, hpath⟩ := mem_pathsOf.mp hmem
  obtain ⟨old, hold, hpaths⟩ := hs.holds.claimed.stamped owner howner
  rw [hpaths] at hpath
  rw [hdrawn] at hnodup
  have hne : stamp ≠ old := by
    rintro rfl
    exact (List.nodup_append.mp hnodup).2.2 stamp hold stamp List.mem_cons_self rfl
  exact not_mem_pair hdir hne hp hpath

/-- Names that were all made from different stamps are good ones. -/
theorem eachStep_drawsFresh (hdir : dir.length ≤ 90) {as : List FileAction}
    (hrun : run (Files.step dir) init as = some s) (hnodup : s.drawn.Nodup) :
    EachStep (Files.step dir) (DrawsFresh dir) init as := by
  -- what has been drawn up to any step of the run has no repetition
  have hfresh : ∀ pre a post t t', as = pre ++ a :: post → run (Files.step dir) init pre = some t →
      t.Inv dir → t.step dir a = some t' → DrawsFresh dir t a := by
    intro pre a post t t' has ht hs hstep
    have hend := run_after hrun has ht hstep
    exact hs.drawsFresh hdir hstep (hnodup.sublist (drawn_grows hend).sublist)
  have hinv : Always (Files.step dir) (Files.Inv dir) init as := by
    refine always_of_eachStep inv_init fun pre a post t has ht t' hs hstep => ?_
    rcases hs.step (fun o _ => fits_of_le hdir o.stamp) hstep with ⟨-, hs'⟩ | ⟨hused, -⟩
    · exact hs'
    · exact absurd (hfresh pre a post t t' has ht hs hstep) hused
  intro pre a post t has ht
  obtain ⟨t', hstep⟩ := step_of_run hrun has ht
  exact hfresh pre a post t t' has ht (hinv pre (a :: post) t has ht) hstep

theorem mergeUnopened_iff {act : LifeAction} :
    s.mergeUnopened act = true ↔ ∃ faults pass inputs stamp, act = .store (.compact faults) ∧
      s.life.world.compactPc = .mergeWait pass inputs ∧ s.mergeOutput = some (.named stamp) := by
  unfold Files.mergeUnopened
  constructor
  · intro h
    split at h
    · split at h
      · rename_i hpc hnamed
        exact ⟨_, _, _, _, rfl, hpc, hnamed⟩
      · cases h
    · cases h
  · rintro ⟨faults, pass, inputs, stamp, rfl, hpc, hnamed⟩
    simp only [hpc, hnamed]

/-- A step of the store or of an iterator, behind the `fopen` of the merge where that is due. -/
theorem exists_step_life (dir : CString) (now : UInt64) {act : LifeAction} {life' : Lifetime}
    (hstep : s.life.step act = some life') :
    ∃ as t, run (Files.step dir) s as = some t ∧ t.life = life' ∧
      as.filterMap FileAction.ofLife = [act] := by
  -- with nothing to open the step is taken at once
  have hone {t : Files} (hlife : t.life = s.life) (hopened : ¬ t.mergeUnopened act = true) :
      ∃ u, t.step dir (.life act now) = some u ∧ u.life = life' := by
    unfold Files.step
    simp only [if_neg hopened, hlife, hstep]
    exact ⟨_, rfl, life_after dir now t life' act⟩
  by_cases hunopened : s.mergeUnopened act = true
  · obtain ⟨faults, pass, inputs, stamp, rfl, hpc, hnamed⟩ := mergeUnopened_iff.mp hunopened
    obtain ⟨hrunning, w, -, hafter⟩ := step_compact hstep
    have htodo : s.life.mergeTodo = [] := by
      by_contra hne
      unfold Lifetime.afterCompact at hafter
      simp only [hpc, if_pos hne, reduceCtorEq] at hafter
    let t : Files := { s with
      disk := s.disk.write (stamp.paths dir).sstFile []
      mergeOutput := some (.opened stamp) }
    have hopen : s.step dir .mergeFopen = some t := by
      unfold Files.step
      simp only [hpc, hnamed, hrunning, htodo, ne_eq, not_true_eq_false, or_self, if_false]
      rfl
    have hopened : ¬ t.mergeUnopened (.store (.compact faults)) = true := by
      intro h
      obtain ⟨_, _, _, _, _, _, hnamed'⟩ := mergeUnopened_iff.mp h
      cases hnamed'
    obtain ⟨u, hu, hlife⟩ := @hone t rfl hopened
    exact ⟨[.mergeFopen, .life (.store (.compact faults)) now], u,
      run_cons_eq_some.mpr ⟨t, hopen, run_cons_eq_some.mpr ⟨u, hu, rfl⟩⟩, hlife, rfl⟩
  · obtain ⟨u, hu, hlife⟩ := hone rfl hunopened
    exact ⟨[.life act now], u, run_cons_eq_some.mpr ⟨u, hu, rfl⟩, hlife, rfl⟩

/-- Every run of the store and its iterators is what a run with files shows of it. -/
theorem exists_run_life (dir : CString) (now : UInt64) {lifes : List LifeAction} {life : Lifetime}
    (hrun : run Lifetime.step Lifetime.init lifes = some life) :
    ∃ as u, run (Files.step dir) init as = some u ∧ u.life = life ∧
      as.filterMap FileAction.ofLife = lifes := by
  obtain ⟨as, u, hfiles, -, hlife, hlifes⟩ :
      ∃ as u, run (Files.step dir) init as = some u ∧ True ∧ u.life = life ∧
        as.filterMap FileAction.ofLife = lifes := by
    refine exists_run_covering Files.life FileAction.ofLife (fun s act life' _ hstep => ?_) trivial hrun
    obtain ⟨as, t, hfiles, hlife, hlifes⟩ := exists_step_life dir now hstep
    exact ⟨as, t, hfiles, trivial, hlife, hlifes⟩
  exact ⟨as, u, hfiles, hlife, hlifes⟩

end Runs

end Files

/-- In a directory with a path of at most 90 characters, in every run of the daemons and of any number
of query threads, at any times:
every SST in use has its files for itself and they are as its record describes them, and no file of
another SST is left, in all states of the run, exactly when every name drawn is one that no SST in
use has;
this is so when no two names were drawn in the same millisecond with the same counter, and thus for
the first 65536 names of the process. -/
theorem sst_files_on_disk {dir : CString} (hdir : dir.length ≤ 90) {as : List FileAction} {u : Files}
    (hrun : run (Files.step dir) Files.init as = some u) :
    (Always (Files.step dir) (Files.FilesRight dir) Files.init as ↔
      EachStep (Files.step dir) (Files.DrawsFresh dir) Files.init as) ∧
    (u.drawn.Nodup → Always (Files.step dir) (Files.FilesRight dir) Files.init as) ∧
    (u.drawn.length ≤ 65536 → u.drawn.Nodup) := by
  have hiff : Always (Files.step dir) (Files.FilesRight dir) Files.init as ↔
      EachStep (Files.step dir) (Files.DrawsFresh dir) Files.init as :=
    always_iff_eachStep hrun Files.inv_init (fun _ => Files.Inv.filesRight)
      fun t a t' _ hs hstep => hs.step (fun o _ => fits_of_le hdir o.stamp) hstep
  exact ⟨hiff, fun hnodup => hiff.mpr (Files.eachStep_drawsFresh hdir hrun hnodup),
    (Files.Counted.of_run hrun).nodup⟩

/-- A directory. -/
def shortDir : CString := ⟨['d', 'a', 't', 'a'], by decide⟩

/-- Tables are merged and the files of the inputs removed. -/
theorem sst_files_on_disk_one :
    ∃ as u, run (Files.step shortDir) Files.init as = some u ∧ u.drawn.length ≤ 65536 ∧
      (∃ a, a ∈ u.life.heap.removed) ∧ (∃ sst ∈ u.life.world.lsmt.metadata.records, sst.level = 1) ∧
      Always (Files.step shortDir) (Files.FilesRight shortDir) Files.init as := by
  obtain ⟨stores, w, hstores, -, hrest, houtput, hfewer, hdaemons⟩ := exists_merged
  obtain ⟨lifes, life, hlives, hunread, rfl, hshown⟩ := Lifetime.exists_run_store hstores
  obtain ⟨as, u, hrun, rfl, hshown'⟩ := Files.exists_run_life shortDir 1700000000000 hlives
  have hremoved := (Lifetime.Inv.of_run hlives).exists_removed hunread hrest hfewer
  -- the daemons make 43 steps
  have hcount : as.countP FileAction.ofDaemon = 43 := by
    rw [← hdaemons, ← hshown, ← hshown', List.countP_filterMap, List.countP_filterMap]
    apply List.countP_congr
    intro a _
    cases a with
    | mergeFopen => exact Iff.rfl
    | life act now => cases act <;> exact Iff.rfl
  have hdrawn : u.drawn.length ≤ 0 + as.countP FileAction.ofDaemon := Files.length_drawn_le hrun
  have hfew : u.drawn.length ≤ 65536 := by omega
  have hfiles := sst_files_on_disk (by decide) hrun
  exact ⟨as, u, hrun, hfew, hremoved, houtput, hfiles.2.1 (hfiles.2.2 hfew)⟩

end RaftLsmt.Lsmt.FilesOnDisk
