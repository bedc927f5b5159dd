import RaftLsmt.Lsmt.SstFilesOnDisk

/-!
# The metadata file

Both daemons copy the list under `metadata_lock`, each time with a new generation, and write the copy
later under `metadata_write_lock`. `MetadataFile` adds that lock to the store with its files: a daemon
takes it, replaces `.lsmt_metadata` by renaming a finished file over it or skips the write, and then
sets `disk_generation` and gives the lock back. In between everything else goes on.

A copy holds the records that were on the list, with the file names in them. What carries the proof is
that the copies from `disk_generation` on, written or not, are of records with an owner: records that
are merged away stay with the compaction until the generation it copied after their merge, or a later
one, is on disk. An owner has its files on the disk where the names drawn fit the record and nobody
has them (`metadata_file_current`). In a directory with a long path they are cut, and the files named
are not there (`not_metadata_named_files`).
-/

set_option autoImplicit false

namespace RaftLsmt.Lsmt

open RaftLsmt.Lib.StepMachine
open RaftLsmt.Lib.TerminatedString
open FileNames (Disk SstNames)
open FilesOnDisk (Files Fits Output Stamp)

/-! ## The machine -/

/-- The two writers of the metadata file. -/
inductive Daemon where
  | flush
  | compaction
  deriving DecidableEq

/-- The file names in an array of records. `addrs` is history: the records they were copied from. -/
structure CopiedNames where
  names : List SstNames
  addrs : List Nat

/-- A copy of the list. -/
structure ListCopy extends CopiedNames where
  snapshot : MetadataSnapshot

/-- `sst_metadata_copy_records`, with the file names. -/
def FilesOnDisk.Files.copy (s : Files) : ListCopy where
  names := s.life.world.lsmt.metadata.addrs.map fun a => (s.records a).names
  addrs := s.life.world.lsmt.metadata.addrs
  snapshot := sstMetadataCopyRecords s.life.world.lsmt.metadata

/-- The snapshot the compaction is about to write, with its generation. -/
def CompactPc.copied : CompactPc → Option (Nat × MetadataSnapshot)
  | .writingMetadata generation snapshot _ => some (generation, snapshot)
  | _ => none

/-- The store and its files with `metadata_write_lock` and `.lsmt_metadata`. `flushNames` and
`compactNames` are the file names in the array `records` of each daemon. `writer` has the lock; its
flag says that the write is done. `history` is the copy of each generation. -/
structure MetadataFile where
  files : Files
  flushNames : CopiedNames
  compactNames : CopiedNames
  writer : Option (Daemon × Bool)
  file : Option ListCopy
  history : List ListCopy

/-- A step of the store or of an iterator, with the time it reads; `sst_merge` opens its file; or a
step of the writers. -/
inductive MetadataAction where
  | life (act : LifeAction) (now : UInt64)
  | mergeFopen
  | lock (d : Daemon)
  | write
  | unlock

/-- The step a daemon takes behind its write. -/
def Daemon.action : Daemon → LifeAction
  | .flush => .store .flushDaemon
  | .compaction => .store (.compact [])

/-- The copy of the `generation`-th generation; generations start at one. -/
def copyAt (history : List ListCopy) : Nat → Option ListCopy
  | 0 => none
  | generation + 1 => history[generation]?

namespace MetadataFile

/-- The machine before its first step. -/
def init : MetadataFile where
  files := Files.init
  flushNames := ⟨[], []⟩
  compactNames := ⟨[], []⟩
  writer := none
  file := none
  history := []

/-- The records with their references, without the files. -/
abbrev life (s : MetadataFile) : Lifetime := s.files.life

/-- The copy a daemon is about to write. -/
def copied (s : MetadataFile) : Daemon → Option (Nat × ListCopy)
  | .flush => s.life.world.flushPc.copied.map fun p => (p.1, ⟨s.flushNames, p.2⟩)
  | .compaction => s.life.world.compactPc.copied.map fun p => (p.1, ⟨s.compactNames, p.2⟩)

/-- The steps that need `metadata_write_lock`. -/
def writes (s : MetadataFile) : LifeAction → Bool
  | .store .flushDaemon => (s.copied .flush).isSome
  | .store (.compact _) => (s.copied .compaction).isSome
  | _ => false

/-- A step to `files`: with a new generation comes a copy of the list. -/
def advance (s : MetadataFile) (act : LifeAction) (files : Files) : MetadataFile :=
  if files.life.world.lsmt.metadataGeneration = s.life.world.lsmt.metadataGeneration then
    { s with files := files }
  else
    let copy := files.copy
    let s := { s with files := files, history := s.history ++ [copy] }
    match act with
    | .store .flushDaemon => { s with flushNames := copy.toCopiedNames }
    | _ => { s with compactNames := copy.toCopiedNames }

/-- One step of one thread, in the directory `dir`. -/
def step (dir : CString) (s : MetadataFile) : MetadataAction → Option MetadataFile
  | .life act now =>
    if s.writes act then none else (s.files.step dir (.life act now)).map (s.advance act)
  | .mergeFopen => (s.files.step dir .mergeFopen).map fun files => { s with files := files }
  | .lock d =>
    if s.writer.isNone ∧ (s.copied d).isSome then some { s with writer := some (d, false) } else none
  | .write =>
    match s.writer with
    | some (d, false) =>
      match s.copied d with
      | none => none
      | some (generation, copy) =>
        some { s with
          writer := some (d, true)
          file := if generation > s.life.world.lsmt.diskGeneration then some copy else s.file }
    | _ => none
  | .unlock =>
    match s.writer with
    | some (d, true) =>
      -- nothing is named behind a write, so the time does not matter
      (s.files.step dir (.life d.action 0)).map fun files => { s with files := files, writer := none }
    | _ => none

end MetadataFile

/-! ## Copies -/

theorem copyAt_append_of_le {history : List ListCopy} {generation : Nat} (new : List ListCopy)
    (h : generation ≤ history.length) :
    copyAt (history ++ new) generation = copyAt history generation := by
  cases generation with
  | zero => rfl
  | succ generation => exact List.getElem?_append_left h

theorem le_of_copyAt {history : List ListCopy} {generation : Nat} {copy : ListCopy}
    (h : copyAt history generation = some copy) : generation ≤ history.length := by
  cases generation with
  | zero => exact Nat.zero_le _
  | succ generation => exact (List.getElem?_eq_some_iff.mp h).1

theorem copyAt_isSome {history : List ListCopy} {generation : Nat} (hpos : 0 < generation)
    (h : generation ≤ history.length) : ∃ copy, copyAt history generation = some copy := by
  cases generation with
  | zero => cases hpos
  | succ generation => exact ⟨history[generation], List.getElem?_eq_getElem h⟩

/-- A copy is an old one or one of the new ones. -/
theorem copyAt_append {history new : List ListCopy} {generation : Nat} {copy : ListCopy}
    (h : copyAt (history ++ new) generation = some copy) :
    copyAt history generation = some copy ∨ copy ∈ new ∧ history.length < generation := by
  by_cases hle : generation ≤ history.length
  · rw [copyAt_append_of_le new hle] at h
    exact Or.inl h
  · cases generation with
    | zero => exact absurd (Nat.zero_le _) hle
    | succ generation =>
      have hlen : history.length ≤ generation := by omega
      have hnew : new[generation - history.length]? = some copy :=
        (List.getElem?_append_right hlen).symm.trans h
      exact Or.inr ⟨List.mem_of_getElem? hnew, by omega⟩

theorem mem_of_copyAt {history : List ListCopy} {generation : Nat} {copy : ListCopy}
    (h : copyAt history generation = some copy) : copy ∈ history := by
  cases generation with
  | zero => cases h
  | succ generation => exact List.mem_of_getElem? h

theorem copyAt_append_singleton (history : List ListCopy) (copy : ListCopy) :
    copyAt (history ++ [copy]) (history.length + 1) = some copy :=
  List.getElem?_concat_length

/-! ## What the steps of the compaction do to the file -/

/-- The compaction holds `sst_to_delete` and has a copy of the list behind the merges. -/
def CompactPc.releases : CompactPc → Bool
  | .writingMetadata _ _ _ => true
  | .deleting _ => true
  | _ => false

theorem FlushPc.copied_eq_some {pc : FlushPc} {p : Nat × MetadataSnapshot}
    (h : pc.copied = some p) : ∃ memtable, pc = .writingMetadata memtable p.1 p.2 := by
  cases pc with
  | writingMetadata memtable generation snapshot =>
    cases h
    exact ⟨memtable, rfl⟩
  | _ => cases h

theorem CompactPc.copied_eq_some {pc : CompactPc} {p : Nat × MetadataSnapshot}
    (h : pc.copied = some p) : ∃ sstToDelete, pc = .writingMetadata p.1 p.2 sstToDelete := by
  cases pc with
  | writingMetadata generation snapshot sstToDelete =>
    cases h
    exact ⟨sstToDelete, rfl⟩
  | _ => cases h

theorem CompactPc.copied_eq_none {pc : CompactPc} (h : pc.releases = false) : pc.copied = none := by
  cases pc <;> first | rfl | cases h

/-- A step of the compaction leaves generation and file alone, or it copies the list, or it writes
its copy. -/
inductive World.CompactMetadataStep (w w' : World) : Prop where
  | same (hfile : w.SameFile w') (hpc : w.compactPc.copied = none)
      (hpc' : w'.compactPc.releases = false)
  | copies {sstToDelete : List SstMetadataRecord} (hpc : w.compactPc = .snapshotting sstToDelete)
      (hlist : w'.lsmt.metadata = w.lsmt.metadata)
      (hgeneration : w'.lsmt.metadataGeneration = w.lsmt.metadataGeneration + 1)
      (hdisk : w'.lsmt.diskGeneration = w.lsmt.diskGeneration ∧
        w'.lsmt.diskMetadata = w.lsmt.diskMetadata)
      (hpc' : w'.compactPc = .writingMetadata (w.lsmt.metadataGeneration + 1)
        (sstMetadataCopyRecords w.lsmt.metadata) sstToDelete)
  | writes {generation : Nat} {snapshot : MetadataSnapshot} {sstToDelete : List SstMetadataRecord}
      (hpc : w.compactPc = .writingMetadata generation snapshot sstToDelete)
      (hlsmt : w'.lsmt = writeMetadata w.lsmt generation snapshot)
      (hpc' : w'.compactPc = .deleting sstToDelete)

theorem World.Scans.metadata {w w' : World} {pass : CompactPass} (h : w.Scans pass w') :
    w.SameFile w' ∧ w'.compactPc.releases = false := by
  cases h with
  | finish htier =>
    refine ⟨⟨rfl, rfl, rfl⟩, ?_⟩
    cases hmust : pass.mustFlush <;> rfl
  | select selected htier hsize hselected =>
    refine ⟨⟨rfl, rfl, rfl⟩, ?_⟩
    simp only
    split <;> rfl
  | skip htier hsize => exact ⟨⟨rfl, rfl, rfl⟩, rfl⟩

theorem World.CompactStep.metadataStep {w w' : World} {faults : List IoFaults}
    (h : w.CompactStep faults w') : w.CompactMetadataStep w' := by
  cases h with
  | wake hpc => exact .same ⟨rfl, rfl, rfl⟩ (by rw [hpc]; rfl) rfl
  | start hpc => exact .same ⟨rfl, rfl, rfl⟩ (by rw [hpc]; rfl) rfl
  | scan pass _ hpc hscan =>
    obtain ⟨hfile, hpc'⟩ := (compactScan_cases hscan).metadata
    exact .same hfile (by rw [hpc]; rfl) hpc'
  | merge pass inputs hpc => exact .same ⟨rfl, rfl, rfl⟩ (by rw [hpc]; rfl) rfl
  | mergeStops pass inputs hpc =>
    exact .same ⟨rfl, rfl, rfl⟩ (by rw [hpc]; rfl) (by simp only [hpc]; rfl)
  | merged pass inputs newSst hpc => exact .same ⟨rfl, rfl, rfl⟩ (by rw [hpc]; rfl) rfl
  | refused pass inputs newSst hpc =>
    exact .same ⟨rfl, rfl, rfl⟩ (by rw [hpc]; rfl) (by simp only [hpc]; rfl)
  | add pass inputs newSst metadata hpc => exact .same ⟨rfl, rfl, rfl⟩ (by rw [hpc]; rfl) rfl
  | copyList sstToDelete hpc => exact .copies hpc rfl rfl ⟨rfl, rfl⟩ rfl
  | writeFile generation snapshot sstToDelete hpc => exact .writes hpc rfl rfl
  | release sstToDelete hpc => exact .same ⟨rfl, rfl, rfl⟩ (by rw [hpc]; rfl) rfl
  | quit inputs hpc => exact .same ⟨rfl, rfl, rfl⟩ (by rw [hpc]; rfl) (by simp only [hpc]; rfl)

theorem writeMetadata_disk (lsmt : LsmtState) (generation : Nat) (snapshot : MetadataSnapshot) :
    (writeMetadata lsmt generation snapshot).metadataGeneration = lsmt.metadataGeneration ∧
      (writeMetadata lsmt generation snapshot).diskGeneration =
        max lsmt.diskGeneration generation ∧
      (writeMetadata lsmt generation snapshot).diskMetadata =
        if generation > lsmt.diskGeneration then some snapshot else lsmt.diskMetadata := by
  unfold writeMetadata
  split
  · rename_i hnewer
    exact ⟨rfl, (Nat.max_eq_right (Nat.le_of_lt hnewer)).symm, rfl⟩
  · rename_i hold
    exact ⟨rfl, (Nat.max_eq_left (Nat.le_of_not_lt hold)).symm, rfl⟩

/-! ## The steps of the lifetimes -/

theorem LifeAction.store_ne_deleteInput (a : Action) : LifeAction.store a ≠ .deleteInput := by
  intro h
  cases h

namespace Lifetime

theorem step_store {s s' : Lifetime} {a : Action} (h : s.step (.store a) = some s') :
    s.storeStep a = some s' := by
  unfold step at h
  split at h
  · cases h
  · exact h

/-- A step of the store is one of its world; only a registered merge adds to `sst_to_delete`. -/
theorem storeStep_world {s s' : Lifetime} {a : Action} (h : s.storeStep a = some s') :
    s.world.step a = some s'.world ∧
      (s'.sstToDelete = s.sstToDelete ∨
        ∃ faults pass inputs newSst, a = .compact faults ∧
          s.world.compactPc = .adding pass inputs newSst) := by
  unfold storeStep at h
  split at h
  · cases h
  · split at h
    · cases h
    · rename_i w hw
      rw [hw]
      cases a with
      | flushDaemon =>
        cases h
        unfold afterFlush
        split
        · split <;> exact ⟨rfl, Or.inl rfl⟩
        · exact ⟨rfl, Or.inl rfl⟩
      | compact faults =>
        simp only at h
        unfold afterCompact at h
        split at h
        · cases h
          exact ⟨rfl, Or.inl rfl⟩
        · split at h <;> cases h
          exact ⟨rfl, Or.inl rfl⟩
        · rename_i pass inputs newSst hpc
          split at h
          · cases h
          · split at h <;> cases h <;> exact ⟨rfl, Or.inr ⟨faults, pass, inputs, newSst, rfl, hpc⟩⟩
        · split at h <;> cases h
          exact ⟨rfl, Or.inl rfl⟩
        · cases h
          exact ⟨rfl, Or.inl rfl⟩
      | _ =>
        cases h
        exact ⟨rfl, Or.inl rfl⟩

/-- The steps of the iterators and the releases leave the world alone. -/
theorem step_other {s s' : Lifetime} {act : LifeAction} (hact : ∀ a, act ≠ .store a)
    (h : s.step act = some s') : s'.world = s.world ∧ s'.sstToDelete ⊆ s.sstToDelete := by
  unfold step at h
  split at h
  · cases h
  · cases act with
    | store a => exact absurd rfl (hact a)
    | deleteInput =>
      simp only at h
      split at h
      · cases h
      · rename_i n rest hdelete
        cases h
        refine ⟨rfl, ?_⟩
        rw [hdelete]
        exact List.subset_cons_self n rest
    | readerFree i j =>
      simp only at h
      split at h
      · cases h
      · split at h
        · cases h
        · split at h <;> cases h
          exact ⟨rfl, List.Subset.refl _⟩
    | readerOpen i j =>
      simp only at h
      split at h
      · cases h
      · split at h <;> cases h
        exact ⟨rfl, List.Subset.refl _⟩
    | readerRetain =>
      simp only at h
      split at h <;> cases h
      exact ⟨rfl, List.Subset.refl _⟩
    | _ =>
      simp only at h
      split at h <;> cases h
      exact ⟨rfl, List.Subset.refl _⟩

/-- A release at the end of a compaction. -/
theorem step_deleteInput {s s' : Lifetime} (h : s.step .deleteInput = some s') :
    ∃ n rest toDelete, s.sstToDelete = n :: rest ∧ s.world.compactPc = .deleting toDelete ∧
      s' = { s with heap := s.heap.delete n.addr, sstToDelete := rest } := by
  unfold step at h
  split at h
  · cases h
  · rename_i hgo
    rw [not_or, Bool.not_eq_false] at hgo
    have henabled := hgo.2
    unfold enabled at henabled
    simp only at henabled h
    split at henabled
    · rename_i toDelete hpc
      split at h
      · cases h
      · rename_i n rest hdelete
        cases h
        exact ⟨n, rest, toDelete, hdelete, hpc, rfl⟩
    · cases henabled

/-- The generation on record only grows. -/
theorem step_diskGeneration {s s' : Lifetime} {act : LifeAction} (h : s.step act = some s') :
    s.world.lsmt.diskGeneration ≤ s'.world.lsmt.diskGeneration := by
  have hwrite : ∀ {w w' : World} {generation : Nat} {snapshot : MetadataSnapshot},
      w'.lsmt = writeMetadata w.lsmt generation snapshot →
      w.lsmt.diskGeneration ≤ w'.lsmt.diskGeneration := by
    intro w w' generation snapshot hlsmt
    rw [hlsmt, (writeMetadata_disk _ _ _).2.1]
    exact Nat.le_max_left _ _
  by_cases hstore : ∃ a, act = .store a
  · obtain ⟨a, rfl⟩ := hstore
    have hworld := (storeStep_world (step_store h)).1
    by_cases hcompact : ∃ faults, a = .compact faults
    · obtain ⟨faults, rfl⟩ := hcompact
      cases (World.compactStep_of_step hworld).metadataStep with
      | same hfile _ _ => exact hfile.diskGeneration.ge
      | copies _ _ _ hdisk _ => exact hdisk.1.ge
      | writes _ hlsmt _ => exact hwrite hlsmt
    · cases World.step_metadata (fun faults heq => hcompact ⟨faults, heq⟩) hworld with
      | same _ hfile _ _ => exact hfile.diskGeneration.ge
      | registers _ _ _ _ hdisk _ => exact hdisk.1.ge
      | writes _ hlsmt _ => exact hwrite hlsmt
  · rw [(step_other (fun a heq => hstore ⟨a, heq⟩) h).1]

/-- The list and the compaction's arrays have no record in common. -/
theorem Inv.not_listed {s : Lifetime} (hs : s.Inv) {n : SstNode} (hn : n ∈ s.sstToDelete) :
    n.addr ∉ s.world.lsmt.metadata.addrs := by
  intro hlisted
  have hdisjoint := List.disjoint_of_nodup_append hs.holds.nodup
  apply hdisjoint hlisted
  exact List.mem_map_of_mem (List.mem_append_right _ hn)

end Lifetime

/-! ## The invariant -/

namespace MetadataFile

/-- No copy from `generation` on names one of `nodes`. -/
def Unnamed (history : List ListCopy) (generation : Nat) (nodes : List SstNode) : Prop :=
  ∀ g copy, generation ≤ g → copyAt history g = some copy → ∀ n ∈ nodes, n.addr ∉ copy.addrs

/-- What the copies say about the records that the compaction is going to release. -/
def Replaced (history : List ListCopy) (life : Lifetime) : CompactPc → Prop
  | .writingMetadata generation _ _ => Unnamed history generation life.sstToDelete
  | .deleting _ => Unnamed history life.world.lsmt.diskGeneration life.sstToDelete
  | _ => True

/-- The generation of the file's content: that on record, or the one just written. -/
def fileGeneration (s : MetadataFile) : Nat :=
  match s.writer with
  | some (d, true) =>
    match s.copied d with
    | some (generation, _) => max s.life.world.lsmt.diskGeneration generation
    | none => s.life.world.lsmt.diskGeneration
  | _ => s.life.world.lsmt.diskGeneration

/-- The invariant. `named` is what keeps the files: a copy that is on disk or can still get there
names only records with an owner. -/
structure Inv (s : MetadataFile) : Prop where
  life : s.life.Inv
  history : s.history.length = s.life.world.lsmt.metadataGeneration
  copied : ∀ d generation copy, s.copied d = some (generation, copy) →
    copyAt s.history generation = some copy
  locked : ∀ d written, s.writer = some (d, written) →
    ∃ generation copy, s.copied d = some (generation, copy)
  disk_le : s.life.world.lsmt.diskGeneration ≤ s.history.length
  diskMetadata : s.life.world.lsmt.diskMetadata =
    (copyAt s.history s.life.world.lsmt.diskGeneration).map ListCopy.snapshot
  file : s.file = copyAt s.history s.fileGeneration
  named : ∀ generation copy, s.life.world.lsmt.diskGeneration ≤ generation →
    copyAt s.history generation = some copy → copy.addrs ⊆ s.life.owners
  replaced : Replaced s.history s.life s.life.world.compactPc

theorem inv_init : init.Inv where
  life := Lifetime.inv_init
  history := rfl
  copied d generation copy h := by cases d <;> cases h
  locked d written h := by cases h
  disk_le := Nat.le_refl 0
  diskMetadata := rfl
  file := rfl
  named generation copy _ h := by cases generation <;> cases h
  replaced := trivial

namespace Inv

variable {dir : CString} {s s' : MetadataFile} {files : Files}

theorem fileGeneration_le (hs : s.Inv) : s.fileGeneration ≤ s.history.length := by
  unfold fileGeneration
  split
  · rename_i d hwriter
    split
    · rename_i generation copy hcopied
      exact Nat.max_le.mpr ⟨hs.disk_le, le_of_copyAt (hs.copied d generation copy hcopied)⟩
    · exact hs.disk_le
  · exact hs.disk_le

theorem disk_le_fileGeneration (s : MetadataFile) :
    s.life.world.lsmt.diskGeneration ≤ s.fileGeneration := by
  unfold fileGeneration
  split
  · split
    · exact Nat.le_max_left _ _
    · exact Nat.le_refl _
  · exact Nat.le_refl _

/-- A step that writes nothing. The copies it makes are of the list it leaves behind, and only a
daemon without a copy gets one. -/
theorem move (hs : s.Inv) (new : List ListCopy) (hhistory : s'.history = s.history ++ new)
    (hwriter : s'.writer = s.writer) (hfile : s'.file = s.file) (hlife : s'.life.Inv)
    (hgeneration : s'.life.world.lsmt.metadataGeneration =
      s.life.world.lsmt.metadataGeneration + new.length)
    (hdisk : s'.life.world.lsmt.diskGeneration = s.life.world.lsmt.diskGeneration ∧
      s'.life.world.lsmt.diskMetadata = s.life.world.lsmt.diskMetadata)
    (hnew : ∀ copy ∈ new, copy = s'.files.copy)
    (hcopied : ∀ d, s'.copied d = s.copied d ∨
      s.copied d = none ∧ ∀ generation copy, s'.copied d = some (generation, copy) →
        copyAt s'.history generation = some copy)
    (hnamed : ∀ generation copy, s.life.world.lsmt.diskGeneration ≤ generation →
      copyAt s.history generation = some copy → copy.addrs ⊆ s'.life.owners)
    (hreplaced : Replaced s'.history s'.life s'.life.world.compactPc) : s'.Inv := by
  -- the holder of the lock keeps its copy
  have hheld : ∀ d written, s.writer = some (d, written) → s'.copied d = s.copied d := by
    intro d written hheld
    obtain ⟨generation, copy, hcopy⟩ := hs.locked d written hheld
    rcases hcopied d with hsame | ⟨hnone, -⟩
    · exact hsame
    · rw [hnone] at hcopy
      cases hcopy
  -- so the file is the copy of the same generation
  have hfileGeneration : s'.fileGeneration = s.fileGeneration := by
    unfold fileGeneration
    rw [hwriter, hdisk.1]
    split
    · rename_i d hheld'
      rw [hheld d true hheld']
    · rfl
  refine ⟨hlife, ?_, ?_, ?_, ?_, ?_, ?_, ?_, hreplaced⟩
  · rw [hhistory, List.length_append, hs.history, hgeneration]
  · -- a copy that a daemon has is the one of its generation
    intro d generation copy hcopy
    rcases hcopied d with hsame | ⟨-, hnext⟩
    · rw [hsame] at hcopy
      have hat := hs.copied d generation copy hcopy
      rw [hhistory, copyAt_append_of_le new (le_of_copyAt hat)]
      exact hat
    · exact hnext generation copy hcopy
  · intro d written hlocked
    rw [hwriter] at hlocked
    rw [hheld d written hlocked]
    exact hs.locked d written hlocked
  · rw [hdisk.1, hhistory, List.length_append]
    exact Nat.le_add_right_of_le hs.disk_le
  · rw [hdisk.1, hdisk.2, hhistory, copyAt_append_of_le new hs.disk_le]
    exact hs.diskMetadata
  · rw [hfile, hfileGeneration, hhistory, copyAt_append_of_le new hs.fileGeneration_le]
    exact hs.file
  · -- of a new copy, every table is listed and so has its owner
    intro generation copy hle hat
    rw [hdisk.1] at hle
    rw [hhistory] at hat
    rcases copyAt_append hat with hold | ⟨hmem, -⟩
    · exact hnamed generation copy hle hold
    · rw [hnew copy hmem]
      exact List.subset_append_left _ _

/-- A step that makes no copy. -/
theorem stay (hs : s.Inv) (hlife : files.life.Inv) (hfile : s.life.world.SameFile files.life.world)
    (hflush : files.life.world.flushPc.copied = s.life.world.flushPc.copied)
    (hcompact : files.life.world.compactPc.copied = s.life.world.compactPc.copied)
    (hnamed : ∀ generation copy, s.life.world.lsmt.diskGeneration ≤ generation →
      copyAt s.history generation = some copy → copy.addrs ⊆ files.life.owners)
    (hreplaced : Replaced s.history files.life files.life.world.compactPc) : Inv { s with files := files } := by
  refine hs.move [] (List.append_nil _).symm rfl rfl hlife hfile.generation
    ⟨hfile.diskGeneration, hfile.diskMetadata⟩ nofun (fun d => Or.inl ?_) hnamed hreplaced
  cases d with
  | flush => simp only [MetadataFile.copied, MetadataFile.life, hflush]
  | compaction => simp only [MetadataFile.copied, MetadataFile.life, hcompact]

/-- The steps of the iterators, and the releases at the end of a compaction. -/
theorem otherStep (hs : s.Inv) {act : LifeAction} (hact : ∀ a, act ≠ .store a)
    (hstep : s.life.step act = some files.life) : Inv { s with files := files } := by
  obtain ⟨hworld, hdelete⟩ := Lifetime.step_other hact hstep
  obtain ⟨hlife, howners⟩ := hs.life.step hstep
  refine hs.stay hlife ?_ (by rw [hworld]) (by rw [hworld]) ?_ ?_
  · rw [hworld]
    exact ⟨rfl, rfl, rfl⟩
  · intro generation copy hle hat a ha
    have howner := hs.named generation copy hle hat ha
    by_cases hrelease : act = .deleteInput
    · subst hrelease
      obtain ⟨n, rest, toDelete, htodo, hpc, hlater⟩ := Lifetime.step_deleteInput hstep
      -- the copies from the disk generation on no longer name what is released
      have hreplaced := hs.replaced
      rw [hpc] at hreplaced
      have hne : a ≠ n.addr := by
        intro heq
        apply hreplaced generation copy hle hat n
        · rw [htodo]
          exact List.mem_cons_self
        · exact heq ▸ ha
      have hsplit : a ∈ s.life.world.lsmt.metadata.addrs ++
          (s.life.inputs ++ n :: rest).map SstNode.addr := htodo ▸ howner
      rw [hlater]
      show a ∈ s.life.world.lsmt.metadata.addrs ++ (s.life.inputs ++ rest).map SstNode.addr
      simpa [hne] using hsplit
    · exact howners hrelease howner
  · rw [hworld]
    have hreplaced := hs.replaced
    cases hpc : s.life.world.compactPc with
    | writingMetadata generation snapshot toDelete =>
      rw [hpc] at hreplaced
      exact fun g copy hle hat n hn => hreplaced g copy hle hat n (hdelete hn)
    | deleting toDelete =>
      rw [hpc] at hreplaced
      intro g copy hle hat n hn
      rw [hworld] at hle
      exact hreplaced g copy hle hat n (hdelete hn)
    | _ => exact trivial

/-- A new copy does not name the records that the compaction is going to release. -/
theorem replaced_append (hs : s.Inv) (hlife : files.life.Inv)
    (hpc : files.life.world.compactPc = s.life.world.compactPc)
    (hdelete : files.life.sstToDelete = s.life.sstToDelete)
    (hdisk : files.life.world.lsmt.diskGeneration = s.life.world.lsmt.diskGeneration)
    (new : List ListCopy) (hnew : ∀ copy ∈ new, copy = files.copy) :
    Replaced (s.history ++ new) files.life files.life.world.compactPc := by
  have hunnamed : ∀ generation, Unnamed s.history generation s.life.sstToDelete →
      Unnamed (s.history ++ new) generation files.life.sstToDelete := by
    intro generation hold g copy hle hat n hn
    rcases copyAt_append hat with hbefore | ⟨hmem, -⟩
    · exact hold g copy hle hbefore n (hdelete ▸ hn)
    · rw [hnew copy hmem]
      exact hlife.not_listed hn
  have hreplaced := hs.replaced
  rw [hpc]
  cases hpc' : s.life.world.compactPc with
  | writingMetadata generation snapshot toDelete =>
    rw [hpc'] at hreplaced
    exact hunnamed generation hreplaced
  | deleting toDelete =>
    rw [hpc'] at hreplaced
    show Unnamed _ files.life.world.lsmt.diskGeneration _
    rw [hdisk]
    exact hunnamed _ hreplaced
  | _ => exact trivial

/-- A step of the store's threads other than the compaction, outside `metadata_write_lock`. -/
theorem flushStep (hs : s.Inv) {a : Action} (ha : ∀ faults, a ≠ .compact faults)
    (hwrites : s.writes (.store a) = false) (hstep : s.life.step (.store a) = some files.life) :
    (s.advance (.store a) files).Inv := by
  obtain ⟨hworld, hdelete⟩ := Lifetime.storeStep_world (Lifetime.step_store hstep)
  obtain ⟨hlife, howners⟩ := hs.life.step hstep
  have hpc := (World.step_sameCompaction ha hworld).compactPc
  have hsame : files.life.sstToDelete = s.life.sstToDelete := by
    rcases hdelete with hsame | ⟨faults, _, _, _, hcompact, -⟩
    · exact hsame
    · exact absurd hcompact (ha faults)
  have hnamed : ∀ generation copy, s.life.world.lsmt.diskGeneration ≤ generation →
      copyAt s.history generation = some copy → copy.addrs ⊆ files.life.owners :=
    fun generation copy hle hat => List.Subset.trans (hs.named generation copy hle hat)
      (howners (LifeAction.store_ne_deleteInput _))
  cases World.step_metadata ha hworld with
  -- neither the list nor the generation changes
  | same hlist hfile hcopied _ =>
    unfold advance
    rw [if_pos hfile.generation]
    refine hs.stay hlife hfile hcopied (by rw [hpc]) hnamed ?_
    have hreplaced := hs.replaced_append hlife hpc hsame hfile.diskGeneration [] nofun
    rw [List.append_nil] at hreplaced
    exact hreplaced
  -- the new copy is the list with the new SST
  | registers hflush _ _ hgeneration hdisk hcopied =>
    unfold advance
    rw [if_neg (by omega)]
    have hnew : ∀ copy ∈ [files.copy], copy = files.copy :=
      fun copy hcopy => List.mem_singleton.mp hcopy
    refine hs.move [files.copy] rfl rfl rfl hlife hgeneration hdisk hnew ?_ hnamed
      (hs.replaced_append hlife hpc hsame hdisk.1 _ hnew)
    intro d
    cases d with
    | flush =>
      refine Or.inr ⟨?_, ?_⟩
      · simp only [MetadataFile.copied, MetadataFile.life, hflush, FlushPc.copied, Option.map_none]
      · intro generation copy hcopy
        simp only [MetadataFile.copied, MetadataFile.life, hcopied, Option.map_some, Option.some.injEq,
          Prod.mk.injEq] at hcopy
        obtain ⟨rfl, rfl⟩ := hcopy
        rw [← hs.history]
        exact copyAt_append_singleton _ _
    | compaction =>
      refine Or.inl ?_
      simp only [MetadataFile.copied, MetadataFile.life, hpc]
  -- the file is written under the lock, which this step is outside of
  | writes hflush _ _ =>
    simp only [writes, MetadataFile.copied, MetadataFile.life, hflush, FlushPc.copied, Option.map_some,
      Option.isSome_some] at hwrites
    cases hwrites

/-- A step of the compaction outside `metadata_write_lock`. -/
theorem compactStep (hs : s.Inv) {faults : List IoFaults}
    (hwrites : s.writes (.store (.compact faults)) = false)
    (hstep : s.life.step (.store (.compact faults)) = some files.life) :
    (s.advance (.store (.compact faults)) files).Inv := by
  obtain ⟨hworld, hdelete⟩ := Lifetime.storeStep_world (Lifetime.step_store hstep)
  obtain ⟨hlife, howners⟩ := hs.life.step hstep
  have hcompact := World.compactStep_of_step hworld
  have hflush := hcompact.sameFlush.flushPc
  have hnamed : ∀ generation copy, s.life.world.lsmt.diskGeneration ≤ generation →
      copyAt s.history generation = some copy → copy.addrs ⊆ files.life.owners :=
    fun generation copy hle hat => List.Subset.trans (hs.named generation copy hle hat)
      (howners (LifeAction.store_ne_deleteInput _))
  cases hcompact.metadataStep with
  -- neither the list nor the generation changes
  | same hfile hpc hpc' =>
    unfold advance
    rw [if_pos hfile.generation]
    refine hs.stay hlife hfile (by rw [hflush]) ?_ hnamed ?_
    · rw [hpc, CompactPc.copied_eq_none hpc']
    · cases hlater : files.life.world.compactPc <;> rw [hlater] at hpc' <;>
        first | exact trivial | cases hpc'
  -- the new copy is the list behind the merge
  | copies hpc hlist hgeneration hdisk hpc' =>
    unfold advance
    rw [if_neg (by omega)]
    have hnew : ∀ copy ∈ [files.copy], copy = files.copy :=
      fun copy hcopy => List.mem_singleton.mp hcopy
    refine hs.move [files.copy] rfl rfl rfl hlife hgeneration hdisk hnew ?_ hnamed
      ?_
    · intro d
      cases d with
      | flush =>
        refine Or.inl ?_
        simp only [MetadataFile.copied, MetadataFile.life, hflush]
      | compaction =>
        refine Or.inr ⟨?_, ?_⟩
        · simp only [MetadataFile.copied, MetadataFile.life, hpc, CompactPc.copied, Option.map_none]
        · intro generation copy hcopy
          simp only [MetadataFile.copied, MetadataFile.life, hpc', CompactPc.copied, Option.map_some,
            Option.some.injEq, Prod.mk.injEq] at hcopy
          obtain ⟨rfl, rfl⟩ := hcopy
          rw [← hs.history, ← hlist]
          exact copyAt_append_singleton _ _
    · show Replaced _ files.life files.life.world.compactPc
      -- what has been merged away is in no list any more
      rw [hpc']
      intro g copy hle hat n hn
      rw [← hs.history] at hle
      rcases copyAt_append hat with hold | ⟨hmem, -⟩
      · have hbefore := le_of_copyAt hold
        omega
      · rw [hnew copy hmem]
        exact hlife.not_listed hn
  -- the file is written under the lock, which this step is outside of
  | writes hpc _ _ =>
    simp only [writes, MetadataFile.copied, MetadataFile.life, hpc, CompactPc.copied, Option.map_some,
      Option.isSome_some] at hwrites
    cases hwrites

theorem lifeStep (hs : s.Inv) {act : LifeAction} (hwrites : s.writes act = false)
    (hstep : s.life.step act = some files.life) : (s.advance act files).Inv := by
  by_cases hstore : ∃ a, act = .store a
  · obtain ⟨a, rfl⟩ := hstore
    by_cases hcompact : ∃ faults, a = .compact faults
    · obtain ⟨faults, rfl⟩ := hcompact
      exact hs.compactStep hwrites hstep
    · exact hs.flushStep (fun faults heq => hcompact ⟨faults, heq⟩) hwrites hstep
  · have hact : ∀ a, act ≠ .store a := fun a heq => hstore ⟨a, heq⟩
    have hworld := (Lifetime.step_other hact hstep).1
    unfold advance
    rw [if_pos (by rw [hworld])]
    exact hs.otherStep hact hstep

/-! ### The writer -/

theorem lock (hs : s.Inv) {d : Daemon} (hwriter : s.writer = none) (hcopied : (s.copied d).isSome) :
    Inv { s with writer := some (d, false) } where
  life := hs.life
  history := hs.history
  copied := hs.copied
  locked := by
    intro d' written h
    cases h
    obtain ⟨p, hp⟩ := Option.isSome_iff_exists.mp hcopied
    exact ⟨p.1, p.2, hp⟩
  disk_le := hs.disk_le
  diskMetadata := hs.diskMetadata
  file := by
    have hfile := hs.file
    unfold fileGeneration at hfile
    rw [hwriter] at hfile
    exact hfile
  named := hs.named
  replaced := hs.replaced

theorem write (hs : s.Inv) {d : Daemon} {generation : Nat} {copy : ListCopy}
    (hwriter : s.writer = some (d, false)) (hcopied : s.copied d = some (generation, copy)) :
    Inv { s with
      writer := some (d, true)
      file := if generation > s.life.world.lsmt.diskGeneration then some copy else s.file } where
  life := hs.life
  history := hs.history
  copied := hs.copied
  locked := by
    intro d' written h
    cases h
    exact ⟨generation, copy, hcopied⟩
  disk_le := hs.disk_le
  diskMetadata := hs.diskMetadata
  file := by
    have hfile := hs.file
    unfold fileGeneration at hfile ⊢
    rw [hwriter] at hfile
    show (if generation > s.life.world.lsmt.diskGeneration then some copy else s.file) =
      copyAt s.history (match s.copied d with
        | some (generation, _) => max s.life.world.lsmt.diskGeneration generation
        | none => s.life.world.lsmt.diskGeneration)
    rw [hcopied]
    simp only
    split
    · rename_i hnewer
      rw [Nat.max_eq_right (Nat.le_of_lt hnewer)]
      exact (hs.copied d generation copy hcopied).symm
    · rename_i hold
      rw [Nat.max_eq_left (Nat.le_of_not_lt hold)]
      exact hfile
  named := hs.named
  replaced := hs.replaced

/-- The end of a write: the generation on record becomes that of the file. -/
theorem written (hs : s.Inv) {d : Daemon} {generation : Nat} {copy : ListCopy}
    (hwriter : s.writer = some (d, true)) (hcopied : s.copied d = some (generation, copy))
    (hlife : files.life.Inv) (howners : s.life.owners ⊆ files.life.owners)
    (hlsmt : files.life.world.lsmt = writeMetadata s.life.world.lsmt generation copy.snapshot)
    (hnext : ∀ d' p, MetadataFile.copied { s with files := files, writer := none } d' = some p →
      s.copied d' = some p)
    (hreplaced : Replaced s.history files.life files.life.world.compactPc) :
    Inv { s with files := files, writer := none } := by
  obtain ⟨hgeneration, hdisk, hcontent⟩ :=
    writeMetadata_disk s.life.world.lsmt generation copy.snapshot
  rw [← hlsmt] at hgeneration hdisk hcontent
  have hat := hs.copied d generation copy hcopied
  have hfileGeneration : s.fileGeneration = files.life.world.lsmt.diskGeneration := by
    unfold fileGeneration
    rw [hwriter]
    simp only
    rw [hcopied, hdisk]
  refine ⟨hlife, hs.history.trans hgeneration.symm, ?_, nofun, ?_, ?_, ?_, ?_, hreplaced⟩
  · intro d' g c hcopy
    exact hs.copied d' g c (hnext d' _ hcopy)
  · show files.life.world.lsmt.diskGeneration ≤ s.history.length
    rw [← hfileGeneration]
    exact hs.fileGeneration_le
  · show files.life.world.lsmt.diskMetadata =
      (copyAt s.history files.life.world.lsmt.diskGeneration).map ListCopy.snapshot
    rw [hcontent, hdisk]
    split
    · rename_i hnewer
      rw [Nat.max_eq_right (Nat.le_of_lt hnewer), hat]
      rfl
    · rename_i hold
      rw [Nat.max_eq_left (Nat.le_of_not_lt hold)]
      exact hs.diskMetadata
  · show s.file = copyAt s.history files.life.world.lsmt.diskGeneration
    rw [← hfileGeneration]
    exact hs.file
  · intro g c hle hcopy
    have hlater : s.life.world.lsmt.diskGeneration ≤ g := by
      have hle' : files.life.world.lsmt.diskGeneration ≤ g := hle
      omega
    exact List.Subset.trans (hs.named g c hlater hcopy) howners

/-- The flush daemon gives the lock back. -/
theorem unlockFlush (hs : s.Inv) (hwriter : s.writer = some (.flush, true))
    (hstep : s.life.step Daemon.flush.action = some files.life) :
    Inv { s with files := files, writer := none } := by
  obtain ⟨generation, copy, hcopied⟩ := hs.locked .flush true hwriter
  obtain ⟨hworld, hdelete⟩ := Lifetime.storeStep_world (Lifetime.step_store hstep)
  obtain ⟨hlife, howners⟩ := hs.life.step hstep
  obtain ⟨p, hp, hcopy⟩ := Option.map_eq_some_iff.mp hcopied
  cases hcopy
  obtain ⟨memtable, hpc⟩ := FlushPc.copied_eq_some hp
  have hsame : files.life.sstToDelete = s.life.sstToDelete := by
    rcases hdelete with hsame | ⟨faults, _, _, _, hcompact, -⟩
    · exact hsame
    · cases hcompact
  unfold World.step at hworld
  split at hworld
  · cases hworld
  · simp only [flushDaemonStep, hpc, Option.some.injEq] at hworld
    refine hs.written hwriter hcopied hlife (howners (LifeAction.store_ne_deleteInput _))
      (by rw [← hworld]) ?_ ?_
    · intro d p h
      cases d with
      | flush =>
        simp only [MetadataFile.copied, MetadataFile.life, ← hworld, FlushPc.copied, Option.map_none] at h
        cases h
      | compaction =>
        simp only [MetadataFile.copied, MetadataFile.life, ← hworld] at h
        exact h
    · have hreplaced := hs.replaced
      have hcompact : files.life.world.compactPc = s.life.world.compactPc := by rw [← hworld]
      have hdisk : s.life.world.lsmt.diskGeneration ≤ files.life.world.lsmt.diskGeneration := by
        rw [← hworld]
        show _ ≤ (writeMetadata _ _ _).diskGeneration
        rw [(writeMetadata_disk _ _ _).2.1]
        exact Nat.le_max_left _ _
      rw [hcompact]
      cases hlater : s.life.world.compactPc with
      | writingMetadata g snapshot toDelete =>
        rw [hlater] at hreplaced
        intro g copy hle hat n hn
        exact hreplaced g copy hle hat n (hsame ▸ hn)
      | deleting toDelete =>
        rw [hlater] at hreplaced
        intro g copy hle hat n hn
        exact hreplaced g copy (hdisk.trans hle) hat n (hsame ▸ hn)
      | _ => exact trivial

/-- The compaction gives the lock back: what it merged away is in no copy from the generation on
record on, whoever wrote that one. -/
theorem unlockCompaction (hs : s.Inv) (hwriter : s.writer = some (.compaction, true))
    (hstep : s.life.step Daemon.compaction.action = some files.life) :
    Inv { s with files := files, writer := none } := by
  obtain ⟨generation, copy, hcopied⟩ := hs.locked .compaction true hwriter
  obtain ⟨hworld, hdelete⟩ := Lifetime.storeStep_world (Lifetime.step_store hstep)
  obtain ⟨hlife, howners⟩ := hs.life.step hstep
  obtain ⟨p, hp, hcopy⟩ := Option.map_eq_some_iff.mp hcopied
  cases hcopy
  obtain ⟨toDelete, hpc⟩ := CompactPc.copied_eq_some hp
  have hsame : files.life.sstToDelete = s.life.sstToDelete := by
    rcases hdelete with hsame | ⟨_, _, _, _, _, hadding⟩
    · exact hsame
    · rw [hpc] at hadding
      cases hadding
  unfold World.step at hworld
  split at hworld
  · cases hworld
  · simp only [Lsmt.compactStep, hpc, Option.some.injEq] at hworld
    refine hs.written hwriter hcopied hlife (howners (LifeAction.store_ne_deleteInput _))
      (by rw [← hworld]) ?_ ?_
    · intro d p h
      cases d with
      | flush =>
        simp only [MetadataFile.copied, MetadataFile.life, ← hworld] at h
        exact h
      | compaction =>
        simp only [MetadataFile.copied, MetadataFile.life, ← hworld, CompactPc.copied, Option.map_none] at h
        cases h
    · have hreplaced := hs.replaced
      rw [hpc] at hreplaced
      have hdisk : p.1 ≤ files.life.world.lsmt.diskGeneration := by
        rw [← hworld]
        show _ ≤ (writeMetadata _ _ _).diskGeneration
        rw [(writeMetadata_disk _ _ _).2.1]
        exact Nat.le_max_right _ _
      have hcompact : files.life.world.compactPc = .deleting toDelete := by rw [← hworld]
      rw [hcompact]
      intro g copy hle hat n hn
      exact hreplaced g copy (hdisk.trans hle) hat n (hsame ▸ hn)

/-- The store stays as it is. -/
theorem sameLife (hs : s.Inv) (hlife : files.life = s.life) : Inv { s with files := files } := by
  refine hs.stay (hlife ▸ hs.life) ?_ (by rw [hlife]) (by rw [hlife]) ?_ ?_
  · rw [hlife]
    exact ⟨rfl, rfl, rfl⟩
  · rw [hlife]
    exact hs.named
  · rw [hlife]
    exact hs.replaced

/-- Every step keeps the invariant. -/
theorem step (hs : s.Inv) {act : MetadataAction} (hstep : s.step dir act = some s') : s'.Inv := by
  unfold MetadataFile.step at hstep
  cases act with
  | life act now =>
    simp only at hstep
    split at hstep
    · cases hstep
    · rename_i hwrites
      obtain ⟨files, hfiles, rfl⟩ := Option.map_eq_some_iff.mp hstep
      exact hs.lifeStep (Bool.not_eq_true _ ▸ hwrites) (Files.step_life hfiles)
  | mergeFopen =>
    obtain ⟨files, hfiles, rfl⟩ := Option.map_eq_some_iff.mp hstep
    exact hs.sameLife (Files.step_mergeFopen hfiles).1
  | lock d =>
    simp only at hstep
    split at hstep <;> cases hstep
    rename_i hfree
    exact hs.lock (Option.isNone_iff_eq_none.mp hfree.1) hfree.2
  | write =>
    simp only at hstep
    split at hstep
    · rename_i d hwriter
      split at hstep <;> cases hstep
      rename_i generation copy hcopied
      exact hs.write hwriter hcopied
    · cases hstep
  | unlock =>
    simp only at hstep
    split at hstep
    · rename_i d hwriter
      obtain ⟨files, hfiles, rfl⟩ := Option.map_eq_some_iff.mp hstep
      cases d with
      | flush => exact hs.unlockFlush hwriter (Files.step_life hfiles)
      | compaction => exact hs.unlockCompaction hwriter (Files.step_life hfiles)
    · cases hstep

theorem of_run {as : List MetadataAction} (hrun : run (MetadataFile.step dir) init as = some s) :
    s.Inv :=
  run_invariant (fun _ _ _ (_ : True) hs hstep => hs.step hstep) (fun _ _ => trivial) inv_init hrun

end Inv

theorem advance_files (s : MetadataFile) (act : LifeAction) (files : Files) :
    (s.advance act files).files = files := by
  unfold advance
  split
  · rfl
  · simp only
    split <;> rfl

section Steps

variable {dir : CString} {s s' : MetadataFile} {act : MetadataAction}

/-- A step of the files, or one of a writer alone. -/
theorem step_files (h : s.step dir act = some s') :
    (∃ act, s.files.step dir act = some s'.files) ∨ s'.files = s.files := by
  unfold step at h
  cases act with
  | life act now =>
    simp only at h
    split at h
    · cases h
    · obtain ⟨files, hfiles, rfl⟩ := Option.map_eq_some_iff.mp h
      rw [advance_files]
      exact Or.inl ⟨_, hfiles⟩
  | mergeFopen =>
    obtain ⟨files, hfiles, rfl⟩ := Option.map_eq_some_iff.mp h
    exact Or.inl ⟨_, hfiles⟩
  | lock d =>
    simp only at h
    split at h <;> cases h
    exact Or.inr rfl
  | write =>
    simp only at h
    split at h
    · split at h <;> cases h
      exact Or.inr rfl
    · cases h
  | unlock =>
    simp only at h
    split at h
    · obtain ⟨files, hfiles, rfl⟩ := Option.map_eq_some_iff.mp h
      exact Or.inl ⟨_, hfiles⟩
    · cases h

theorem step_diskGeneration (h : s.step dir act = some s') :
    s.life.world.lsmt.diskGeneration ≤ s'.life.world.lsmt.diskGeneration := by
  rcases step_files h with ⟨act, hfiles⟩ | hsame
  · cases act with
    | life act now => exact Lifetime.step_diskGeneration (Files.step_life hfiles)
    | mergeFopen =>
      unfold life
      rw [(Files.step_mergeFopen hfiles).1]
  · unfold life
    rw [hsame]

theorem step_history (h : s.step dir act = some s') :
    s'.history = s.history ∨ s'.history = s.history ++ [s'.files.copy] := by
  unfold step at h
  cases act with
  | life act now =>
    simp only at h
    split at h
    · cases h
    · obtain ⟨files, -, rfl⟩ := Option.map_eq_some_iff.mp h
      unfold advance
      split
      · exact Or.inl rfl
      · simp only
        split <;> exact Or.inr rfl
  | mergeFopen =>
    obtain ⟨files, -, rfl⟩ := Option.map_eq_some_iff.mp h
    exact Or.inl rfl
  | lock d =>
    simp only at h
    split at h <;> cases h
    exact Or.inl rfl
  | write =>
    simp only at h
    split at h
    · split at h <;> cases h
      exact Or.inl rfl
    · cases h
  | unlock =>
    simp only at h
    split at h
    · obtain ⟨files, -, rfl⟩ := Option.map_eq_some_iff.mp h
      exact Or.inl rfl
    · cases h

end Steps

end MetadataFile

/-! ## The files that a copy names -/

/-- The names in a copy are those of the records it was made of. -/
structure Recorded (files : Files) (copy : ListCopy) : Prop where
  names_eq : copy.names = copy.addrs.map fun a => (files.records a).names
  allocated : ∀ a ∈ copy.addrs, a < files.life.heap.refs.allocated

/-- Both files that `names` names are on the disk. -/
def FilesExist (disk : Disk) (names : SstNames) : Prop :=
  (disk (CString.read names.sstableFilename)).isSome ∧
    (disk (CString.read names.sstIndexFilename)).isSome

theorem Recorded.copy {files : Files} (hs : files.life.Inv) : Recorded files files.copy where
  names_eq := rfl
  allocated _ ha := (hs.not_removed (List.mem_append_left _ (List.mem_append_left _ ha))).1

theorem Recorded.step {dir : CString} {files files' : Files} {copy : ListCopy}
    (h : Recorded files copy) {act : FilesOnDisk.FileAction}
    (hstep : files.step dir act = some files') : Recorded files' copy where
  names_eq := by
    rw [h.names_eq]
    apply List.map_congr_left
    intro a ha
    rw [(Files.step_records hstep (h.allocated a ha)).1]
  allocated a ha := (Files.step_records hstep (h.allocated a ha)).2

/-- If a name is drawn on the way, the record can hold it and nobody has it. -/
def GoodNames (dir : CString) (files files' : Files) : Prop :=
  ∀ stamp, files'.drawn = files.drawn ++ [stamp] →
    Fits dir stamp ∧ ∀ p ∈ FilesOnDisk.pair (stamp.paths dir), p ∉ files.paths dir

/-- What holds of the files while all names are good. -/
structure FilesOk (dir : CString) (files : Files) : Prop where
  inv : files.Inv dir
  named : files.Named
  fits : ∀ stamp ∈ files.drawn, Fits dir stamp

namespace FilesOk

variable {dir : CString} {files files' : Files}

theorem init : FilesOk dir Files.init where
  inv := Files.inv_init
  named := ⟨nofun, nofun⟩
  fits _ h := absurd h List.not_mem_nil

theorem step (h : FilesOk dir files) (hok : GoodNames dir files files')
    (hstep : (∃ act, files.step dir act = some files') ∨ files' = files) : FilesOk dir files' := by
  rcases hstep with ⟨act, hfiles⟩ | hsame
  · have hfresh : Files.DrawsFresh dir files act := by
      intro t stamp ht hdrawn
      rw [hfiles] at ht
      cases ht
      exact (hok stamp hdrawn).2
    have houtputs : files.OutputsFit dir := fun o ho => h.fits _ (h.named.outputs o ho)
    refine ⟨?_, h.named.step hfiles, ?_⟩
    · rcases h.inv.step houtputs hfiles with ⟨-, hinv⟩ | ⟨hused, -⟩
      · exact hinv
      · exact absurd hfresh hused
    · intro stamp hstamp
      rcases Files.drawn_step hfiles with ⟨hdrawn, -⟩ | ⟨-, now, hdrawn, -⟩
      · exact h.fits stamp (hdrawn ▸ hstamp)
      · rw [hdrawn, List.mem_append, List.mem_singleton] at hstamp
        rcases hstamp with hold | rfl
        · exact h.fits stamp hold
        · exact (hok _ hdrawn).1
  · exact hsame ▸ h

/-- In a short directory names are good as long as no two come from the same stamp. -/
theorem goodNames_of_nodup (hdir : dir.length ≤ 90) {as : List FilesOnDisk.FileAction}
    (hrun : run (Files.step dir) Files.init as = some files)
    (hstep : (∃ act, files.step dir act = some files') ∨ files' = files)
    (hnodup : files'.drawn.Nodup) : GoodNames dir files files' := by
  intro stamp hdrawn
  rcases hstep with ⟨act, hfiles⟩ | rfl
  · have hsteps : run (Files.step dir) Files.init (as ++ [act]) = some files' :=
      run_append_eq_some.mpr ⟨_, hrun, run_cons_eq_some.mpr ⟨_, hfiles, rfl⟩⟩
    have hfresh := Files.eachStep_drawsFresh hdir hsteps hnodup
    exact ⟨FilesOnDisk.fits_of_le hdir stamp, hfresh as act [] _ rfl hrun _ stamp hfiles hdrawn⟩
  · -- nothing is drawn
    simp at hdrawn

/-- Whose record has an owner has its files. -/
theorem filesExist (h : FilesOk dir files) {a : Nat} (ha : a ∈ files.life.owners) :
    FilesExist files.disk (files.records a).names := by
  have hfound := h.inv.filesRight.found a (List.mem_append_left _ ha)
  unfold FileNames.sstIteratorEnsureOpen at hfound
  unfold FilesExist
  split at hfound
  · cases hfound
  · rename_i sst hsst
    split at hfound
    · cases hfound
    · rename_i index hindex
      rw [hsst, hindex]
      exact ⟨rfl, rfl⟩

end FilesOk

namespace MetadataFile

/-- The names that a step draws are good. -/
def NamesOk (dir : CString) (s : MetadataFile) (act : MetadataAction) : Prop :=
  ∀ s', s.step dir act = some s' → GoodNames dir s.files s'.files

section Named

variable {dir : CString} {s s' : MetadataFile} {act : MetadataAction}

theorem recorded_step (hs : s.Inv) (h : ∀ copy ∈ s.history, Recorded s.files copy)
    (hstep : s.step dir act = some s') : ∀ copy ∈ s'.history, Recorded s'.files copy := by
  have hkept : ∀ copy ∈ s.history, Recorded s'.files copy := by
    intro copy hcopy
    rcases step_files hstep with ⟨fileAct, hfiles⟩ | hsame
    · exact (h copy hcopy).step hfiles
    · exact hsame ▸ h copy hcopy
  intro copy hcopy
  rcases step_history hstep with hsame | hnew
  · exact hkept copy (hsame ▸ hcopy)
  · rw [hnew, List.mem_append, List.mem_singleton] at hcopy
    rcases hcopy with hold | rfl
    · exact hkept copy hold
    · exact Recorded.copy (hs.step hstep).life

theorem recorded_of_run {as : List MetadataAction} (hrun : run (MetadataFile.step dir) init as = some s) :
    ∀ copy ∈ s.history, Recorded s.files copy := by
  have hboth : s.Inv ∧ ∀ copy ∈ s.history, Recorded s.files copy :=
    run_invariant (P := fun t : MetadataFile => t.Inv ∧ ∀ copy ∈ t.history, Recorded t.files copy)
      (fun _ _ _ (_ : True) ht hstep => ⟨ht.1.step hstep, recorded_step ht.1 ht.2 hstep⟩)
      (fun _ _ => trivial) ⟨inv_init, nofun⟩ hrun
  exact hboth.2

theorem filesOk_of_run {as : List MetadataAction} (hrun : run (MetadataFile.step dir) init as = some s)
    (hnames : EachStep (MetadataFile.step dir) (NamesOk dir) init as) : FilesOk dir s.files := by
  have halways : Always (MetadataFile.step dir) (fun t => FilesOk dir t.files) init as :=
    always_of_eachStep FilesOk.init fun pre act post t has ht t' hok hstep =>
      hok.step (hnames pre act post t has ht t' hstep) (step_files hstep)
  exact halways as [] s (List.append_nil as).symm hrun

/-- What the file names is on the disk. -/
theorem filesExist (hs : s.Inv) (hrecorded : ∀ copy ∈ s.history, Recorded s.files copy)
    (hfiles : FilesOk dir s.files) {copy : ListCopy} (hcopy : s.file = some copy) :
    ∀ names ∈ copy.names, FilesExist s.files.disk names := by
  intro names hmem
  rw [hs.file] at hcopy
  rw [(hrecorded copy (mem_of_copyAt hcopy)).names_eq] at hmem
  obtain ⟨a, ha, rfl⟩ := List.mem_map.mp hmem
  exact hfiles.filesExist (hs.named _ copy (Inv.disk_le_fileGeneration s) hcopy ha)

/-- The steps of the store on the way of a run. -/
theorem files_run {as : List MetadataAction} (hrun : run (MetadataFile.step dir) s as = some s') :
    ∃ bs, run (Files.step dir) s.files bs = some s'.files := by
  refine run_invariant (P := fun t : MetadataFile => ∃ bs, run (Files.step dir) s.files bs =
    some t.files) (fun _ _ _ (_ : True) ht hstep => ?_) (fun _ _ => trivial) ⟨[], rfl⟩ hrun
  obtain ⟨bs, hbs⟩ := ht
  rcases step_files hstep with ⟨fileAct, hfiles⟩ | hsame
  · exact ⟨bs ++ [fileAct], run_append_eq_some.mpr ⟨_, hbs, run_cons_eq_some.mpr ⟨_, hfiles, rfl⟩⟩⟩
  · exact ⟨bs, hsame ▸ hbs⟩

theorem namesOk_of_nodup (hdir : dir.length ≤ 90) {as : List MetadataAction}
    (hrun : run (MetadataFile.step dir) init as = some s) (hnodup : s.files.drawn.Nodup) :
    EachStep (MetadataFile.step dir) (NamesOk dir) init as := by
  intro pre act post t has ht t' hstep
  obtain ⟨bs, hbs⟩ := files_run ht
  obtain ⟨cs, hcs⟩ := files_run (run_after hrun has ht hstep)
  exact FilesOk.goodNames_of_nodup hdir hbs (step_files hstep)
    (hnodup.sublist (Files.drawn_grows hcs).sublist)

end Named

end MetadataFile

/-- In every run of the two daemons and the query threads:
there is one copy of the list for each generation;
once a generation is on record and while nobody holds `metadata_write_lock`, the file is the copy of
that generation;
the generation on record never decreases;
and when every name drawn fits its record and belongs to no SST in use, every file named in
`.lsmt_metadata` is on the disk. In a directory with a path of at most 90 characters the first 65536
names are such. -/
theorem metadata_file_current {dir : CString} {as : List MetadataAction} {s : MetadataFile}
    (hrun : run (MetadataFile.step dir) MetadataFile.init as = some s) :
    s.history.length = s.life.world.lsmt.metadataGeneration ∧
    (s.writer = none → 0 < s.life.world.lsmt.diskGeneration →
      ∃ copy, s.file = some copy ∧ copyAt s.history s.life.world.lsmt.diskGeneration = some copy) ∧
    (∀ act s', s.step dir act = some s' →
      s.life.world.lsmt.diskGeneration ≤ s'.life.world.lsmt.diskGeneration) ∧
    (EachStep (MetadataFile.step dir) (MetadataFile.NamesOk dir) MetadataFile.init as →
      ∀ copy, s.file = some copy → ∀ names ∈ copy.names, FilesExist s.files.disk names) ∧
    (dir.length ≤ 90 → s.files.drawn.length ≤ 65536 →
      EachStep (MetadataFile.step dir) (MetadataFile.NamesOk dir) MetadataFile.init as) := by
  have hs : s.Inv := MetadataFile.Inv.of_run hrun
  refine ⟨hs.history, fun hfree hpos => ?_, fun act s' hstep => MetadataFile.step_diskGeneration hstep,
    fun hnames copy hcopy => ?_, fun hdir hfew => ?_⟩
  · obtain ⟨copy, hcopy⟩ := copyAt_isSome hpos hs.disk_le
    refine ⟨copy, ?_, hcopy⟩
    rw [hs.file, MetadataFile.fileGeneration, hfree]
    exact hcopy
  · exact MetadataFile.filesExist hs (MetadataFile.recorded_of_run hrun)
      (MetadataFile.filesOk_of_run hrun hnames) hcopy
  · obtain ⟨bs, hbs⟩ := MetadataFile.files_run hrun
    exact MetadataFile.namesOk_of_nodup hdir hrun ((Files.Counted.of_run hbs).nodup hfew)

/-- A record is inserted, its memtable flushed and the new list written. -/
def flushAndWrite : List MetadataAction :=
  ([LifeAction.store (.insert ⟨1, 0⟩ (encodeData 1 [7])), .store .flush, .store (.flushCall 0),
    .store (.flushCall 0)] ++ List.replicate 4 (LifeAction.store .flushDaemon)).map
      (fun act => .life act 1700000000000) ++ [.lock .flush, .write, .unlock]

/-- The file names the new SST, whose two files are there. -/
theorem metadata_file_current_one :
    ∃ s copy, run (MetadataFile.step FilesOnDisk.shortDir) MetadataFile.init flushAndWrite = some s ∧
      s.file = some copy ∧ copyAt s.history 1 = some copy ∧
      copy.names.map (fun names => CString.read names.sstableFilename) =
        [⟨"data/db_1700000000000_0.sbrolf".toList, by decide⟩] ∧
      ∀ names ∈ copy.names, FilesExist s.files.disk names := by
  have hrun : ∃ s, run (MetadataFile.step FilesOnDisk.shortDir) MetadataFile.init flushAndWrite =
      some s ∧ s.writer = none ∧ s.life.world.lsmt.diskGeneration = 1 ∧ s.files.drawn.length = 1 ∧
      s.history.map (fun copy => copy.names.map fun names => CString.read names.sstableFilename) =
        [[⟨"data/db_1700000000000_0.sbrolf".toList, by decide⟩]] := ⟨_, rfl, rfl, rfl, rfl, rfl⟩
  obtain ⟨s, hrun, hfree, hdisk, hdrawn, hnames⟩ := hrun
  obtain ⟨-, hcurrent, -, hexist, hok⟩ := metadata_file_current hrun
  obtain ⟨copy, hfile, hat⟩ := hcurrent hfree (by rw [hdisk]; exact Nat.one_pos)
  rw [hdisk] at hat
  refine ⟨s, copy, hrun, hfile, hat, ?_, hexist (hok (by decide) (by omega)) copy hfile⟩
  have hmem := List.mem_map_of_mem
    (f := fun copy : ListCopy => copy.names.map fun names => CString.read names.sstableFilename)
    (mem_of_copyAt hat)
  rw [hnames] at hmem
  exact List.mem_singleton.mp hmem

/-- In a directory with a path of 110 characters the names are cut, and no file has the name on
record. -/
theorem not_metadata_named_files : ¬ ∀ (dir : CString) (as : List MetadataAction) (s : MetadataFile),
    run (MetadataFile.step dir) MetadataFile.init as = some s →
      ∀ copy, s.file = some copy → ∀ names ∈ copy.names, FilesExist s.files.disk names := by
  intro hclaim
  have hfound : ((run (MetadataFile.step FileNames.longDir) MetadataFile.init flushAndWrite).bind
      fun s => s.file.map fun copy => copy.names.map fun names =>
        (s.files.disk (CString.read names.sstableFilename)).isSome) = some [false] := by
    decide +kernel
  obtain ⟨s, hrun, hfound⟩ := Option.bind_eq_some_iff.mp hfound
  obtain ⟨copy, hcopy, hfound⟩ := Option.map_eq_some_iff.mp hfound
  have hmem : false ∈ copy.names.map fun names =>
      (s.files.disk (CString.read names.sstableFilename)).isSome := by
    rw [hfound]
    exact List.mem_cons_self
  obtain ⟨names, hnames, hnone⟩ := List.mem_map.mp hmem
  have hexist := (hclaim FileNames.longDir flushAndWrite s hrun copy hcopy names hnames).1
  rw [hnone] at hexist
  cases hexist

end RaftLsmt.Lsmt
