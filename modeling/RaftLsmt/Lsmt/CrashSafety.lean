import RaftLsmt.Lsmt.MetadataBytes
import RaftLsmt.Lsmt.MetadataFile

/-!
# The metadata behind a power failure

`CrashWorld` is the machine of the metadata file with the disk under it: the daemon that holds
`metadata_write_lock` opens `temp_path`, writes the bytes of its copy, syncs them and renames the
file, while everything else goes on. A run may end at any step. What it leaves behind is the
directory as it was at some moment up to then, and the content of the files that are synced.

The content that is being written is that of the copy whose daemon has the lock (`Inv.phase`), so
what the rename puts in place is what `MetadataFile` says (`Inv.current`).
-/

set_option autoImplicit false

namespace RaftLsmt.Lsmt

open RaftLsmt.Lib.FileReplace
open RaftLsmt.Lib.StepMachine
open RaftLsmt.Lib.TerminatedString
open FileNames (SstNames)
open FilesOnDisk (Files)

/-! ## The bytes of a copy -/

/-- An array of characters as it is written. -/
def charArray (n : Nat) (chars : List Char) : CharArray n where
  bytes := ((chars ++ List.replicate n nul).take n).map fun c => UInt8.ofNat c.toNat
  length_eq := by simp

/-- A record as it is written; `createdAt` is what `create_sst_metadata` read from the clock. -/
def SstMetadataRecord.onDisk (record : SstMetadataRecord) (names : SstNames) (createdAt : UInt64) :
    DiskRecord where
  sstableFilename := charArray 256 names.sstableFilename
  sstIndexFilename := charArray 256 names.sstIndexFilename
  id := UInt32.ofNat record.id
  level := UInt32.ofNat record.level
  createdAt := createdAt
  totalBytes := UInt64.ofNat record.totalBytes
  minKey := record.minKey
  maxKey := record.maxKey

/-- The arguments that `sst_metadata_write_records` gets with a copy. -/
def ListCopy.onDisk (clock : Nat → UInt64) (copy : ListCopy) : DiskMetadata where
  version := UInt8.ofNat copy.snapshot.version
  highestTier := UInt8.ofNat copy.snapshot.highestTier
  records := List.zipWith (fun record file => record.onDisk file.1 (clock file.2))
    copy.snapshot.records (copy.names.zip copy.addrs)

/-! ## The machine -/

namespace MetadataFile

/-- The copy that is to be written, by the daemon that has the lock and has not skipped or done it. -/
def due (s : MetadataFile) : Option ListCopy :=
  match s.writer with
  | some (d, false) =>
    match s.copied d with
    | some (generation, copy) =>
      if generation > s.life.world.lsmt.diskGeneration then some copy else none
    | none => none
  | _ => none

end MetadataFile

/-- The store and the disk with `.lsmt_metadata`. -/
structure CrashWorld where
  store : MetadataFile
  writer : Replacing CString UInt8

/-- A step of the store other than a write that is due, or one of `sst_metadata_write_records`. -/
inductive CrashAction where
  | store (act : MetadataAction)
  | start
  | push (count : Nat)
  | sync
  | commit

namespace CrashWorld

section

variable (clock : Nat → UInt64) (dir temp target : CString)

/-- `lsmt_init`, in a directory in which a file may have been left. -/
def init (disk : Disk CString UInt8) : CrashWorld where
  store := MetadataFile.init
  writer := Replacing.init target disk

/-- A step of the writer alone. -/
def writerStep (s : CrashWorld) (act : WriteAction UInt8) : Option CrashWorld :=
  (s.writer.step temp target act).map fun writer => { s with writer := writer }

def step (s : CrashWorld) : CrashAction → Option CrashWorld
  | .store .write =>
    -- the branch in which a later generation is on disk already
    if s.store.due.isSome then none
    else (s.store.step dir .write).map fun store => { s with store := store }
  | .store act => (s.store.step dir act).map fun store => { s with store := store }
  | .start =>
    match s.store.due with
    | none => none
    | some copy => s.writerStep temp target (.start (metadataBytes (copy.onDisk clock)))
  | .push count => s.writerStep temp target (.push count)
  | .sync => s.writerStep temp target .sync
  | .commit =>
    match s.writer.step temp target .commit, s.store.step dir .write with
    | some writer, some store => some { store := store, writer := writer }
    | _, _ => none

end

/-! ## What the store does to the copy that is due -/

end CrashWorld

namespace MetadataFile

variable {dir : CString} {s s' : MetadataFile}

theorem advance_same {act : LifeAction} {files : Files} :
    (s.advance act files).writer = s.writer ∧ (s.advance act files).file = s.file := by
  unfold advance
  split
  · exact ⟨rfl, rfl⟩
  · simp only
    split <;> exact ⟨rfl, rfl⟩

/-- A copy that a daemon is about to write stays the same until it does, and so does the generation
on record. -/
theorem copied_advance {act : LifeAction} {files : Files} (hwrites : s.writes act = false)
    (hstep : s.life.step act = some files.life) :
    files.life.world.lsmt.diskGeneration = s.life.world.lsmt.diskGeneration ∧
      ∀ d p, s.copied d = some p → (s.advance act files).copied d = some p := by
  by_cases hstore : ∃ a, act = .store a
  · obtain ⟨a, rfl⟩ := hstore
    obtain ⟨hworld, -⟩ := Lifetime.storeStep_world (Lifetime.step_store hstep)
    by_cases hcompact : ∃ faults, a = .compact faults
    · obtain ⟨faults, rfl⟩ := hcompact
      have hcompactStep := World.compactStep_of_step hworld
      have hflush := hcompactStep.sameFlush.flushPc
      cases hcompactStep.metadataStep with
      | same hfile hpc hpc' =>
        refine ⟨hfile.diskGeneration, fun d p h => ?_⟩
        unfold advance
        rw [if_pos hfile.generation]
        cases d with
        | flush =>
          simp only [MetadataFile.copied, MetadataFile.life, hflush]
          exact h
        | compaction =>
          simp only [MetadataFile.copied, MetadataFile.life, hpc] at h
          cases h
      | copies hpc _ hgeneration hdisk _ =>
        refine ⟨hdisk.1, fun d p h => ?_⟩
        unfold advance
        rw [if_neg (by omega)]
        cases d with
        | flush =>
          simp only [MetadataFile.copied, MetadataFile.life, hflush]
          exact h
        | compaction =>
          simp only [MetadataFile.copied, MetadataFile.life, hpc] at h
          cases h
      | writes hpc _ _ =>
        simp only [writes, MetadataFile.copied, MetadataFile.life, hpc, CompactPc.copied, Option.map_some,
          Option.isSome_some] at hwrites
        cases hwrites
    · have ha : ∀ faults, a ≠ .compact faults := fun faults heq => hcompact ⟨faults, heq⟩
      have hpc := (World.step_sameCompaction ha hworld).compactPc
      cases World.step_metadata ha hworld with
      | same _ hfile hcopied _ =>
        refine ⟨hfile.diskGeneration, fun d p h => ?_⟩
        unfold advance
        rw [if_pos hfile.generation]
        cases d with
        | flush =>
          simp only [MetadataFile.copied, MetadataFile.life, hcopied]
          exact h
        | compaction =>
          simp only [MetadataFile.copied, MetadataFile.life, hpc]
          exact h
      | registers hflush _ _ hgeneration hdisk _ =>
        refine ⟨hdisk.1, fun d p h => ?_⟩
        unfold advance
        rw [if_neg (by omega)]
        cases d with
        | flush =>
          simp only [MetadataFile.copied, MetadataFile.life, hflush] at h
          cases h
        | compaction =>
          simp only [MetadataFile.copied, MetadataFile.life, hpc]
          exact h
      | writes hflush _ _ =>
        simp only [writes, MetadataFile.copied, MetadataFile.life, hflush, FlushPc.copied, Option.map_some,
          Option.isSome_some] at hwrites
        cases hwrites
  · have hworld := (Lifetime.step_other (fun a heq => hstore ⟨a, heq⟩) hstep).1
    refine ⟨by rw [hworld], fun d p h => ?_⟩
    unfold advance
    rw [if_pos (by rw [hworld])]
    cases d with
    | flush =>
      simp only [MetadataFile.copied, MetadataFile.life, hworld]
      exact h
    | compaction =>
      simp only [MetadataFile.copied, MetadataFile.life, hworld]
      exact h

theorem due_eq_some {copy : ListCopy} (h : s.due = some copy) :
    ∃ d generation, s.writer = some (d, false) ∧ s.copied d = some (generation, copy) ∧
      generation > s.life.world.lsmt.diskGeneration := by
  unfold due at h
  split at h
  · rename_i d hwriter
    split at h
    · rename_i generation c hcopied
      split at h
      · rename_i hnewer
        cases h
        exact ⟨d, generation, hwriter, hcopied, hnewer⟩
      · cases h
    · cases h
  · cases h

theorem due_of {d : Daemon} {generation : Nat} {copy : ListCopy} (hwriter : s.writer = some (d, false))
    (hcopied : s.copied d = some (generation, copy))
    (hnewer : generation > s.life.world.lsmt.diskGeneration) : s.due = some copy := by
  unfold due
  rw [hwriter]
  simp only
  rw [hcopied]
  exact if_pos hnewer

/-- No step but the write itself touches the file or the copy that is due. -/
theorem step_due {act : MetadataAction} (hstep : s.step dir act = some s')
    (hskip : act = .write → s.due = none) :
    s'.file = s.file ∧ ∀ copy, s.due = some copy → s'.due = some copy := by
  unfold step at hstep
  cases act with
  | life act now =>
    simp only at hstep
    split at hstep
    · cases hstep
    · rename_i hwrites
      obtain ⟨files, hfiles, rfl⟩ := Option.map_eq_some_iff.mp hstep
      obtain ⟨hdisk, hcopied⟩ :=
        copied_advance (Bool.not_eq_true _ ▸ hwrites) (Files.step_life hfiles)
      refine ⟨advance_same.2, fun copy hdue => ?_⟩
      obtain ⟨d, generation, hwriter, hcopy, hnewer⟩ := due_eq_some hdue
      refine due_of (advance_same.1.trans hwriter) (hcopied d _ hcopy) ?_
      unfold life
      rw [advance_files, hdisk]
      exact hnewer
  | mergeFopen =>
    obtain ⟨files, hfiles, rfl⟩ := Option.map_eq_some_iff.mp hstep
    have hlife := (Files.step_mergeFopen hfiles).1
    refine ⟨rfl, fun copy hdue => ?_⟩
    obtain ⟨d, generation, hwriter, hcopy, hnewer⟩ := due_eq_some hdue
    have hcopied : ({ s with files := files } : MetadataFile).copied d = some (generation, copy) := by
      cases d with
      | flush =>
        simp only [MetadataFile.copied, MetadataFile.life, hlife]
        exact hcopy
      | compaction =>
        simp only [MetadataFile.copied, MetadataFile.life, hlife]
        exact hcopy
    refine due_of hwriter hcopied ?_
    unfold life
    rw [hlife]
    exact hnewer
  | lock d =>
    simp only at hstep
    split at hstep <;> cases hstep
    rename_i hfree
    refine ⟨rfl, fun copy hdue => ?_⟩
    obtain ⟨d', -, hwriter, -⟩ := due_eq_some hdue
    rw [hwriter] at hfree
    cases hfree.1
  | write =>
    simp only at hstep
    split at hstep
    · rename_i d hwriter
      split at hstep <;> cases hstep
      rename_i generation copy hcopied
      refine ⟨?_, fun c hdue => ?_⟩
      · -- a write that is not due is skipped
        by_cases hnewer : generation > s.life.world.lsmt.diskGeneration
        · have hdue := due_of hwriter hcopied hnewer
          rw [hskip rfl] at hdue
          cases hdue
        · exact if_neg hnewer
      · rw [hskip rfl] at hdue
        cases hdue
    · cases hstep
  | unlock =>
    simp only at hstep
    split at hstep
    · rename_i d hwriter
      obtain ⟨files, -, rfl⟩ := Option.map_eq_some_iff.mp hstep
      refine ⟨rfl, fun copy hdue => ?_⟩
      obtain ⟨d', -, hwriter', -⟩ := due_eq_some hdue
      rw [hwriter] at hwriter'
      cases hwriter'
    · cases hstep

/-- The write of the copy that is due. -/
theorem step_write_due {copy : ListCopy} (hdue : s.due = some copy) (hstep : s.step dir .write = some s') :
    s'.file = some copy := by
  obtain ⟨d, generation, hwriter, hcopied, hnewer⟩ := due_eq_some hdue
  unfold step at hstep
  simp only [hwriter, hcopied, if_pos hnewer] at hstep
  cases hstep
  rfl

end MetadataFile

/-! ## The invariant -/

namespace CrashWorld

/-- `old` is the content from before the run. -/
structure Inv (clock : Nat → UInt64) (temp target : CString) (old : Option Bytes)
    (s : CrashWorld) : Prop where
  store : s.store.Inv
  writer : s.writer.Inv temp target
  current : s.writer.current =
    (s.store.file.map fun copy => metadataBytes (copy.onDisk clock)).or old
  phase : ∀ content, s.writer.phase.content = some content →
    ∃ copy, s.store.due = some copy ∧ content = metadataBytes (copy.onDisk clock)

variable {clock : Nat → UInt64} {dir temp target : CString} {old : Option Bytes}
  {s s' : CrashWorld}

theorem inv_init {disk : Disk CString UInt8} (h : Replacing.Settled temp target disk) :
    (init target disk).Inv clock temp target (disk.read target) where
  store := MetadataFile.inv_init
  writer := Replacing.inv_init h
  current := (Replacing.inv_init h).read_eq.symm
  phase := nofun

namespace Inv

/-- The steps of the store. -/
theorem storeStep (hs : s.Inv clock temp target old) {act : MetadataAction} {store : MetadataFile}
    (hstep : s.store.step dir act = some store) (hskip : act = .write → s.store.due = none) :
    Inv clock temp target old { s with store := store } := by
  obtain ⟨hfile, hdue⟩ := MetadataFile.step_due hstep hskip
  refine ⟨hs.store.step hstep, hs.writer, ?_, fun content hcontent => ?_⟩
  · show s.writer.current = (store.file.map _).or old
    rw [hfile]
    exact hs.current
  · obtain ⟨copy, hcopy, heq⟩ := hs.phase content hcontent
    exact ⟨copy, hdue copy hcopy, heq⟩

/-- The steps of the writer in front of the rename. -/
theorem writerStep (hs : s.Inv clock temp target old) (hne : temp ≠ target)
    {act : WriteAction UInt8} (hstep : s.writerStep temp target act = some s')
    (hstart : ∀ content, act = .start content →
      ∃ copy, s.store.due = some copy ∧ content = metadataBytes (copy.onDisk clock))
    (hcommit : act ≠ .commit) : s'.Inv clock temp target old := by
  obtain ⟨writer, hwriter, rfl⟩ := Option.map_eq_some_iff.mp hstep
  have hcurrent : writer.committed = s.writer.committed ∧
      ∀ content, writer.phase.content = some content →
        ∃ copy, s.store.due = some copy ∧ content = metadataBytes (copy.onDisk clock) := by
    by_cases hact : ∃ content, act = .start content
    · obtain ⟨content, rfl⟩ := hact
      obtain ⟨-, hcontent, hcommitted⟩ := Replacing.step_start hwriter
      refine ⟨hcommitted, fun c hc => ?_⟩
      rw [hcontent] at hc
      cases hc
      exact hstart content rfl
    · obtain ⟨hcontent, hcommitted⟩ :=
        Replacing.step_between (fun c heq => hact ⟨c, heq⟩) hcommit hwriter
      refine ⟨hcommitted, fun c hc => ?_⟩
      rw [hcontent] at hc
      exact hs.phase c hc
  refine ⟨hs.store, hs.writer.step hne hwriter, ?_, hcurrent.2⟩
  show writer.current = _
  unfold Replacing.current
  rw [hcurrent.1]
  exact hs.current

/-- The rename. -/
theorem commit (hs : s.Inv clock temp target old) (hne : temp ≠ target)
    {writer : Replacing CString UInt8} {store : MetadataFile}
    (hwriter : s.writer.step temp target .commit = some writer)
    (hstore : s.store.step dir .write = some store) :
    Inv clock temp target old { store := store, writer := writer } := by
  obtain ⟨file, content, hcontent, hidle, hcommitted⟩ := Replacing.step_commit hwriter
  obtain ⟨copy, hdue, rfl⟩ := hs.phase content hcontent
  refine ⟨hs.store.step hstore, hs.writer.step hne hwriter, ?_, fun c hc => ?_⟩
  · show writer.current = (store.file.map _).or old
    unfold Replacing.current
    rw [MetadataFile.step_write_due hdue hstore, hcommitted, List.getLast?_concat]
    rfl
  · have hc : writer.phase.content = some c := hc
    rw [hidle] at hc
    cases hc

theorem step (hs : s.Inv clock temp target old) (hne : temp ≠ target) {act : CrashAction}
    (hstep : s.step clock dir temp target act = some s') : s'.Inv clock temp target old := by
  unfold CrashWorld.step at hstep
  split at hstep
  · split at hstep
    · cases hstep
    · rename_i hdue
      obtain ⟨store, hstore, rfl⟩ := Option.map_eq_some_iff.mp hstep
      rw [Bool.not_eq_true, Option.isSome_eq_false_iff, Option.isNone_iff_eq_none] at hdue
      exact hs.storeStep hstore fun _ => hdue
  · rename_i act hwrite
    obtain ⟨store, hstore, rfl⟩ := Option.map_eq_some_iff.mp hstep
    exact hs.storeStep hstore fun heq => absurd heq hwrite
  · split at hstep
    · cases hstep
    · rename_i copy hdue
      refine hs.writerStep hne hstep (fun content heq => ?_) nofun
      cases heq
      exact ⟨copy, hdue, rfl⟩
  · exact hs.writerStep hne hstep nofun nofun
  · exact hs.writerStep hne hstep nofun nofun
  · split at hstep
    · rename_i writer store hwriter hstore
      cases hstep
      exact hs.commit hne hwriter hstore
    · cases hstep

end Inv

/-- What has been put in place stays on record. -/
theorem step_committed {act : CrashAction} (hstep : s.step clock dir temp target act = some s') :
    s.writer.committed <+: s'.writer.committed := by
  have hwriterStep : ∀ act, s.writerStep temp target act = some s' →
      s.writer.committed <+: s'.writer.committed := by
    intro act h
    obtain ⟨writer, hwriter, rfl⟩ := Option.map_eq_some_iff.mp h
    exact Replacing.step_committed hwriter
  unfold CrashWorld.step at hstep
  split at hstep
  · split at hstep
    · cases hstep
    · obtain ⟨store, -, rfl⟩ := Option.map_eq_some_iff.mp hstep
      exact List.prefix_rfl
  · obtain ⟨store, -, rfl⟩ := Option.map_eq_some_iff.mp hstep
    exact List.prefix_rfl
  · split at hstep
    · cases hstep
    · exact hwriterStep _ hstep
  · exact hwriterStep _ hstep
  · exact hwriterStep _ hstep
  · split at hstep
    · rename_i writer store hwriter hstore
      cases hstep
      exact Replacing.step_committed hwriter
    · cases hstep

/-- What every run keeps. -/
theorem run_inv (hs : s.Inv clock temp target old) (hne : temp ≠ target) {as : List CrashAction}
    (hrun : Lib.StepMachine.run (step clock dir temp target) s as = some s') :
    s'.Inv clock temp target old :=
  run_invariant (fun _ _ _ (_ : True) hr hstep => hr.step hne hstep) (fun _ _ => trivial) hs hrun

theorem run_committed {as : List CrashAction}
    (hrun : Lib.StepMachine.run (step clock dir temp target) s as = some s') :
    s.writer.committed <+: s'.writer.committed := by
  have hkept := run_invariant (P := fun r : CrashWorld => s.writer.committed <+: r.writer.committed)
    (fun r a r' (_ : True) (hr : s.writer.committed <+: r.writer.committed) hstep =>
      hr.trans (step_committed (show r.step clock dir temp target a = some r' from hstep)))
    (fun _ _ => trivial) List.prefix_rfl hrun
  exact hkept

/-! ### The files of the SSTs -/

/-- The names that a step draws are good. -/
def NamesOk (clock : Nat → UInt64) (dir temp target : CString) (s : CrashWorld) (act : CrashAction) :
    Prop :=
  ∀ s', s.step clock dir temp target act = some s' → GoodNames dir s.store.files s'.store.files

/-- A step of the store, or one of the writer alone. -/
theorem step_store {act : CrashAction} (hstep : s.step clock dir temp target act = some s') :
    (∃ act, s.store.step dir act = some s'.store) ∨ s'.store = s.store := by
  have hwriterStep : ∀ act, s.writerStep temp target act = some s' → s'.store = s.store := by
    intro act h
    obtain ⟨writer, -, rfl⟩ := Option.map_eq_some_iff.mp h
    rfl
  unfold CrashWorld.step at hstep
  split at hstep
  · split at hstep
    · cases hstep
    · obtain ⟨store, hstore, rfl⟩ := Option.map_eq_some_iff.mp hstep
      exact Or.inl ⟨_, hstore⟩
  · obtain ⟨store, hstore, rfl⟩ := Option.map_eq_some_iff.mp hstep
    exact Or.inl ⟨_, hstore⟩
  · split at hstep
    · cases hstep
    · exact Or.inr (hwriterStep _ hstep)
  · exact Or.inr (hwriterStep _ hstep)
  · exact Or.inr (hwriterStep _ hstep)
  · split at hstep
    · rename_i writer store hwriter hstore
      cases hstep
      exact Or.inl ⟨_, hstore⟩
    · cases hstep

theorem step_files {act : CrashAction} (hstep : s.step clock dir temp target act = some s') :
    (∃ act, s.store.files.step dir act = some s'.store.files) ∨ s'.store.files = s.store.files := by
  rcases step_store hstep with ⟨storeAct, hstore⟩ | hsame
  · exact MetadataFile.step_files hstore
  · exact Or.inr (congrArg MetadataFile.files hsame)

/-- The steps of the store on the way of a run. -/
theorem store_run {as : List CrashAction}
    (hrun : Lib.StepMachine.run (step clock dir temp target) s as = some s') :
    ∃ bs, Lib.StepMachine.run (MetadataFile.step dir) s.store bs = some s'.store := by
  refine run_invariant (P := fun t : CrashWorld => ∃ bs, Lib.StepMachine.run (MetadataFile.step dir)
    s.store bs = some t.store) (fun _ _ _ (_ : True) ht hstep => ?_) (fun _ _ => trivial) ⟨[], rfl⟩ hrun
  obtain ⟨bs, hbs⟩ := ht
  rcases step_store hstep with ⟨act, hstore⟩ | hsame
  · exact ⟨bs ++ [act], run_append_eq_some.mpr ⟨_, hbs, run_cons_eq_some.mpr ⟨_, hstore, rfl⟩⟩⟩
  · exact ⟨bs, hsame ▸ hbs⟩

theorem filesOk_of_run (hs : FilesOk dir s.store.files) {as : List CrashAction}
    (hrun : Lib.StepMachine.run (step clock dir temp target) s as = some s')
    (hnames : EachStep (step clock dir temp target) (NamesOk clock dir temp target) s as) :
    FilesOk dir s'.store.files := by
  have halways : Always (step clock dir temp target) (fun t => FilesOk dir t.store.files) s as :=
    always_of_eachStep hs fun pre act post t has ht t' hok hstep =>
      hok.step (hnames pre act post t has ht t' hstep) (step_files hstep)
  exact halways as [] s' (List.append_nil as).symm hrun

theorem namesOk_of_nodup (hdir : dir.length ≤ 90) {disk : Disk CString UInt8} {as : List CrashAction}
    (hrun : Lib.StepMachine.run (step clock dir temp target) (init target disk) as = some s)
    (hnodup : s.store.files.drawn.Nodup) :
    EachStep (step clock dir temp target) (NamesOk clock dir temp target) (init target disk) as := by
  intro pre act post t has ht t' hstep
  obtain ⟨bs, hbs⟩ := store_run ht
  obtain ⟨fs, hfs⟩ := MetadataFile.files_run hbs
  obtain ⟨cs, hcs⟩ := store_run (run_after hrun has ht hstep)
  obtain ⟨gs, hgs⟩ := MetadataFile.files_run hcs
  refine FilesOk.goodNames_of_nodup hdir hfs (step_files hstep) ?_
  exact hnodup.sublist (Files.drawn_grows hgs).sublist

end CrashWorld

/-- In every run of the daemons and the query threads, which a power failure ends at any step and
which it takes back, as to the directory, to any moment: `.lsmt_metadata` is what it was before the
run when no copy was in its place at that moment, and otherwise it is, byte for byte, the copy of one
generation, not older than the one on record. Both files of every SST it names were there at that
moment when every name drawn until then fitted its record and belonged to no SST in use. -/
theorem metadata_survives {clock : Nat → UInt64} {path : CString} (hpath : path.length ≠ 240)
    {disk after : Disk CString UInt8} {as bs : List CrashAction} {t s : CrashWorld}
    (hsettled : Replacing.Settled (tempPath (diskPath path)) (diskPath path) disk)
    (hbefore : run (CrashWorld.step clock path (tempPath (diskPath path)) (diskPath path))
      (CrashWorld.init (diskPath path) disk) as = some t)
    (hrun : run (CrashWorld.step clock path (tempPath (diskPath path)) (diskPath path)) t bs = some s)
    (hfail : Disk.PowerFailure s.writer.disk t.writer.disk after) :
    (t.store.file = none → after.read (diskPath path) = disk.read (diskPath path)) ∧
    ∀ copy, t.store.file = some copy →
      after.read (diskPath path) = some (metadataBytes (copy.onDisk clock)) ∧
      (∃ generation, t.store.life.world.lsmt.diskGeneration ≤ generation ∧
        copyAt t.store.history generation = some copy) ∧
      (EachStep (CrashWorld.step clock path (tempPath (diskPath path)) (diskPath path))
          (CrashWorld.NamesOk clock path (tempPath (diskPath path)) (diskPath path))
          (CrashWorld.init (diskPath path) disk) as →
        ∀ names ∈ copy.names, FilesExist t.store.files.disk names) := by
  have hne := (tempPath_ne_iff path).mpr hpath
  have hinit : CrashWorld.Inv clock (tempPath (diskPath path)) (diskPath path)
      (disk.read (diskPath path)) (CrashWorld.init (diskPath path) disk) :=
    CrashWorld.inv_init hsettled
  have ht := CrashWorld.run_inv hinit hne hbefore
  have hs := CrashWorld.run_inv ht hne hrun
  have hread : after.read (diskPath path) = t.writer.current :=
    Replacing.read_of_powerFailure hs.writer ht.writer (CrashWorld.run_committed hrun) hfail
  refine ⟨fun hnone => ?_, fun copy hcopy => ?_⟩
  · rw [hread, ht.current, hnone]
    rfl
  · have hat : copyAt t.store.history t.store.fileGeneration = some copy :=
      ht.store.file.symm.trans hcopy
    refine ⟨?_, ⟨_, MetadataFile.Inv.disk_le_fileGeneration t.store, hat⟩, fun hnames => ?_⟩
    · rw [hread, ht.current, hcopy]
      rfl
    · obtain ⟨cs, hcs⟩ := CrashWorld.store_run hbefore
      exact MetadataFile.filesExist ht.store (MetadataFile.recorded_of_run hcs)
        (CrashWorld.filesOk_of_run FilesOk.init hbefore hnames) hcopy

/-- The steps of one flush up to the rename. -/
def oneFlush : List CrashAction :=
  ([LifeAction.store (.insert ⟨1, 0⟩ (encodeData 1 [7])), .store .flush, .store (.flushCall 0),
    .store (.flushCall 0)] ++ List.replicate 4 (LifeAction.store .flushDaemon)).map
      (fun act => .store (.life act 1700000000000)) ++
    [.store (.lock .flush), .start, .push 1000, .sync, .commit]

/-- One flush with its write, and a power failure behind it. -/
theorem metadata_survives_one :
    ∃ (path : CString) (t s : CrashWorld) (copy : ListCopy) (after : Disk CString UInt8),
      run (CrashWorld.step (fun _ => 1700000000000) path (tempPath (diskPath path)) (diskPath path))
        (CrashWorld.init (diskPath path) emptyDisk) oneFlush = some t ∧
      run (CrashWorld.step (fun _ => 1700000000000) path (tempPath (diskPath path)) (diskPath path)) t
        [.store .unlock] = some s ∧
      Disk.PowerFailure s.writer.disk t.writer.disk after ∧
      t.store.file = some copy ∧ copy.names.length = 1 ∧
      after.read (diskPath path) = some (metadataBytes (copy.onDisk fun _ => 1700000000000)) ∧
      ∀ names ∈ copy.names, FilesExist t.store.files.disk names := by
  let path : CString := ⟨['d'], by decide⟩
  let clock : Nat → UInt64 := fun _ => 1700000000000
  have hone : ((run (CrashWorld.step clock path (tempPath (diskPath path)) (diskPath path))
      (CrashWorld.init (diskPath path) emptyDisk) oneFlush).bind fun t =>
        (run (CrashWorld.step clock path (tempPath (diskPath path)) (diskPath path)) t
          [.store .unlock]).bind fun _ => t.store.file.map fun copy =>
            (copy.names.length, t.store.files.drawn.length)) = some (1, 1) := by
    decide +kernel
  obtain ⟨t, hbefore, hone⟩ := Option.bind_eq_some_iff.mp hone
  obtain ⟨s, hafter, hone⟩ := Option.bind_eq_some_iff.mp hone
  obtain ⟨copy, hcopy, hone⟩ := Option.map_eq_some_iff.mp hone
  obtain ⟨hlength, hdrawn⟩ := Prod.mk.inj hone
  have hsettled : Replacing.Settled (tempPath (diskPath path)) (diskPath path) emptyDisk :=
    ⟨nofun, nofun, nofun⟩
  have hfail : Disk.PowerFailure s.writer.disk t.writer.disk
      { s.writer.disk with dir := t.writer.disk.dir } := ⟨rfl, fun _ _ => rfl⟩
  -- one name has been drawn
  have hnodup : t.store.files.drawn.Nodup := by
    obtain ⟨stamp, hstamp⟩ := List.length_eq_one_iff.mp hdrawn
    rw [hstamp]
    exact List.nodup_singleton stamp
  obtain ⟨hread, -, hexist⟩ :=
    (metadata_survives (by decide) hsettled hbefore hafter hfail).2 copy hcopy
  exact ⟨path, t, s, copy, _, hbefore, hafter, hfail, hcopy, hlength, hread,
    hexist (CrashWorld.namesOk_of_nodup (by decide) hbefore hnodup)⟩

end RaftLsmt.Lsmt
