import RaftLsmt.Lsmt.Store

/-!
# The steps of the store, read backwards

`World.step` says what the thread that is chosen does next. Each relation of this module lists what
such a step can have been, with the branch conditions it was taken under and the state it leads to,
and the theorem behind it (`flushDaemonStep_cases`, `compactStep_cases`, `World.step_cases`) inverts
the step function once. What a step keeps is then proved by cases on the relation, one case for each
branch of the code, without looking into the step functions again.

The last section states what the steps of one thread leave alone of the others.
-/

set_option autoImplicit false

namespace RaftLsmt.Lsmt

/-! ## The functions of the steps -/

theorem lsmtRotate_cases (lsmt : LsmtState) :
    lsmtRotate lsmt = (lsmt, false) ∨
    ∃ threads needSpawn, sizeThreshold < lsmt.memtable.size ∧
      lsmtRotate lsmt =
        ({ registerImmutable lsmt with activeBackgroundThreads := threads }, needSpawn) := by
  rw [lsmtRotate]
  split
  · rename_i hsize
    refine Or.inr ?_
    simp only
    split
    · exact ⟨1, true, hsize, rfl⟩
    · exact ⟨_, false, hsize, rfl⟩
  · exact Or.inl rfl

/-- A call of `lsmt_insert` works on the active memtable or, behind a rotation, on an empty one. -/
theorem lsmtRotate_memtable (lsmt : LsmtState) :
    (lsmtRotate lsmt).1.memtable = lsmt.memtable ∨
      ∃ addr, (lsmtRotate lsmt).1.memtable = slInit addr := by
  rcases lsmtRotate_cases lsmt with hrot | ⟨threads, needSpawn, -, hrot⟩
  · exact Or.inl (by rw [hrot])
  · exact Or.inr ⟨lsmt.nextAddr, by rw [hrot]; rfl⟩

theorem writeMetadata_same (lsmt : LsmtState) (generation : Nat) (snapshot : MetadataSnapshot) :
    (writeMetadata lsmt generation snapshot).memtable = lsmt.memtable ∧
      (writeMetadata lsmt generation snapshot).immutables = lsmt.immutables ∧
      (writeMetadata lsmt generation snapshot).metadata = lsmt.metadata := by
  rw [writeMetadata]
  split <;> exact ⟨rfl, rfl, rfl⟩

/-! ## The flush daemon -/

/-- A step of `flush_daemon`. -/
inductive World.FlushDaemonStep (w : World) : World → Prop where
  | wake (hpc : w.flushPc = .waiting) (hneeded : w.lsmt.flushNeeded = true) :
      World.FlushDaemonStep w { w with
        lsmt := { w.lsmt with flushNeeded := false }
        flushPc := .draining }
  | idle (hpc : w.flushPc = .draining) (himm : w.lsmt.immutables = []) :
      World.FlushDaemonStep w { w with
        lsmt := { w.lsmt with activeBackgroundThreads := 0 }
        flushPc := .waiting }
  | drain (memtable : Sl) (rest : List Sl) (hpc : w.flushPc = .draining)
      (himm : w.lsmt.immutables = memtable :: rest) :
      World.FlushDaemonStep w { w with
        lsmt := { w.lsmt with flushActive := true }
        flushPc := .writing memtable }
  | writeError (memtable : Sl) (hpc : w.flushPc = .writing memtable)
      (hdisk : memtableToDisk memtable = .writeError) :
      World.FlushDaemonStep w { w with flushPc := .unregistering memtable false }
  | written (memtable : Sl) (sst : SstMetadataRecord) (hpc : w.flushPc = .writing memtable)
      (hdisk : memtableToDisk memtable = .written sst) :
      World.FlushDaemonStep w { w with flushPc := .registering memtable sst }
  | overrun (memtable : Sl) (hpc : w.flushPc = .writing memtable)
      (hdisk : memtableToDisk memtable = .undefined) :
      World.FlushDaemonStep w { w with status := .undefined }
  | refused (memtable : Sl) (sst : SstMetadataRecord) (hpc : w.flushPc = .registering memtable sst)
      (hadd : sstMetadataAdd w.lsmt.metadata { sst with id := w.lsmt.sstableId } = none) :
      World.FlushDaemonStep w { w with status := .undefined }
  | register (memtable : Sl) (sst : SstMetadataRecord) (metadata : SstMetadata)
      (hpc : w.flushPc = .registering memtable sst)
      (hadd : sstMetadataAdd w.lsmt.metadata { sst with id := w.lsmt.sstableId } = some metadata) :
      World.FlushDaemonStep w { w with
        lsmt := { w.lsmt with
          metadata := metadata
          sstableId := (w.lsmt.sstableId + 1) % 2 ^ 32
          metadataGeneration := w.lsmt.metadataGeneration + 1 }
        flushPc := .writingMetadata memtable (w.lsmt.metadataGeneration + 1)
          (sstMetadataCopyRecords metadata)
        flushed := w.flushed ++ [{ sst with id := w.lsmt.sstableId }] }
  | writeFile (memtable : Sl) (generation : Nat) (snapshot : MetadataSnapshot)
      (hpc : w.flushPc = .writingMetadata memtable generation snapshot) :
      World.FlushDaemonStep w { w with
        lsmt := writeMetadata w.lsmt generation snapshot
        flushPc := .unregistering memtable true }
  | unregister (memtable : Sl) (registered : Bool)
      (hpc : w.flushPc = .unregistering memtable registered) :
      World.FlushDaemonStep w { w with
        lsmt := unregisterImmutableMemtable w.lsmt memtable
        flushPc := if registered then .signalling else .draining }
  | signal (hpc : w.flushPc = .signalling) :
      World.FlushDaemonStep w { w with
        lsmt := { w.lsmt with compactionNeeded := true }
        flushPc := .draining }

theorem flushDaemonStep_cases {w w' : World} (h : flushDaemonStep w = some w') :
    w.FlushDaemonStep w' := by
  unfold flushDaemonStep at h
  split at h
  · rename_i hpc
    split at h <;> cases h
    rename_i hneeded
    exact .wake hpc hneeded
  · rename_i hpc
    split at h <;> cases h
    · rename_i himm
      exact .idle hpc himm
    · rename_i memtable rest himm
      exact .drain memtable rest hpc himm
  · rename_i memtable hpc
    split at h <;> cases h
    · rename_i hdisk
      exact .writeError memtable hpc hdisk
    · rename_i sst hdisk
      exact .written memtable sst hpc hdisk
    · rename_i hdisk
      exact .overrun memtable hpc hdisk
  · rename_i memtable sst hpc
    unfold flushRegister at h
    cases hadd : sstMetadataAdd w.lsmt.metadata { sst with id := w.lsmt.sstableId } with
    | none =>
      rw [hadd] at h
      cases h
      exact .refused memtable sst hpc hadd
    | some metadata =>
      rw [hadd] at h
      cases h
      exact .register memtable sst metadata hpc hadd
  · rename_i memtable generation snapshot hpc
    cases h
    exact .writeFile memtable generation snapshot hpc
  · rename_i memtable registered hpc
    cases h
    exact .unregister memtable registered hpc
  · rename_i hpc
    cases h
    exact .signal hpc

/-! ## The compaction -/

/-- A step of `compaction_daemon` and `sst_compact`. -/
inductive World.CompactStep (w : World) (faults : List IoFaults) : World → Prop where
  | wake (hpc : w.compactPc = .waiting) (hneeded : w.lsmt.compactionNeeded = true) :
      World.CompactStep w faults { w with
        lsmt := { w.lsmt with compactionNeeded := false }
        compactPc := .starting }
  | start (hpc : w.compactPc = .starting) :
      World.CompactStep w faults { w with
        compactPc := .scanning ⟨0, w.lsmt.metadata.highestTier, [], false⟩ }
  | scan (pass : CompactPass) (w' : World) (hpc : w.compactPc = .scanning pass)
      (hscan : compactScan w pass = w') :
      World.CompactStep w faults w'
  | merge (pass : CompactPass) (inputs : List SstMetadataRecord)
      (hpc : w.compactPc = .mergeWait pass inputs)
      (hflush : ¬ (w.lsmt.flushActive = true ∨ w.lsmt.immutables ≠ [])) :
      World.CompactStep w faults { w with compactPc := .merging pass inputs }
  | mergeStops (pass : CompactPass) (inputs : List SstMetadataRecord)
      (hpc : w.compactPc = .merging pass inputs) (hlen : faults.length = inputs.length)
      (hmerge : sstMerge (inputs.zip faults) = none) :
      World.CompactStep w faults { w with status := .exited }
  | merged (pass : CompactPass) (inputs : List SstMetadataRecord) (newSst : SstMetadataRecord)
      (hpc : w.compactPc = .merging pass inputs) (hlen : faults.length = inputs.length)
      (hmerge : sstMerge (inputs.zip faults) = some newSst) :
      World.CompactStep w faults { w with compactPc := .adding pass inputs newSst }
  | refused (pass : CompactPass) (inputs : List SstMetadataRecord) (newSst : SstMetadataRecord)
      (hpc : w.compactPc = .adding pass inputs newSst)
      (hadd : sstMetadataAdd w.lsmt.metadata newSst = none) :
      World.CompactStep w faults { w with status := .undefined }
  | add (pass : CompactPass) (inputs : List SstMetadataRecord) (newSst : SstMetadataRecord)
      (metadata : SstMetadata) (hpc : w.compactPc = .adding pass inputs newSst)
      (hadd : sstMetadataAdd w.lsmt.metadata newSst = some metadata) :
      World.CompactStep w faults { w with
        lsmt := { w.lsmt with metadata := metadata }
        compactPc := .scanning ⟨pass.tier + 1, pass.highestTier,
          (holdForDeletion pass.sstToDelete inputs).1, true⟩
        retired := w.retired ++ (holdForDeletion pass.sstToDelete inputs).2 }
  | copyList (sstToDelete : List SstMetadataRecord) (hpc : w.compactPc = .snapshotting sstToDelete) :
      World.CompactStep w faults { w with
        lsmt := { w.lsmt with metadataGeneration := w.lsmt.metadataGeneration + 1 }
        compactPc := .writingMetadata (w.lsmt.metadataGeneration + 1)
          (sstMetadataCopyRecords w.lsmt.metadata) sstToDelete }
  | writeFile (generation : Nat) (snapshot : MetadataSnapshot) (sstToDelete : List SstMetadataRecord)
      (hpc : w.compactPc = .writingMetadata generation snapshot sstToDelete) :
      World.CompactStep w faults { w with
        lsmt := writeMetadata w.lsmt generation snapshot
        compactPc := .deleting sstToDelete }
  | release (sstToDelete : List SstMetadataRecord) (hpc : w.compactPc = .deleting sstToDelete) :
      World.CompactStep w faults { w with
        compactPc := .waiting
        retired := w.retired ++ sstToDelete }
  | quit (inputs : List SstMetadataRecord) (hpc : w.compactPc = .quitting inputs) :
      World.CompactStep w faults { w with status := .exited }

theorem compactStep_cases {w w' : World} {faults : List IoFaults}
    (h : compactStep w faults = some w') : w.CompactStep faults w' := by
  unfold compactStep at h
  split at h
  · rename_i hpc
    split at h <;> cases h
    rename_i hneeded
    exact .wake hpc hneeded
  · rename_i hpc
    cases h
    exact .start hpc
  · rename_i pass hpc
    cases h
    exact .scan pass _ hpc rfl
  · rename_i pass inputs hpc
    split at h <;> cases h
    rename_i hflush
    exact .merge pass inputs hpc hflush
  · rename_i pass inputs hpc
    split at h
    · rename_i hlen
      split at h <;> cases h
      · rename_i hmerge
        exact .mergeStops pass inputs hpc hlen hmerge
      · rename_i newSst hmerge
        exact .merged pass inputs newSst hpc hlen hmerge
    · cases h
  · rename_i pass inputs newSst hpc
    split at h <;> cases h
    · rename_i hadd
      exact .refused pass inputs newSst hpc hadd
    · rename_i metadata hadd
      exact .add pass inputs newSst metadata hpc hadd
  · rename_i sstToDelete hpc
    cases h
    exact .copyList sstToDelete hpc
  · rename_i generation snapshot sstToDelete hpc
    cases h
    exact .writeFile generation snapshot sstToDelete hpc
  · rename_i sstToDelete hpc
    cases h
    exact .release sstToDelete hpc
  · rename_i inputs hpc
    cases h
    exact .quit inputs hpc

/-- One tier: the pass is over, the tier is above its threshold, or it is not. -/
inductive World.Scans (w : World) (pass : CompactPass) : World → Prop where
  | finish (htier : pass.tier > pass.highestTier) :
      World.Scans w pass { w with
        compactPc := if pass.mustFlush then .snapshotting pass.sstToDelete else .waiting }
  | select (popped : List SstMetadataRecord × SstMetadata) (htier : pass.tier ≤ pass.highestTier)
      (hsize : w.lsmt.metadata.tierSize pass.tier > tierSizeThreshold pass.tier)
      (hpopped : popped = sstPopInputs pass.tier
        (w.lsmt.metadata.tierSize pass.tier - tierSizeThreshold pass.tier)
        sstableMergeLimit w.lsmt.metadata []) :
      World.Scans w pass { w with
        lsmt := { w.lsmt with metadata := popped.2 }
        compactPc := if popped.1.length < 2 then .quitting popped.1 else .mergeWait pass popped.1 }
  | skip (htier : pass.tier ≤ pass.highestTier)
      (hsize : w.lsmt.metadata.tierSize pass.tier ≤ tierSizeThreshold pass.tier) :
      World.Scans w pass { w with compactPc := .scanning { pass with tier := pass.tier + 1 } }

theorem compactScan_cases {w w' : World} {pass : CompactPass} (h : compactScan w pass = w') :
    w.Scans pass w' := by
  subst h
  unfold compactScan
  split
  · rename_i htier
    exact .finish htier
  · rename_i htier
    simp only
    split
    · rename_i hsize
      exact .select _ (Nat.le_of_not_lt htier) hsize rfl
    · rename_i hsize
      exact .skip (Nat.le_of_not_lt htier) (Nat.le_of_not_lt hsize)

/-! ## All threads -/

/-- A step of one thread. -/
inductive World.Step (w : World) : Action → World → Prop where
  | insert (key : SlUint128) (content : Bytes) (hwaits : ¬ lsmtInsertWaits w.lsmt = true)
      (call : InsertCall) (hcall : call = ⟨key, content, (lsmtInsertLocked w.lsmt key content).1,
        (lsmtInsertLocked w.lsmt key content).2.1⟩) :
      World.Step w (.insert key content) { w with
        lsmt := (lsmtInsertLocked w.lsmt key content).2.2
        inserting := w.inserting ++ [call]
        inserted := w.inserted ++ [call] }
  | insertSignal (i : Nat) (call : InsertCall) (hget : w.inserting[i]? = some call)
      (hspawn : call.needSpawn = true) :
      World.Step w (.insertCall i) { w with
        lsmt := { w.lsmt with flushNeeded := true }
        inserting := w.inserting.set i { call with needSpawn := false } }
  | insertReturn (i : Nat) (call : InsertCall) (hget : w.inserting[i]? = some call)
      (hspawn : ¬ call.needSpawn = true) :
      World.Step w (.insertCall i) { w with
        inserting := w.inserting.eraseIdx i
        returned := w.returned ++ [call] }
  | flushOverflow (hfull : w.lsmt.immutables.length ≥ maxImmutables) :
      World.Step w .flush { w with status := .undefined }
  | flush (hroom : ¬ w.lsmt.immutables.length ≥ maxImmutables) :
      World.Step w .flush { w with
        lsmt := registerImmutable w.lsmt
        flushing := w.flushing ++ [.spawn] }
  | flushSpawn (i : Nat) (hget : w.flushing[i]? = some .spawn) :
      World.Step w (.flushCall i) { w with
        lsmt := { w.lsmt with
          activeBackgroundThreads :=
            if w.lsmt.activeBackgroundThreads = 0 then 1 else w.lsmt.activeBackgroundThreads }
        flushing := w.flushing.set i .signal }
  | flushSignal (i : Nat) (hget : w.flushing[i]? = some .signal) :
      World.Step w (.flushCall i) { w with
        lsmt := { w.lsmt with flushNeeded := true }
        flushing := w.flushing.set i .wait }
  | flushReturn (i : Nat) (hget : w.flushing[i]? = some .wait)
      (hidle : ¬ w.lsmt.activeBackgroundThreads > 0) :
      World.Step w (.flushCall i) { w with flushing := w.flushing.eraseIdx i }
  | flushDaemon (w' : World) (hstep : w.FlushDaemonStep w') : World.Step w .flushDaemon w'
  | compact (faults : List IoFaults) (w' : World) (hstep : w.CompactStep faults w') :
      World.Step w (.compact faults) w'

theorem insertStep_cases {w w' : World} {key : SlUint128} {content : Bytes}
    (h : insertStep w key content = some w') : w.Step (.insert key content) w' := by
  unfold insertStep at h
  split at h <;> cases h
  rename_i hwaits
  exact .insert key content hwaits _ rfl

theorem insertCallStep_cases {w w' : World} {i : Nat} (h : insertCallStep w i = some w') :
    w.Step (.insertCall i) w' := by
  unfold insertCallStep at h
  split at h
  · cases h
  · rename_i call hget
    split at h <;> cases h
    · rename_i hspawn
      exact .insertSignal i call hget hspawn
    · rename_i hspawn
      exact .insertReturn i call hget hspawn

theorem flushStep_cases {w w' : World} (h : flushStep w = some w') : w.Step .flush w' := by
  unfold flushStep at h
  split at h <;> cases h
  · rename_i hfull
    exact .flushOverflow hfull
  · rename_i hroom
    exact .flush hroom

theorem flushCallStep_cases {w w' : World} {i : Nat} (h : flushCallStep w i = some w') :
    w.Step (.flushCall i) w' := by
  unfold flushCallStep at h
  split at h
  · cases h
  · rename_i hget
    cases h
    exact .flushSpawn i hget
  · rename_i hget
    cases h
    exact .flushSignal i hget
  · rename_i hget
    split at h <;> cases h
    rename_i hidle
    exact .flushReturn i hget hidle

/-- Only a running process takes steps, and these. -/
theorem World.step_cases {w w' : World} {a : Action} (h : w.step a = some w') :
    w.status = .running ∧ w.Step a w' := by
  unfold World.step at h
  split at h
  · cases h
  · rename_i hrunning
    refine ⟨not_not.mp hrunning, ?_⟩
    cases a with
    | insert key content => exact insertStep_cases h
    | insertCall i => exact insertCallStep_cases h
    | flush => exact flushStep_cases h
    | flushCall i => exact flushCallStep_cases h
    | flushDaemon => exact .flushDaemon w' (flushDaemonStep_cases h)
    | compact faults => exact .compact faults w' (compactStep_cases h)

theorem World.flushDaemonStep_of_step {w w' : World} (h : w.step .flushDaemon = some w') :
    w.FlushDaemonStep w' := by
  cases (World.step_cases h).2 with
  | flushDaemon _ hdaemon => exact hdaemon

theorem World.compactStep_of_step {w w' : World} {faults : List IoFaults}
    (h : w.step (.compact faults) = some w') : w.CompactStep faults w' := by
  cases (World.step_cases h).2 with
  | compact _ _ hcompact => exact hcompact

/-! ## What the steps of one thread leave alone -/

/-- The step belongs to no call of `lsmt_insert`. -/
structure World.SameCalls (w w' : World) : Prop where
  inserting : w'.inserting = w.inserting
  inserted : w'.inserted = w.inserted
  returned : w'.returned = w.returned

/-- The step is none of the compaction. -/
structure World.SameCompaction (w w' : World) : Prop where
  compactPc : w'.compactPc = w.compactPc
  retired : w'.retired = w.retired

/-- What the compaction leaves alone. -/
structure World.SameFlush (w w' : World) : Prop where
  memtable : w'.lsmt.memtable = w.lsmt.memtable
  immutables : w'.lsmt.immutables = w.lsmt.immutables
  threads : w'.lsmt.activeBackgroundThreads = w.lsmt.activeBackgroundThreads
  flushNeeded : w'.lsmt.flushNeeded = w.lsmt.flushNeeded
  flushPc : w'.flushPc = w.flushPc
  inserting : w'.inserting = w.inserting
  flushing : w'.flushing = w.flushing
  inserted : w'.inserted = w.inserted
  flushed : w'.flushed = w.flushed

section Frames

variable {w w' : World} {faults : List IoFaults}

theorem World.FlushDaemonStep.sameCalls (h : w.FlushDaemonStep w') : w.SameCalls w' := by
  cases h <;> exact ⟨rfl, rfl, rfl⟩

theorem World.FlushDaemonStep.sameCompaction (h : w.FlushDaemonStep w') : w.SameCompaction w' := by
  cases h <;> exact ⟨rfl, rfl⟩

theorem World.Scans.sameCalls {pass : CompactPass} (h : w.Scans pass w') : w.SameCalls w' := by
  cases h <;> exact ⟨rfl, rfl, rfl⟩

theorem World.Scans.sameFlush {pass : CompactPass} (h : w.Scans pass w') : w.SameFlush w' := by
  cases h <;> exact ⟨rfl, rfl, rfl, rfl, rfl, rfl, rfl, rfl, rfl⟩

theorem World.CompactStep.sameCalls (h : w.CompactStep faults w') : w.SameCalls w' := by
  cases h with
  | scan pass _ hpc hscan => exact (compactScan_cases hscan).sameCalls
  | _ => exact ⟨rfl, rfl, rfl⟩

theorem World.CompactStep.sameFlush (h : w.CompactStep faults w') : w.SameFlush w' := by
  cases h with
  | scan pass _ hpc hscan => exact (compactScan_cases hscan).sameFlush
  | writeFile generation snapshot sstToDelete hpc =>
    unfold writeMetadata
    split <;> exact ⟨rfl, rfl, rfl, rfl, rfl, rfl, rfl, rfl, rfl⟩
  | _ => exact ⟨rfl, rfl, rfl, rfl, rfl, rfl, rfl, rfl, rfl⟩

/-- Only the compaction moves its program counter and releases tables. -/
theorem World.step_sameCompaction {a : Action} (ha : ∀ faults, a ≠ .compact faults)
    (hstep : w.step a = some w') : w.SameCompaction w' := by
  cases (World.step_cases hstep).2 with
  | flushDaemon _ hstep => exact hstep.sameCompaction
  | compact faults => exact absurd rfl (ha faults)
  | _ => exact ⟨rfl, rfl⟩

/-- Only the flush daemon moves its program counter and registers what it has flushed. -/
theorem World.step_sameFlushPc {a : Action} (ha : a ≠ .flushDaemon) (hstep : w.step a = some w') :
    w'.flushPc = w.flushPc ∧ w'.flushed = w.flushed := by
  cases (World.step_cases hstep).2 with
  | flushDaemon => exact absurd rfl ha
  | compact faults _ hcompact => exact ⟨hcompact.sameFlush.flushPc, hcompact.sameFlush.flushed⟩
  | _ => exact ⟨rfl, rfl⟩

end Frames

end RaftLsmt.Lsmt
