import RaftLsmt.Lsmt.KIterators
import RaftLsmt.Lsmt.Memtable
import RaftLsmt.Lsmt.Metadata

/-!
# The store and its threads

`LsmtState` is the data of `lsmt_t` and `World` is a store together with the threads that work on it: any
number of calls of `lsmt_insert` and `lsmt_flush`, the flush daemon and the compaction daemon. Each
thread is a program counter, and one `Action` takes one thread from one point where it holds no lock
to the next, so `World.step` interleaves the threads exactly at the points where the locks allow it.

File writes succeed here, since each failing one exits the process. The file reads of a merge fail
as the action says. `exit(1)` and accesses outside an array or a buffer end the run with the
corresponding `Status`.

The last fields of `World` are history: the insertions in the order in which they took the lock, the
calls that have returned, the SSTs the flush daemon has registered, and the SSTs that were marked
old and released.
-/

set_option autoImplicit false

namespace RaftLsmt.Lsmt

open RaftLsmt.Lib.StepMachine

/-- `SIZE_THRESHOLD`. -/
def sizeThreshold : Nat := 16 * 1024 * 1024

/-- `MAX_IMMUTABLES`. -/
def maxImmutables : Nat := 32

/-- `ZERO_LEVEL_MAX_SIZE`. -/
def zeroLevelMaxSize : Nat := 4 * 16 * 1024 * 1024

/-- `SSTABLE_MERGE_LIMIT`. -/
def sstableMergeLimit : Nat := 4

/-- The capacity of `sst_to_delete`. -/
def deleteBufferSize : Nat := 256

/-- `lsmt_t`. `nextAddr` is the address the next memtable gets and `diskMetadata` the content of the
metadata file. -/
structure LsmtState where
  metadata : SstMetadata
  memtable : Sl
  immutables : List Sl
  sstableId : Nat
  metadataGeneration : Nat
  diskGeneration : Nat
  flushActive : Bool
  activeBackgroundThreads : Nat
  compactionNeeded : Bool
  flushNeeded : Bool
  nextAddr : Nat
  diskMetadata : Option MetadataSnapshot

/-- `lsmt_init`. -/
def lsmtInit : LsmtState where
  metadata := sstMetadataInit
  memtable := slInit 0
  immutables := []
  sstableId := 0
  metadataGeneration := 0
  diskGeneration := 0
  flushActive := false
  activeBackgroundThreads := 0
  compactionNeeded := false
  flushNeeded := false
  nextAddr := 1
  diskMetadata := none

/-- The full memtable moves to the end of `immutables`; a new one takes its place. -/
def registerImmutable (lsmt : LsmtState) : LsmtState :=
  { lsmt with
    immutables := lsmt.immutables ++ [lsmt.memtable]
    memtable := slInit lsmt.nextAddr
    nextAddr := lsmt.nextAddr + 1 }

/-- The condition of the wait loop of `lsmt_insert`. -/
def lsmtInsertWaits (lsmt : LsmtState) : Bool :=
  lsmt.memtable.size > sizeThreshold ∧ lsmt.immutables.length ≥ maxImmutables

/-- `lsmt_insert` before its `sl_insert`: rotate a full memtable. The flag is `need_spawn`. -/
def lsmtRotate (lsmt : LsmtState) : LsmtState × Bool :=
  if lsmt.memtable.size > sizeThreshold then
    let lsmt := registerImmutable lsmt
    if lsmt.activeBackgroundThreads = 0 then ({ lsmt with activeBackgroundThreads := 1 }, true)
    else (lsmt, false)
  else (lsmt, false)

/-- `lsmt_insert` from the acquired write lock to its release: the return value, `need_spawn` and
the store. -/
def lsmtInsertLocked (lsmt : LsmtState) (key : SlUint128) (content : Bytes) : Int × Bool × LsmtState :=
  let (lsmt, needSpawn) := lsmtRotate lsmt
  let (memtable, rv) := slInsert lsmt.memtable key content
  (rv, needSpawn, { lsmt with memtable := memtable })

/-- `unregister_immutable_memtable`. -/
def unregisterImmutableMemtable (lsmt : LsmtState) (memtable : Sl) : LsmtState :=
  { lsmt with
    immutables := lsmt.immutables.eraseP fun m => m.addr = memtable.addr
    flushActive := false }

/-- The section of the flush daemon under `metadata_lock`. -/
def flushRegister (lsmt : LsmtState) (sst : SstMetadataRecord) : Option (LsmtState × MetadataSnapshot) :=
  match sstMetadataAdd lsmt.metadata { sst with id := lsmt.sstableId } with
  | none => none
  | some metadata =>
    some ({ lsmt with
      metadata := metadata
      sstableId := (lsmt.sstableId + 1) % 2 ^ 32
      metadataGeneration := lsmt.metadataGeneration + 1 }, sstMetadataCopyRecords metadata)

/-- The section under `metadata_write_lock`, the same in both daemons. -/
def writeMetadata (lsmt : LsmtState) (generation : Nat) (snapshot : MetadataSnapshot) : LsmtState :=
  if generation > lsmt.diskGeneration then
    { lsmt with diskMetadata := some snapshot, diskGeneration := generation }
  else lsmt

/-- `sst_merge`; `none` when the process stops. -/
def sstMerge (inputs : List (SstMetadataRecord × IoFaults)) : Option SstMetadataRecord :=
  match inputs.head? with
  | none => none
  | some (first, _) =>
    (sstKIteratorsScan inputs SlUint128.zero SlUint128.max).map
      (writeSst first.id (first.level + 1))

/-- `tier_size_threshold`. -/
def tierSizeThreshold (tier : Nat) : Nat := zeroLevelMaxSize * 10 ^ tier

/-- The selection loop of `sst_compact`, with `fuel` more turns. -/
def sstPopInputs (tier sizeDelta : Nat) :
    Nat → SstMetadata → List SstMetadataRecord → List SstMetadataRecord × SstMetadata
  | 0, m, records => (records, m)
  | fuel + 1, m, records =>
    if 2 ≤ records.length ∧ (records.map SstMetadataRecord.totalBytes).sum > sizeDelta then
      (records, m)
    else if sstCount m tier = 0 then (records, m)
    else
      match sstMetadataPop m tier with
      | none => (records, m)
      | some (record, m) => sstPopInputs tier sizeDelta fuel m (records ++ [record])

/-! ## Program counters -/

/-- A call of `lsmt_insert` behind its critical section. -/
structure InsertCall where
  key : SlUint128
  content : Bytes
  rv : Int
  needSpawn : Bool

/-- A call of `lsmt_flush` behind its rotation: about to count itself as a background thread, about
to signal the daemon, or waiting. -/
inductive FlushCall where
  | spawn
  | signal
  | wait

/-- `flush_daemon`: waiting for the signal; about to look at `immutables[0]`; with a memtable to
write; with an SST to register; with a snapshot to write; about to unregister the memtable, with or
without an SST; about to signal the compaction. -/
inductive FlushPc where
  | waiting
  | draining
  | writing (memtable : Sl)
  | registering (memtable : Sl) (sst : SstMetadataRecord)
  | writingMetadata (memtable : Sl) (generation : Nat) (snapshot : MetadataSnapshot)
  | unregistering (memtable : Sl) (registered : Bool)
  | signalling

/-- The variables of `sst_compact` that live across tiers. -/
structure CompactPass where
  tier : Nat
  highestTier : Nat
  sstToDelete : List SstMetadataRecord
  mustFlush : Bool

/-- `compaction_daemon` and `sst_compact`: waiting for the signal; about to read `highest_tier`;
about to examine a tier; waiting in `sst_merge` for the flush daemon; merging; with an output to
register; about to copy the list; with a snapshot to write; about to release the inputs; about to
exit with fewer than two inputs. -/
inductive CompactPc where
  | waiting
  | starting
  | scanning (pass : CompactPass)
  | mergeWait (pass : CompactPass) (inputs : List SstMetadataRecord)
  | merging (pass : CompactPass) (inputs : List SstMetadataRecord)
  | adding (pass : CompactPass) (inputs : List SstMetadataRecord) (newSst : SstMetadataRecord)
  | snapshotting (sstToDelete : List SstMetadataRecord)
  | writingMetadata (generation : Nat) (snapshot : MetadataSnapshot)
      (sstToDelete : List SstMetadataRecord)
  | deleting (sstToDelete : List SstMetadataRecord)
  | quitting (inputs : List SstMetadataRecord)

/-- Whether the process goes on: it may have called `exit(1)` or left defined behaviour. -/
inductive Status where
  | running
  | exited
  | undefined
  deriving DecidableEq

/-- A store and its threads. -/
structure World where
  lsmt : LsmtState
  inserting : List InsertCall
  flushing : List FlushCall
  flushPc : FlushPc
  compactPc : CompactPc
  status : Status
  inserted : List InsertCall
  returned : List InsertCall
  flushed : List SstMetadataRecord
  retired : List SstMetadataRecord

/-- A store with both daemons waiting and no call in progress. -/
def World.init (lsmt : LsmtState) : World where
  lsmt := lsmt
  inserting := []
  flushing := []
  flushPc := .waiting
  compactPc := .waiting
  status := .running
  inserted := []
  returned := []
  flushed := []
  retired := []

/-- What the threads do next. -/
inductive Action where
  | insert (key : SlUint128) (content : Bytes)
  | insertCall (i : Nat)
  | flush
  | flushCall (i : Nat)
  | flushDaemon
  | compact (faults : List IoFaults)

/-! ## The steps -/

/-- A new call of `lsmt_insert` that does not have to wait runs its critical section. -/
def insertStep (w : World) (key : SlUint128) (content : Bytes) : Option World :=
  if lsmtInsertWaits w.lsmt then none
  else
    let (rv, needSpawn, lsmt) := lsmtInsertLocked w.lsmt key content
    let call : InsertCall := ⟨key, content, rv, needSpawn⟩
    some { w with
      lsmt := lsmt
      inserting := w.inserting ++ [call]
      inserted := w.inserted ++ [call] }

/-- The rest of `lsmt_insert`: signal the flush daemon when needed, then return. -/
def insertCallStep (w : World) (i : Nat) : Option World :=
  match w.inserting[i]? with
  | none => none
  | some call =>
    if call.needSpawn then
      some { w with
        lsmt := { w.lsmt with flushNeeded := true }
        inserting := w.inserting.set i { call with needSpawn := false } }
    else
      some { w with
        inserting := w.inserting.eraseIdx i
        returned := w.returned ++ [call] }

/-- A new call of `lsmt_flush` rotates the memtable. With a full array it writes behind it. -/
def flushStep (w : World) : Option World :=
  if w.lsmt.immutables.length ≥ maxImmutables then some { w with status := .undefined }
  else
    some { w with
      lsmt := registerImmutable w.lsmt
      flushing := w.flushing ++ [.spawn] }

/-- The rest of `lsmt_flush`. -/
def flushCallStep (w : World) (i : Nat) : Option World :=
  match w.flushing[i]? with
  | none => none
  | some .spawn =>
    some { w with
      lsmt := { w.lsmt with
        activeBackgroundThreads :=
          if w.lsmt.activeBackgroundThreads = 0 then 1 else w.lsmt.activeBackgroundThreads }
      flushing := w.flushing.set i .signal }
  | some .signal =>
    some { w with
      lsmt := { w.lsmt with flushNeeded := true }
      flushing := w.flushing.set i .wait }
  | some .wait =>
    if w.lsmt.activeBackgroundThreads > 0 then none
    else some { w with flushing := w.flushing.eraseIdx i }

/-- `flush_daemon`. -/
def flushDaemonStep (w : World) : Option World :=
  match w.flushPc with
  | .waiting =>
    if w.lsmt.flushNeeded then
      some { w with lsmt := { w.lsmt with flushNeeded := false }, flushPc := .draining }
    else none
  | .draining =>
    match w.lsmt.immutables with
    | [] =>
      some { w with lsmt := { w.lsmt with activeBackgroundThreads := 0 }, flushPc := .waiting }
    | memtable :: _ =>
      some { w with lsmt := { w.lsmt with flushActive := true }, flushPc := .writing memtable }
  | .writing memtable =>
    match memtableToDisk memtable with
    | .writeError => some { w with flushPc := .unregistering memtable false }
    | .written sst => some { w with flushPc := .registering memtable sst }
    | .undefined => some { w with status := .undefined }
  | .registering memtable sst =>
    match flushRegister w.lsmt sst with
    | none => some { w with status := .undefined }
    | some (lsmt, snapshot) =>
      some { w with
        lsmt := lsmt
        flushPc := .writingMetadata memtable lsmt.metadataGeneration snapshot
        flushed := w.flushed ++ [{ sst with id := w.lsmt.sstableId }] }
  | .writingMetadata memtable generation snapshot =>
    some { w with
      lsmt := writeMetadata w.lsmt generation snapshot
      flushPc := .unregistering memtable true }
  | .unregistering memtable registered =>
    some { w with
      lsmt := unregisterImmutableMemtable w.lsmt memtable
      flushPc := if registered then .signalling else .draining }
  | .signalling =>
    some { w with lsmt := { w.lsmt with compactionNeeded := true }, flushPc := .draining }

/-- The merged inputs go into `sst_to_delete`; those that no longer fit are released at once. -/
def holdForDeletion (sstToDelete inputs : List SstMetadataRecord) :
    List SstMetadataRecord × List SstMetadataRecord :=
  let room := deleteBufferSize - sstToDelete.length
  (sstToDelete ++ inputs.take room, inputs.drop room)

/-- One tier of `sst_compact`, up to the release of the lock. -/
def compactScan (w : World) (pass : CompactPass) : World :=
  if pass.tier > pass.highestTier then
    { w with compactPc := if pass.mustFlush then .snapshotting pass.sstToDelete else .waiting }
  else
    let tierSize := w.lsmt.metadata.tierSize pass.tier
    let threshold := tierSizeThreshold pass.tier
    if tierSize > threshold then
      let (inputs, metadata) :=
        sstPopInputs pass.tier (tierSize - threshold) sstableMergeLimit w.lsmt.metadata []
      { w with
        lsmt := { w.lsmt with metadata := metadata }
        compactPc := if inputs.length < 2 then .quitting inputs else .mergeWait pass inputs }
    else { w with compactPc := .scanning { pass with tier := pass.tier + 1 } }

/-- `compaction_daemon` and `sst_compact`; `faults` are those of the merge inputs. -/
def compactStep (w : World) (faults : List IoFaults) : Option World :=
  match w.compactPc with
  | .waiting =>
    if w.lsmt.compactionNeeded then
      some { w with lsmt := { w.lsmt with compactionNeeded := false }, compactPc := .starting }
    else none
  | .starting =>
    some { w with compactPc := .scanning ⟨0, w.lsmt.metadata.highestTier, [], false⟩ }
  | .scanning pass => some (compactScan w pass)
  | .mergeWait pass inputs =>
    if w.lsmt.flushActive ∨ w.lsmt.immutables ≠ [] then none
    else some { w with compactPc := .merging pass inputs }
  | .merging pass inputs =>
    if faults.length = inputs.length then
      match sstMerge (inputs.zip faults) with
      | none => some { w with status := .exited }
      | some newSst => some { w with compactPc := .adding pass inputs newSst }
    else none
  | .adding pass inputs newSst =>
    match sstMetadataAdd w.lsmt.metadata newSst with
    | none => some { w with status := .undefined }
    | some metadata =>
      let (sstToDelete, released) := holdForDeletion pass.sstToDelete inputs
      some { w with
        lsmt := { w.lsmt with metadata := metadata }
        compactPc := .scanning ⟨pass.tier + 1, pass.highestTier, sstToDelete, true⟩
        retired := w.retired ++ released }
  | .snapshotting sstToDelete =>
    some { w with
      lsmt := { w.lsmt with metadataGeneration := w.lsmt.metadataGeneration + 1 }
      compactPc := .writingMetadata (w.lsmt.metadataGeneration + 1)
        (sstMetadataCopyRecords w.lsmt.metadata) sstToDelete }
  | .writingMetadata generation snapshot sstToDelete =>
    some { w with
      lsmt := writeMetadata w.lsmt generation snapshot
      compactPc := .deleting sstToDelete }
  | .deleting sstToDelete =>
    some { w with compactPc := .waiting, retired := w.retired ++ sstToDelete }
  | .quitting _ => some { w with status := .exited }

/-- One step of one thread. -/
def World.step (w : World) (a : Action) : Option World :=
  if w.status ≠ .running then none
  else
    match a with
    | .insert key content => insertStep w key content
    | .insertCall i => insertCallStep w i
    | .flush => flushStep w
    | .flushCall i => flushCallStep w i
    | .flushDaemon => flushDaemonStep w
    | .compact faults => compactStep w faults

end RaftLsmt.Lsmt
