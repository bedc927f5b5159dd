import RaftLsmt.Lsmt.StoreSteps

/-!
# The storage events of the server

The flush daemon and the compaction daemon report what they did to callbacks of the server, which keep
the events in a buffer under `storage_events_mutex`. The statistics timer appends the buffer to the
events file, and `ServerClose` does so once more before it closes the file, destroys the mutex and has
the tree flush its memtable.

`EventServer` is the store of `Lsmt.World` with its daemons, the callbacks and the main thread.
`storage_events_kept` says that the events are kept and the mutex is used while it is there in every run
in which the last flush of `ServerClose` meets a tree that has nothing left to report (`Silent`), and
that what it takes is that no callback comes behind that flush. `not_storage_events_kept` is the shutdown
of a server with one record in its memtable.
-/

set_option autoImplicit false

namespace RaftLsmt.Server

open RaftLsmt.Lsmt
open RaftLsmt.Lib.StepMachine

/-! ## The events -/

/-- `storage_event_t`. -/
inductive StorageEvent where
  | compaction (timestamp durationMs : UInt64) (quantityMergedTables : UInt32)
      (inputBytes outputBytes : UInt64) (level : UInt8)
  | memtableFlush (timestamp durationMs bytesFlushed : UInt64)
  deriving DecidableEq

/-- `STORAGE_EVENT_BUFFER_SIZE`. -/
def storageEventBufferSize : Nat := 8192

/-- The first line of the events file. -/
def storageEventsHeader : String :=
  "event_type,timestamp,duration_ms" ++ ",quantity_merged_tables,input_bytes,output_bytes,level" ++
    ",bytes_flushed\n"

/-- The line of an event. -/
def StorageEvent.line : StorageEvent → String
  | .compaction timestamp durationMs quantity inputBytes outputBytes level =>
    String.intercalate "," ["compaction", toString timestamp, toString durationMs,
      toString quantity, toString inputBytes, toString outputBytes, toString level, "0\n"]
  | .memtableFlush timestamp durationMs bytesFlushed =>
    String.intercalate "," ["memtable_flush", toString timestamp, toString durationMs,
      "0", "0", "0", "0", toString bytesFlushed ++ "\n"]

/-- The main thread: in the event loop; in `ServerClose`, about to flush the events, to close their
file, to destroy the mutex, to call `lsmt_flush`, or inside of it; behind `ServerClose`. -/
inductive MainPc where
  | serving
  | flushingEvents
  | closingFile
  | destroyingMutex
  | flushingDb
  | waitingForDb
  | closed
  deriving DecidableEq

/-- The events of the server have been flushed for the last time. -/
def MainPc.pastFlush : MainPc → Bool
  | .serving => false
  | .flushingEvents => false
  | _ => true

/-- The server, its tree and its threads. `flushReporting` and `compactReporting` say that a daemon is
about to call back, `file` that the events file is open, and `mutex` that the mutex is there; `lines` is
the content of the file. `fault` is set by a lock of a mutex that is not there. `reported` is history:
the events of all callbacks, and whether the buffer was full. -/
structure EventServer where
  db : World
  main : MainPc
  flushReporting : Bool
  compactReporting : Bool
  file : Bool
  lines : List String
  buffer : List StorageEvent
  mutex : Bool
  fault : Bool
  reported : List (StorageEvent × Bool)

namespace EventServer

/-- `ServerInit`: the events file has its header, and the callbacks are set. -/
def init (lsmt : LsmtState) : EventServer where
  db := World.init lsmt
  main := .serving
  flushReporting := false
  compactReporting := false
  file := true
  lines := [storageEventsHeader]
  buffer := []
  mutex := true
  fault := false
  reported := []

/-- What both callbacks do with their event. -/
def report (s : EventServer) (event : StorageEvent) : EventServer :=
  if s.mutex = false then { s with fault := true }
  else if s.buffer.length < storageEventBufferSize then
    { s with buffer := s.buffer ++ [event], reported := s.reported ++ [(event, false)] }
  else { s with reported := s.reported ++ [(event, true)] }

/-- `on_compaction_event`. -/
def onCompactionEvent (s : EventServer) (ts durationMs : UInt64) (quantityMergedTables : UInt32)
    (inputBytes outputBytes : UInt64) (level : UInt8) : EventServer :=
  s.report (.compaction ts durationMs quantityMergedTables inputBytes outputBytes level)

/-- `on_memtable_flush_event`. -/
def onMemtableFlushEvent (s : EventServer) (ts durationMs bytesFlushed : UInt64) : EventServer :=
  s.report (.memtableFlush ts durationMs bytesFlushed)

/-- `storage_events_flush`. -/
def storageEventsFlush (s : EventServer) : EventServer :=
  if s.file = false then s
  else if s.mutex = false then { s with fault := true }
  else { s with lines := s.lines ++ s.buffer.map StorageEvent.line, buffer := [] }

/-- The next step of `ServerClose`. The sockets and clients it closes in front of `lsmt_flush` do not
matter here. -/
def serverCloseStep (s : EventServer) : Option EventServer :=
  match s.main with
  | .serving => none
  | .flushingEvents =>
    if s.file then some { s.storageEventsFlush with main := .closingFile }
    else some { s with main := .flushingDb }
  | .closingFile => some { s with file := false, main := .destroyingMutex }
  | .destroyingMutex => some { s with mutex := false, main := .flushingDb }
  | .flushingDb => (s.db.step .flush).map fun db => { s with db := db, main := .waitingForDb }
  | .waitingForDb =>
    (s.db.step (.flushCall 0)).map fun db =>
      { s with db := db, main := if db.flushing.isEmpty then .closed else .waitingForDb }
  | .closed => none

/-- What the threads do next: the main thread applies a record, continues that insertion, runs the
statistics timer, begins `ServerClose` or goes on with it; a daemon of the tree works or calls back. -/
inductive Action where
  | insert (key : SlUint128) (content : Bytes)
  | insertCall
  | statsTimer
  | serverClose
  | close
  | flushDaemon
  | compactionDaemon (faults : List IoFaults)
  | memtableFlushEvent (ts durationMs bytesFlushed : UInt64)
  | compactionEvent (ts durationMs : UInt64) (quantityMergedTables : UInt32)
      (inputBytes outputBytes : UInt64) (level : UInt8)

/-- The event loop is at a callback that is not inside `lsmt_insert`. -/
def Serves (s : EventServer) : Prop := s.main = .serving ∧ s.db.inserting.isEmpty = true

instance (s : EventServer) : Decidable s.Serves := inferInstanceAs (Decidable (_ ∧ _))

/-- The flush daemon has registered an SST and is about to signal the compaction. -/
def isSignalling : FlushPc → Bool
  | .signalling => true
  | _ => false

/-- The compaction daemon has merged and is about to release its inputs. -/
def isDeleting : CompactPc → Bool
  | .deleting _ => true
  | _ => false

/-- One step of one thread. The callback of the flush daemon follows its signal to the compaction, that
of the compaction daemon the release of the inputs. -/
def step (s : EventServer) (a : Action) : Option EventServer :=
  if s.fault then none
  else
    match a with
    | .insert key content =>
      if s.Serves then (s.db.step (.insert key content)).map fun db => { s with db := db } else none
    | .insertCall =>
      if s.main = .serving then (s.db.step (.insertCall 0)).map fun db => { s with db := db }
      else none
    | .statsTimer => if s.Serves then some s.storageEventsFlush else none
    | .serverClose => if s.Serves then some { s with main := .flushingEvents } else none
    | .close => s.serverCloseStep
    | .flushDaemon =>
      if s.flushReporting then none
      else
        (s.db.step .flushDaemon).map fun db =>
          { s with db := db, flushReporting := isSignalling s.db.flushPc }
    | .compactionDaemon faults =>
      if s.compactReporting then none
      else
        (s.db.step (.compact faults)).map fun db =>
          { s with db := db, compactReporting := isDeleting s.db.compactPc }
    | .memtableFlushEvent ts durationMs bytesFlushed =>
      if s.flushReporting then
        some ({ s with flushReporting := false }.onMemtableFlushEvent ts durationMs bytesFlushed)
      else none
    | .compactionEvent ts durationMs quantity inputBytes outputBytes level =>
      if s.compactReporting then
        some ({ s with compactReporting := false }.onCompactionEvent ts durationMs quantity
          inputBytes outputBytes level)
      else none

/-- The reported events for which there was room. -/
def accepted (s : EventServer) : List StorageEvent :=
  (s.reported.filter fun r => r.2 = false).map Prod.fst

/-- No callback has met a mutex that was gone. The events for which there was room are in the file or,
until the last flush, in the buffer. -/
structure Kept (s : EventServer) : Prop where
  mutex_held : s.fault = false
  written : s.lines ++ s.buffer.map StorageEvent.line =
    storageEventsHeader :: s.accepted.map StorageEvent.line
  flushed : s.main.pastFlush = true → s.buffer = []

/-! ### What a step does -/

/-- What `ServerClose` does next, by the place where the main thread is. -/
inductive CloseStep (s : EventServer) : EventServer → Prop where
  | flushEvents (hmain : s.main = .flushingEvents) (hfile : s.file = true) :
    CloseStep s { s.storageEventsFlush with main := .closingFile }
  | noEvents (hmain : s.main = .flushingEvents) (hfile : s.file = false) :
    CloseStep s { s with main := .flushingDb }
  | closeFile (hmain : s.main = .closingFile) :
    CloseStep s { s with file := false, main := .destroyingMutex }
  | destroyMutex (hmain : s.main = .destroyingMutex) :
    CloseStep s { s with mutex := false, main := .flushingDb }
  | flushDb (db : World) (hmain : s.main = .flushingDb) (hdb : s.db.step .flush = some db) :
    CloseStep s { s with db := db, main := .waitingForDb }
  | waitForDb (db : World) (hmain : s.main = .waitingForDb)
    (hdb : s.db.step (.flushCall 0) = some db) :
    CloseStep s { s with db := db, main := if db.flushing.isEmpty then .closed else .waitingForDb }

theorem serverCloseStep_cases {s t : EventServer} (h : s.serverCloseStep = some t) :
    s.CloseStep t := by
  unfold serverCloseStep at h
  split at h
  · cases h
  · rename_i hmain
    split at h
    · rename_i hfile
      cases h
      exact .flushEvents hmain hfile
    · rename_i hfile
      cases h
      exact .noEvents hmain (by simpa using hfile)
  · rename_i hmain
    cases h
    exact .closeFile hmain
  · rename_i hmain
    cases h
    exact .destroyMutex hmain
  · rename_i hmain
    obtain ⟨db, hdb, rfl⟩ := Option.map_eq_some_iff.mp h
    exact .flushDb db hmain hdb
  · rename_i hmain
    obtain ⟨db, hdb, rfl⟩ := Option.map_eq_some_iff.mp h
    exact .waitForDb db hmain hdb
  · cases h

/-- What one thread does next. -/
inductive Step (s : EventServer) : Action → EventServer → Prop where
  | insert (key : SlUint128) (content : Bytes) (db : World) (hserves : s.Serves)
    (hdb : s.db.step (.insert key content) = some db) :
    Step s (.insert key content) { s with db := db }
  | insertCall (db : World) (hmain : s.main = .serving)
    (hdb : s.db.step (.insertCall 0) = some db) :
    Step s .insertCall { s with db := db }
  | statsTimer (hserves : s.Serves) : Step s .statsTimer s.storageEventsFlush
  | serverClose (hserves : s.Serves) : Step s .serverClose { s with main := .flushingEvents }
  | close (t : EventServer) (hclose : s.CloseStep t) : Step s .close t
  | flushDaemon (db : World) (hreporting : s.flushReporting = false)
    (hdb : s.db.step .flushDaemon = some db) :
    Step s .flushDaemon { s with db := db, flushReporting := isSignalling s.db.flushPc }
  | compactionDaemon (faults : List IoFaults) (db : World) (hreporting : s.compactReporting = false)
    (hdb : s.db.step (.compact faults) = some db) :
    Step s (.compactionDaemon faults)
      { s with db := db, compactReporting := isDeleting s.db.compactPc }
  | memtableFlushEvent (ts durationMs bytesFlushed : UInt64) (hreporting : s.flushReporting = true) :
    Step s (.memtableFlushEvent ts durationMs bytesFlushed)
      ({ s with flushReporting := false }.onMemtableFlushEvent ts durationMs bytesFlushed)
  | compactionEvent (ts durationMs : UInt64) (quantity : UInt32) (inputBytes outputBytes : UInt64)
    (level : UInt8) (hreporting : s.compactReporting = true) :
    Step s (.compactionEvent ts durationMs quantity inputBytes outputBytes level)
      ({ s with compactReporting := false }.onCompactionEvent ts durationMs quantity inputBytes
        outputBytes level)

theorem step_cases {s t : EventServer} {a : Action} (h : s.step a = some t) : s.Step a t := by
  unfold step at h
  split at h
  · cases h
  · cases a with
    | insert key content =>
      obtain ⟨hserves, h⟩ := Option.ite_none_right_eq_some.mp h
      obtain ⟨db, hdb, rfl⟩ := Option.map_eq_some_iff.mp h
      exact .insert key content db hserves hdb
    | insertCall =>
      obtain ⟨hmain, h⟩ := Option.ite_none_right_eq_some.mp h
      obtain ⟨db, hdb, rfl⟩ := Option.map_eq_some_iff.mp h
      exact .insertCall db hmain hdb
    | statsTimer =>
      obtain ⟨hserves, h⟩ := Option.ite_none_right_eq_some.mp h
      cases h
      exact .statsTimer hserves
    | serverClose =>
      obtain ⟨hserves, h⟩ := Option.ite_none_right_eq_some.mp h
      cases h
      exact .serverClose hserves
    | close => exact .close t (serverCloseStep_cases h)
    | flushDaemon =>
      obtain ⟨hreporting, h⟩ := Option.ite_none_left_eq_some.mp h
      obtain ⟨db, hdb, rfl⟩ := Option.map_eq_some_iff.mp h
      exact .flushDaemon db (by simpa using hreporting) hdb
    | compactionDaemon faults =>
      obtain ⟨hreporting, h⟩ := Option.ite_none_left_eq_some.mp h
      obtain ⟨db, hdb, rfl⟩ := Option.map_eq_some_iff.mp h
      exact .compactionDaemon faults db (by simpa using hreporting) hdb
    | memtableFlushEvent ts durationMs bytesFlushed =>
      obtain ⟨hreporting, h⟩ := Option.ite_none_right_eq_some.mp h
      cases h
      exact .memtableFlushEvent ts durationMs bytesFlushed hreporting
    | compactionEvent ts durationMs quantity inputBytes outputBytes level =>
      obtain ⟨hreporting, h⟩ := Option.ite_none_right_eq_some.mp h
      cases h
      exact .compactionEvent ts durationMs quantity inputBytes outputBytes level hreporting

end EventServer

/-! ## A silent tree -/

/-- The flush daemon is not on its way from an SST to its callback. -/
def FlushSilent : FlushPc → Prop
  | .waiting => True
  | .draining => True
  | .writing memtable => memtable.bottomLevel = []
  | .unregistering _ registered => registered = false
  | _ => False

/-- The compaction daemon is not on its way from the inputs of a merge to its callback. -/
def CompactSilent : CompactPc → Prop
  | .waiting => True
  | .starting => True
  | .scanning pass => pass.mustFlush = false
  | .quitting _ => True
  | _ => False

/-- The compaction daemon is going to look at the tier. -/
def WillScan (w : World) (tier : Nat) : Prop :=
  match w.compactPc with
  | .starting => tier ≤ w.lsmt.metadata.highestTier
  | .scanning pass =>
    (w.lsmt.compactionNeeded = true ∧ tier ≤ w.lsmt.metadata.highestTier) ∨
      (pass.tier ≤ tier ∧ tier ≤ pass.highestTier)
  | .quitting _ => False
  | _ => w.lsmt.compactionNeeded = true ∧ tier ≤ w.lsmt.metadata.highestTier

/-- A look at the tier finds the inputs of a merge. -/
def Compacts (metadata : SstMetadata) (tier : Nat) : Prop :=
  metadata.tierSize tier > tierSizeThreshold tier ∧
    2 ≤ (sstPopInputs tier (metadata.tierSize tier - tierSizeThreshold tier) sstableMergeLimit
      metadata []).1.length

instance (metadata : SstMetadata) (tier : Nat) : Decidable (Compacts metadata tier) :=
  inferInstanceAs (Decidable (_ ∧ _))

/-- The tree has no event left to report: no record outside of the SSTs, no tier to compact, and no
daemon behind such work. -/
structure Silent (w : World) : Prop where
  memtable : w.lsmt.memtable.bottomLevel = []
  immutables : ∀ m ∈ w.lsmt.immutables, m.bottomLevel = []
  flushPc : FlushSilent w.flushPc
  compactPc : CompactSilent w.compactPc
  tiers : ∀ tier, WillScan w tier → ¬ Compacts w.lsmt.metadata tier

namespace Silent

variable {w w' : World}

/-- `lsmt_flush` of an empty memtable. -/
theorem flushStep (h : Silent w) (hstep : w.step .flush = some w') : Silent w' := by
  cases (World.step_cases hstep).2 with
  | flushOverflow hfull => exact ⟨h.memtable, h.immutables, h.flushPc, h.compactPc, h.tiers⟩
  | flush hroom =>
    refine ⟨rfl, ?_, h.flushPc, h.compactPc, h.tiers⟩
    intro m hm
    rcases List.mem_append.mp hm with hm | hm
    · exact h.immutables m hm
    · rw [List.mem_singleton.mp hm]
      exact h.memtable

theorem flushCallStep (h : Silent w) {i : Nat} (hstep : w.step (.flushCall i) = some w') :
    Silent w' := by
  cases (World.step_cases hstep).2 <;>
    exact ⟨h.memtable, h.immutables, h.flushPc, h.compactPc, h.tiers⟩

/-- The flush daemon writes no SST for an empty memtable, so it does not come to its callback. -/
theorem flushDaemonStep (h : Silent w) (hstep : w.FlushDaemonStep w') :
    Silent w' ∧ EventServer.isSignalling w.flushPc = false := by
  have hsilent := h.flushPc
  cases hstep with
  | wake hpc =>
    exact ⟨⟨h.memtable, h.immutables, trivial, h.compactPc, h.tiers⟩, by rw [hpc]; rfl⟩
  | idle hpc =>
    exact ⟨⟨h.memtable, h.immutables, trivial, h.compactPc, h.tiers⟩, by rw [hpc]; rfl⟩
  | drain memtable rest hpc himm =>
    have hempty : memtable.bottomLevel = [] := by
      apply h.immutables
      rw [himm]
      exact List.mem_cons_self
    exact ⟨⟨h.memtable, h.immutables, hempty, h.compactPc, h.tiers⟩, by rw [hpc]; rfl⟩
  | writeError memtable hpc =>
    exact ⟨⟨h.memtable, h.immutables, rfl, h.compactPc, h.tiers⟩, by rw [hpc]; rfl⟩
  | written memtable sst hpc hdisk =>
    rw [hpc] at hsilent
    have herror : memtableToDisk memtable = .writeError := if_pos hsilent
    cases hdisk.symm.trans herror
  | overrun memtable hpc hdisk =>
    rw [hpc] at hsilent
    have herror : memtableToDisk memtable = .writeError := if_pos hsilent
    cases hdisk.symm.trans herror
  | unregister memtable registered hpc =>
    rw [hpc] at hsilent
    obtain rfl : registered = false := hsilent
    refine ⟨⟨h.memtable, ?_, trivial, h.compactPc, h.tiers⟩, by rw [hpc]; rfl⟩
    intro m hm
    exact h.immutables m (List.mem_of_mem_eraseP hm)
  | refused memtable sst hpc =>
    rw [hpc] at hsilent
    exact hsilent.elim
  | register memtable sst metadata hpc =>
    rw [hpc] at hsilent
    exact hsilent.elim
  | writeFile memtable generation snapshot hpc =>
    rw [hpc] at hsilent
    exact hsilent.elim
  | signal hpc =>
    rw [hpc] at hsilent
    exact hsilent.elim

/-- A look at a tier that has no merge to offer. -/
theorem scan (h : Silent w) {pass : CompactPass} (hpc : w.compactPc = .scanning pass)
    (hscan : w.Scans pass w') : Silent w' := by
  have hmust : pass.mustFlush = false := by
    have hsilent := h.compactPc
    rw [hpc] at hsilent
    exact hsilent
  have hlater : ∀ tier, w.lsmt.compactionNeeded = true ∧ tier ≤ w.lsmt.metadata.highestTier →
      ¬ Compacts w.lsmt.metadata tier := by
    intro tier hneeded
    apply h.tiers
    rw [WillScan, hpc]
    exact Or.inl hneeded
  have hnow : ∀ tier, pass.tier ≤ tier → tier ≤ pass.highestTier →
      ¬ Compacts w.lsmt.metadata tier := by
    intro tier hlo hhi
    apply h.tiers
    rw [WillScan, hpc]
    exact Or.inr ⟨hlo, hhi⟩
  cases hscan with
  | finish htier =>
    rw [hmust]
    exact ⟨h.memtable, h.immutables, h.flushPc, trivial, hlater⟩
  | select selected htier hsize hselected =>
    -- fewer than two inputs: the daemon stops the process
    have hfew : selected.1.length < 2 := by
      by_contra hmany
      exact hnow pass.tier (Nat.le_refl _) htier ⟨hsize, hselected ▸ Nat.not_lt.mp hmany⟩
    simp only [if_pos hfew]
    exact ⟨h.memtable, h.immutables, h.flushPc, trivial, fun tier hscan => hscan.elim⟩
  | skip htier hsize =>
    refine ⟨h.memtable, h.immutables, h.flushPc, hmust, ?_⟩
    rintro tier (hneeded | ⟨hlo, hhi⟩)
    · exact hlater tier hneeded
    · exact hnow tier (Nat.le_of_succ_le hlo) hhi

/-- The compaction daemon merges nothing, so it does not come to its callback. -/
theorem compactStep (h : Silent w) {faults : List IoFaults} (hstep : w.CompactStep faults w') :
    Silent w' ∧ EventServer.isDeleting w.compactPc = false := by
  have hsilent := h.compactPc
  cases hstep with
  | wake hpc hneeded =>
    refine ⟨⟨h.memtable, h.immutables, h.flushPc, trivial, ?_⟩, by rw [hpc]; rfl⟩
    intro tier hle
    apply h.tiers
    rw [WillScan, hpc]
    exact ⟨hneeded, hle⟩
  | start hpc =>
    refine ⟨⟨h.memtable, h.immutables, h.flushPc, rfl, ?_⟩, by rw [hpc]; rfl⟩
    intro tier hscan
    apply h.tiers
    rw [WillScan, hpc]
    rcases hscan with ⟨-, hle⟩ | ⟨-, hle⟩
    · exact hle
    · exact hle
  | scan pass _ hpc hscan => exact ⟨h.scan hpc (compactScan_cases hscan), by rw [hpc]; rfl⟩
  | quit inputs hpc =>
    refine ⟨⟨h.memtable, h.immutables, h.flushPc, hsilent, h.tiers⟩, by rw [hpc]; rfl⟩
  | merge pass inputs hpc =>
    rw [hpc] at hsilent
    exact hsilent.elim
  | mergeStops pass inputs hpc =>
    rw [hpc] at hsilent
    exact hsilent.elim
  | merged pass inputs newSst hpc =>
    rw [hpc] at hsilent
    exact hsilent.elim
  | refused pass inputs newSst hpc =>
    rw [hpc] at hsilent
    exact hsilent.elim
  | add pass inputs newSst metadata hpc =>
    rw [hpc] at hsilent
    exact hsilent.elim
  | copyList sstToDelete hpc =>
    rw [hpc] at hsilent
    exact hsilent.elim
  | writeFile generation snapshot sstToDelete hpc =>
    rw [hpc] at hsilent
    exact hsilent.elim
  | release sstToDelete hpc =>
    rw [hpc] at hsilent
    exact hsilent.elim

end Silent

/-! ## The runs -/

namespace EventServer

variable {s t : EventServer}

/-- The action is a callback. -/
def Action.callsBack : Action → Bool
  | .memtableFlushEvent _ _ _ => true
  | .compactionEvent _ _ _ _ _ _ => true
  | _ => false

/-- A callback comes in front of the last flush of the events. -/
def InTime (s : EventServer) (a : Action) : Prop := a.callsBack = true → s.main.pastFlush = false

/-- What holds between two steps: up to the last flush the file is open and the mutex there. -/
structure Inv (s : EventServer) : Prop where
  kept : s.Kept
  held : s.main.pastFlush = false → s.file = true ∧ s.mutex = true

theorem inv_init (lsmt : LsmtState) : (init lsmt).Inv where
  kept := ⟨rfl, rfl, fun _ => rfl⟩
  held _ := ⟨rfl, rfl⟩

/-- A step of the tree. -/
theorem Inv.tree (h : s.Inv) (db : World) (flushReporting compactReporting : Bool) :
    Inv { s with db := db, flushReporting := flushReporting, compactReporting := compactReporting } :=
  ⟨⟨h.kept.mutex_held, h.kept.written, h.kept.flushed⟩, h.held⟩

/-- A flush of the events while the file is open. -/
theorem storageEventsFlush_eq (h : s.Inv) (hpast : s.main.pastFlush = false) :
    s.storageEventsFlush =
      { s with lines := s.lines ++ s.buffer.map StorageEvent.line, buffer := [] } := by
  obtain ⟨hfile, hmutex⟩ := h.held hpast
  unfold storageEventsFlush
  rw [if_neg (by simp [hfile]), if_neg (by simp [hmutex])]

theorem Kept.flush (h : s.Kept) (main : MainPc) :
    Kept { s with
      lines := s.lines ++ s.buffer.map StorageEvent.line
      buffer := []
      main := main } where
  mutex_held := h.mutex_held
  written := (List.append_nil _).trans h.written
  flushed _ := rfl

/-- The main thread goes on behind the last flush. -/
theorem Inv.close (h : s.Inv) (hpast : s.main.pastFlush = true) {main : MainPc}
    (hmain : main.pastFlush = true) (db : World) (file mutex : Bool) :
    Inv { s with db := db, main := main, file := file, mutex := mutex } where
  kept := ⟨h.kept.mutex_held, h.kept.written, fun _ => h.kept.flushed hpast⟩
  held hpast' := absurd (hpast'.symm.trans hmain) Bool.false_ne_true

theorem Inv.serverCloseStep (h : s.Inv) (hstep : s.CloseStep t) : t.Inv := by
  cases hstep with
  | flushEvents hmain hfile =>
    have hpast : s.main.pastFlush = false := by rw [hmain]; rfl
    rw [storageEventsFlush_eq h hpast]
    refine ⟨h.kept.flush .closingFile, fun hpast' => ?_⟩
    cases hpast'
  | noEvents hmain hfile =>
    -- up to the last flush the file is open
    have hpast : s.main.pastFlush = false := by rw [hmain]; rfl
    exact absurd ((h.held hpast).1.symm.trans hfile) (by decide)
  | closeFile hmain => exact h.close (by rw [hmain]; rfl) rfl s.db false s.mutex
  | destroyMutex hmain => exact h.close (by rw [hmain]; rfl) rfl s.db s.file false
  | flushDb db hmain => exact h.close (by rw [hmain]; rfl) rfl db s.file s.mutex
  | waitForDb db hmain =>
    refine h.close (by rw [hmain]; rfl) ?_ db s.file s.mutex
    split
    · rfl
    · rfl

/-- A callback in front of the last flush. -/
theorem Inv.report (h : s.Inv) (hpast : s.main.pastFlush = false) (event : StorageEvent) :
    (s.report event).Inv := by
  have hmutex := (h.held hpast).2
  unfold EventServer.report
  rw [if_neg (by simp [hmutex])]
  split
  · refine ⟨⟨h.kept.mutex_held, ?_, fun hpast' => ?_⟩, h.held⟩
    · have haccepted : accepted { s with
          buffer := s.buffer ++ [event]
          reported := s.reported ++ [(event, false)] } = s.accepted ++ [event] := by
        simp [accepted]
      rw [haccepted, List.map_append, List.map_append, ← List.append_assoc, h.kept.written,
        List.cons_append]
    · exact absurd (hpast.symm.trans hpast') Bool.false_ne_true
  · refine ⟨⟨h.kept.mutex_held, ?_, h.kept.flushed⟩, h.held⟩
    have haccepted : accepted { s with reported := s.reported ++ [(event, true)] } = s.accepted := by
      simp [accepted]
    rw [haccepted]
    exact h.kept.written

/-- A callback behind the last flush: the mutex is gone, or the event stays in the buffer. -/
theorem Kept.not_report (h : s.Kept) (hpast : s.main.pastFlush = true) (event : StorageEvent) :
    ¬ (s.report event).Kept := by
  intro hkept
  have hempty := h.flushed hpast
  unfold EventServer.report at hkept
  split at hkept
  · cases hkept.mutex_held
  · rw [if_pos (by rw [hempty]; decide)] at hkept
    have hlost : s.buffer ++ [event] = [] := hkept.flushed hpast
    simp at hlost

/-- What a callback does to the invariant depends on whether it is in time. -/
theorem Inv.callback (h : s.Inv) (event : StorageEvent) :
    (s.main.pastFlush = false ∧ (s.report event).Inv) ∨
      s.main.pastFlush = true ∧ ¬ (s.report event).Kept := by
  cases hpast : s.main.pastFlush with
  | false => exact Or.inl ⟨rfl, h.report hpast event⟩
  | true => exact Or.inr ⟨rfl, h.kept.not_report hpast event⟩

/-- One step keeps the invariant, or it is a callback that comes too late. -/
theorem Inv.step (h : s.Inv) {a : Action} (hstep : s.step a = some t) :
    (s.InTime a ∧ t.Inv) ∨ ¬ s.InTime a ∧ ¬ t.Kept := by
  have hquiet : a.callsBack = false → t.Inv → (s.InTime a ∧ t.Inv) ∨ ¬ s.InTime a ∧ ¬ t.Kept := by
    intro ha ht
    exact Or.inl ⟨fun hcalls => absurd (ha.symm.trans hcalls) Bool.false_ne_true, ht⟩
  have hcallback : ∀ u : EventServer, u.Inv → u.main = s.main → ∀ event, t = u.report event →
      a.callsBack = true → (s.InTime a ∧ t.Inv) ∨ ¬ s.InTime a ∧ ¬ t.Kept := by
    rintro u hu hmain event rfl ha
    rcases hu.callback event with ⟨hpast, hinv⟩ | ⟨hpast, hlost⟩
    · exact Or.inl ⟨fun _ => hmain ▸ hpast, hinv⟩
    · refine Or.inr ⟨fun hintime => ?_, hlost⟩
      exact absurd ((hintime ha).symm.trans (hmain ▸ hpast)) Bool.false_ne_true
  cases step_cases hstep with
  | insert key content db => exact hquiet rfl (h.tree db s.flushReporting s.compactReporting)
  | insertCall db => exact hquiet rfl (h.tree db s.flushReporting s.compactReporting)
  | statsTimer hserves =>
    refine hquiet rfl ?_
    rw [storageEventsFlush_eq h (by rw [hserves.1]; rfl)]
    exact ⟨h.kept.flush s.main, h.held⟩
  | serverClose hserves =>
    refine hquiet rfl ⟨⟨h.kept.mutex_held, h.kept.written, fun hpast => ?_⟩, fun _ => ?_⟩
    · cases hpast
    · exact h.held (by rw [hserves.1]; rfl)
  | close t hclose => exact hquiet rfl (h.serverCloseStep hclose)
  | flushDaemon db => exact hquiet rfl (h.tree db _ s.compactReporting)
  | compactionDaemon faults db => exact hquiet rfl (h.tree db s.flushReporting _)
  | memtableFlushEvent ts durationMs bytesFlushed hreporting =>
    -- the daemon has not reported until the callback returns
    exact hcallback _ (h.tree s.db false s.compactReporting) rfl _ rfl rfl
  | compactionEvent ts durationMs quantity inputBytes outputBytes level hreporting =>
    exact hcallback _ (h.tree s.db s.flushReporting false) rfl _ rfl rfl

/-! ### Silent trees -/

/-- Neither the tree nor a daemon in front of its callback has an event left to report. -/
structure AllSilent (s : EventServer) : Prop where
  db : Silent s.db
  flushReporting : s.flushReporting = false
  compactReporting : s.compactReporting = false

/-- Where `ServerClose` flushes the events, there are none left to report. -/
def SilentClose (s : EventServer) (a : Action) : Prop :=
  a = .close → s.main = .flushingEvents → s.AllSilent

/-- Behind the last flush there is nothing left to report. -/
def SilentPast (s : EventServer) : Prop := s.main.pastFlush = true → s.AllSilent

theorem storageEventsFlush_frame (s : EventServer) :
    s.storageEventsFlush.db = s.db ∧ s.storageEventsFlush.main = s.main ∧
      s.storageEventsFlush.flushReporting = s.flushReporting ∧
      s.storageEventsFlush.compactReporting = s.compactReporting := by
  unfold storageEventsFlush
  split
  · exact ⟨rfl, rfl, rfl, rfl⟩
  · split
    · exact ⟨rfl, rfl, rfl, rfl⟩
    · exact ⟨rfl, rfl, rfl, rfl⟩

/-- Nothing that `ServerClose` does wakes up the tree. -/
theorem SilentPast.serverCloseStep (h : s.SilentPast)
    (hclose : s.main = .flushingEvents → s.AllSilent) (hstep : s.CloseStep t) :
    t.SilentPast := by
  have hsilent : s.main ≠ .serving → s.AllSilent := by
    intro hne
    cases hmain : s.main with
    | serving => exact absurd hmain hne
    | flushingEvents => exact hclose hmain
    | closingFile => exact h (by rw [hmain]; rfl)
    | destroyingMutex => exact h (by rw [hmain]; rfl)
    | flushingDb => exact h (by rw [hmain]; rfl)
    | waitingForDb => exact h (by rw [hmain]; rfl)
    | closed => exact h (by rw [hmain]; rfl)
  intro _
  cases hstep with
  | flushEvents hmain hfile =>
    have hs := hsilent (by rw [hmain]; decide)
    obtain ⟨hdb, -, hflush, hcompact⟩ := storageEventsFlush_frame s
    refine ⟨?_, hflush.trans hs.flushReporting, hcompact.trans hs.compactReporting⟩
    show Silent s.storageEventsFlush.db
    rw [hdb]
    exact hs.db
  | noEvents hmain hfile =>
    have hs := hsilent (by rw [hmain]; decide)
    exact ⟨hs.db, hs.flushReporting, hs.compactReporting⟩
  | closeFile hmain =>
    have hs := hsilent (by rw [hmain]; decide)
    exact ⟨hs.db, hs.flushReporting, hs.compactReporting⟩
  | destroyMutex hmain =>
    have hs := hsilent (by rw [hmain]; decide)
    exact ⟨hs.db, hs.flushReporting, hs.compactReporting⟩
  | flushDb db hmain hdb =>
    -- the memtable that this flush rotates away is empty
    have hs := hsilent (by rw [hmain]; decide)
    exact ⟨hs.db.flushStep hdb, hs.flushReporting, hs.compactReporting⟩
  | waitForDb db hmain hdb =>
    have hs := hsilent (by rw [hmain]; decide)
    exact ⟨hs.db.flushCallStep hdb, hs.flushReporting, hs.compactReporting⟩

theorem report_main (s : EventServer) (event : StorageEvent) : (s.report event).main = s.main := by
  unfold report
  split
  · rfl
  · split
    · rfl
    · rfl

/-- In a silent tree no thread comes to a callback. -/
theorem SilentPast.step (h : s.SilentPast) {a : Action} (hclose : s.SilentClose a)
    (hstep : s.step a = some t) : t.SilentPast := by
  have hserving : s.main = .serving → t.main = s.main → t.SilentPast := by
    intro hmain hsame hpast
    rw [hsame, hmain] at hpast
    cases hpast
  cases step_cases hstep with
  | insert key content db hserves => exact hserving hserves.1 rfl
  | insertCall db hmain => exact hserving hmain rfl
  | statsTimer hserves => exact hserving hserves.1 (storageEventsFlush_frame s).2.1
  | serverClose hserves =>
    intro hpast
    cases hpast
  | close t hcloses => exact h.serverCloseStep (hclose rfl) hcloses
  | flushDaemon db hreporting hdb =>
    intro hpast
    obtain ⟨hdb', hreport⟩ := (h hpast).db.flushDaemonStep (World.flushDaemonStep_of_step hdb)
    exact ⟨hdb', hreport, (h hpast).compactReporting⟩
  | compactionDaemon faults db hreporting hdb =>
    intro hpast
    obtain ⟨hdb', hreport⟩ := (h hpast).db.compactStep (World.compactStep_of_step hdb)
    exact ⟨hdb', (h hpast).flushReporting, hreport⟩
  | memtableFlushEvent ts durationMs bytesFlushed hreporting =>
    -- behind the last flush no daemon is in front of its callback
    intro hpast
    rw [onMemtableFlushEvent, report_main] at hpast
    exact absurd hreporting (by rw [(h hpast).flushReporting]; simp)
  | compactionEvent ts durationMs quantity inputBytes outputBytes level hreporting =>
    intro hpast
    rw [onCompactionEvent, report_main] at hpast
    exact absurd hreporting (by rw [(h hpast).compactReporting]; simp)

/-- A callback behind the last flush would find its daemon without a report. -/
theorem SilentPast.inTime (h : s.SilentPast) {a : Action} (hstep : s.step a = some t) :
    s.InTime a := by
  intro hcalls
  by_contra hpast
  have hsilent := h (by simpa using hpast)
  cases step_cases hstep with
  | memtableFlushEvent ts durationMs bytesFlushed hreporting =>
    exact Bool.false_ne_true (hsilent.flushReporting.symm.trans hreporting)
  | compactionEvent ts durationMs quantity inputBytes outputBytes level hreporting =>
    exact Bool.false_ne_true (hsilent.compactReporting.symm.trans hreporting)
  | _ => cases hcalls

/-- The events of a run are kept when the last flush of `ServerClose` finds a silent tree, and exactly
when no callback comes behind that flush. -/
theorem storage_events_kept (lsmt : LsmtState) (as : List Action) (s : EventServer)
    (hrun : run step (init lsmt) as = some s) :
    (EachStep step SilentClose (init lsmt) as → Always step Kept (init lsmt) as) ∧
      (Always step Kept (init lsmt) as ↔ EachStep step InTime (init lsmt) as) := by
  have hiff : Always step Kept (init lsmt) as ↔ EachStep step InTime (init lsmt) as :=
    always_iff_eachStep hrun (inv_init lsmt) (fun t ht => ht.kept)
      fun t a t' _ ht hstep => ht.step hstep
  refine ⟨?_, hiff⟩
  intro hclose
  rw [hiff]
  have hpast : Always step SilentPast (init lsmt) as := by
    refine always_of_eachStep (fun hpast => by cases hpast) ?_
    intro pre a post t hsplit ht t' hsilent hstep
    exact hsilent.step (hclose pre a post t hsplit ht) hstep
  intro pre a post t hsplit ht
  obtain ⟨t', hstep⟩ := step_of_run hrun hsplit ht
  exact (hpast pre (a :: post) t hsplit ht).inTime hstep

/-- A test of a tree whose daemons wait. -/
def isSilent (w : World) : Bool :=
  w.lsmt.memtable.bottomLevel.isEmpty && w.lsmt.immutables.all (·.bottomLevel.isEmpty) &&
    (match w.flushPc with
    | .waiting => true
    | _ => false) &&
    (match w.compactPc with
    | .waiting => true
    | _ => false) &&
    (List.range (w.lsmt.metadata.highestTier + 1)).all fun tier =>
      !decide (Compacts w.lsmt.metadata tier)

theorem silent_of_isSilent {w : World} (h : isSilent w = true) : Silent w := by
  unfold isSilent at h
  rw [Bool.and_eq_true, Bool.and_eq_true, Bool.and_eq_true, Bool.and_eq_true] at h
  obtain ⟨⟨⟨⟨hmemtable, himmutables⟩, hflush⟩, hcompact⟩, htiers⟩ := h
  refine ⟨List.isEmpty_iff.mp hmemtable, ?_, ?_, ?_, ?_⟩
  · intro m hm
    exact List.isEmpty_iff.mp (List.all_eq_true.mp himmutables m hm)
  · cases hpc : w.flushPc with
    | waiting => trivial
    | _ =>
      rw [hpc] at hflush
      cases hflush
  · cases hpc : w.compactPc with
    | waiting => trivial
    | _ =>
      rw [hpc] at hcompact
      cases hcompact
  · intro tier hscan hcompacts
    have hle : tier ≤ w.lsmt.metadata.highestTier := by
      cases hpc : w.compactPc with
      | waiting =>
        unfold WillScan at hscan
        rw [hpc] at hscan
        exact hscan.2
      | _ =>
        rw [hpc] at hcompact
        cases hcompact
    have htier := List.all_eq_true.mp htiers tier (List.mem_range.mpr (Nat.lt_succ_of_le hle))
    rw [decide_eq_true hcompacts] at htier
    cases htier

/-- A test of a step of `ServerClose`. -/
def isSilentClose (s : EventServer) : Action → Bool
  | .close => decide (s.main ≠ .flushingEvents) ||
      (isSilent s.db && !s.flushReporting && !s.compactReporting)
  | _ => true

theorem silentClose_of_isSilentClose (s : EventServer) (a : Action)
    (h : s.isSilentClose a = true) : s.SilentClose a := by
  rintro rfl hmain
  unfold isSilentClose at h
  rw [decide_eq_false (fun hne => hne hmain), Bool.false_or, Bool.and_eq_true, Bool.and_eq_true,
    Bool.not_eq_true', Bool.not_eq_true'] at h
  exact ⟨silent_of_isSilent h.1.1, h.1.2, h.2⟩

/-- A store whose flush daemon has an immutable memtable of one record to flush. -/
def oneImmutable : LsmtState :=
  { lsmtInit with
    immutables := [(slInsert (slInit 1) ⟨1, 0⟩ [2, 1, 0, 0, 0, 7]).1]
    flushNeeded := true
    nextAddr := 2 }

/-- The daemon flushes the memtable and comes to its callback. -/
def flushOne : List Action := List.replicate 7 .flushDaemon

/-- The server closes, and its tree flushes an empty memtable. -/
def closeBehind : List Action :=
  [.flushDaemon, .serverClose] ++ List.replicate 6 .close ++ List.replicate 5 .flushDaemon ++ [.close]

/-- A server that reports one flush and closes when its tree is silent. -/
theorem storage_events_kept_one :
    ∃ s, run step (init oneImmutable) (flushOne ++ .memtableFlushEvent 5 1 22 :: closeBehind) =
        some s ∧ s.main = .closed ∧
      s.lines = [storageEventsHeader, "memtable_flush,5,1,0,0,0,0,22\n"] ∧
      Always step Kept (init oneImmutable)
        (flushOne ++ .memtableFlushEvent 5 1 22 :: closeBehind) := by
  have hend : ((run step (init oneImmutable)
      (flushOne ++ .memtableFlushEvent 5 1 22 :: closeBehind)).map fun s => (s.main, s.lines)) =
      some (.closed, [storageEventsHeader, "memtable_flush,5,1,0,0,0,0,22\n"]) := by
    decide +kernel
  obtain ⟨s, hrun, hs⟩ := Option.map_eq_some_iff.mp hend
  obtain ⟨hmain, hlines⟩ := Prod.mk.inj hs
  refine ⟨s, hrun, hmain, hlines, (storage_events_kept oneImmutable _ s hrun).1 ?_⟩
  exact eachStep_of_allSteps silentClose_of_isSilentClose (by decide +kernel)

/-- The flush daemon reports the record of the memtable behind the end of the mutex. -/
def closeWithRecord : List Action :=
  [.insert ⟨1, 0⟩ [2, 1, 0, 0, 0, 7], .insertCall, .serverClose] ++ List.replicate 6 .close ++
    List.replicate 7 .flushDaemon ++ [.memtableFlushEvent 5 1 22]

theorem not_storage_events_kept :
    ¬ ∀ (lsmt : LsmtState) (as : List Action), Always step Kept (init lsmt) as := by
  intro hall
  have hend : (run step (init lsmtInit) closeWithRecord).map EventServer.fault = some true := by
    decide +kernel
  obtain ⟨s, hrun, hfault⟩ := Option.map_eq_some_iff.mp hend
  have hkept := hall lsmtInit closeWithRecord closeWithRecord [] s (List.append_nil _).symm hrun
  rw [hkept.mutex_held] at hfault
  cases hfault

end EventServer

end RaftLsmt.Server
