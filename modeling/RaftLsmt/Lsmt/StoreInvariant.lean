import RaftLsmt.Lsmt.Scan
import RaftLsmt.Lsmt.StoreSteps

/-!
# What every run of the store keeps

`World.Inv base w` holds of a store that started with the records `base` in its SSTs. It says that
the memtables are well formed, that every SST holds its records, that the daemons' program counters
fit the store, and it accounts for every record twice: what the SSTs and the compaction hold is what
was there and what has been flushed (`registered`), and what has been inserted is in the memtable,
in an immutable memtable that is not registered yet, or flushed (`inserted`).

Each kind of step keeps it, so every run of sound actions does (`World.Inv.run`). An action is sound
when an insertion has the content format of the store and a merge can read its inputs.
`World.Accounts` is the part of it that does not depend on the format of the contents
(`World.inv_iff`); it needs only merges that read their inputs.
-/

set_option autoImplicit false

namespace RaftLsmt.Lsmt

open RaftLsmt.Lib.StepMachine
open RaftLsmt.Lib.SortedMerge

/-- Insertions in the store's content format, merges without read failures. -/
def Action.Sound : Action → Prop
  | .insert _ content => SelfConsistent content
  | .compact faults => ∀ f ∈ faults, f = IoFaults.none
  | _ => True

/-- `lsmt_insert` refuses the key: the memtable it works on, behind a rotation an empty one, does. -/
def LsmtState.Refuses (lsmt : LsmtState) (key : SlUint128) : Prop :=
  (lsmtRotate lsmt).1.memtable.Refuses key

/-- What the invariant asks of a step: an insertion that is not refused has the content format of
the store, and a merge can read its inputs. -/
def Action.SoundIn (lsmt : LsmtState) : Action → Prop
  | .insert key content => lsmt.Refuses key ∨ SelfConsistent content
  | .compact faults => ∀ f ∈ faults, f = IoFaults.none
  | _ => True

theorem Action.Sound.soundIn {a : Action} (h : a.Sound) (lsmt : LsmtState) : a.SoundIn lsmt := by
  cases a with
  | insert key content => exact Or.inr h
  | compact faults => exact h
  | insertCall i => trivial
  | flush => trivial
  | flushCall i => trivial
  | flushDaemon => trivial

/-- The record a call inserts. -/
def InsertCall.node (call : InsertCall) : SlUint128 × Bytes := (call.key, call.content)

/-- Whether the SST of the memtable being flushed is registered. -/
def FlushPc.registered : FlushPc → Bool
  | .writingMetadata _ _ _ => true
  | .unregistering _ registered => registered
  | _ => false

/-- The inputs of a merge, from their removal from the list to the registration of the output. -/
def CompactPc.held : CompactPc → List SstMetadataRecord
  | .mergeWait _ inputs => inputs
  | .merging _ inputs => inputs
  | .adding _ inputs _ => inputs
  | .quitting inputs => inputs
  | _ => []

/-- What the flush daemon knows about the memtable it works on. -/
def FlushPcOk (immutables : List Sl) : FlushPc → Prop
  | .writing memtable => immutables.head? = some memtable
  | .registering memtable sst =>
    immutables.head? = some memtable ∧ memtableToDisk memtable = .written sst
  | .writingMetadata memtable _ _ => immutables.head? = some memtable
  | .unregistering memtable registered =>
    immutables.head? = some memtable ∧ (registered = false → memtable.records = [])
  | _ => True

/-- What the compaction knows about its inputs and its output. -/
def CompactPcOk : CompactPc → Prop
  | .adding _ inputs newSst => inputs ≠ [] ∧ (∀ sst ∈ inputs, SstOk sst) ∧ SstOk newSst ∧
    newSst.records.Perm (sstRecords inputs)
  | .mergeWait _ inputs => inputs ≠ [] ∧ ∀ sst ∈ inputs, SstOk sst
  | .merging _ inputs => inputs ≠ [] ∧ ∀ sst ∈ inputs, SstOk sst
  | .quitting inputs => ∀ sst ∈ inputs, SstOk sst
  | _ => True

namespace World

/-- The immutable memtables whose SST is not registered. -/
def unflushed (w : World) : List Sl :=
  if w.flushPc.registered then w.lsmt.immutables.tail else w.lsmt.immutables

/-- The insertions that were accepted. -/
def accepted (w : World) : List (SlUint128 × Bytes) :=
  (w.inserted.filter fun call => call.rv = 0).map InsertCall.node

/-- The invariant of the store. -/
structure Inv (base : List KvRawRecord) (w : World) : Prop where
  memtable : w.lsmt.memtable.Ok
  immutables : ∀ m ∈ w.lsmt.immutables, m.Ok
  metadata : w.lsmt.metadata.Wf
  ssts : ∀ sst ∈ w.lsmt.metadata.records, SstOk sst
  flushPc : FlushPcOk w.lsmt.immutables w.flushPc
  compactPc : CompactPcOk w.compactPc
  registered : (sstRecords w.lsmt.metadata.records ++ sstRecords w.compactPc.held).Perm
    (base ++ sstRecords w.flushed)
  inserted : (w.accepted.map rawOf).Perm
    (w.lsmt.memtable.records ++ (w.unflushed.flatMap Sl.records ++ sstRecords w.flushed))

/-- The invariant of a store whose contents have any format. -/
structure Accounts (base : List KvRawRecord) (w : World) : Prop where
  memtable : w.lsmt.memtable.Wf
  immutables : ∀ m ∈ w.lsmt.immutables, m.Wf
  metadata : w.lsmt.metadata.Wf
  ssts : ∀ sst ∈ w.lsmt.metadata.records, SstOk sst
  flushPc : FlushPcOk w.lsmt.immutables w.flushPc
  compactPc : CompactPcOk w.compactPc
  registered : (sstRecords w.lsmt.metadata.records ++ sstRecords w.compactPc.held).Perm
    (base ++ sstRecords w.flushed)
  inserted : (w.accepted.map rawOf).Perm
    (w.lsmt.memtable.records ++ (w.unflushed.flatMap Sl.records ++ sstRecords w.flushed))

end World

/-- The node lies in a memtable. -/
def LsmtState.InMemory (lsmt : LsmtState) (node : SlUint128 × Bytes) : Prop :=
  ∃ m ∈ lsmt.memtable :: lsmt.immutables, node ∈ m.bottomLevel

/-- The accounts, and contents in the format of the store. -/
theorem World.inv_iff {base : List KvRawRecord} {w : World} :
    w.Inv base ↔ w.Accounts base ∧ ∀ n, w.lsmt.InMemory n → SelfConsistent n.2 := by
  constructor
  · intro h
    refine ⟨⟨h.memtable.wf, fun m hm => (h.immutables m hm).wf, h.metadata, h.ssts, h.flushPc,
      h.compactPc, h.registered, h.inserted⟩, ?_⟩
    rintro n ⟨m, hm, hn⟩
    rcases List.mem_cons.mp hm with rfl | hm
    · exact h.memtable.consistent n hn
    · exact (h.immutables m hm).consistent n hn
  · rintro ⟨h, hconsistent⟩
    have hok : ∀ m ∈ w.lsmt.memtable :: w.lsmt.immutables, m.Wf → m.Ok :=
      fun m hm hwf => ⟨hwf, fun n hn => hconsistent n ⟨m, hm, hn⟩⟩
    exact ⟨hok _ List.mem_cons_self h.memtable,
      fun m hm => hok m (List.mem_cons_of_mem _ hm) (h.immutables m hm), h.metadata, h.ssts,
      h.flushPc, h.compactPc, h.registered, h.inserted⟩

theorem sstRecords_perm {ssts ssts' : List SstMetadataRecord} (h : ssts.Perm ssts') :
    (sstRecords ssts).Perm (sstRecords ssts') := h.flatMap_right _

theorem Sl.ok_slInit (addr : Nat) : (slInit addr).Ok where
  wf := Sl.wf_slInit addr
  consistent := by simp [slInit]

theorem World.inv_init {m : SstMetadata} (hm : m.Wf) (hok : ∀ sst ∈ m.records, SstOk sst) :
    (World.init { lsmtInit with metadata := m }).Inv (sstRecords m.records) where
  memtable := Sl.ok_slInit 0
  immutables := by simp [World.init, lsmtInit]
  metadata := hm
  ssts := hok
  flushPc := trivial
  compactPc := trivial
  registered := by simp [World.init, CompactPc.held]
  inserted := by
    simp [World.init, World.accepted, World.unflushed, FlushPc.registered, lsmtInit, slInit,
      Sl.records]

/-! ## Insertions and rotations -/

/-- A memtable at the end of the array does not concern the flush daemon. -/
theorem FlushPcOk.append {immutables : List Sl} {pc : FlushPc} (h : FlushPcOk immutables pc)
    (m : Sl) : FlushPcOk (immutables ++ [m]) pc := by
  have hhead : ∀ memtable, immutables.head? = some memtable →
      (immutables ++ [m]).head? = some memtable := by
    intro memtable hm
    rw [List.head?_append, hm]
    rfl
  cases pc with
  | writing memtable => exact hhead memtable h
  | registering memtable sst => exact ⟨hhead memtable h.1, h.2⟩
  | writingMetadata memtable generation snapshot => exact hhead memtable h
  | unregistering memtable registered => exact ⟨hhead memtable h.1, h.2⟩
  | waiting => trivial
  | draining => trivial
  | signalling => trivial

/-- A registered memtable is the first of the array. -/
theorem FlushPcOk.ne_nil {immutables : List Sl} {pc : FlushPc} (h : FlushPcOk immutables pc)
    (hreg : pc.registered = true) : immutables ≠ [] := by
  cases pc with
  | writingMetadata memtable generation snapshot =>
    rintro rfl
    cases h
  | unregistering memtable registered =>
    rintro rfl
    cases h.1
  | waiting => cases hreg
  | draining => cases hreg
  | writing memtable => cases hreg
  | registering memtable sst => cases hreg
  | signalling => cases hreg

/-- A rotation moves the records of the memtable to the unflushed ones. -/
theorem World.Accounts.rotate {base : List KvRawRecord} {w w' : World} (h : w.Accounts base)
    (hw : ∃ threads, w' = { w with lsmt :=
      { registerImmutable w.lsmt with activeBackgroundThreads := threads } }) : w'.Accounts base := by
  obtain ⟨threads, rfl⟩ := hw
  refine ⟨Sl.wf_slInit _, fun m hm => ?_, h.metadata, h.ssts, h.flushPc.append _, h.compactPc,
    h.registered, ?_⟩
  · rcases List.mem_append.mp hm with hm | hm
    · exact h.immutables m hm
    · rw [List.mem_singleton.mp hm]
      exact h.memtable
  · have hunfl : World.unflushed { w with lsmt :=
        { registerImmutable w.lsmt with activeBackgroundThreads := threads } } =
        w.unflushed ++ [w.lsmt.memtable] := by
      simp only [World.unflushed, registerImmutable]
      split
      · rename_i hreg
        rw [List.tail_append_of_ne_nil (h.flushPc.ne_nil hreg)]
      · rfl
    rw [hunfl, List.flatMap_append, List.flatMap_singleton]
    refine h.inserted.trans ?_
    show (w.lsmt.memtable.records ++ (w.unflushed.flatMap Sl.records ++ _)).Perm
      ([] ++ ((w.unflushed.flatMap Sl.records ++ w.lsmt.memtable.records) ++ _))
    rw [List.nil_append, ← List.append_assoc]
    exact List.perm_append_comm.append_right _

theorem lsmtRotate_wf {lsmt : LsmtState} (h : lsmt.memtable.Wf) :
    (lsmtRotate lsmt).1.memtable.Wf := by
  rcases lsmtRotate_memtable lsmt with hsl | ⟨addr, hsl⟩ <;> rw [hsl]
  · exact h
  · exact Sl.wf_slInit addr

/-- What a call of `lsmt_insert` does to the memtable and to the history. -/
theorem World.step_insert_spec {w w' : World} {key : SlUint128} {content : Bytes}
    (h : w.step (.insert key content) = some w') :
    ∃ needSpawn, w'.lsmt.memtable = (slInsert (lsmtRotate w.lsmt).1.memtable key content).1 ∧
      w'.inserted = w.inserted ++
        [⟨key, content, (slInsert (lsmtRotate w.lsmt).1.memtable key content).2, needSpawn⟩] := by
  cases (World.step_cases h).2 with
  | insert key content hwaits call hcall =>
    subst hcall
    exact ⟨_, rfl, rfl⟩

/-- What an insertion into the active memtable does to the accounts. -/
theorem World.Accounts.insertRecord {base : List KvRawRecord} {w : World} (h : w.Accounts base)
    (key : SlUint128) (content : Bytes) (needSpawn : Bool) :
    World.Accounts base
      (let call : InsertCall :=
        ⟨key, content, (slInsert w.lsmt.memtable key content).2, needSpawn⟩
      { w with
        lsmt := { w.lsmt with memtable := (slInsert w.lsmt.memtable key content).1 }
        inserting := w.inserting ++ [call]
        inserted := w.inserted ++ [call] }) := by
  rcases slInsert_cases h.memtable key content with
    ⟨hins, -⟩ | ⟨sl', hins, -, hwf, -, hperm⟩
  · rw [hins]
    refine ⟨h.memtable, h.immutables, h.metadata, h.ssts, h.flushPc, h.compactPc, h.registered, ?_⟩
    have hacc : ∀ call : InsertCall, call.rv = -1 →
        (w.inserted ++ [call]).filter (fun call => call.rv = 0) =
          w.inserted.filter fun call => call.rv = 0 := by
      intro call hcall
      simp [hcall]
    simp only [World.accepted, hacc]
    exact h.inserted
  · rw [hins]
    refine ⟨hwf, h.immutables, h.metadata, h.ssts, h.flushPc, h.compactPc, h.registered, ?_⟩
    have hacc : ∀ call : InsertCall, call.rv = 0 →
        (w.inserted ++ [call]).filter (fun call => call.rv = 0) =
          w.inserted.filter (fun call => call.rv = 0) ++ [call] := by
      intro call hcall
      simp [hcall]
    simp only [World.accepted, hacc, List.map_append, List.map_singleton, InsertCall.node]
    have hrecs : Sl.records sl' |>.Perm (rawOf (key, content) :: w.lsmt.memtable.records) :=
      hperm.map rawOf
    exact (h.inserted.append_right [rawOf (key, content)]).trans
      ((List.perm_append_comm.trans (List.Perm.refl _)).trans
        (hrecs.symm.append_right _))

theorem World.Accounts.insert {base : List KvRawRecord} {w : World} (h : w.Accounts base)
    (key : SlUint128) (content : Bytes) {call : InsertCall}
    (hcall : call = ⟨key, content, (lsmtInsertLocked w.lsmt key content).1,
      (lsmtInsertLocked w.lsmt key content).2.1⟩) :
    World.Accounts base { w with
      lsmt := (lsmtInsertLocked w.lsmt key content).2.2
      inserting := w.inserting ++ [call]
      inserted := w.inserted ++ [call] } := by
  subst hcall
  unfold lsmtInsertLocked
  rcases lsmtRotate_cases w.lsmt with hrot | ⟨threads, needSpawn, -, hrot⟩
  · rw [hrot]
    exact h.insertRecord key content false
  · rw [hrot]
    exact (h.rotate ⟨threads, rfl⟩).insertRecord key content needSpawn

/-! ## The flush daemon -/

/-- What `memtable_to_disk` does with contents of any format whose length words do not cut a record
short. -/
theorem memtableToDisk_cases_of_wf {sl : Sl} (h : sl.Wf)
    (hcut : ∀ n ∈ sl.bottomLevel, ¬ CutShort n.2) :
    (memtableToDisk sl = .writeError ∧ sl.records = []) ∨
    (∃ sst, memtableToDisk sl = .written sst ∧ SstHolds sst sl.records ∧ sl.records ≠ []) ∨
    (memtableToDisk sl = .undefined ∧
      ¬ ∀ n ∈ sl.bottomLevel, Readable n.2 ∧ 21 + contentLen n.2 < 2 ^ 32) := by
  by_cases hnil : sl.bottomLevel = []
  · exact Or.inl ⟨if_pos hnil, by simp [Sl.records, hnil]⟩
  · by_cases hread : ∀ n ∈ sl.bottomLevel, Readable n.2 ∧ 21 + contentLen n.2 < 2 ^ 32
    · obtain ⟨sst, hsst, -, hholds⟩ := memtableToDisk_eq_written h hread hnil
      exact Or.inr (Or.inl ⟨sst, hsst, hholds, by simpa [Sl.records] using hnil⟩)
    · refine Or.inr (Or.inr ⟨?_, hread⟩)
      have hcopy : ¬ ∀ n ∈ sl.bottomLevel, Copyable n.2 := fun hall =>
        hread fun n hn => (copyable_iff (hcut n hn)).mp (hall n hn)
      rw [memtableToDisk, if_neg hnil, if_neg hcopy]

theorem records_of_writeError {sl : Sl} (hdisk : memtableToDisk sl = .writeError) :
    sl.records = [] := by
  rw [memtableToDisk] at hdisk
  split at hdisk
  · rename_i hnil
    rw [Sl.records, hnil, List.map_nil]
  · split at hdisk <;> cases hdisk

theorem records_ne_nil_of_written {sl : Sl} {sst : SstMetadataRecord}
    (hdisk : memtableToDisk sl = .written sst) : sl.records ≠ [] := by
  intro hnil
  have hempty : sl.bottomLevel = [] := List.map_eq_nil_iff.mp hnil
  rw [memtableToDisk, if_pos hempty] at hdisk
  cases hdisk

theorem sstHolds_of_written {sl : Sl} (h : sl.Wf) (hcut : ∀ n ∈ sl.bottomLevel, ¬ CutShort n.2)
    {sst : SstMetadataRecord} (hdisk : memtableToDisk sl = .written sst) :
    SstHolds sst sl.records := by
  rcases memtableToDisk_cases_of_wf h hcut with ⟨hdisk', -⟩ | ⟨sst', hdisk', hholds, -⟩ | ⟨hdisk', -⟩
  · cases hdisk.symm.trans hdisk'
  · cases hdisk.symm.trans hdisk'
    exact hholds
  · cases hdisk.symm.trans hdisk'

theorem memtableToDisk_cases {sl : Sl} (h : sl.Ok) :
    (memtableToDisk sl = .writeError ∧ sl.records = []) ∨
    ∃ sst, memtableToDisk sl = .written sst ∧ SstHolds sst sl.records ∧ sl.records ≠ [] := by
  rcases memtableToDisk_cases_of_wf h.wf fun n hn => (h.consistent n hn).not_cutShort with
    hempty | hwritten | ⟨-, hunreadable⟩
  · exact Or.inl hempty
  · exact Or.inr hwritten
  · exact absurd (fun n hn => ⟨h.readable n hn, (h.consistent n hn).2⟩) hunreadable

/-- Only the files matter for what an SST holds. -/
theorem SstHolds.withId {sst : SstMetadataRecord} {rs : List KvRawRecord} (h : SstHolds sst rs)
    (id : Nat) : SstHolds { sst with id := id } rs :=
  ⟨h.1, h.2, h.3, h.4, h.5, h.6, h.7, h.8, h.9, h.10⟩

/-- The SST of a memtable: what the flush writes for it, under the id of its registration. It holds the
records of the memtable unless the flush cuts one short. -/
structure SstOf (sst : SstMetadataRecord) (m : Sl) : Prop where
  written : ∃ file, memtableToDisk m = .written file ∧ sst = { file with id := sst.id }
  holds : (∀ n ∈ m.bottomLevel, ¬ CutShort n.2) → SstHolds sst m.records

theorem sstOf_of_written {m : Sl} (h : m.Wf) {sst : SstMetadataRecord}
    (hdisk : memtableToDisk m = .written sst) (id : Nat) : SstOf { sst with id := id } m where
  written := ⟨sst, hdisk, rfl⟩
  holds hcut := (sstHolds_of_written h hcut hdisk).withId id

/-- The step registers no SST in which the flush has cut a record short. -/
def World.RegistersWhole (w : World) (a : Action) : Prop :=
  ∀ memtable sst, a = .flushDaemon → w.flushPc = .registering memtable sst →
    ∀ n ∈ memtable.bottomLevel, ¬ CutShort n.2

/-- Registering the SST of the first immutable memtable moves its records from the unflushed to the
flushed ones. -/
theorem World.Accounts.register {base : List KvRawRecord} {w : World} (h : w.Accounts base)
    {memtable : Sl} {sst : SstMetadataRecord} (hpc : w.flushPc = .registering memtable sst)
    (hwhole : w.RegistersWhole .flushDaemon) {metadata : SstMetadata}
    (hadd : sstMetadataAdd w.lsmt.metadata { sst with id := w.lsmt.sstableId } = some metadata)
    (sstableId generation : Nat) (snapshot : MetadataSnapshot) :
    World.Accounts base { w with
      lsmt := { w.lsmt with
        metadata := metadata
        sstableId := sstableId
        metadataGeneration := generation }
      flushPc := .writingMetadata memtable generation snapshot
      flushed := w.flushed ++ [{ sst with id := w.lsmt.sstableId }] } := by
  obtain ⟨hwf, hrecords⟩ := sstMetadataAdd_spec h.metadata hadd
  have hflush := h.flushPc
  rw [hpc] at hflush
  -- the SST holds the records of the first immutable memtable
  obtain ⟨hhead, hdisk⟩ := hflush
  have hholds : SstHolds sst memtable.records :=
    sstHolds_of_written (h.immutables memtable (List.mem_of_head? hhead)) (hwhole _ _ rfl hpc) hdisk
  have hne := records_ne_nil_of_written hdisk
  have hok : SstOk { sst with id := w.lsmt.sstableId } := (hholds.withId _).ok hne
  have hrec : SstMetadataRecord.records { sst with id := w.lsmt.sstableId } = memtable.records :=
    (hholds.withId _).records_eq
  obtain ⟨tail, htail⟩ : ∃ tail, w.lsmt.immutables = memtable :: tail :=
    List.head?_eq_some_iff.mp hhead
  refine ⟨h.memtable, h.immutables, hwf, ?_, hhead, h.compactPc, ?_, ?_⟩
  · intro x hx
    rw [hrecords] at hx
    rcases List.mem_cons.mp hx with rfl | hx
    · exact hok
    · exact h.ssts x hx
  · -- the new SST is the last that has been flushed
    show (sstRecords metadata.records ++ _).Perm _
    rw [hrecords, sstRecords_cons, sstRecords_append, sstRecords_cons, sstRecords_nil,
      List.append_nil, List.append_assoc]
    refine (h.registered.append_left _).trans ?_
    rw [← List.append_assoc base]
    exact List.perm_append_comm
  · -- and its memtable is no longer an unflushed one
    have hunfl : w.unflushed = memtable :: tail := by
      simp [World.unflushed, hpc, FlushPc.registered, htail]
    have hunfl' : World.unflushed { w with
        lsmt := { w.lsmt with
          metadata := metadata
          sstableId := sstableId
          metadataGeneration := generation }
        flushPc := .writingMetadata memtable generation snapshot
        flushed := w.flushed ++ [{ sst with id := w.lsmt.sstableId }] } = tail := by
      simp [World.unflushed, FlushPc.registered, htail]
    rw [hunfl']
    show (w.accepted.map rawOf).Perm (w.lsmt.memtable.records ++ _)
    rw [sstRecords_append, sstRecords_cons, sstRecords_nil, List.append_nil, hrec]
    refine h.inserted.trans (List.Perm.append_left _ ?_)
    rw [hunfl, List.flatMap_cons, List.append_assoc, ← List.append_assoc (tail.flatMap _)]
    exact List.perm_append_comm

/-- Unregistering drops a memtable that is registered or empty. -/
theorem World.Accounts.unregister {base : List KvRawRecord} {w : World} (h : w.Accounts base)
    {memtable : Sl} {registered : Bool} (hpc : w.flushPc = .unregistering memtable registered) :
    World.Accounts base { w with
      lsmt := unregisterImmutableMemtable w.lsmt memtable
      flushPc := if registered then .signalling else .draining } := by
  have hflush := h.flushPc
  rw [hpc] at hflush
  obtain ⟨hhead, hempty⟩ := hflush
  obtain ⟨tail, htail⟩ : ∃ tail, w.lsmt.immutables = memtable :: tail :=
    List.head?_eq_some_iff.mp hhead
  have herase : (w.lsmt.immutables.eraseP fun m => m.addr = memtable.addr) = tail := by
    rw [htail, List.eraseP_cons_of_pos (by simp)]
  have hnot : (if registered then FlushPc.signalling else FlushPc.draining).registered = false := by
    split <;> rfl
  refine ⟨h.memtable, fun m hm => ?_, h.metadata, h.ssts, ?_, h.compactPc, h.registered, ?_⟩
  · exact h.immutables m (List.eraseP_subset hm)
  · show FlushPcOk _ (if registered then FlushPc.signalling else FlushPc.draining)
    split <;> trivial
  · have hunfl : World.unflushed { w with
        lsmt := unregisterImmutableMemtable w.lsmt memtable
        flushPc := if registered then .signalling else .draining } = tail := by
      simp only [World.unflushed, hnot, Bool.false_eq_true, if_false, unregisterImmutableMemtable,
        herase]
    rw [hunfl]
    refine h.inserted.trans (List.Perm.append_left _ (List.Perm.append_right _ ?_))
    cases registered with
    | true => simp [World.unflushed, hpc, FlushPc.registered, htail]
    | false => simp [World.unflushed, hpc, FlushPc.registered, htail, hempty rfl]

/-- A step of the flush daemon that leaves the store's data and the registration alone. -/
theorem World.Accounts.moveFlushPc {base : List KvRawRecord} {w w' : World} (h : w.Accounts base)
    (hmem : w'.lsmt.memtable = w.lsmt.memtable) (himm : w'.lsmt.immutables = w.lsmt.immutables)
    (hmeta : w'.lsmt.metadata = w.lsmt.metadata) (hreg : w'.flushPc.registered = w.flushPc.registered)
    (hcompact : w'.compactPc = w.compactPc) (hins : w'.inserted = w.inserted)
    (hfl : w'.flushed = w.flushed) (hok : FlushPcOk w.lsmt.immutables w'.flushPc) :
    w'.Accounts base := by
  have hunfl : w'.unflushed = w.unflushed := by
    simp only [World.unflushed, hreg, himm]
  have hacc : w'.accepted = w.accepted := by
    simp only [World.accepted, hins]
  exact ⟨hmem ▸ h.memtable, himm ▸ h.immutables, hmeta ▸ h.metadata, hmeta ▸ h.ssts, himm ▸ hok,
    hcompact ▸ h.compactPc, by rw [hmeta, hcompact, hfl]; exact h.registered,
    by rw [hacc, hmem, hunfl, hfl]; exact h.inserted⟩

theorem World.Accounts.flushDaemonStep {base : List KvRawRecord} {w w' : World} (h : w.Accounts base)
    (hwhole : w.RegistersWhole .flushDaemon) (hstep : w.FlushDaemonStep w') : w'.Accounts base := by
  have hok := h.flushPc
  cases hstep with
  | wake hpc => exact h.moveFlushPc rfl rfl rfl (by rw [hpc]; rfl) rfl rfl rfl trivial
  | idle hpc => exact h.moveFlushPc rfl rfl rfl (by rw [hpc]; rfl) rfl rfl rfl trivial
  | drain memtable rest hpc himm =>
    exact h.moveFlushPc rfl rfl rfl (by rw [hpc]; rfl) rfl rfl rfl (by rw [himm]; rfl)
  | writeError memtable hpc hdisk =>
    rw [hpc] at hok
    have hnil := records_of_writeError hdisk
    exact h.moveFlushPc rfl rfl rfl (by rw [hpc]; rfl) rfl rfl rfl ⟨hok, fun _ => hnil⟩
  | written memtable sst hpc hdisk =>
    rw [hpc] at hok
    exact h.moveFlushPc rfl rfl rfl (by rw [hpc]; rfl) rfl rfl rfl ⟨hok, hdisk⟩
  | overrun memtable hpc => exact h.moveFlushPc rfl rfl rfl rfl rfl rfl rfl hok
  | refused memtable sst hpc => exact h.moveFlushPc rfl rfl rfl rfl rfl rfl rfl hok
  | register memtable sst metadata hpc hadd => exact h.register hpc hwhole hadd _ _ _
  | writeFile memtable generation snapshot hpc =>
    rw [hpc] at hok
    obtain ⟨h1, h2, h3⟩ := writeMetadata_same w.lsmt generation snapshot
    exact h.moveFlushPc h1 h2 h3 (by rw [hpc]; rfl) rfl rfl rfl ⟨hok, by simp⟩
  | unregister memtable registered hpc => exact h.unregister hpc
  | signal hpc => exact h.moveFlushPc rfl rfl rfl (by rw [hpc]; rfl) rfl rfl rfl trivial

/-! ## The compaction -/

/-- A merge writes what could be read of its inputs, in key order. -/
theorem sstMerge_writes {inputs : List (SstMetadataRecord × IoFaults)} {newSst : SstMetadataRecord}
    (hok : ∀ i ∈ inputs, SstHolds i.1 i.1.records) (h : sstMerge inputs = some newSst) :
    ∃ id level out, newSst = writeSst id level out ∧ SstHolds newSst out ∧
      out.Perm (inputs.flatMap fun i => readableRecords i.2 i.1.records) := by
  rw [sstMerge] at h
  split at h
  · cases h
  · obtain ⟨out, hout, rfl⟩ := Option.map_eq_some_iff.mp h
    obtain ⟨hsorted, hperm⟩ := sstKIteratorsScan_sorted_perm
      (fun i hi => scansTo_all (hok i hi) i.2) hout
    have hread : ∀ r ∈ out, ∃ i ∈ inputs, r ∈ i.1.records := by
      intro r hr
      obtain ⟨i, hi, hri⟩ := List.mem_flatMap.mp (hperm.subset hr)
      exact ⟨i, hi, (readableRecords_sublist _ _).subset hri⟩
    refine ⟨_, _, out, rfl, sstHolds_writeSst _ _ (fun r hr => ?_) (fun r hr => ?_) (fun r hr => ?_)
      hsorted, hperm⟩
    · obtain ⟨i, hi, hri⟩ := hread r hr
      exact (hok i hi).wf r hri
    · obtain ⟨i, hi, hri⟩ := hread r hr
      exact (hok i hi).totalSize_lt r hri
    · obtain ⟨i, hi, hri⟩ := hread r hr
      exact (hok i hi).pos r hri

/-- The output is one tier above the first input. -/
theorem sstMerge_level {inputs : List (SstMetadataRecord × IoFaults)} {newSst : SstMetadataRecord}
    (h : sstMerge inputs = some newSst) : ∃ i ∈ inputs, newSst.level = i.1.level + 1 := by
  cases inputs with
  | nil => cases h
  | cons first rest =>
    obtain ⟨out, -, rfl⟩ := Option.map_eq_some_iff.mp h
    exact ⟨first, List.mem_cons_self, rfl⟩

/-- The output of a merge holds exactly what could be read of its inputs, one tier up. -/
theorem sstMerge_spec {inputs : List (SstMetadataRecord × IoFaults)} {newSst : SstMetadataRecord}
    (hok : ∀ i ∈ inputs, SstHolds i.1 i.1.records) (h : sstMerge inputs = some newSst) :
    SstHolds newSst newSst.records ∧
      newSst.records.Perm (inputs.flatMap fun i => readableRecords i.2 i.1.records) := by
  obtain ⟨id, level, out, -, hholds, hperm⟩ := sstMerge_writes hok h
  rw [hholds.records_eq]
  exact ⟨hholds, hperm⟩

/-- Without failures the output holds exactly the records of the inputs. -/
theorem sstMerge_none_spec {inputs : List SstMetadataRecord} {faults : List IoFaults}
    {newSst : SstMetadataRecord} (hne : inputs ≠ []) (hok : ∀ sst ∈ inputs, SstOk sst)
    (hlen : faults.length = inputs.length) (hnone : ∀ f ∈ faults, f = IoFaults.none)
    (h : sstMerge (inputs.zip faults) = some newSst) :
    SstOk newSst ∧ newSst.records.Perm (sstRecords inputs) := by
  obtain ⟨hholds, hperm⟩ := sstMerge_spec
    (fun i hi => (hok i.1 (List.of_mem_zip hi).1).holds) h
  have hread : (inputs.zip faults).flatMap (fun i => readableRecords i.2 i.1.records) =
      sstRecords inputs := by
    have hcongr : ∀ i ∈ inputs.zip faults,
        readableRecords i.2 i.1.records = i.1.records := by
      intro i hi
      rw [hnone i.2 (List.of_mem_zip hi).2, readableRecords_none]
    rw [List.flatMap_congr hcongr, sstRecords, ← List.flatMap_map Prod.fst,
      List.map_fst_zip (by omega)]
  rw [hread] at hperm
  refine ⟨⟨hholds, fun hnil => ?_⟩, hperm⟩
  obtain ⟨sst, hsst⟩ := List.exists_mem_of_ne_nil inputs hne
  have hnone' : sstRecords inputs = [] := by
    rw [hnil] at hperm
    exact hperm.symm.eq_nil
  exact (hok sst hsst).ne_nil (List.flatMap_eq_nil_iff.mp hnone' sst hsst)

/-- The selection loop takes registered records out of the list and nothing else. -/
theorem sstPopInputs_spec {tier sizeDelta : Nat} (fuel : Nat) {m : SstMetadata} (hm : m.Wf)
    (records : List SstMetadataRecord) :
    ∃ popped, (sstPopInputs tier sizeDelta fuel m records).1 = records ++ popped ∧
      (sstPopInputs tier sizeDelta fuel m records).2.Wf ∧
      m.records.Perm (popped ++ (sstPopInputs tier sizeDelta fuel m records).2.records) := by
  induction fuel generalizing m records with
  | zero => exact ⟨[], by simp [sstPopInputs], hm, List.Perm.refl _⟩
  | succ fuel ih =>
    rw [sstPopInputs]
    split
    · exact ⟨[], by simp, hm, List.Perm.refl _⟩
    · split
      · exact ⟨[], by simp, hm, List.Perm.refl _⟩
      · split
        · exact ⟨[], by simp, hm, List.Perm.refl _⟩
        · rename_i record m' hpop
          obtain ⟨hm', -, hperm⟩ := sstMetadataPop_spec hm hpop
          obtain ⟨popped, hfst, hwf, hrest⟩ := ih hm' (records ++ [record])
          refine ⟨record :: popped, by rw [hfst, List.append_assoc]; rfl, hwf, ?_⟩
          exact hperm.trans (hrest.cons record)

/-- A step of the compaction that leaves the list and what is held alone. -/
theorem World.Accounts.moveCompactPc {base : List KvRawRecord} {w w' : World} (h : w.Accounts base)
    (hmem : w'.lsmt.memtable = w.lsmt.memtable) (himm : w'.lsmt.immutables = w.lsmt.immutables)
    (hmeta : w'.lsmt.metadata = w.lsmt.metadata) (hheld : w'.compactPc.held = w.compactPc.held)
    (hflush : w'.flushPc = w.flushPc) (hins : w'.inserted = w.inserted)
    (hfl : w'.flushed = w.flushed) (hok : CompactPcOk w'.compactPc) : w'.Accounts base := by
  have hunfl : w'.unflushed = w.unflushed := by
    simp only [World.unflushed, hflush, himm]
  have hacc : w'.accepted = w.accepted := by
    simp only [World.accepted, hins]
  exact ⟨hmem ▸ h.memtable, himm ▸ h.immutables, hmeta ▸ h.metadata, hmeta ▸ h.ssts,
    by rw [himm, hflush]; exact h.flushPc, hok, by rw [hmeta, hheld, hfl]; exact h.registered,
    by rw [hacc, hmem, hunfl, hfl]; exact h.inserted⟩

/-- Popping the inputs of a tier moves their records from the list to the compaction. -/
theorem World.Accounts.scan {base : List KvRawRecord} {w w' : World} (h : w.Accounts base)
    {pass : CompactPass} (hpc : w.compactPc = .scanning pass) (hscan : w.Scans pass w') :
    w'.Accounts base := by
  cases hscan with
  | finish htier =>
    refine h.moveCompactPc rfl rfl rfl ?_ rfl rfl rfl ?_
    · rw [hpc]
      show (if pass.mustFlush then CompactPc.snapshotting pass.sstToDelete else .waiting).held = []
      split <;> rfl
    · show CompactPcOk (if pass.mustFlush then CompactPc.snapshotting pass.sstToDelete else .waiting)
      split <;> trivial
  | select selected htier hsize hselected =>
    subst hselected
    obtain ⟨popped, hfst, hwf, hperm⟩ := @sstPopInputs_spec pass.tier
      (w.lsmt.metadata.tierSize pass.tier - tierSizeThreshold pass.tier)
      sstableMergeLimit _ h.metadata []
    rw [List.nil_append] at hfst
    have hpopped : ∀ sst ∈ popped, SstOk sst :=
      fun sst hsst => h.ssts sst (hperm.symm.subset (List.mem_append_left _ hsst))
    have hheld : (if popped.length < 2 then CompactPc.quitting popped
        else CompactPc.mergeWait pass popped).held = popped := by
      split <;> rfl
    refine ⟨h.memtable, h.immutables, hwf, fun sst hsst => ?_, h.flushPc, ?_, ?_, h.inserted⟩
    · exact h.ssts sst (hperm.symm.subset (List.mem_append_right _ hsst))
    · simp only [hfst]
      split
      · exact hpopped
      · rename_i hlen
        refine ⟨fun hnil => hlen ?_, hpopped⟩
        rw [hnil]
        decide
    · simp only [hfst, hheld]
      have hreg := h.registered
      rw [hpc, show (CompactPc.scanning pass).held = [] from rfl, sstRecords_nil,
        List.append_nil] at hreg
      rw [← sstRecords_append]
      exact ((sstRecords_perm (hperm.trans List.perm_append_comm)).symm).trans hreg
  | skip htier hsize => exact h.moveCompactPc rfl rfl rfl (by rw [hpc]; rfl) rfl rfl rfl trivial

/-- Registering the output replaces the records of the inputs by the same records. -/
theorem World.Accounts.addMerged {base : List KvRawRecord} {w : World} (h : w.Accounts base)
    {pass : CompactPass} {inputs : List SstMetadataRecord} {newSst : SstMetadataRecord}
    (hpc : w.compactPc = .adding pass inputs newSst) {metadata : SstMetadata}
    (hadd : sstMetadataAdd w.lsmt.metadata newSst = some metadata) (pass' : CompactPass)
    (released : List SstMetadataRecord) :
    World.Accounts base { w with
      lsmt := { w.lsmt with metadata := metadata }
      compactPc := .scanning pass'
      retired := w.retired ++ released } := by
  obtain ⟨hwf, hrecords⟩ := sstMetadataAdd_spec h.metadata hadd
  have hok := h.compactPc
  rw [hpc] at hok
  obtain ⟨-, -, hnew, hperm⟩ := hok
  refine ⟨h.memtable, h.immutables, hwf, fun sst hsst => ?_, h.flushPc, trivial, ?_, h.inserted⟩
  · simp only [hrecords] at hsst
    rcases List.mem_cons.mp hsst with rfl | hsst
    · exact hnew
    · exact h.ssts sst hsst
  · have hreg := h.registered
    rw [hpc, show (CompactPc.adding pass inputs newSst).held = inputs from rfl] at hreg
    show (sstRecords metadata.records ++ []).Perm _
    rw [List.append_nil, hrecords, sstRecords_cons]
    exact ((hperm.append_right _).trans List.perm_append_comm).trans hreg

theorem World.Accounts.compactStep {base : List KvRawRecord} {w w' : World} (h : w.Accounts base)
    {faults : List IoFaults} (hnone : ∀ f ∈ faults, f = IoFaults.none)
    (hstep : w.CompactStep faults w') : w'.Accounts base := by
  have hok := h.compactPc
  cases hstep with
  | wake hpc => exact h.moveCompactPc rfl rfl rfl (by rw [hpc]; rfl) rfl rfl rfl trivial
  | start hpc => exact h.moveCompactPc rfl rfl rfl (by rw [hpc]; rfl) rfl rfl rfl trivial
  | scan pass w' hpc hscan => exact h.scan hpc (compactScan_cases hscan)
  | merge pass inputs hpc =>
    rw [hpc] at hok
    exact h.moveCompactPc rfl rfl rfl (by rw [hpc]; rfl) rfl rfl rfl hok
  | mergeStops pass inputs hpc => exact h.moveCompactPc rfl rfl rfl rfl rfl rfl rfl hok
  | merged pass inputs newSst hpc hlen hmerge =>
    rw [hpc] at hok
    obtain ⟨hne, hinputs⟩ := hok
    obtain ⟨hnew, hperm⟩ := sstMerge_none_spec hne hinputs hlen hnone hmerge
    exact h.moveCompactPc rfl rfl rfl (by rw [hpc]; rfl) rfl rfl rfl ⟨hne, hinputs, hnew, hperm⟩
  | refused pass inputs newSst hpc => exact h.moveCompactPc rfl rfl rfl rfl rfl rfl rfl hok
  | add pass inputs newSst metadata hpc hadd => exact h.addMerged hpc hadd _ _
  | copyList sstToDelete hpc =>
    exact h.moveCompactPc rfl rfl rfl (by rw [hpc]; rfl) rfl rfl rfl trivial
  | writeFile generation snapshot sstToDelete hpc =>
    obtain ⟨h1, h2, h3⟩ := writeMetadata_same w.lsmt generation snapshot
    exact h.moveCompactPc h1 h2 h3 (by rw [hpc]; rfl) rfl rfl rfl trivial
  | release sstToDelete hpc =>
    exact h.moveCompactPc rfl rfl rfl (by rw [hpc]; rfl) rfl rfl rfl trivial
  | quit inputs hpc => exact h.moveCompactPc rfl rfl rfl rfl rfl rfl rfl hok

/-! ## The calls of `lsmt_insert` -/

/-- The record a new call inserts. -/
def Action.insertedNode : Action → Option (SlUint128 × Bytes)
  | .insert key content => some (key, content)
  | _ => none

/-- Each call in progress and each returned one is in the history of insertions. -/
structure World.CallsOk (w : World) : Prop where
  inserting : ∀ call ∈ w.inserting, ∃ c ∈ w.inserted, c.node = call.node ∧ c.rv = call.rv
  returned : ∀ call ∈ w.returned, ∃ c ∈ w.inserted, c.node = call.node ∧ c.rv = call.rv

theorem World.CallsOk.of_same {w w' : World} (h : w.CallsOk) (hsame : w.SameCalls w') :
    w'.CallsOk where
  inserting call hcall := by
    rw [hsame.inserting] at hcall
    rw [hsame.inserted]
    exact h.inserting call hcall
  returned call hcall := by
    rw [hsame.returned] at hcall
    rw [hsame.inserted]
    exact h.returned call hcall

theorem World.CallsOk.step (w : World) (a : Action) (w' : World) (_ : True) (h : w.CallsOk)
    (hstep : w.step a = some w') : w'.CallsOk := by
  cases (World.step_cases hstep).2 with
  | insert key content hwaits call hcall =>
    refine ⟨fun c hc => ?_, fun c hc => ?_⟩
    · rcases List.mem_append.mp hc with hc | hc
      · obtain ⟨c', hc', heq⟩ := h.inserting c hc
        exact ⟨c', List.mem_append_left _ hc', heq⟩
      · exact ⟨c, List.mem_append_right _ hc, rfl, rfl⟩
    · obtain ⟨c', hc', heq⟩ := h.returned c hc
      exact ⟨c', List.mem_append_left _ hc', heq⟩
  | insertSignal i call hget hspawn =>
    have hmem : call ∈ w.inserting := List.mem_of_getElem? hget
    refine ⟨fun c hc => ?_, h.returned⟩
    rcases List.mem_or_eq_of_mem_set hc with hc | rfl
    · exact h.inserting c hc
    · exact h.inserting call hmem
  | insertReturn i call hget hspawn =>
    have hmem : call ∈ w.inserting := List.mem_of_getElem? hget
    refine ⟨fun c hc => h.inserting c (List.mem_of_mem_eraseIdx hc), fun c hc => ?_⟩
    rcases List.mem_append.mp hc with hc | hc
    · exact h.returned c hc
    · rw [List.mem_singleton.mp hc]
      exact h.inserting call hmem
  | flushDaemon _ hstep => exact h.of_same hstep.sameCalls
  | compact faults _ hstep => exact h.of_same hstep.sameCalls
  | _ => exact h.of_same ⟨rfl, rfl, rfl⟩

/-- Only `lsmt_insert` adds to the history. -/
theorem World.step_inserted_eq {w w' : World} {a : Action} (ha : ∀ key content, a ≠ .insert key content)
    (hstep : w.step a = some w') : w'.inserted = w.inserted := by
  cases (World.step_cases hstep).2 with
  | insert key content => exact absurd rfl (ha key content)
  | flushDaemon _ hstep => exact hstep.sameCalls.inserted
  | compact faults _ hstep => exact hstep.sameCalls.inserted
  | _ => rfl

/-- The history of insertions grows by the call a step starts. -/
theorem World.step_inserted {w w' : World} {a : Action} (h : w.step a = some w') :
    w'.inserted.map InsertCall.node = w.inserted.map InsertCall.node ++ a.insertedNode.toList := by
  by_cases ha : ∃ key content, a = .insert key content
  · obtain ⟨key, content, rfl⟩ := ha
    cases (World.step_cases h).2 with
    | insert key content hwaits call hcall =>
      subst hcall
      exact List.map_append
  · rw [World.step_inserted_eq (fun key content heq => ha ⟨key, content, heq⟩) h]
    have hnone : a.insertedNode = none := by
      cases a with
      | insert key content => exact absurd ⟨key, content, rfl⟩ ha
      | _ => rfl
    rw [hnone, Option.toList_none, List.append_nil]

/-- The insertions of a run, in the order in which they take the lock. -/
def insertedNodes (as : List Action) : List (SlUint128 × Bytes) :=
  as.filterMap Action.insertedNode

theorem World.run_inserted {w w' : World} {as : List Action} (h : run World.step w as = some w') :
    w'.inserted.map InsertCall.node = w.inserted.map InsertCall.node ++ insertedNodes as := by
  induction as generalizing w with
  | nil =>
    cases h
    simp [insertedNodes]
  | cons a as ih =>
    obtain ⟨m, hm, hrest⟩ := run_cons_eq_some.mp h
    rw [ih hrest, World.step_inserted hm, List.append_assoc]
    congr 1
    cases hnode : a.insertedNode <;> simp [insertedNodes, hnode]

/-! ## The memtables -/

/-- What a step does to the memtables: an insertion, none, a rotation by `lsmt_flush`, or the flush
daemon drops the one it has written. -/
theorem World.step_memtables {w w' : World} {a : Action} (hstep : w.step a = some w') :
    (∃ key content, a = .insert key content ∧
      w'.lsmt.memtable = (slInsert (lsmtRotate w.lsmt).1.memtable key content).1 ∧
      w'.lsmt.immutables = (lsmtRotate w.lsmt).1.immutables) ∨
    (a.insertedNode = none ∧ w'.lsmt.memtable = w.lsmt.memtable ∧
      w'.lsmt.immutables = w.lsmt.immutables) ∨
    (a = .flush ∧ (∃ addr, w'.lsmt.memtable = slInit addr) ∧
      w'.lsmt.immutables = w.lsmt.immutables ++ [w.lsmt.memtable]) ∨
    (∃ memtable registered, a = .flushDaemon ∧ w.flushPc = .unregistering memtable registered ∧
      w'.lsmt.memtable = w.lsmt.memtable ∧
      w'.lsmt.immutables = w.lsmt.immutables.eraseP fun m => m.addr = memtable.addr) := by
  cases (World.step_cases hstep).2 with
  | insert key content => exact Or.inl ⟨key, content, rfl, rfl, rfl⟩
  | flush hroom => exact Or.inr (Or.inr (Or.inl ⟨rfl, ⟨_, rfl⟩, rfl⟩))
  | flushDaemon _ hdaemon =>
    cases hdaemon with
    | writeFile memtable generation snapshot hpc =>
      obtain ⟨hmem, himm, -⟩ := writeMetadata_same w.lsmt generation snapshot
      exact Or.inr (Or.inl ⟨rfl, hmem, himm⟩)
    | unregister memtable registered hpc =>
      exact Or.inr (Or.inr (Or.inr ⟨memtable, registered, rfl, hpc, rfl, rfl⟩))
    | _ => exact Or.inr (Or.inl ⟨rfl, rfl, rfl⟩)
  | compact faults _ hcompact =>
    exact Or.inr (Or.inl ⟨rfl, hcompact.sameFlush.memtable, hcompact.sameFlush.immutables⟩)
  | _ => exact Or.inr (Or.inl ⟨rfl, rfl, rfl⟩)

/-- A rotation moves a memtable and its nodes. -/
theorem lsmtRotate_inMemory (lsmt : LsmtState) (node : SlUint128 × Bytes) :
    (lsmtRotate lsmt).1.InMemory node ↔ lsmt.InMemory node := by
  rcases lsmtRotate_cases lsmt with hrot | ⟨threads, needSpawn, -, hrot⟩
  · rw [hrot]
  · rw [hrot]
    simp [LsmtState.InMemory, registerImmutable, slInit, or_comm]

section InMemory

variable {base : List KvRawRecord} {w w' : World} {a : Action} {node : SlUint128 × Bytes}

theorem World.Accounts.rotated_wf (h : w.Accounts base) : (lsmtRotate w.lsmt).1.memtable.Wf :=
  lsmtRotate_wf h.memtable

/-- A node that is in a memtable was there before, or the step has inserted it. -/
theorem World.Accounts.inMemory_of_step (h : w.Accounts base) (hstep : w.step a = some w')
    (hn : w'.lsmt.InMemory node) :
    w.lsmt.InMemory node ∨ a.insertedNode = some node ∧ ¬ w.lsmt.Refuses node.1 := by
  obtain ⟨m, hm, hnode⟩ := hn
  rcases World.step_memtables hstep with ⟨key, content, rfl, hmem, himm⟩ | ⟨-, hmem, himm⟩ |
    ⟨-, ⟨addr, hmem⟩, himm⟩ | ⟨memtable, registered, -, -, hmem, himm⟩
  · rw [hmem, himm] at hm
    rw [← lsmtRotate_inMemory]
    rcases List.mem_cons.mp hm with rfl | hm
    · rcases slInsert_cases h.rotated_wf key content with
        ⟨hins, -⟩ | ⟨sl', hins, haccepts, -, -, hperm⟩
      · rw [hins] at hnode
        exact Or.inl ⟨_, List.mem_cons_self, hnode⟩
      · rw [hins] at hnode
        rcases List.mem_cons.mp (hperm.subset hnode) with rfl | hnode
        · exact Or.inr ⟨rfl, haccepts⟩
        · exact Or.inl ⟨_, List.mem_cons_self, hnode⟩
    · exact Or.inl ⟨m, List.mem_cons_of_mem _ hm, hnode⟩
  · rw [hmem, himm] at hm
    exact Or.inl ⟨m, hm, hnode⟩
  · rw [hmem, himm] at hm
    rcases List.mem_cons.mp hm with rfl | hm
    · cases hnode
    · rcases List.mem_append.mp hm with hm | hm
      · exact Or.inl ⟨m, List.mem_cons_of_mem _ hm, hnode⟩
      · rw [List.mem_singleton.mp hm] at hnode
        exact Or.inl ⟨_, List.mem_cons_self, hnode⟩
  · rw [hmem, himm] at hm
    rcases List.mem_cons.mp hm with rfl | hm
    · exact Or.inl ⟨_, List.mem_cons_self, hnode⟩
    · exact Or.inl ⟨m, List.mem_cons_of_mem _ (List.eraseP_subset hm), hnode⟩

end InMemory

/-! ## Runs -/

/-- Merges that can read their inputs and flushes that cut nothing short keep the accounts. -/
theorem World.Accounts.step {base : List KvRawRecord} {w w' : World} {a : Action}
    (ha : ∀ faults, a = .compact faults → ∀ f ∈ faults, f = IoFaults.none)
    (hwhole : w.RegistersWhole a) (h : w.Accounts base) (hstep : w.step a = some w') : w'.Accounts base := by
  cases (World.step_cases hstep).2 with
  | insert key content hwaits call hcall => exact h.insert key content hcall
  | flush hroom =>
    have hrot := h.rotate ⟨w.lsmt.activeBackgroundThreads, rfl⟩
    exact ⟨hrot.1, hrot.2, hrot.3, hrot.4, hrot.5, hrot.6, hrot.7, hrot.8⟩
  | flushDaemon _ hdaemon => exact h.flushDaemonStep hwhole hdaemon
  | compact faults _ hcompact => exact h.compactStep (ha faults rfl) hcompact
  | _ => exact ⟨h.1, h.2, h.3, h.4, h.5, h.6, h.7, h.8⟩

/-- Contents in the format of the store are not cut short. -/
theorem World.Inv.registersWhole {base : List KvRawRecord} {w : World} (h : w.Inv base) (a : Action) :
    w.RegistersWhole a := by
  intro memtable sst _ hpc n hn
  have hok := h.flushPc
  rw [hpc] at hok
  exact ((h.immutables memtable (List.mem_of_head? hok.1)).consistent n hn).not_cutShort

/-- Every sound step keeps the invariant. -/
theorem World.Inv.step {base : List KvRawRecord} (w : World) (a : Action) (w' : World)
    (ha : a.SoundIn w.lsmt) (h : w.Inv base) (hstep : w.step a = some w') : w'.Inv base := by
  obtain ⟨haccounts, hconsistent⟩ := World.inv_iff.mp h
  refine World.inv_iff.mpr ⟨haccounts.step ?_ (h.registersWhole a) hstep, fun n hn => ?_⟩
  · rintro faults rfl
    exact ha
  · rcases haccounts.inMemory_of_step hstep hn with hold | ⟨hins, haccepts⟩
    · exact hconsistent n hold
    · obtain rfl : a = .insert n.1 n.2 := by
        cases a <;> cases hins
        rfl
      exact Or.resolve_left ha haccepts

/-- Every run of sound actions keeps the invariant. -/
theorem World.Inv.run {base : List KvRawRecord} {w w' : World} (h : w.Inv base)
    {as : List Action} (has : ∀ a ∈ as, a.Sound) (hrun : run World.step w as = some w') :
    w'.Inv base :=
  run_invariant (fun w a w' (ha : a.Sound) => World.Inv.step w a w' (ha.soundIn w.lsmt)) has h hrun

/-- Every sound run from an empty store establishes the invariant. -/
theorem World.inv_of_run {as : List Action} (has : ∀ a ∈ as, a.Sound) {w : World}
    (hrun : run World.step (World.init lsmtInit) as = some w) : w.Inv [] := by
  have hinit := World.inv_init SstMetadata.wf_sstMetadataInit (by simp [SstMetadata.records,
    sstMetadataInit])
  exact hinit.run has hrun

end RaftLsmt.Lsmt
