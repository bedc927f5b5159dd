import RaftLsmt.Lsmt.SstLifetime

/-!
# The lifetime of memtables

A `sl_t` is counted as an SST record is: `sl_init` gives the store one reference, which a rotation
hands to the array of immutables and `unregister_immutable_memtable` gives up, and every iterator
over the memtable holds one. The flush daemon and the insertions read a memtable without a reference
of their own. `MemtableLifetime` is the store together with the counts, the release that the daemon
has yet to make and the iterators of any number of query threads.

`MemtableLifetime.Inv` says who holds the references; `memtable_lifetime` is what follows: a memtable
is freed once, behind its flush, and no thread reads it afterwards.
-/

set_option autoImplicit false

namespace RaftLsmt.Lsmt

open RaftLsmt.Lib.StepMachine
open RaftLsmt.Lib.RefCount

/-! ## The machine -/

/-- The store with the counts of its memtables. `releasing` is the memtable that
`unregister_immutable_memtable` has taken out of the array and is about to release, `creating` the one
that `lsmt_iterator_create` has looked at and is about to retain, and `readers` are the memtables of
the open iterators. `unregistered` is history: what has left the array, and whether with an SST. -/
structure MemtableLifetime where
  world : World
  heap : RefHeap
  releasing : Option Nat
  creating : Option Nat
  readers : List Nat
  unregistered : List (Sl × Bool)

/-- What happens next: a step of the store, the release of the flush daemon, or a step of an
iterator. -/
inductive MemtableAction where
  | store (a : Action)
  | release
  | readerCreate
  | readerRetain
  | readerRead (i : Nat)
  | readerClose (i : Nat)

/-- The active memtable and those of the array. -/
def LsmtState.memtableAddrs (lsmt : LsmtState) : List Nat :=
  lsmt.memtable.addr :: lsmt.immutables.map Sl.addr

/-- The steps of the store that take `memtable_rwlock` for writing. -/
def World.locksMemtable (w : World) : Action → Bool
  | .insert _ _ => true
  | .flush => true
  | .flushDaemon =>
    match w.flushPc with
    | .draining => true
    | .unregistering _ _ => true
    | _ => false
  | _ => false

/-- The steps of the flush daemon. -/
def Action.ofFlushDaemon : Action → Bool
  | .flushDaemon => true
  | _ => false

/-- The memtable that the step takes out of the array. -/
def World.unregisters (w : World) : Action → Option (Sl × Bool)
  | .flushDaemon =>
    match w.flushPc with
    | .unregistering memtable registered => some (memtable, registered)
    | _ => none
  | _ => none

/-- The memtable that the step of the store reads. -/
def World.readsMemtable (w : World) : Action → Option Nat
  | .insert _ _ => some w.lsmt.memtable.addr
  | .flushDaemon =>
    match w.flushPc with
    | .writing memtable => some memtable.addr
    | _ => none
  | _ => none

namespace MemtableLifetime

/-- The store before its first step, with its first memtable. -/
def init : MemtableLifetime where
  world := World.init lsmtInit
  heap := RefHeap.empty.alloc
  releasing := none
  creating := none
  readers := []
  unregistered := []

/-- A step of the store. `lsmt_iterator_create` holds both locks while it is at work, and the flush
daemon goes on when it has released the memtable. -/
def storeStep (s : MemtableLifetime) (a : Action) : Option MemtableLifetime :=
  if s.creating.isSome ∧ (s.world.locksMemtable a = true ∨ s.world.locksMetadata a = true) then none
  else if s.releasing.isSome ∧ a.ofFlushDaemon = true then none
  else
    match s.world.step a with
    | none => none
    | some w =>
      some { s with
        world := w
        heap := if w.lsmt.nextAddr = s.world.lsmt.nextAddr then s.heap else s.heap.alloc
        releasing :=
          match s.world.unregisters a with
          | some (memtable, _) => some memtable.addr
          | none => s.releasing
        unregistered := s.unregistered ++ (s.world.unregisters a).toList }

/-- One step of one thread. -/
def step (s : MemtableLifetime) (act : MemtableAction) : Option MemtableLifetime :=
  if s.world.status ≠ .running then none
  else
    match act with
    | .store a => s.storeStep a
    | .release =>
      match s.releasing with
      | none => none
      | some a => some { s with heap := s.heap.release a, releasing := none }
    | .readerCreate =>
      if s.creating.isSome ∨ s.world.lsmt.memtable.size = 0 then none
      else some { s with creating := some s.world.lsmt.memtable.addr }
    | .readerRetain =>
      match s.creating with
      | none => none
      | some a => some { s with heap := s.heap.retain a, creating := none, readers := a :: s.readers }
    | .readerRead i => if i < s.readers.length then some s else none
    | .readerClose i =>
      match s.readers[i]? with
      | none => none
      | some a => some { s with heap := s.heap.release a, readers := s.readers.eraseIdx i }

/-- The memtable that a step reads or counts. -/
def reads (s : MemtableLifetime) : MemtableAction → Option Nat
  | .store a => s.world.readsMemtable a
  | .release => s.releasing
  | .readerCreate => some s.world.lsmt.memtable.addr
  | .readerRetain => s.creating
  | .readerRead i => s.readers[i]?
  | .readerClose i => s.readers[i]?

/-- The memtables of the store, and the one its daemon has yet to release. -/
def owners (s : MemtableLifetime) : List Nat := s.world.lsmt.memtableAddrs ++ s.releasing.toList

end MemtableLifetime

/-! ## What the store keeps -/

/-- The memtable the flush daemon works on. -/
def FlushPc.memtable : FlushPc → Option Sl
  | .writing memtable => some memtable
  | .registering memtable _ => some memtable
  | .writingMetadata memtable _ _ => some memtable
  | .unregistering memtable _ => some memtable
  | _ => none

/-- The flush daemon has registered the SST of the memtable. -/
def World.Flushed (w : World) (m : Sl) : Prop := ∃ sst ∈ w.flushed, SstOf sst m

/-- What has left the array was empty, or its SST is registered. -/
def World.Left (w : World) (m : Sl) (registered : Bool) : Prop :=
  if registered then w.Flushed m else m.bottomLevel = []

theorem World.Left.mono {w w' : World} {m : Sl} {registered : Bool} (h : w.Left m registered)
    (hflushed : w.flushed ⊆ w'.flushed) : w'.Left m registered := by
  cases registered with
  | true =>
    obtain ⟨sst, hsst, hholds⟩ := h
    exact ⟨sst, hflushed hsst, hholds⟩
  | false => exact h

theorem World.flushed_subset_step {w w' : World} {a : Action} (hstep : w.step a = some w') :
    w.flushed ⊆ w'.flushed := by
  cases (World.step_cases hstep).2 with
  | flushDaemon _ hdaemon =>
    cases hdaemon with
    | register memtable sst metadata hpc hadd => exact List.subset_append_left _ _
    | _ => exact List.Subset.refl _
  | compact faults _ hcompact =>
    rw [hcompact.sameFlush.flushed]
    exact List.Subset.refl _
  | _ => exact List.Subset.refl _

/-- The memtables are well formed, and the flush daemon works on the first of the array; behind the
registration its records are in an SST. -/
structure World.MemtablesOk (w : World) : Prop where
  memtable : w.lsmt.memtable.Wf
  immutables : ∀ m ∈ w.lsmt.immutables, m.Wf
  flushPc : FlushPcOk w.lsmt.immutables w.flushPc
  flushed : ∀ m, w.flushPc.memtable = some m → w.flushPc.registered = true → w.Flushed m

theorem FlushPcOk.head {immutables : List Sl} {pc : FlushPc} (h : FlushPcOk immutables pc) {m : Sl}
    (hm : pc.memtable = some m) : immutables.head? = some m := by
  cases pc with
  | writing memtable =>
    cases hm
    exact h
  | registering memtable sst =>
    cases hm
    exact h.1
  | writingMetadata memtable generation snapshot =>
    cases hm
    exact h
  | unregistering memtable registered =>
    cases hm
    exact h.1
  | waiting => cases hm
  | draining => cases hm
  | signalling => cases hm

namespace World.MemtablesOk

variable {w w' : World}

theorem rotate (h : w.MemtablesOk) (threads : Nat) :
    World.MemtablesOk { w with
      lsmt := { registerImmutable w.lsmt with activeBackgroundThreads := threads } } where
  memtable := Sl.wf_slInit _
  immutables m hm := by
    rcases List.mem_append.mp hm with hm | hm
    · exact h.immutables m hm
    · rw [List.mem_singleton.mp hm]
      exact h.memtable
  flushPc := h.flushPc.append _
  flushed := h.flushed

theorem insert (h : w.MemtablesOk) (key : SlUint128) (content : Bytes) (calls : List InsertCall)
    (inserted : List InsertCall) :
    World.MemtablesOk { w with
      lsmt := (lsmtInsertLocked w.lsmt key content).2.2
      inserting := calls
      inserted := inserted } := by
  have hinsert : ∀ {w : World}, w.MemtablesOk → World.MemtablesOk { w with
      lsmt := { w.lsmt with memtable := (slInsert w.lsmt.memtable key content).1 }
      inserting := calls
      inserted := inserted } := by
    intro w h
    refine ⟨?_, h.immutables, h.flushPc, h.flushed⟩
    rcases slInsert_cases h.memtable key content with ⟨hins, -⟩ | ⟨sl', hins, -, hwf, -⟩
    · rw [hins]
      exact h.memtable
    · rw [hins]
      exact hwf
  unfold lsmtInsertLocked
  rcases lsmtRotate_cases w.lsmt with hrot | ⟨threads, needSpawn, -, hrot⟩
  · rw [hrot]
    exact hinsert h
  · rw [hrot]
    exact hinsert (h.rotate threads)

theorem flushDaemonStep (h : w.MemtablesOk) (hstep : w.FlushDaemonStep w') : w'.MemtablesOk := by
  have hok := h.flushPc
  have hflushed := h.flushed
  cases hstep with
  | wake hpc => exact ⟨h.memtable, h.immutables, trivial, nofun⟩
  | idle hpc himm => exact ⟨h.memtable, h.immutables, trivial, nofun⟩
  | drain memtable rest hpc himm =>
    refine ⟨h.memtable, h.immutables, ?_, nofun⟩
    show w.lsmt.immutables.head? = some memtable
    rw [himm]
    rfl
  | writeError memtable hpc hdisk =>
    rw [hpc] at hok
    exact ⟨h.memtable, h.immutables, ⟨hok, fun _ => records_of_writeError hdisk⟩, nofun⟩
  | written memtable sst hpc hdisk =>
    rw [hpc] at hok
    exact ⟨h.memtable, h.immutables, ⟨hok, hdisk⟩, nofun⟩
  | overrun memtable hpc hdisk => exact ⟨h.memtable, h.immutables, h.flushPc, h.flushed⟩
  | refused memtable sst hpc hadd => exact ⟨h.memtable, h.immutables, h.flushPc, h.flushed⟩
  | register memtable sst metadata hpc hadd =>
    rw [hpc] at hok
    refine ⟨h.memtable, h.immutables, hok.1, ?_⟩
    intro m hm _
    cases hm
    -- the SST of the memtable is the one that has just been added
    exact ⟨_, List.mem_append_right _ List.mem_cons_self,
      sstOf_of_written (h.immutables memtable (List.mem_of_head? hok.1)) hok.2 _⟩
  | writeFile memtable generation snapshot hpc =>
    rw [hpc] at hok hflushed
    obtain ⟨hmem, himm, -⟩ := writeMetadata_same w.lsmt generation snapshot
    refine ⟨?_, ?_, ⟨?_, nofun⟩, ?_⟩
    · show (writeMetadata w.lsmt generation snapshot).memtable.Wf
      rw [hmem]
      exact h.memtable
    · show ∀ m ∈ (writeMetadata w.lsmt generation snapshot).immutables, m.Wf
      rw [himm]
      exact h.immutables
    · show (writeMetadata w.lsmt generation snapshot).immutables.head? = some memtable
      rw [himm]
      exact hok
    · intro m hm _
      cases hm
      exact hflushed memtable rfl rfl
  | unregister memtable registered hpc =>
    refine ⟨h.memtable, fun m hm => h.immutables m (List.eraseP_subset hm), ?_, ?_⟩
    · show FlushPcOk _ (if registered then FlushPc.signalling else FlushPc.draining)
      split <;> trivial
    · cases registered <;> exact nofun
  | signal hpc => exact ⟨h.memtable, h.immutables, trivial, nofun⟩

theorem step (h : w.MemtablesOk) {a : Action} (hstep : w.step a = some w') : w'.MemtablesOk := by
  cases (World.step_cases hstep).2 with
  | insert key content hwaits call hcall => exact h.insert key content _ _
  | flush hroom =>
    have hrotate := h.rotate w.lsmt.activeBackgroundThreads
    exact ⟨hrotate.memtable, hrotate.immutables, hrotate.flushPc, hrotate.flushed⟩
  | flushDaemon _ hdaemon => exact h.flushDaemonStep hdaemon
  | compact faults _ hcompact =>
    have hsame := hcompact.sameFlush
    refine ⟨?_, ?_, ?_, ?_⟩
    · rw [hsame.memtable]
      exact h.memtable
    · rw [hsame.immutables]
      exact h.immutables
    · rw [hsame.immutables, hsame.flushPc]
      exact h.flushPc
    · unfold World.Flushed
      rw [hsame.flushPc, hsame.flushed]
      exact h.flushed
  | _ => exact ⟨h.memtable, h.immutables, h.flushPc, h.flushed⟩

end World.MemtablesOk

/-- What a step does to the memtables of the store: nothing, a rotation, or the first of the array
leaves it. -/
inductive World.MemtableStep (w w' : World) (a : Action) : Prop where
  | same (hmem : w'.lsmt.memtable.addr = w.lsmt.memtable.addr)
      (himm : w'.lsmt.immutables = w.lsmt.immutables) (hnext : w'.lsmt.nextAddr = w.lsmt.nextAddr)
      (hnone : w.unregisters a = none)
  | rotates (hmem : w'.lsmt.memtable.addr = w.lsmt.nextAddr)
      (himm : w'.lsmt.immutables = w.lsmt.immutables ++ [w.lsmt.memtable])
      (hnext : w'.lsmt.nextAddr = w.lsmt.nextAddr + 1) (hnone : w.unregisters a = none)
      (hlocks : w.locksMemtable a = true)
  | unregisters (memtable : Sl) (registered : Bool) (rest : List Sl) (ha : a = .flushDaemon)
      (hpc : w.flushPc = .unregistering memtable registered)
      (hmem : w'.lsmt.memtable.addr = w.lsmt.memtable.addr)
      (hfirst : w.lsmt.immutables = memtable :: rest) (himm : w'.lsmt.immutables = rest)
      (hnext : w'.lsmt.nextAddr = w.lsmt.nextAddr)

theorem slInsert_addr (sl : Sl) (key : SlUint128) (content : Bytes) :
    (slInsert sl key content).1.addr = sl.addr := by
  rw [slInsert]
  split
  · rfl
  · simp only
    split <;> rfl

theorem writeMetadata_nextAddr (lsmt : LsmtState) (generation : Nat) (snapshot : MetadataSnapshot) :
    (writeMetadata lsmt generation snapshot).nextAddr = lsmt.nextAddr := by
  rw [writeMetadata]
  split <;> rfl

theorem World.CompactStep.nextAddr {w w' : World} {faults : List IoFaults}
    (h : w.CompactStep faults w') : w'.lsmt.nextAddr = w.lsmt.nextAddr := by
  cases h with
  | scan pass _ hpc hscan => cases compactScan_cases hscan <;> rfl
  | writeFile generation snapshot sstToDelete hpc => exact writeMetadata_nextAddr _ _ _
  | _ => rfl

theorem World.MemtablesOk.memtableStep {w w' : World} (h : w.MemtablesOk) {a : Action}
    (hstep : w.step a = some w') : w.MemtableStep w' a := by
  cases (World.step_cases hstep).2 with
  | insert key content hwaits call hcall =>
    unfold lsmtInsertLocked
    rcases lsmtRotate_cases w.lsmt with hrot | ⟨threads, needSpawn, -, hrot⟩
    · rw [hrot]
      exact .same (slInsert_addr _ _ _) rfl rfl rfl
    · rw [hrot]
      exact .rotates (slInsert_addr _ _ _) rfl rfl rfl rfl
  | flush hroom => exact .rotates rfl rfl rfl rfl rfl
  | flushDaemon _ hdaemon =>
    cases hdaemon with
    | unregister memtable registered hpc =>
      obtain ⟨rest, hfirst⟩ := List.head?_eq_some_iff.mp (h.flushPc.head (by rw [hpc]; rfl))
      refine .unregisters memtable registered rest rfl hpc rfl hfirst ?_ rfl
      show w.lsmt.immutables.eraseP (fun m => m.addr = memtable.addr) = rest
      rw [hfirst, List.eraseP_cons_of_pos (by simp)]
    | writeFile memtable generation snapshot hpc =>
      obtain ⟨hmem, himm, -⟩ := writeMetadata_same w.lsmt generation snapshot
      refine .same (congrArg Sl.addr hmem) himm (writeMetadata_nextAddr _ _ _) ?_
      simp only [World.unregisters, hpc]
    | _ => exact .same rfl rfl rfl (by simp only [World.unregisters, *])
  | compact faults _ hcompact =>
    have hsame := hcompact.sameFlush
    exact .same (congrArg Sl.addr hsame.memtable) hsame.immutables hcompact.nextAddr rfl
  | _ => exact .same rfl rfl rfl rfl

/-! ## Who holds the references -/

namespace MemtableLifetime


/-- The store, the memtable about to be released and the iterators hold the references, and what the
store has given up has left the array. -/
structure Inv (s : MemtableLifetime) : Prop where
  ok : s.world.MemtablesOk
  allocated : s.heap.allocated = s.world.lsmt.nextAddr
  accounts : s.heap.Accounts (s.owners ++ s.readers)
  nodup : s.owners.Nodup
  creating : ∀ a, s.creating = some a → a = s.world.lsmt.memtable.addr
  left : ∀ a, a < s.heap.allocated → a ∉ s.world.lsmt.memtableAddrs →
    ∃ p ∈ s.unregistered, p.1.addr = a
  unregistered : ∀ p ∈ s.unregistered, s.world.Left p.1 p.2

theorem inv_init : init.Inv where
  ok := ⟨Sl.wf_slInit 0, by simp [init, World.init, lsmtInit], trivial, nofun⟩
  allocated := rfl
  accounts := RefHeap.accounts_empty.alloc
  nodup := List.nodup_singleton _
  creating a ha := by cases ha
  left a ha hnot := by
    obtain rfl : a = 0 := Nat.lt_one_iff.mp ha
    exact absurd List.mem_cons_self hnot
  unregistered p hp := by cases hp

namespace Inv

variable {s s' : MemtableLifetime}

/-- A step of the store that leaves its memtables alone. -/
theorem same (hs : s.Inv) {w : World} (hok : w.MemtablesOk) (hflushed : s.world.flushed ⊆ w.flushed)
    (hmem : w.lsmt.memtable.addr = s.world.lsmt.memtable.addr)
    (himm : w.lsmt.immutables = s.world.lsmt.immutables)
    (hnext : w.lsmt.nextAddr = s.world.lsmt.nextAddr) : Inv { s with world := w } := by
  have haddrs : w.lsmt.memtableAddrs = s.world.lsmt.memtableAddrs := by
    rw [LsmtState.memtableAddrs, hmem, himm]
    rfl
  refine ⟨hok, hs.allocated.trans hnext.symm, ?_, ?_, ?_, ?_, fun p hp =>
    (hs.unregistered p hp).mono hflushed⟩
  · show s.heap.Accounts (w.lsmt.memtableAddrs ++ s.releasing.toList ++ s.readers)
    rw [haddrs]
    exact hs.accounts
  · show (w.lsmt.memtableAddrs ++ s.releasing.toList).Nodup
    rw [haddrs]
    exact hs.nodup
  · intro a ha
    rw [hs.creating a ha]
    exact hmem.symm
  · intro a ha hnot
    rw [haddrs] at hnot
    exact hs.left a ha hnot

/-- The memtable that takes the place of a full one is new. -/
theorem rotates (hs : s.Inv) {w : World} (hok : w.MemtablesOk)
    (hflushed : s.world.flushed ⊆ w.flushed)
    (hmem : w.lsmt.memtable.addr = s.world.lsmt.nextAddr)
    (himm : w.lsmt.immutables = s.world.lsmt.immutables ++ [s.world.lsmt.memtable])
    (hnext : w.lsmt.nextAddr = s.world.lsmt.nextAddr + 1) (hcreating : s.creating = none) :
    Inv { s with world := w, heap := s.heap.alloc } := by
  have hperm : w.lsmt.memtableAddrs.Perm (s.heap.allocated :: s.world.lsmt.memtableAddrs) := by
    rw [LsmtState.memtableAddrs, hmem, himm, hs.allocated, List.map_append]
    exact (List.perm_append_singleton _ _).cons _
  have howners := hperm.append_right s.releasing.toList
  refine ⟨hok, ?_, ?_, ?_, ?_, ?_, fun p hp => (hs.unregistered p hp).mono hflushed⟩
  · show s.heap.allocated + 1 = w.lsmt.nextAddr
    rw [hs.allocated, hnext]
  · exact hs.accounts.alloc.perm (howners.append_right s.readers).symm
  · refine howners.nodup_iff.mpr (List.nodup_cons.mpr ⟨fun hold => ?_, hs.nodup⟩)
    -- the owners so far lie below the new address
    exact Nat.lt_irrefl _ (hs.accounts.lt_allocated _ (List.mem_append_left _ hold))
  · intro a ha
    rw [hcreating] at ha
    cases ha
  · intro a ha hnot
    have hold : a ∉ s.heap.allocated :: s.world.lsmt.memtableAddrs := fun hmem =>
      hnot (hperm.symm.subset hmem)
    rw [List.mem_cons, not_or] at hold
    have hlt : a < s.heap.allocated + 1 := ha
    exact hs.left a (by omega) hold.2

/-- The first memtable of the array is now owned by its release. -/
theorem unregisters (hs : s.Inv) {w : World} (hok : w.MemtablesOk)
    (hflushed : s.world.flushed ⊆ w.flushed) {memtable : Sl} {registered : Bool} {rest : List Sl}
    (hmem : w.lsmt.memtable.addr = s.world.lsmt.memtable.addr)
    (hfirst : s.world.lsmt.immutables = memtable :: rest) (himm : w.lsmt.immutables = rest)
    (hnext : w.lsmt.nextAddr = s.world.lsmt.nextAddr) (hreleasing : s.releasing = none)
    (hleft : w.Left memtable registered) :
    Inv { s with
      world := w
      releasing := some memtable.addr
      unregistered := s.unregistered ++ [(memtable, registered)] } := by
  have hold : s.world.lsmt.memtableAddrs =
      s.world.lsmt.memtable.addr :: memtable.addr :: rest.map Sl.addr := by
    rw [LsmtState.memtableAddrs, hfirst]
    rfl
  have hnew : w.lsmt.memtableAddrs = s.world.lsmt.memtable.addr :: rest.map Sl.addr := by
    rw [LsmtState.memtableAddrs, hmem, himm]
  have hperm : (w.lsmt.memtableAddrs ++ [memtable.addr]).Perm s.owners := by
    rw [hnew, owners, hold, hreleasing, Option.toList_none, List.append_nil, List.cons_append]
    exact (List.perm_append_singleton _ _).cons _
  refine ⟨hok, hs.allocated.trans hnext.symm, ?_, hperm.nodup_iff.mpr hs.nodup, ?_, ?_, ?_⟩
  · exact hs.accounts.perm (hperm.append_right s.readers).symm
  · intro a ha
    rw [hs.creating a ha]
    exact hmem.symm
  · intro a ha hnot
    by_cases haddr : a = memtable.addr
    · exact ⟨_, List.mem_append_right _ List.mem_cons_self, haddr.symm⟩
    · rw [hnew] at hnot
      obtain ⟨p, hp, hpa⟩ := hs.left a ha (by
        rw [hold]
        simp only [List.mem_cons, not_or] at hnot ⊢
        exact ⟨hnot.1, haddr, hnot.2⟩)
      exact ⟨p, List.mem_append_left _ hp, hpa⟩
  · intro p hp
    rcases List.mem_append.mp hp with hp | hp
    · exact (hs.unregistered p hp).mono hflushed
    · rw [List.mem_singleton.mp hp]
      exact hleft

/-- What the flush daemon takes out of the array is flushed or empty. -/
theorem left_of_unregistering (hs : s.Inv) {memtable : Sl} {registered : Bool}
    (hpc : s.world.flushPc = .unregistering memtable registered) :
    s.world.Left memtable registered := by
  have hflushed := hs.ok.flushed memtable
  have hpcok := hs.ok.flushPc
  rw [hpc] at hflushed hpcok
  cases registered with
  | true => exact hflushed rfl rfl
  | false =>
    have hempty : memtable.records = [] := hpcok.2 rfl
    exact List.map_eq_nil_iff.mp hempty

theorem storeStep (hs : s.Inv) {a : Action} (hstep : s.storeStep a = some s') : s'.Inv := by
  unfold MemtableLifetime.storeStep at hstep
  split at hstep
  · cases hstep
  · rename_i hlock
    split at hstep
    · cases hstep
    · rename_i hreleasing
      split at hstep
      · cases hstep
      · rename_i w hw
        cases hstep
        have hok := hs.ok.step hw
        have hflushed := World.flushed_subset_step hw
        cases hs.ok.memtableStep hw with
        | same hmem himm hnext hnone =>
          rw [hnone, if_pos hnext, Option.toList_none, List.append_nil]
          exact hs.same hok hflushed hmem himm hnext
        | rotates hmem himm hnext hnone hlocks =>
          have hcreating : s.creating = none := by
            rw [← Option.not_isSome_iff_eq_none]
            exact fun hsome => hlock ⟨hsome, Or.inl hlocks⟩
          rw [hnone, if_neg (by omega), Option.toList_none, List.append_nil]
          exact hs.rotates hok hflushed hmem himm hnext hcreating
        | unregisters memtable registered rest ha hpc hmem hfirst himm hnext =>
          subst ha
          have hunregisters : s.world.unregisters .flushDaemon = some (memtable, registered) := by
            simp only [World.unregisters, hpc]
          have hnone : s.releasing = none := by
            rw [← Option.not_isSome_iff_eq_none]
            exact fun hsome => hreleasing ⟨hsome, rfl⟩
          rw [hunregisters, if_pos hnext]
          exact hs.unregisters hok hflushed hmem hfirst himm hnext hnone
            ((hs.left_of_unregistering hpc).mono hflushed)

/-! ### The release and the iterators -/

theorem release (hs : s.Inv) {a : Nat} (ha : s.releasing = some a) :
    Inv { s with heap := s.heap.release a, releasing := none } := by
  have howners : s.owners = s.world.lsmt.memtableAddrs ++ [a] := by
    rw [owners, ha]
    rfl
  refine ⟨hs.ok, hs.allocated, ?_, ?_, hs.creating, hs.left, hs.unregistered⟩
  · apply RefHeap.Accounts.release
    apply hs.accounts.perm
    rw [howners, List.append_assoc]
    show (s.world.lsmt.memtableAddrs ++ a :: s.readers).Perm _
    rw [owners, Option.toList_none, List.append_nil]
    exact List.perm_middle
  · show (s.world.lsmt.memtableAddrs ++ []).Nodup
    rw [List.append_nil]
    exact (List.nodup_append.mp (howners ▸ hs.nodup)).1

theorem readerRetain (hs : s.Inv) {a : Nat} (ha : s.creating = some a) :
    Inv { s with heap := s.heap.retain a, creating := none, readers := a :: s.readers } := by
  -- the active memtable is still the one the reader has looked at
  have hmem : a ∈ s.owners := by
    rw [hs.creating a ha]
    exact List.mem_append_left _ List.mem_cons_self
  refine ⟨hs.ok, hs.allocated, ?_, hs.nodup, nofun, hs.left, hs.unregistered⟩
  apply (hs.accounts.retain (List.mem_append_left _ hmem)).perm
  exact List.perm_middle.symm

theorem readerClose (hs : s.Inv) {i a : Nat} (hi : s.readers[i]? = some a) :
    Inv { s with heap := s.heap.release a, readers := s.readers.eraseIdx i } := by
  refine ⟨hs.ok, hs.allocated, ?_, hs.nodup, hs.creating, hs.left, hs.unregistered⟩
  apply RefHeap.Accounts.release
  apply hs.accounts.perm
  exact ((perm_cons_eraseIdx hi).append_left _).trans List.perm_middle

theorem step (hs : s.Inv) {act : MemtableAction} (hstep : s.step act = some s') : s'.Inv := by
  unfold MemtableLifetime.step at hstep
  split at hstep
  · cases hstep
  · cases act with
    | store a => exact hs.storeStep hstep
    | release =>
      simp only at hstep
      split at hstep
      · cases hstep
      · rename_i a ha
        cases hstep
        exact hs.release ha
    | readerCreate =>
      simp only at hstep
      split at hstep <;> cases hstep
      refine ⟨hs.ok, hs.allocated, hs.accounts, hs.nodup, ?_, hs.left, hs.unregistered⟩
      intro a ha
      exact (Option.some.inj ha).symm
    | readerRetain =>
      simp only at hstep
      split at hstep
      · cases hstep
      · rename_i a ha
        cases hstep
        exact hs.readerRetain ha
    | readerRead i =>
      simp only at hstep
      split at hstep <;> cases hstep
      exact hs
    | readerClose i =>
      simp only at hstep
      split at hstep
      · cases hstep
      · rename_i a hi
        cases hstep
        exact hs.readerClose hi

theorem of_run {as : List MemtableAction} (hrun : run MemtableLifetime.step init as = some s) :
    s.Inv :=
  run_invariant (fun _ _ _ (_ : True) hs hstep => hs.step hstep) (fun _ _ => trivial) inv_init hrun

/-- What a thread is about to read has a reference, its own or that of the store. -/
theorem mem_of_reads (hs : s.Inv) {act : MemtableAction} {a : Nat} (h : s.reads act = some a) :
    a ∈ s.owners ++ s.readers := by
  cases act with
  | store act =>
    apply List.mem_append_left
    apply List.mem_append_left
    cases act with
    | insert key content =>
      cases h
      exact List.mem_cons_self
    | flushDaemon =>
      unfold reads World.readsMemtable at h
      simp only at h
      split at h
      · rename_i memtable hpc
        cases h
        have hhead := hs.ok.flushPc.head (m := memtable) (by rw [hpc]; rfl)
        exact List.mem_cons_of_mem _ (List.mem_map_of_mem (List.mem_of_head? hhead))
      · cases h
    | _ => cases h
  | release =>
    have hreleasing : s.releasing = some a := h
    apply List.mem_append_left
    apply List.mem_append_right
    rw [hreleasing]
    exact List.mem_singleton_self a
  | readerCreate =>
    cases h
    exact List.mem_append_left _ (List.mem_append_left _ List.mem_cons_self)
  | readerRetain =>
    rw [hs.creating a h]
    exact List.mem_append_left _ (List.mem_append_left _ List.mem_cons_self)
  | readerRead i => exact List.mem_append_right _ (List.mem_of_getElem? h)
  | readerClose i => exact List.mem_append_right _ (List.mem_of_getElem? h)

end Inv

end MemtableLifetime

/-- In every run of the store with any number of query threads:
the count of a memtable is one as long as the store has it, in use, in the array or about to be
released, plus the number of open iterators over it;
a memtable is freed exactly when its count is zero, and once;
what is freed had left the array, empty or with its records in a registered SST;
and no thread reads a memtable that has been freed. -/
theorem memtable_lifetime {as : List MemtableAction} {s : MemtableLifetime}
    (hrun : run MemtableLifetime.step MemtableLifetime.init as = some s) :
    (∀ a, a < s.heap.allocated →
      s.heap.count a = (if a ∈ s.owners then 1 else 0) + s.readers.count a) ∧
    (s.heap.freed.Nodup ∧
      ∀ a, a ∈ s.heap.freed ↔ a < s.heap.allocated ∧ s.heap.count a = 0) ∧
    (∀ a ∈ s.heap.freed, ∃ m registered, (m, registered) ∈ s.unregistered ∧ m.addr = a ∧
      s.world.Left m registered) ∧
    ∀ act s' a, s.step act = some s' → s.reads act = some a →
      a < s.heap.allocated ∧ a ∉ s.heap.freed := by
  have hs : s.Inv := MemtableLifetime.Inv.of_run hrun
  have haccounts := hs.accounts
  refine ⟨fun a ha => ?_, ⟨haccounts.freed_nodup, fun a => ?_⟩, fun a ha => ?_,
    fun act s' a _ hreads => ?_⟩
  · rw [haccounts.count_eq a ha, List.count_append, hs.nodup.count]
  · rw [haccounts.mem_freed]
    refine and_congr_right fun hlt => ?_
    rw [haccounts.count_eq a hlt, List.count_eq_zero]
  · obtain ⟨hlt, hnot⟩ := (haccounts.mem_freed a).mp ha
    obtain ⟨⟨m, registered⟩, hp, haddr⟩ := hs.left a hlt fun hmem =>
      hnot (List.mem_append_left _ (List.mem_append_left _ hmem))
    exact ⟨m, registered, hp, haddr, hs.unregistered _ hp⟩
  · have hmem := hs.mem_of_reads hreads
    exact ⟨haccounts.lt_allocated a hmem, haccounts.not_freed hmem⟩

/-- A memtable that is flushed while an iterator is open over it: it is out of the store, and freed
when the iterator is closed. -/
theorem memtable_lifetime_one :
    ∃ s, run MemtableLifetime.step MemtableLifetime.init
      ([.store (.insert ⟨1, 0⟩ (encodeData 1 [7])), .readerCreate, .readerRetain, .store .flush,
        .store (.flushCall 0), .store (.flushCall 0)] ++
        List.replicate 6 (.store .flushDaemon) ++ [.release, .readerClose 0]) = some s ∧
      s.heap.freed = [0] ∧ ∃ m registered, (m, registered) ∈ s.unregistered ∧ m.addr = 0 ∧
        s.world.Left m registered := by
  have hrun : ∃ s, run MemtableLifetime.step MemtableLifetime.init
      ([.store (.insert ⟨1, 0⟩ (encodeData 1 [7])), .readerCreate, .readerRetain, .store .flush,
        .store (.flushCall 0), .store (.flushCall 0)] ++
        List.replicate 6 (.store .flushDaemon) ++ [.release, .readerClose 0]) = some s ∧
      s.heap.freed = [0] := ⟨_, rfl, rfl⟩
  obtain ⟨s, hrun, hfreed⟩ := hrun
  exact ⟨s, hrun, hfreed, (memtable_lifetime hrun).2.2.1 0 (by simp [hfreed])⟩

end RaftLsmt.Lsmt
