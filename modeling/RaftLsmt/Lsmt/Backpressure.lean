import RaftLsmt.Lsmt.FlushHandshake
import RaftLsmt.Lsmt.MemtableLifetime
import RaftLsmt.Lsmt.SizeBudget

/-!
# Back-pressure

A call of `lsmt_insert` that finds the memtable and the array of immutable memtables full waits for
`thread_pool_cond`, and so does a call of `lsmt_flush` until the daemon has drained the array. The
calls look at the state under `thread_pool_mutex` before they go to sleep; the daemon changes it under
other locks and broadcasts later.

`PoolWorld` is the store with its sleepers. `PoolWorld.Inv` says that no sleeper is forgotten: there is
a memtable on whose way out a broadcast comes, or the broadcast is about to come.
-/

set_option autoImplicit false

namespace RaftLsmt.Lsmt

open RaftLsmt.Lib.StepMachine

/-- The wait loop of `lsmt_insert`: about to look at `immutable_count` under `thread_pool_mutex`; in
`pthread_cond_wait`; about to take the write lock again. -/
inductive WaitPc where
  | checking
  | asleep
  | awake
  deriving DecidableEq

/-- A call of `lsmt_insert` that has found the tree full. -/
structure WaitingInsert where
  key : SlUint128
  content : Bytes
  pc : WaitPc

/-- The record the call has yet to insert. -/
def WaitingInsert.node (call : WaitingInsert) : SlUint128 × Bytes := (call.key, call.content)

/-- A store with the calls of `lsmt_insert` in their wait loop, for each call of `lsmt_flush` in
progress whether it is in `pthread_cond_wait`, and whether the flush daemon is about to broadcast. -/
structure PoolWorld where
  store : World
  waiting : List WaitingInsert
  asleep : List Bool
  broadcasts : Bool

/-- What the threads do next. `arrive` is a new call of `lsmt_insert` that has to wait, `wait` and
`flushWait` let a call go on in its wait loop, and the last two are wake-ups without a reason. -/
inductive PoolAction where
  | thread (a : Action)
  | arrive (key : SlUint128) (content : Bytes)
  | wait (i : Nat)
  | flushWait (i : Nat)
  | broadcast
  | spurious (i : Nat)
  | spuriousFlush (i : Nat)

namespace PoolWorld

/-- `lsmt_init`. -/
def init : PoolWorld := ⟨World.init lsmtInit, [], [], false⟩

/-- `pthread_cond_broadcast` on `thread_pool_cond`. -/
def wakeAll (p : PoolWorld) : PoolWorld :=
  { p with
    waiting := p.waiting.map fun call => if call.pc = .asleep then { call with pc := .awake } else call
    asleep := p.asleep.map fun _ => false }

/-- Behind a step of the flush daemon: with nothing to flush it has broadcast under both locks, and
behind a memtable it is about to. -/
def afterDaemon (p : PoolWorld) (store : World) : PoolWorld :=
  let next := { p with store := store }
  match p.store.flushPc with
  | .draining => if p.store.lsmt.immutables.isEmpty then next.wakeAll else next
  | .unregistering _ false => { next with broadcasts := true }
  | .signalling => { next with broadcasts := true }
  | _ => next

/-- A step of a thread outside the wait loops. -/
def threadStep (p : PoolWorld) : Action → Option PoolWorld
  | .flushDaemon =>
    if p.broadcasts then none else (p.store.step .flushDaemon).map p.afterDaemon
  | .flush =>
    (p.store.step .flush).map fun store => { p with
      store := store
      asleep := if store.status = .running then p.asleep ++ [false] else p.asleep }
  | .flushCall i =>
    if p.asleep[i]? = some true then none
    else
      (p.store.step (.flushCall i)).map fun store => { p with
        store := store
        asleep :=
          match p.store.flushing[i]? with
          | some .wait => p.asleep.eraseIdx i
          | _ => p.asleep }
  | a => (p.store.step a).map fun store => { p with store := store }

/-- The call goes on in the wait loop of `lsmt_insert`. -/
def waitStep (p : PoolWorld) (i : Nat) : Option PoolWorld :=
  match p.waiting[i]? with
  | none => none
  | some call =>
    match call.pc with
    | .checking =>
      let pc := if p.store.lsmt.immutables.length ≥ maxImmutables then .asleep else .awake
      some { p with waiting := p.waiting.set i { call with pc := pc } }
    | .asleep => none
    | .awake =>
      if lsmtInsertWaits p.store.lsmt then
        some { p with waiting := p.waiting.set i { call with pc := .checking } }
      else
        (p.store.step (.insert call.key call.content)).map fun store => { p with
          store := store
          waiting := p.waiting.eraseIdx i }

/-- The call of `lsmt_flush` finds a background thread at work. -/
def flushWaitStep (p : PoolWorld) (i : Nat) : Option PoolWorld :=
  match p.store.flushing[i]?, p.asleep[i]? with
  | some .wait, some false =>
    if p.store.lsmt.activeBackgroundThreads > 0 then
      some { p with asleep := p.asleep.set i true }
    else none
  | _, _ => none

/-- `pthread_cond_wait` returns without a broadcast. -/
def spuriousStep (p : PoolWorld) (i : Nat) : Option PoolWorld :=
  match p.waiting[i]? with
  | none => none
  | some call =>
    if call.pc = .asleep then
      some { p with waiting := p.waiting.set i { call with pc := .awake } }
    else none

/-- One step of one thread. -/
def step (p : PoolWorld) (a : PoolAction) : Option PoolWorld :=
  if p.store.status ≠ .running then none
  else
    match a with
    | .thread a => p.threadStep a
    | .arrive key content =>
      if lsmtInsertWaits p.store.lsmt then
        some { p with waiting := p.waiting ++ [⟨key, content, .checking⟩] }
      else none
    | .wait i => p.waitStep i
    | .flushWait i => p.flushWaitStep i
    | .broadcast => if p.broadcasts then some { p.wakeAll with broadcasts := false } else none
    | .spurious i => p.spuriousStep i
    | .spuriousFlush i =>
      if p.asleep[i]? = some true then some { p with asleep := p.asleep.set i false } else none

end PoolWorld

/-- A thread that is already there goes on, without a wake-up that nobody has sent. -/
def PoolAction.GoesOn : PoolAction → Prop
  | .thread (.insert _ _) => False
  | .thread .flush => False
  | .arrive _ _ => False
  | .spurious _ => False
  | .spuriousFlush _ => False
  | _ => True

/-- No call is inside `lsmt_insert` or `lsmt_flush`, and both daemons wait with nothing to do. -/
structure PoolWorld.AtRest (p : PoolWorld) : Prop where
  store : p.store.AtRest
  inserting : p.store.inserting = []
  flushing : p.store.flushing = []
  waiting : p.waiting = []

/-! ## The steps, read backwards -/

/-- A step of one thread. -/
inductive PoolWorld.Step (p : PoolWorld) : PoolAction → PoolWorld → Prop
  | insert (key : SlUint128) (content : Bytes) (store : World)
      (hstep : p.store.step (.insert key content) = some store) :
      PoolWorld.Step p (.thread (.insert key content)) { p with store := store }
  | insertCall (i : Nat) (store : World) (hstep : p.store.step (.insertCall i) = some store) :
      PoolWorld.Step p (.thread (.insertCall i)) { p with store := store }
  | flush (store : World) (hstep : p.store.step .flush = some store) :
      PoolWorld.Step p (.thread .flush) { p with
        store := store
        asleep := if store.status = .running then p.asleep ++ [false] else p.asleep }
  | flushCall (i : Nat) (store : World) (asleep : List Bool) (hawake : p.asleep[i]? ≠ some true)
      (hstep : p.store.step (.flushCall i) = some store)
      (hasleep : p.store.flushing[i]? = some .wait ∧ asleep = p.asleep.eraseIdx i ∨
        p.store.flushing[i]? ≠ some .wait ∧ asleep = p.asleep) :
      PoolWorld.Step p (.thread (.flushCall i)) { p with store := store, asleep := asleep }
  | daemon (store : World) (hquiet : p.broadcasts = false)
      (hstep : p.store.step .flushDaemon = some store) :
      PoolWorld.Step p (.thread .flushDaemon) (p.afterDaemon store)
  | compact (faults : List IoFaults) (store : World)
      (hstep : p.store.step (.compact faults) = some store) :
      PoolWorld.Step p (.thread (.compact faults)) { p with store := store }
  | arrive (key : SlUint128) (content : Bytes) (hwaits : lsmtInsertWaits p.store.lsmt = true) :
      PoolWorld.Step p (.arrive key content)
        { p with waiting := p.waiting ++ [⟨key, content, .checking⟩] }
  | checkFull (i : Nat) (call : WaitingInsert) (hget : p.waiting[i]? = some call)
      (hpc : call.pc = .checking) (hfull : maxImmutables ≤ p.store.lsmt.immutables.length) :
      PoolWorld.Step p (.wait i) { p with waiting := p.waiting.set i { call with pc := .asleep } }
  | checkRoom (i : Nat) (call : WaitingInsert) (hget : p.waiting[i]? = some call)
      (hpc : call.pc = .checking) (hroom : p.store.lsmt.immutables.length < maxImmutables) :
      PoolWorld.Step p (.wait i) { p with waiting := p.waiting.set i { call with pc := .awake } }
  | again (i : Nat) (call : WaitingInsert) (hget : p.waiting[i]? = some call)
      (hpc : call.pc = .awake) (hwaits : lsmtInsertWaits p.store.lsmt = true) :
      PoolWorld.Step p (.wait i) { p with waiting := p.waiting.set i { call with pc := .checking } }
  | enter (i : Nat) (call : WaitingInsert) (store : World) (hget : p.waiting[i]? = some call)
      (hpc : call.pc = .awake) (hstep : p.store.step (.insert call.key call.content) = some store) :
      PoolWorld.Step p (.wait i) { p with store := store, waiting := p.waiting.eraseIdx i }
  | flushWait (i : Nat) (hget : p.store.flushing[i]? = some .wait) (hawake : p.asleep[i]? = some false)
      (hactive : 0 < p.store.lsmt.activeBackgroundThreads) :
      PoolWorld.Step p (.flushWait i) { p with asleep := p.asleep.set i true }
  | broadcast (hbroadcasts : p.broadcasts = true) :
      PoolWorld.Step p .broadcast { p.wakeAll with broadcasts := false }
  | spurious (i : Nat) (call : WaitingInsert) (hget : p.waiting[i]? = some call)
      (hpc : call.pc = .asleep) :
      PoolWorld.Step p (.spurious i) { p with waiting := p.waiting.set i { call with pc := .awake } }
  | spuriousFlush (i : Nat) (hasleep : p.asleep[i]? = some true) :
      PoolWorld.Step p (.spuriousFlush i) { p with asleep := p.asleep.set i false }

namespace PoolWorld

variable {p q : PoolWorld}

theorem threadStep_cases {a : Action} (h : p.threadStep a = some q) : p.Step (.thread a) q := by
  cases a with
  | flushDaemon =>
    simp only [threadStep] at h
    split at h
    · cases h
    · rename_i hquiet
      obtain ⟨store, hstep, rfl⟩ := Option.map_eq_some_iff.mp h
      exact .daemon store (Bool.eq_false_iff.mpr hquiet) hstep
  | flush =>
    obtain ⟨store, hstep, rfl⟩ := Option.map_eq_some_iff.mp h
    exact .flush store hstep
  | flushCall i =>
    simp only [threadStep] at h
    split at h
    · cases h
    · rename_i hawake
      obtain ⟨store, hstep, rfl⟩ := Option.map_eq_some_iff.mp h
      refine .flushCall i store _ hawake hstep ?_
      split
      · rename_i hget
        exact Or.inl ⟨hget, rfl⟩
      · rename_i hother
        exact Or.inr ⟨hother, rfl⟩
  | insert key content =>
    obtain ⟨store, hstep, rfl⟩ := Option.map_eq_some_iff.mp h
    exact .insert key content store hstep
  | insertCall i =>
    obtain ⟨store, hstep, rfl⟩ := Option.map_eq_some_iff.mp h
    exact .insertCall i store hstep
  | compact faults =>
    obtain ⟨store, hstep, rfl⟩ := Option.map_eq_some_iff.mp h
    exact .compact faults store hstep

theorem waitStep_cases {i : Nat} (h : p.waitStep i = some q) : p.Step (.wait i) q := by
  unfold waitStep at h
  split at h
  · cases h
  · rename_i call hget
    split at h
    · rename_i hpc
      cases h
      split
      · rename_i hfull
        exact .checkFull i call hget hpc hfull
      · rename_i hroom
        exact .checkRoom i call hget hpc (Nat.lt_of_not_le hroom)
    · cases h
    · rename_i hpc
      split at h
      · rename_i hwaits
        cases h
        exact .again i call hget hpc hwaits
      · obtain ⟨store, hstep, rfl⟩ := Option.map_eq_some_iff.mp h
        exact .enter i call store hget hpc hstep

theorem flushWaitStep_cases {i : Nat} (h : p.flushWaitStep i = some q) :
    p.Step (.flushWait i) q := by
  unfold flushWaitStep at h
  split at h
  · rename_i hget hawake
    split at h <;> cases h
    rename_i hactive
    exact .flushWait i hget hawake hactive
  · cases h

theorem spuriousStep_cases {i : Nat} (h : p.spuriousStep i = some q) : p.Step (.spurious i) q := by
  unfold spuriousStep at h
  split at h
  · cases h
  · rename_i call hget
    split at h <;> cases h
    rename_i hpc
    exact .spurious i call hget hpc

theorem step_cases {a : PoolAction} (h : p.step a = some q) :
    p.store.status = .running ∧ p.Step a q := by
  unfold step at h
  split at h
  · cases h
  · rename_i hrunning
    refine ⟨not_not.mp hrunning, ?_⟩
    cases a with
    | thread a => exact threadStep_cases h
    | arrive key content =>
      simp only at h
      split at h <;> cases h
      rename_i hwaits
      exact .arrive key content hwaits
    | wait i => exact waitStep_cases h
    | flushWait i => exact flushWaitStep_cases h
    | broadcast =>
      simp only at h
      split at h <;> cases h
      rename_i hbroadcasts
      exact .broadcast hbroadcasts
    | spurious i => exact spuriousStep_cases h
    | spuriousFlush i =>
      simp only at h
      split at h <;> cases h
      rename_i hasleep
      exact .spuriousFlush i hasleep

end PoolWorld

/-! ## What the store keeps -/

/-- What the store keeps in every run: the signal to the flush daemon is owed when it is needed, there
is room for the tiers in use, and `flush_active` says that the daemon has a memtable. -/
structure World.Orderly (w : World) : Prop where
  signal : w.SignalInv
  leveled : w.Leveled
  tiers : w.lsmt.metadata.highestTier ≤ maxTiers
  memtables : w.MemtablesOk
  flushActive : w.lsmt.flushActive = true → w.flushPc.memtable.isSome

theorem World.TierStep.tiers_le {w w' : World} (h : w.TierStep w') (hw : w.Leveled)
    (htiers : w.lsmt.metadata.highestTier ≤ maxTiers) : w'.lsmt.metadata.highestTier ≤ maxTiers := by
  have hadd : ∀ record, record.level ≤ w.lsmt.metadata.highestTier →
      sstMetadataAdd w.lsmt.metadata record = some w'.lsmt.metadata →
      w'.lsmt.metadata.highestTier ≤ maxTiers := by
    intro record hlevel hadd
    have hlt : record.level < maxTiers := sstMetadataAdd_eq_some_iff.mp ⟨_, hadd⟩
    rw [(hw.tiered.sstMetadataAdd hlevel hadd).2]
    exact Nat.max_le.mpr ⟨htiers, hlt⟩
  cases h with
  | register memtable sst hflush hregister hpc hwake =>
    refine hadd _ ?_ hregister
    show sst.level ≤ _
    rw [hw.registering memtable sst hflush]
    exact Nat.zero_le _
  | add pass inputs newSst hpc hmerged hpc' hwake =>
    have hlevels := hw.compactPc
    rw [hpc] at hlevels
    refine hadd newSst ?_ hmerged
    rw [hlevels.2]
    exact hlevels.1
  | select pass inputs hpc htier hsize hselect hpc' hwake =>
    obtain ⟨popped, m', heq, hpops, -, -⟩ := sstPopInputs_takes sstableMergeLimit hw.wf hw.accounted []
    rw [hselect, Prod.mk.injEq] at heq
    rw [heq.2, hpops.highestTier_eq]
    exact htiers
  | quiet hmeta => rw [hmeta]; exact htiers
  | wake hmeta => rw [hmeta]; exact htiers
  | start hmeta => rw [hmeta]; exact htiers
  | finish pass hmeta => rw [hmeta]; exact htiers
  | skip pass hmeta => rw [hmeta]; exact htiers
  | merge pass inputs hmeta => rw [hmeta]; exact htiers
  | merged pass inputs faults newSst hmeta => rw [hmeta]; exact htiers
  | release hmeta => rw [hmeta]; exact htiers

theorem writeMetadata_flushActive (lsmt : LsmtState) (generation : Nat) (snapshot : MetadataSnapshot) :
    (writeMetadata lsmt generation snapshot).flushActive = lsmt.flushActive := by
  rw [writeMetadata]
  split <;> rfl

/-- The daemon sets the flag when it takes a memtable and clears it when it gives it up. -/
theorem World.FlushDaemonStep.flushActive {w w' : World} (h : w.FlushDaemonStep w')
    (hw : w.lsmt.flushActive = true → w.flushPc.memtable.isSome) :
    w'.lsmt.flushActive = true → w'.flushPc.memtable.isSome := by
  -- without a memtable the flag is down
  have hdown : w.flushPc.memtable = none → ¬ w.lsmt.flushActive = true := by
    intro hnone hactive
    have hsome := hw hactive
    rw [hnone] at hsome
    cases hsome
  cases h with
  | wake hpc => exact fun hactive => absurd hactive (hdown (by rw [hpc]; rfl))
  | idle hpc => exact fun hactive => absurd hactive (hdown (by rw [hpc]; rfl))
  | signal hpc => exact fun hactive => absurd hactive (hdown (by rw [hpc]; rfl))
  | overrun memtable hpc => exact hw
  | refused memtable sst hpc => exact hw
  | unregister memtable registered hpc => exact nofun
  | _ => exact fun _ => rfl

theorem World.CompactStep.flushActive {w w' : World} {faults : List IoFaults}
    (h : w.CompactStep faults w') : w'.lsmt.flushActive = w.lsmt.flushActive := by
  cases h with
  | scan pass _ hpc hscan => cases compactScan_cases hscan <;> rfl
  | writeFile generation snapshot sstToDelete hpc => exact writeMetadata_flushActive _ _ _
  | _ => rfl

theorem World.Orderly.step {w w' : World} {a : Action} (h : w.Orderly) (hstep : w.step a = some w') :
    w'.Orderly where
  signal := h.signal.step hstep
  leveled := h.leveled.step hstep
  tiers := (World.tierStep_of_step hstep).tiers_le h.leveled h.tiers
  memtables := h.memtables.step hstep
  flushActive := by
    cases (World.step_cases hstep).2 with
    | insert key content hwaits call hcall =>
      have hsame : (lsmtRotate w.lsmt).1.flushActive = w.lsmt.flushActive := by
        rcases lsmtRotate_cases w.lsmt with hrot | ⟨threads, needSpawn, -, hrot⟩
        · rw [hrot]
        · rw [hrot]
          rfl
      intro hactive
      exact h.flushActive (hsame.symm.trans hactive)
    | flushDaemon _ hdaemon => exact hdaemon.flushActive h.flushActive
    | compact faults _ hcompact =>
      rw [hcompact.flushActive, hcompact.sameFlush.flushPc]
      exact h.flushActive
    | _ => exact h.flushActive

theorem World.orderly_init : (World.init lsmtInit).Orderly where
  signal := fun _ hwork => hwork.elim (absurd rfl) (absurd rfl)
  leveled := World.leveled_init
  tiers := Nat.zero_le _
  memtables := ⟨Sl.wf_slInit 0, by simp [World.init, lsmtInit], trivial, nofun⟩
  flushActive := nofun

/-! ## Who sleeps, and who will wake them -/

/-- Outside the flush daemon no step takes a memtable off the array, sends the background threads home
or moves the daemon. -/
theorem World.step_keeps {w w' : World} {a : Action} (hstep : w.step a = some w')
    (ha : a ≠ .flushDaemon) :
    (w.lsmt.immutables ≠ [] → w'.lsmt.immutables ≠ []) ∧
      (0 < w.lsmt.activeBackgroundThreads → 0 < w'.lsmt.activeBackgroundThreads) ∧
      w'.flushPc = w.flushPc := by
  cases (World.step_cases hstep).2 with
  | insert key content hwaits call hcall =>
    refine ⟨?_, ?_, rfl⟩
    · intro hne
      show (lsmtRotate w.lsmt).1.immutables ≠ []
      rcases lsmtRotate_cases w.lsmt with hrot | ⟨threads, needSpawn, -, hrot⟩
      · rw [hrot]
        exact hne
      · rw [hrot]
        exact List.append_ne_nil_of_left_ne_nil hne _
    · intro hactive
      show 0 < (lsmtRotate w.lsmt).1.activeBackgroundThreads
      rw [lsmtRotate]
      split
      · simp only
        split
        · exact Nat.zero_lt_one
        · exact hactive
      · exact hactive
  | flush hroom => exact ⟨fun _ => by simp [registerImmutable], id, rfl⟩
  | flushSpawn i hget =>
    refine ⟨id, fun hactive => ?_, rfl⟩
    rw [if_neg hactive.ne']
    exact hactive
  | flushDaemon => exact absurd rfl ha
  | compact faults _ hcompact =>
    have hsame := hcompact.sameFlush
    rw [hsame.immutables, hsame.threads, hsame.flushPc]
    exact ⟨id, id, rfl⟩
  | _ => exact ⟨id, id, rfl⟩

/-- What a step of the flush daemon means for those who sleep: it wakes them, it is about to, or it has
left them no reason to wake up. -/
inductive PoolWorld.Announces (p : PoolWorld) (store : World) : PoolWorld → Prop
  | wakes : PoolWorld.Announces p store { p with store := store }.wakeAll
  | announces (hthreads : store.lsmt.activeBackgroundThreads = p.store.lsmt.activeBackgroundThreads) :
      PoolWorld.Announces p store { p with store := store, broadcasts := true }
  | quiet (hthreads : store.lsmt.activeBackgroundThreads = p.store.lsmt.activeBackgroundThreads)
      (hpc : p.store.flushPc ≠ .signalling)
      (himm : store.flushPc = .signalling ∨ store.lsmt.immutables = p.store.lsmt.immutables) :
      PoolWorld.Announces p store { p with store := store }

theorem writeMetadata_threads (lsmt : LsmtState) (generation : Nat) (snapshot : MetadataSnapshot) :
    (writeMetadata lsmt generation snapshot).activeBackgroundThreads =
      lsmt.activeBackgroundThreads := by
  rw [writeMetadata]
  split <;> rfl

theorem PoolWorld.announces_afterDaemon {p : PoolWorld} {store : World}
    (h : p.store.FlushDaemonStep store) : p.Announces store (p.afterDaemon store) := by
  unfold PoolWorld.afterDaemon
  cases h with
  | idle hpc himm =>
    simp only [hpc, himm, List.isEmpty_nil, if_true]
    exact .wakes
  | drain memtable rest hpc himm =>
    simp only [hpc, himm, List.isEmpty_cons, Bool.false_eq_true, if_false]
    exact .quiet rfl (by rw [hpc]; nofun) (Or.inr himm.symm)
  | unregister memtable registered hpc =>
    cases registered with
    | false =>
      simp only [hpc]
      exact .announces rfl
    | true =>
      simp only [hpc]
      exact .quiet rfl (by rw [hpc]; nofun) (Or.inl rfl)
  | signal hpc =>
    simp only [hpc]
    exact .announces rfl
  | writeFile memtable generation snapshot hpc =>
    simp only [hpc]
    exact .quiet (writeMetadata_threads _ _ _) (by rw [hpc]; nofun)
      (Or.inr (writeMetadata_same _ _ _).2.1)
  | wake hpc =>
    simp only [hpc]
    exact .quiet rfl (by rw [hpc]; nofun) (Or.inr rfl)
  | writeError memtable hpc =>
    simp only [hpc]
    exact .quiet rfl (by rw [hpc]; nofun) (Or.inr rfl)
  | written memtable sst hpc =>
    simp only [hpc]
    exact .quiet rfl (by rw [hpc]; nofun) (Or.inr rfl)
  | overrun memtable hpc =>
    simp only [hpc]
    exact .quiet rfl (by rw [hpc]; nofun) (Or.inr rfl)
  | refused memtable sst hpc =>
    simp only [hpc]
    exact .quiet rfl (by rw [hpc]; nofun) (Or.inr rfl)
  | register memtable sst metadata hpc =>
    simp only [hpc]
    exact .quiet rfl (by rw [hpc]; nofun) (Or.inr rfl)

theorem World.step_flushing {w w' : World} {a : Action} (hstep : w.step a = some w')
    (hflush : a ≠ .flush) (hcall : ∀ i, a ≠ .flushCall i) : w'.flushing = w.flushing := by
  cases (World.step_cases hstep).2 with
  | flushOverflow hfull => exact absurd rfl hflush
  | flush hroom => exact absurd rfl hflush
  | flushSpawn i hget => exact absurd rfl (hcall i)
  | flushSignal i hget => exact absurd rfl (hcall i)
  | flushReturn i hget hidle => exact absurd rfl (hcall i)
  | flushDaemon _ hdaemon => cases hdaemon <;> rfl
  | compact faults _ hcompact => exact hcompact.sameFlush.flushing
  | _ => rfl

namespace PoolWorld

/-- Some call sleeps in the wait loop of `lsmt_insert`. -/
def SomeoneSleeps (p : PoolWorld) : Prop := ∃ call ∈ p.waiting, call.pc = .asleep

/-- No sleeper is forgotten: there is a memtable on whose way out a broadcast comes, or the broadcast
is about to come; and a call of `lsmt_flush` sleeps only while a background thread is counted. -/
structure Inv (p : PoolWorld) : Prop where
  orderly : p.store.Orderly
  aligned : p.asleep.length = p.store.flushing.length
  flushes : ∀ i : Nat, p.asleep[i]? = some true →
    p.store.flushing[i]? = some .wait ∧ 0 < p.store.lsmt.activeBackgroundThreads
  covered : p.SomeoneSleeps →
    p.broadcasts = true ∨ p.store.flushPc = .signalling ∨ p.store.lsmt.immutables ≠ []

theorem inv_init : init.Inv where
  orderly := World.orderly_init
  aligned := rfl
  flushes := nofun
  covered := by
    rintro ⟨call, hcall, -⟩
    cases hcall

variable {p q : PoolWorld}

theorem not_someoneSleeps_wakeAll : ¬ p.wakeAll.SomeoneSleeps := by
  rintro ⟨call, hcall, hasleep⟩
  obtain ⟨old, -, rfl⟩ := List.mem_map.mp hcall
  split at hasleep
  · cases hasleep
  · rename_i hawake
    exact hawake hasleep

theorem asleep_wakeAll (i : Nat) : p.wakeAll.asleep[i]? ≠ some true := by
  intro h
  obtain ⟨b, -, hb⟩ := Option.map_eq_some_iff.mp (List.getElem?_map.symm.trans h)
  cases hb

/-- A call that moves to a point where it does not sleep. -/
theorem someoneSleeps_of_set {i : Nat} {call : WaitingInsert} (hcall : call.pc ≠ .asleep)
    (h : SomeoneSleeps { p with waiting := p.waiting.set i call }) : p.SomeoneSleeps := by
  obtain ⟨c, hc, hasleep⟩ := h
  rcases List.mem_or_eq_of_mem_set hc with hc | rfl
  · exact ⟨c, hc, hasleep⟩
  · exact absurd hasleep hcall

namespace Inv

/-- A step of a thread that neither flushes nor waits for a flush. -/
theorem other (h : p.Inv) {a : Action} {store : World} (hstep : p.store.step a = some store)
    (hdaemon : a ≠ .flushDaemon) (hflush : a ≠ .flush) (hcall : ∀ i, a ≠ .flushCall i) :
    Inv { p with store := store } := by
  obtain ⟨himm, hactive, hpc⟩ := World.step_keeps hstep hdaemon
  have hsame := World.step_flushing hstep hflush hcall
  refine ⟨h.orderly.step hstep, ?_, ?_, ?_⟩
  · rw [hsame]
    exact h.aligned
  · intro i hi
    rw [hsame]
    exact (h.flushes i hi).imp_right hactive
  · intro hsleeps
    rw [hpc]
    exact (h.covered hsleeps).imp_right fun hc => hc.imp_right himm

theorem wait (h : p.Inv) {i : Nat} {call : WaitingInsert} (hcall : call.pc ≠ .asleep) :
    Inv { p with waiting := p.waiting.set i call } :=
  ⟨h.orderly, h.aligned, h.flushes, fun hsleeps => h.covered (someoneSleeps_of_set hcall hsleeps)⟩

theorem flush (h : p.Inv) {store : World} (hstep : p.store.step .flush = some store) :
    Inv { p with
      store := store
      asleep := if store.status = .running then p.asleep ++ [false] else p.asleep } := by
  obtain ⟨himm, hactive, hpc⟩ := World.step_keeps hstep nofun
  have hcovered : p.SomeoneSleeps → p.broadcasts = true ∨ store.flushPc = .signalling ∨
      store.lsmt.immutables ≠ [] := by
    intro hsleeps
    rw [hpc]
    exact (h.covered hsleeps).imp_right fun hc => hc.imp_right himm
  have horderly := h.orderly.step hstep
  obtain ⟨hrunning, hcase⟩ := World.step_cases hstep
  cases hcase with
  | flushOverflow hfull => exact ⟨horderly, h.aligned, h.flushes, hcovered⟩
  | flush hroom =>
    rw [if_pos hrunning]
    refine ⟨horderly, ?_, ?_, hcovered⟩
    · show (p.asleep ++ [false]).length = (p.store.flushing ++ [FlushCall.spawn]).length
      rw [List.length_append, List.length_append, h.aligned]
      rfl
    · intro i hi
      have hi : (p.asleep ++ [false])[i]? = some true := hi
      rw [List.getElem?_append] at hi
      split at hi
      · rename_i hlt
        refine ⟨?_, (h.flushes i hi).2⟩
        show (p.store.flushing ++ [FlushCall.spawn])[i]? = some .wait
        rw [List.getElem?_append_left (h.aligned ▸ hlt)]
        exact (h.flushes i hi).1
      · -- the new call is awake
        exact Bool.noConfusion (List.mem_singleton.mp (List.mem_of_getElem? hi))

theorem flushCall (h : p.Inv) {i : Nat} {store : World} {asleep : List Bool}
    (hawake : p.asleep[i]? ≠ some true) (hstep : p.store.step (.flushCall i) = some store)
    (hasleep : p.store.flushing[i]? = some .wait ∧ asleep = p.asleep.eraseIdx i ∨
      p.store.flushing[i]? ≠ some .wait ∧ asleep = p.asleep) :
    Inv { p with store := store, asleep := asleep } := by
  obtain ⟨himm, hactive, hpc⟩ := World.step_keeps hstep nofun
  have hcovered : p.SomeoneSleeps → p.broadcasts = true ∨ store.flushPc = .signalling ∨
      store.lsmt.immutables ≠ [] := by
    intro hsleeps
    rw [hpc]
    exact (h.covered hsleeps).imp_right fun hc => hc.imp_right himm
  -- a call behind the signal moves on, which is not among the sleepers
  have hset : ∀ call, store.flushing = p.store.flushing.set i call → asleep = p.asleep →
      Inv { p with store := store, asleep := asleep } := by
    rintro call hflushing rfl
    refine ⟨h.orderly.step hstep, ?_, ?_, hcovered⟩
    · rw [hflushing, List.length_set]
      exact h.aligned
    · intro j hj
      have hne : i ≠ j := by
        rintro rfl
        exact hawake hj
      rw [hflushing, List.getElem?_set_ne hne]
      exact (h.flushes j hj).imp_right hactive
  cases (World.step_cases hstep).2 with
  | flushSpawn i hget =>
    rcases hasleep with ⟨hwait, -⟩ | ⟨-, hsame⟩
    · rw [hget] at hwait
      cases hwait
    · exact hset .signal rfl hsame
  | flushSignal i hget =>
    rcases hasleep with ⟨hwait, -⟩ | ⟨-, hsame⟩
    · rw [hget] at hwait
      cases hwait
    · exact hset .wait rfl hsame
  | flushReturn i hget hidle =>
    rcases hasleep with ⟨-, rfl⟩ | ⟨hnot, -⟩
    · refine ⟨h.orderly.step hstep, ?_, ?_, hcovered⟩
      · show (p.asleep.eraseIdx i).length = (p.store.flushing.eraseIdx i).length
        rw [List.length_eraseIdx, List.length_eraseIdx, h.aligned]
      · intro j hj
        have hj : (p.asleep.eraseIdx i)[j]? = some true := hj
        show (p.store.flushing.eraseIdx i)[j]? = some .wait ∧ _
        rw [List.getElem?_eraseIdx] at hj ⊢
        by_cases hlt : j < i
        · rw [if_pos hlt] at hj ⊢
          exact h.flushes j hj
        · rw [if_neg hlt] at hj ⊢
          exact h.flushes (j + 1) hj
    · exact absurd hget hnot

theorem daemon (h : p.Inv) {store : World} (hstep : p.store.step .flushDaemon = some store) :
    (p.afterDaemon store).Inv := by
  have horderly := h.orderly.step hstep
  have hsame := World.step_flushing hstep nofun nofun
  have haligned : p.asleep.length = store.flushing.length := by
    rw [hsame]
    exact h.aligned
  have hcase := announces_afterDaemon (World.flushDaemonStep_of_step hstep)
  generalize p.afterDaemon store = q at hcase ⊢
  cases hcase with
  | wakes =>
    refine ⟨horderly, ?_, ?_, ?_⟩
    · exact (List.length_map _).trans haligned
    · exact fun i hi => absurd hi (asleep_wakeAll i)
    · exact fun hsleeps => absurd hsleeps not_someoneSleeps_wakeAll
  | announces hthreads =>
    refine ⟨horderly, haligned, ?_, ?_⟩
    · intro i hi
      rw [hsame, hthreads]
      exact h.flushes i hi
    · exact fun _ => Or.inl rfl
  | quiet hthreads hpc himm =>
    refine ⟨horderly, haligned, ?_, ?_⟩
    · intro i hi
      rw [hsame, hthreads]
      exact h.flushes i hi
    · intro hsleeps
      refine (h.covered hsleeps).imp_right ?_
      rintro (hsignalling | hne)
      · exact absurd hsignalling hpc
      · rcases himm with hsignalling | himm
        · exact Or.inl hsignalling
        · refine Or.inr ?_
          rw [himm]
          exact hne

theorem step (h : p.Inv) {a : PoolAction} (hstep : p.step a = some q) : q.Inv := by
  cases (step_cases hstep).2 with
  | insert key content store hstore => exact h.other hstore nofun nofun nofun
  | insertCall i store hstore => exact h.other hstore nofun nofun nofun
  | compact faults store hstore => exact h.other hstore nofun nofun nofun
  | flush store hstore => exact h.flush hstore
  | flushCall i store asleep hawake hstore hasleep => exact h.flushCall hawake hstore hasleep
  | daemon store hquiet hstore => exact h.daemon hstore
  | arrive key content hwaits =>
    refine ⟨h.orderly, h.aligned, h.flushes, ?_⟩
    rintro ⟨call, hcall, hasleep⟩
    rcases List.mem_append.mp hcall with hcall | hcall
    · exact h.covered ⟨call, hcall, hasleep⟩
    · rw [List.mem_singleton.mp hcall] at hasleep
      cases hasleep
  | checkFull i call hget hpc hfull =>
    -- the array is full, so the daemon has a memtable to take off it
    refine ⟨h.orderly, h.aligned, h.flushes, fun _ => Or.inr (Or.inr ?_)⟩
    apply List.ne_nil_of_length_pos
    exact Nat.lt_of_lt_of_le (by decide) hfull
  | checkRoom i call hget hpc hroom => exact h.wait nofun
  | again i call hget hpc hwaits => exact h.wait nofun
  | enter i call store hget hpc hstore =>
    have hnext := h.other hstore nofun nofun nofun
    refine ⟨hnext.orderly, hnext.aligned, hnext.flushes, ?_⟩
    rintro ⟨c, hc, hasleep⟩
    exact hnext.covered ⟨c, List.mem_of_mem_eraseIdx hc, hasleep⟩
  | flushWait i hget hawake hactive =>
    refine ⟨h.orderly, ?_, ?_, h.covered⟩
    · exact List.length_set.trans h.aligned
    · intro j hj
      have hj : (p.asleep.set i true)[j]? = some true := hj
      by_cases hne : i = j
      · subst hne
        exact ⟨hget, hactive⟩
      · rw [List.getElem?_set_ne hne] at hj
        exact h.flushes j hj
  | broadcast hbroadcasts =>
    refine ⟨h.orderly, ?_, ?_, ?_⟩
    · exact (List.length_map _).trans h.aligned
    · exact fun i hi => absurd hi (asleep_wakeAll i)
    · exact fun hsleeps => absurd hsleeps not_someoneSleeps_wakeAll
  | spurious i call hget hpc => exact h.wait nofun
  | spuriousFlush i hasleep =>
    refine ⟨h.orderly, ?_, ?_, h.covered⟩
    · exact List.length_set.trans h.aligned
    · intro j hj
      have hj : (p.asleep.set i false)[j]? = some true := hj
      have hne : i ≠ j := by
        rintro rfl
        rw [List.getElem?_set_self (List.getElem?_eq_some_iff.mp hasleep).1] at hj
        cases hj
      rw [List.getElem?_set_ne hne] at hj
      exact h.flushes j hj

end Inv

end PoolWorld

end RaftLsmt.Lsmt
