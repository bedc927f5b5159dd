import RaftLsmt.Lib.RunBound
import RaftLsmt.Lsmt.Backpressure

/-!
# The store comes to rest

`World.work` counts what the daemons and the calls in progress have to do, with a memtable in the
array standing for its flush and for the compaction it signals, and `PoolWorld.turns` how often the
calls in their wait loops look at the state before they sleep or get in. Every step of a thread that is
already there uses up one or the other (`PoolWorld.Inv.spends`), and where none of them can go on there
is nothing left (`PoolWorld.Inv.atRest`). `comes_to_rest` puts the two together.
-/

set_option autoImplicit false

namespace RaftLsmt.Lsmt

open RaftLsmt.Lib.RunBound
open RaftLsmt.Lib.StepMachine

/-! ## How much work is left -/

/-- The steps of a compaction up to its end. -/
def CompactPc.work : CompactPc → Nat
  | .waiting => 0
  | .starting => 4 * (maxTiers + 1) + 5
  | .scanning pass => 4 * (pass.highestTier + 1 - pass.tier) + 4
  | .mergeWait pass _ => 4 * (pass.highestTier - pass.tier) + 7
  | .merging pass _ => 4 * (pass.highestTier - pass.tier) + 6
  | .adding pass _ _ => 4 * (pass.highestTier - pass.tier) + 5
  | .snapshotting _ => 3
  | .writingMetadata _ _ _ => 2
  | .deleting _ => 1
  | .quitting _ => 0

/-- A compaction that has not begun. -/
def passWork : Nat := 4 * (maxTiers + 1) + 6

/-- A memtable in the array: the flush daemon's turn, and the compaction it signals. -/
def memtableWork : Nat := passWork + 12

/-- The flush daemon at its work on a memtable, which is in the array still. The steps count twice,
since behind some of them comes a broadcast. -/
def FlushPc.work : FlushPc → Nat
  | .waiting => 0
  | .draining => 18
  | .writing _ => 16
  | .registering _ _ => 14
  | .writingMetadata _ _ _ => 12
  | .unregistering _ _ => 10
  | .signalling => passWork + 20

/-- A call of `lsmt_insert` behind its critical section, with the daemon it may wake up. -/
def InsertCall.work (call : InsertCall) : Nat := if call.needSpawn then 22 else 1

/-- A call of `lsmt_flush` behind its rotation, with the daemon it wakes up. -/
def FlushCall.work : FlushCall → Nat
  | .spawn => 23
  | .signal => 22
  | .wait => 1

/-- A call of `lsmt_insert` in front of its critical section, in which it may rotate. -/
def waitWork : Nat := memtableWork + 23

/-- The work behind a flag. -/
def workIf (flag : Bool) (work : Nat) : Nat := if flag then work else 0

@[simp]
theorem workIf_true (work : Nat) : workIf true work = work := rfl

@[simp]
theorem workIf_false (work : Nat) : workIf false work = 0 := rfl

/-- What the store has to do without new calls. -/
def World.work (w : World) : Nat :=
  (if w.status = .running then 2 else 0) + totalWeight InsertCall.work w.inserting +
    totalWeight FlushCall.work w.flushing + workIf w.lsmt.flushNeeded 20 +
    memtableWork * w.lsmt.immutables.length + w.flushPc.work +
    workIf w.lsmt.compactionNeeded passWork + w.compactPc.work

theorem writeMetadata_flags (lsmt : LsmtState) (generation : Nat) (snapshot : MetadataSnapshot) :
    (writeMetadata lsmt generation snapshot).flushNeeded = lsmt.flushNeeded ∧
      (writeMetadata lsmt generation snapshot).compactionNeeded = lsmt.compactionNeeded := by
  rw [writeMetadata]
  split <;> exact ⟨rfl, rfl⟩

/-- Every step of the flush daemon works, and pays for the broadcast behind it. -/
theorem World.FlushDaemonStep.work_lt {w w' : World} (h : w.FlushDaemonStep w') (hok : w.MemtablesOk)
    (hrunning : w.status = .running) : w'.work + 2 ≤ w.work := by
  unfold World.work
  cases h with
  | wake hpc hneeded =>
    simp only [hpc, hneeded, hrunning, FlushPc.work, workIf_true, workIf_false]
    omega
  | idle hpc himm =>
    simp only [hpc, hrunning, FlushPc.work]
    omega
  | drain memtable rest hpc himm =>
    simp only [hpc, hrunning, FlushPc.work]
    omega
  | writeError memtable hpc hdisk =>
    simp only [hpc, hrunning, FlushPc.work]
    omega
  | written memtable sst hpc hdisk =>
    simp only [hpc, hrunning, FlushPc.work]
    omega
  | overrun memtable hpc hdisk =>
    simp only [hrunning, if_true, reduceCtorEq, if_false]
    omega
  | refused memtable sst hpc hadd =>
    simp only [hrunning, if_true, reduceCtorEq, if_false]
    omega
  | register memtable sst metadata hpc hadd =>
    simp only [hpc, hrunning, FlushPc.work]
    omega
  | writeFile memtable generation snapshot hpc =>
    obtain ⟨-, himm, -⟩ := writeMetadata_same w.lsmt generation snapshot
    obtain ⟨hneeded, hcompaction⟩ := writeMetadata_flags w.lsmt generation snapshot
    simp only [hpc, hrunning, himm, hneeded, hcompaction, FlushPc.work]
    omega
  | unregister memtable registered hpc =>
    -- the memtable leaves the array, which pays for what is signalled next
    obtain ⟨rest, hrest⟩ := List.head?_eq_some_iff.mp (hok.flushPc.head (by rw [hpc]; rfl))
    have hlen : (w.lsmt.immutables.eraseP fun m => m.addr = memtable.addr).length + 1 =
        w.lsmt.immutables.length := by
      rw [hrest, List.eraseP_cons_of_pos (by simp)]
      rfl
    have hmul := Nat.mul_succ memtableWork
      (w.lsmt.immutables.eraseP fun m => m.addr = memtable.addr).length
    rw [Nat.succ_eq_add_one, hlen] at hmul
    have hpays : memtableWork = passWork + 12 := rfl
    simp only [hpc, hrunning, unregisterImmutableMemtable, FlushPc.work]
    cases registered
    · simp only [Bool.false_eq_true, if_false]
      omega
    · simp only [if_true]
      omega
  | signal hpc =>
    simp only [hpc, hrunning, FlushPc.work, workIf_true]
    omega

theorem World.Scans.work_lt {w w' : World} {pass : CompactPass} (h : w.Scans pass w')
    (hpc : w.compactPc = .scanning pass) : w'.work < w.work := by
  unfold World.work
  cases h with
  | finish htier =>
    cases hflush : pass.mustFlush <;> simp only [hpc, if_true, Bool.false_eq_true, if_false,
      CompactPc.work] <;> omega
  | select popped htier hsize hpopped =>
    simp only [hpc]
    by_cases hlen : popped.1.length < 2
    · simp only [if_pos hlen, CompactPc.work]
      omega
    · simp only [if_neg hlen, CompactPc.work]
      omega
  | skip htier hsize =>
    simp only [hpc, CompactPc.work]
    omega

/-- Every step of the compaction works. -/
theorem World.CompactStep.work_lt {w w' : World} {faults : List IoFaults}
    (h : w.CompactStep faults w') (htiers : w.lsmt.metadata.highestTier ≤ maxTiers)
    (hrunning : w.status = .running) : w'.work < w.work := by
  cases h with
  | scan pass _ hpc hscan => exact (compactScan_cases hscan).work_lt hpc
  | wake hpc hneeded =>
    simp only [World.work, hpc, hneeded, CompactPc.work, workIf_true, workIf_false, passWork]
    omega
  | start hpc =>
    simp only [World.work, hpc, CompactPc.work]
    omega
  | mergeStops pass inputs hpc hlen hmerge =>
    simp only [World.work, hrunning, if_true, reduceCtorEq, if_false]
    omega
  | refused pass inputs newSst hpc hadd =>
    simp only [World.work, hrunning, if_true, reduceCtorEq, if_false]
    omega
  | quit inputs hpc =>
    simp only [World.work, hrunning, if_true, reduceCtorEq, if_false]
    omega
  | writeFile generation snapshot sstToDelete hpc =>
    obtain ⟨-, himm, -⟩ := writeMetadata_same w.lsmt generation snapshot
    obtain ⟨hneeded, hcompaction⟩ := writeMetadata_flags w.lsmt generation snapshot
    simp only [World.work, hpc, himm, hneeded, hcompaction, CompactPc.work]
    omega
  | merge pass inputs hpc hflush =>
    simp only [World.work, hpc, CompactPc.work]
    omega
  | merged pass inputs newSst hpc hlen hmerge =>
    simp only [World.work, hpc, CompactPc.work]
    omega
  | add pass inputs newSst metadata hpc hadd =>
    simp only [World.work, hpc, CompactPc.work]
    omega
  | copyList sstToDelete hpc =>
    simp only [World.work, hpc, CompactPc.work]
    omega
  | release sstToDelete hpc =>
    simp only [World.work, hpc, CompactPc.work]
    omega

/-- A call of `lsmt_insert` that goes on works. -/
theorem World.work_insertCall {w w' : World} {i : Nat} (hstep : w.step (.insertCall i) = some w') :
    w'.work < w.work := by
  cases (World.step_cases hstep).2 with
  | insertSignal i call hget hspawn =>
    have hsum := totalWeight_set InsertCall.work hget { call with needSpawn := false }
    simp only [InsertCall.work, hspawn, if_true, Bool.false_eq_true, if_false] at hsum
    simp only [World.work, workIf_true]
    omega
  | insertReturn i call hget hspawn =>
    have hsum := totalWeight_eraseIdx InsertCall.work hget
    simp only [InsertCall.work, hspawn, Bool.false_eq_true, if_false] at hsum
    simp only [World.work]
    omega

/-- A call of `lsmt_flush` that goes on works. -/
theorem World.work_flushCall {w w' : World} {i : Nat} (hstep : w.step (.flushCall i) = some w') :
    w'.work < w.work := by
  cases (World.step_cases hstep).2 with
  | flushSpawn i hget =>
    have hsum := totalWeight_set FlushCall.work hget .signal
    simp only [FlushCall.work] at hsum
    simp only [World.work]
    omega
  | flushSignal i hget =>
    have hsum := totalWeight_set FlushCall.work hget .wait
    simp only [FlushCall.work] at hsum
    simp only [World.work, workIf_true]
    omega
  | flushReturn i hget hidle =>
    have hsum := totalWeight_eraseIdx FlushCall.work hget
    simp only [FlushCall.work] at hsum
    simp only [World.work]
    omega

/-- A new call of `lsmt_insert` brings less work than a waiting one stands for. -/
theorem World.work_insert {w w' : World} {key : SlUint128} {content : Bytes}
    (hstep : w.step (.insert key content) = some w') : w'.work < w.work + waitWork := by
  cases (World.step_cases hstep).2 with
  | insert key content hwaits call hcall =>
    have hcallWork : call.work ≤ 22 := by
      unfold InsertCall.work
      split <;> omega
    have hsum := totalWeight_append InsertCall.work w.inserting [call]
    rw [totalWeight_singleton] at hsum
    have hstore : ∃ extra, extra ≤ 1 ∧
        (lsmtRotate w.lsmt).1.immutables.length = w.lsmt.immutables.length + extra ∧
        (lsmtRotate w.lsmt).1.flushNeeded = w.lsmt.flushNeeded ∧
        (lsmtRotate w.lsmt).1.compactionNeeded = w.lsmt.compactionNeeded := by
      rcases lsmtRotate_cases w.lsmt with hrot | ⟨threads, needSpawn, -, hrot⟩
      · rw [hrot]
        exact ⟨0, Nat.zero_le _, rfl, rfl, rfl⟩
      · rw [hrot]
        exact ⟨1, Nat.le_refl _, List.length_append, rfl, rfl⟩
    obtain ⟨extra, hextra, hlen, hneeded, hcompaction⟩ := hstore
    have hmul : memtableWork * (w.lsmt.immutables.length + extra) ≤
        memtableWork * w.lsmt.immutables.length + memtableWork := by
      rw [← Nat.mul_succ]
      exact Nat.mul_le_mul_left _ (Nat.add_le_add_left hextra _)
    simp only [World.work, lsmtInsertLocked, hlen, hneeded, hcompaction, hsum, waitWork]
    omega

namespace PoolWorld

variable {p q : PoolWorld}

/-! ## Every step uses something up -/

/-- The array has no room for another memtable. -/
def full (p : PoolWorld) : Bool := maxImmutables ≤ p.store.lsmt.immutables.length

/-- How often a call can go on in its wait loop before it sleeps or gets in. -/
def waitTurns (full : Bool) (call : WaitingInsert) : Nat :=
  match call.pc with
  | .checking => 1
  | .asleep => 0
  | .awake => if full then 2 else 0

/-- What the threads have to do outside their wait loops. -/
def work (p : PoolWorld) : Nat :=
  p.store.work + waitWork * p.waiting.length + workIf p.broadcasts 1

/-- What they have to do inside them until everybody sleeps or gets in. -/
def turns (p : PoolWorld) : Nat := totalWeight (waitTurns p.full) p.waiting + p.asleep.count false

/-- The turns there are behind a broadcast. -/
def cap (p : PoolWorld) : Nat := 2 * p.waiting.length + p.asleep.length

theorem turns_le_cap (p : PoolWorld) : p.turns ≤ p.cap := by
  refine Nat.add_le_add (totalWeight_le _ fun call _ => ?_) List.count_le_length
  unfold waitTurns
  split
  · exact Nat.le_succ 1
  · exact Nat.zero_le _
  · split <;> omega

theorem spends_of_work (hcap : q.cap ≤ p.cap) (hwork : q.work < p.work) :
    Spends work turns cap p q :=
  ⟨hcap, turns_le_cap q, Or.inl hwork⟩

/-- A step of the store that works. -/
theorem spends_of_store {store : World} (hwork : store.work < p.store.work) :
    Spends work turns cap p { p with store := store } := by
  refine spends_of_work (Nat.le_refl _) ?_
  unfold work
  simp only
  omega

/-- A turn of a call in the wait loop of `lsmt_insert`. -/
theorem spends_of_wait {i : Nat} {call next : WaitingInsert} (hget : p.waiting[i]? = some call)
    (hturn : waitTurns p.full next < waitTurns p.full call) :
    Spends work turns cap p { p with waiting := p.waiting.set i next } := by
  have hlen : (p.waiting.set i next).length = p.waiting.length := List.length_set
  refine ⟨?_, turns_le_cap _, Or.inr ⟨?_, ?_⟩⟩
  · unfold cap
    simp only [hlen]
    exact Nat.le_refl _
  · unfold work
    simp only [hlen]
  · have hsum := totalWeight_set (waitTurns p.full) hget next
    have hfull : full { p with waiting := p.waiting.set i next } = p.full := rfl
    unfold turns
    rw [hfull]
    simp only
    omega

/-- A step of a thread that is already there works or takes a turn. -/
theorem Inv.spends (h : p.Inv) {a : PoolAction} (ha : a.GoesOn) (hstep : p.step a = some q) :
    Spends work turns cap p q := by
  obtain ⟨hrunning, hcase⟩ := step_cases hstep
  cases hcase with
  | insert key content store hstore => exact ha.elim
  | flush store hstore => exact ha.elim
  | arrive key content hwaits => exact ha.elim
  | spurious i call hget hpc => exact ha.elim
  | spuriousFlush i hasleep => exact ha.elim
  | insertCall i store hstore => exact spends_of_store (World.work_insertCall hstore)
  | compact faults store hstore =>
    exact spends_of_store
      ((World.compactStep_of_step hstore).work_lt h.orderly.tiers hrunning)
  | flushCall i store asleep hawake hstore hasleep =>
    have hwork := World.work_flushCall hstore
    refine spends_of_work ?_ ?_
    · unfold cap
      rcases hasleep with ⟨-, rfl⟩ | ⟨-, rfl⟩
      · have hle := List.length_eraseIdx_le p.asleep i
        simp only
        omega
      · exact Nat.le_refl _
    · unfold work
      simp only
      omega
  | daemon store hquiet hstore =>
    have hdaemon := World.flushDaemonStep_of_step hstore
    have hwork := hdaemon.work_lt h.orderly.memtables hrunning
    have heffect := announces_afterDaemon hdaemon
    generalize p.afterDaemon store = q at heffect ⊢
    cases heffect with
    | wakes =>
      refine spends_of_work ?_ ?_
      · unfold cap wakeAll
        simp only [List.length_map]
        exact Nat.le_refl _
      · unfold work wakeAll
        simp only [List.length_map]
        omega
    | announces hthreads =>
      -- the step pays for the broadcast that is to come
      refine spends_of_work (Nat.le_refl _) ?_
      unfold work
      simp only [hquiet, workIf_true, workIf_false]
      omega
    | quiet hthreads hpc himm => exact spends_of_store (by omega)
  | checkFull i call hget hpc hfull =>
    refine spends_of_wait hget ?_
    simp only [waitTurns, hpc]
    exact Nat.zero_lt_one
  | checkRoom i call hget hpc hroom =>
    refine spends_of_wait hget ?_
    have hfull : p.full = false := decide_eq_false (Nat.not_le_of_lt hroom)
    simp only [waitTurns, hpc, hfull, Bool.false_eq_true, if_false]
    exact Nat.zero_lt_one
  | again i call hget hpc hwaits =>
    refine spends_of_wait hget ?_
    have hfull : p.full = true := decide_eq_true (of_decide_eq_true hwaits).2
    simp only [waitTurns, hpc, hfull, if_true]
    exact Nat.one_lt_two
  | enter i call store hget hpc hstore =>
    have hwork := World.work_insert hstore
    have hlen := List.length_eraseIdx_add_one (List.getElem?_eq_some_iff.mp hget).1
    refine spends_of_work ?_ ?_
    · unfold cap
      simp only
      omega
    · have hmul := Nat.mul_succ waitWork (p.waiting.eraseIdx i).length
      rw [Nat.succ_eq_add_one, hlen] at hmul
      unfold work
      simp only
      omega
  | flushWait i hget hawake hactive =>
    refine ⟨?_, turns_le_cap _, Or.inr ⟨rfl, ?_⟩⟩
    · unfold cap
      simp only [List.length_set]
      exact Nat.le_refl _
    · obtain ⟨hi, hfalse⟩ := List.getElem?_eq_some_iff.mp hawake
      have hcount : (p.asleep.set i true).count false + 1 = p.asleep.count false := by
        rw [List.count_set hi, hfalse]
        have hpos : 0 < p.asleep.count false := List.count_pos_iff.mpr (hfalse ▸ List.getElem_mem hi)
        simp only [beq_self_eq_true, if_true]
        have : (true == false) = false := rfl
        simp only [this, Bool.false_eq_true, if_false]
        omega
      unfold turns full
      simp only
      omega
  | broadcast hbroadcasts =>
    refine spends_of_work ?_ ?_
    · unfold cap wakeAll
      simp only [List.length_map]
      exact Nat.le_refl _
    · unfold work wakeAll
      simp only [List.length_map, hbroadcasts, workIf_true, workIf_false]
      omega

end PoolWorld

/-! ## Where nobody can go on -/

section Enabled

variable {w : World}

theorem World.exists_insertCall (hrunning : w.status = .running) (h : w.inserting ≠ []) :
    ∃ w', w.step (.insertCall 0) = some w' := by
  obtain ⟨call, rest, hcalls⟩ := List.exists_cons_of_ne_nil h
  have hget : w.inserting[0]? = some call := by
    rw [hcalls]
    rfl
  unfold World.step insertCallStep
  rw [if_neg (not_not.mpr hrunning)]
  simp only [hget]
  split <;> exact ⟨_, rfl⟩

/-- A call of `lsmt_flush` waits for nothing but the background threads. -/
theorem World.exists_flushCall (hrunning : w.status = .running) {i : Nat} {call : FlushCall}
    (hget : w.flushing[i]? = some call) (h : call = .wait → w.lsmt.activeBackgroundThreads = 0) :
    ∃ w', w.step (.flushCall i) = some w' := by
  unfold World.step flushCallStep
  rw [if_neg (not_not.mpr hrunning)]
  cases call with
  | spawn =>
    simp only [hget]
    exact ⟨_, rfl⟩
  | signal =>
    simp only [hget]
    exact ⟨_, rfl⟩
  | wait =>
    simp only [hget, h rfl, gt_iff_lt, Nat.lt_irrefl, if_false]
    exact ⟨_, rfl⟩

/-- The flush daemon waits for nothing but its signal. -/
theorem World.exists_flushDaemon (hrunning : w.status = .running) (h : ¬ w.DaemonBlocked) :
    ∃ w', w.step .flushDaemon = some w' := by
  unfold World.step flushDaemonStep
  rw [if_neg (not_not.mpr hrunning)]
  simp only
  cases hpc : w.flushPc with
  | waiting =>
    have hneeded : w.lsmt.flushNeeded = true := by
      rw [← Bool.not_eq_false]
      exact fun hdown => h ⟨hpc, hdown⟩
    simp only [hneeded, if_true]
    exact ⟨_, rfl⟩
  | draining =>
    simp only
    split <;> exact ⟨_, rfl⟩
  | writing memtable =>
    simp only
    split <;> exact ⟨_, rfl⟩
  | registering memtable sst =>
    simp only
    split <;> exact ⟨_, rfl⟩
  | writingMetadata memtable generation snapshot => exact ⟨_, rfl⟩
  | unregistering memtable registered => exact ⟨_, rfl⟩
  | signalling => exact ⟨_, rfl⟩

/-- Next to an idle flush daemon the compaction waits for nothing but its signal. -/
theorem World.exists_compact (hrunning : w.status = .running) (hactive : w.lsmt.flushActive = false)
    (himm : w.lsmt.immutables = [])
    (h : ¬ (w.compactPc = .waiting ∧ w.lsmt.compactionNeeded = false)) :
    ∃ faults w', w.step (.compact faults) = some w' := by
  have hstep : ∀ faults, w.step (.compact faults) = compactStep w faults :=
    fun faults => if_neg (not_not.mpr hrunning)
  simp only [hstep, compactStep]
  cases hpc : w.compactPc with
  | waiting =>
    have hneeded : w.lsmt.compactionNeeded = true := by
      rw [← Bool.not_eq_false]
      exact fun hdown => h ⟨hpc, hdown⟩
    simp only [hneeded, if_true]
    exact ⟨[], _, rfl⟩
  | mergeWait pass inputs =>
    simp only [hactive, himm, Bool.false_eq_true, ne_eq, not_true_eq_false, or_self, if_false]
    exact ⟨[], _, rfl⟩
  | merging pass inputs =>
    refine ⟨List.replicate inputs.length IoFaults.none, ?_⟩
    simp only [List.length_replicate, if_true]
    split <;> exact ⟨_, rfl⟩
  | adding pass inputs newSst =>
    refine ⟨[], ?_⟩
    simp only
    split <;> exact ⟨_, rfl⟩
  | starting => exact ⟨[], _, rfl⟩
  | scanning pass => exact ⟨[], _, rfl⟩
  | snapshotting sstToDelete => exact ⟨[], _, rfl⟩
  | writingMetadata generation snapshot sstToDelete => exact ⟨[], _, rfl⟩
  | deleting sstToDelete => exact ⟨[], _, rfl⟩
  | quitting inputs => exact ⟨[], _, rfl⟩

theorem World.exists_insert (hrunning : w.status = .running) (key : SlUint128) (content : Bytes)
    (h : ¬ lsmtInsertWaits w.lsmt = true) : ∃ w', w.step (.insert key content) = some w' := by
  unfold World.step insertStep
  rw [if_neg (not_not.mpr hrunning)]
  simp only [if_neg h]
  exact ⟨_, rfl⟩

end Enabled

namespace PoolWorld

variable {p : PoolWorld}

/-- No thread that is already there can go on. -/
def Stuck (p : PoolWorld) : Prop := ∀ a : PoolAction, a.GoesOn → p.step a = none

theorem Stuck.threadStep (h : p.Stuck) (hrunning : p.store.status = .running) {a : Action}
    (ha : (PoolAction.thread a).GoesOn) : p.threadStep a = none := by
  have hstep := h (.thread a) ha
  rw [step, if_neg (not_not.mpr hrunning)] at hstep
  exact hstep

theorem Stuck.waitStep (h : p.Stuck) (hrunning : p.store.status = .running) (i : Nat) :
    p.waitStep i = none := by
  have hstep := h (.wait i) trivial
  rw [step, if_neg (not_not.mpr hrunning)] at hstep
  exact hstep

theorem Stuck.broadcasts (h : p.Stuck) (hrunning : p.store.status = .running) :
    p.broadcasts = false := by
  have hstep := h .broadcast trivial
  rw [step, if_neg (not_not.mpr hrunning)] at hstep
  cases hb : p.broadcasts with
  | false => rfl
  | true =>
    simp only [hb, if_true, reduceCtorEq] at hstep

theorem Stuck.inserting (h : p.Stuck) (hrunning : p.store.status = .running) :
    p.store.inserting = [] := by
  by_contra hne
  obtain ⟨store, hstore⟩ := World.exists_insertCall hrunning hne
  have hstep := h.threadStep hrunning (a := .insertCall 0) trivial
  change (p.store.step (.insertCall 0)).map _ = none at hstep
  rw [hstore] at hstep
  cases hstep

/-- A call of `lsmt_flush` that cannot go on sleeps. -/
theorem Stuck.asleep (h : p.Stuck) (hrunning : p.store.status = .running)
    (haligned : p.asleep.length = p.store.flushing.length) {i : Nat} {call : FlushCall}
    (hget : p.store.flushing[i]? = some call) : p.asleep[i]? = some true := by
  have hlt : i < p.asleep.length := by
    rw [haligned]
    exact (List.getElem?_eq_some_iff.mp hget).1
  have hasleep := List.getElem?_eq_getElem hlt
  cases hb : p.asleep[i] with
  | true => rw [hasleep, hb]
  | false =>
    exfalso
    rw [hb] at hasleep
    by_cases hwait : call = .wait ∧ 0 < p.store.lsmt.activeBackgroundThreads
    · -- it looks at the count and goes to sleep
      have hstep := h (.flushWait i) trivial
      rw [step, if_neg (not_not.mpr hrunning)] at hstep
      simp only [flushWaitStep, hget, hwait.1, hasleep, gt_iff_lt, hwait.2, if_true,
        reduceCtorEq] at hstep
    · obtain ⟨store, hstore⟩ := World.exists_flushCall hrunning hget
        fun hcall => Nat.eq_zero_of_not_pos fun hactive => hwait ⟨hcall, hactive⟩
      have hstep := h.threadStep hrunning (a := .flushCall i) trivial
      rw [PoolWorld.threadStep, hasleep, if_neg (by simp), hstore] at hstep
      cases hstep

/-- A call of `lsmt_insert` that cannot go on sleeps. -/
theorem Stuck.sleeps (h : p.Stuck) (hrunning : p.store.status = .running) {call : WaitingInsert}
    (hcall : call ∈ p.waiting) : call.pc = .asleep := by
  obtain ⟨i, hget⟩ := List.mem_iff_getElem?.mp hcall
  have hstep := h.waitStep hrunning i
  cases hpc : call.pc with
  | asleep => rfl
  | checking => simp only [PoolWorld.waitStep, hget, hpc, reduceCtorEq] at hstep
  | awake =>
    exfalso
    simp only [PoolWorld.waitStep, hget, hpc] at hstep
    split at hstep
    · cases hstep
    · rename_i hroom
      obtain ⟨store, hstore⟩ := World.exists_insert hrunning call.key call.content hroom
      rw [hstore] at hstep
      cases hstep

/-- Where nobody can go on, nobody sleeps either. -/
theorem Inv.atRest (h : p.Inv) (hstuck : p.Stuck) (hrunning : p.store.status = .running) :
    p.AtRest := by
  have hquiet := hstuck.broadcasts hrunning
  have hinserting := hstuck.inserting hrunning
  have hblocked : p.store.DaemonBlocked := by
    by_contra hactive
    obtain ⟨store, hstore⟩ := World.exists_flushDaemon hrunning hactive
    have hstep := hstuck.threadStep hrunning (a := .flushDaemon) trivial
    rw [PoolWorld.threadStep, hquiet, if_neg Bool.false_ne_true, hstore] at hstep
    cases hstep
  -- everybody in `lsmt_flush` has given the signal, so nobody owes it
  have hwaits : ∀ call ∈ p.store.flushing, call = .wait := by
    intro call hcall
    obtain ⟨i, hget⟩ := List.mem_iff_getElem?.mp hcall
    have hwait := (h.flushes i (hstuck.asleep hrunning h.aligned hget)).1
    rw [hget] at hwait
    exact Option.some.inj hwait
  have hnone : ¬ p.store.SomeoneOwes := by
    rintro (⟨call, hcall, -⟩ | hspawn | hsignal)
    · rw [hinserting] at hcall
      cases hcall
    · cases hwaits _ hspawn
    · cases hwaits _ hsignal
  have hdone : p.store.lsmt.activeBackgroundThreads = 0 ∧ p.store.lsmt.immutables = [] := by
    by_contra hwork
    refine hnone (h.orderly.signal hblocked ?_)
    by_contra hnot
    push Not at hnot
    exact hwork hnot
  have hflushing : p.store.flushing = [] := by
    rw [List.eq_nil_iff_forall_not_mem]
    intro call hcall
    obtain ⟨i, hget⟩ := List.mem_iff_getElem?.mp hcall
    have hactive := (h.flushes i (hstuck.asleep hrunning h.aligned hget)).2
    rw [hdone.1] at hactive
    exact Nat.lt_irrefl 0 hactive
  have hwaiting : p.waiting = [] := by
    rw [List.eq_nil_iff_forall_not_mem]
    intro call hcall
    rcases h.covered ⟨call, hcall, hstuck.sleeps hrunning hcall⟩ with hb | hpc | himm
    · rw [hquiet] at hb
      cases hb
    · rw [hblocked.1] at hpc
      cases hpc
    · exact himm hdone.2
  have hidle : p.store.lsmt.flushActive = false := by
    rw [← Bool.not_eq_true]
    intro hactive
    have hsome := h.orderly.flushActive hactive
    rw [hblocked.1] at hsome
    cases hsome
  have hcompact : p.store.compactPc = .waiting ∧ p.store.lsmt.compactionNeeded = false := by
    by_contra hwork
    obtain ⟨faults, store, hstore⟩ := World.exists_compact hrunning hidle hdone.2 hwork
    have hstep := hstuck.threadStep hrunning (a := .compact faults) trivial
    change (p.store.step (.compact faults)).map _ = none at hstep
    rw [hstore] at hstep
    cases hstep
  exact ⟨⟨hblocked.1, hcompact.1, hblocked.2, hcompact.2, hdone.2⟩, hinserting, hflushing, hwaiting⟩

end PoolWorld

/-! ## No call is lost -/

/-- A call with this record has run its critical section. -/
def World.Took (w : World) (node : SlUint128 × Bytes) : Prop :=
  ∃ call, (call ∈ w.inserting ∨ call ∈ w.returned) ∧ call.node = node

theorem World.Took.of_same {w w' : World} {node : SlUint128 × Bytes} (h : w.Took node)
    (hsame : w.SameCalls w') : w'.Took node := by
  unfold World.Took
  rw [hsame.inserting, hsame.returned]
  exact h

theorem World.Took.step {w w' : World} {node : SlUint128 × Bytes} {a : Action} (h : w.Took node)
    (hstep : w.step a = some w') : w'.Took node := by
  obtain ⟨c, hc, hnode⟩ := h
  cases (World.step_cases hstep).2 with
  | insert key content hwaits call hcall =>
    exact ⟨c, hc.imp_left (List.mem_append_left _), hnode⟩
  | insertSignal i call hget hspawn =>
    rcases hc with hc | hc
    · by_cases heq : c = call
      · subst heq
        exact ⟨_, Or.inl (List.mem_set (List.getElem?_eq_some_iff.mp hget).1 _), hnode⟩
      · refine ⟨c, Or.inl ?_, hnode⟩
        obtain ⟨j, hj⟩ := List.mem_iff_getElem?.mp hc
        have hne : i ≠ j := by
          rintro rfl
          rw [hget] at hj
          exact heq (Option.some.inj hj).symm
        refine List.mem_iff_getElem?.mpr ⟨j, ?_⟩
        show (w.inserting.set i _)[j]? = some c
        rw [List.getElem?_set_ne hne]
        exact hj
    · exact ⟨c, Or.inr hc, hnode⟩
  | insertReturn i call hget hspawn =>
    rcases hc with hc | hc
    · by_cases heq : c = call
      · exact ⟨c, Or.inr (List.mem_append_right _ (List.mem_singleton.mpr heq)), hnode⟩
      · exact ⟨c, Or.inl (mem_eraseIdx_of_ne hc hget heq), hnode⟩
    · exact ⟨c, Or.inr (List.mem_append_left _ hc), hnode⟩
  | flushDaemon _ hdaemon => exact World.Took.of_same ⟨c, hc, hnode⟩ hdaemon.sameCalls
  | compact faults _ hcompact => exact World.Took.of_same ⟨c, hc, hnode⟩ hcompact.sameCalls
  | _ => exact ⟨c, hc, hnode⟩

theorem World.took_insert {w w' : World} {key : SlUint128} {content : Bytes}
    (hstep : w.step (.insert key content) = some w') : w'.Took (key, content) := by
  cases (World.step_cases hstep).2 with
  | insert key content hwaits call hcall =>
    subst hcall
    exact ⟨_, Or.inl (List.mem_append_right _ (List.mem_singleton.mpr rfl)), rfl⟩

namespace PoolWorld

variable {p q : PoolWorld}

/-- A call with this record waits, or has run its critical section. -/
def Has (p : PoolWorld) (node : SlUint128 × Bytes) : Prop :=
  (∃ call ∈ p.waiting, call.node = node) ∨ p.store.Took node

/-- The wait loop of `lsmt_insert` keeps the record. -/
theorem Has.wait {node : SlUint128 × Bytes} (h : p.Has node) {i : Nat} {call : WaitingInsert}
    (hget : p.waiting[i]? = some call) (pc : WaitPc) :
    Has { p with waiting := p.waiting.set i { call with pc := pc } } node := by
  refine h.imp_left ?_
  rintro ⟨c, hc, hnode⟩
  obtain ⟨j, hj⟩ := List.mem_iff_getElem?.mp hc
  by_cases hne : i = j
  · subst hne
    rw [hget] at hj
    cases hj
    exact ⟨_, List.mem_set (List.getElem?_eq_some_iff.mp hget).1 _, hnode⟩
  · refine ⟨c, List.mem_iff_getElem?.mpr ⟨j, ?_⟩, hnode⟩
    show (p.waiting.set i _)[j]? = some c
    rw [List.getElem?_set_ne hne]
    exact hj

theorem Has.wakeAll {node : SlUint128 × Bytes} (h : p.Has node) : p.wakeAll.Has node := by
  refine h.imp_left ?_
  rintro ⟨c, hc, hnode⟩
  refine ⟨_, List.mem_map_of_mem hc, ?_⟩
  split <;> exact hnode

theorem Has.step {node : SlUint128 × Bytes} {a : PoolAction} (h : p.Has node)
    (hstep : p.step a = some q) : q.Has node := by
  cases (step_cases hstep).2 with
  | insert key content store hstore => exact h.imp_right fun htook => htook.step hstore
  | insertCall i store hstore => exact h.imp_right fun htook => htook.step hstore
  | compact faults store hstore => exact h.imp_right fun htook => htook.step hstore
  | flush store hstore => exact h.imp_right fun htook => htook.step hstore
  | flushCall i store asleep hawake hstore => exact h.imp_right fun htook => htook.step hstore
  | daemon store hquiet hstore =>
    have hstored : Has { p with store := store } node := h.imp_right fun htook => htook.step hstore
    have heffect := announces_afterDaemon (World.flushDaemonStep_of_step hstore)
    generalize p.afterDaemon store = q at heffect ⊢
    cases heffect with
    | wakes => exact hstored.wakeAll
    | announces hthreads => exact hstored
    | quiet hthreads hpc himm => exact hstored
  | arrive key content hwaits =>
    exact h.imp_left fun ⟨c, hc, hnode⟩ => ⟨c, List.mem_append_left _ hc, hnode⟩
  | checkFull i call hget hpc hfull => exact h.wait hget _
  | checkRoom i call hget hpc hroom => exact h.wait hget _
  | again i call hget hpc hwaits => exact h.wait hget _
  | spurious i call hget hpc => exact h.wait hget _
  | enter i call store hget hpc hstore =>
    rcases h with ⟨c, hc, hnode⟩ | htook
    · by_cases heq : c = call
      · subst heq
        exact Or.inr (hnode ▸ World.took_insert hstore)
      · exact Or.inl ⟨c, mem_eraseIdx_of_ne hc hget heq, hnode⟩
    · exact Or.inr (htook.step hstore)
  | flushWait i hget hawake hactive => exact h
  | spuriousFlush i hasleep => exact h
  | broadcast hbroadcasts => exact h.wakeAll

end PoolWorld

/-- No wake-up is lost, and nobody is woken up for ever. From every state a store can come to, the
threads that are there take a bounded number of steps unless new calls begin; and where none of them
can go on, every call of `lsmt_insert` and `lsmt_flush` has returned, those that had to wait for room
among them, and both daemons wait with nothing left to do. -/
theorem comes_to_rest {as : List PoolAction} {p : PoolWorld}
    (hrun : run PoolWorld.step PoolWorld.init as = some p) :
    ∃ n, ∀ bs q, (∀ b ∈ bs, b.GoesOn) → run PoolWorld.step p bs = some q →
      bs.length ≤ n ∧
      (q.Stuck → q.store.status = .running →
        q.AtRest ∧ ∀ call ∈ p.waiting, ∃ done ∈ q.store.returned, done.node = call.node) := by
  have hinv : p.Inv :=
    run_invariant (fun _ _ _ (_ : True) h hstep => h.step hstep) (fun _ _ => trivial)
      PoolWorld.inv_init hrun
  refine ⟨bound PoolWorld.work PoolWorld.turns p.cap p, fun bs q hgo hcont => ⟨?_, ?_⟩⟩
  · exact length_le_of_spends (P := PoolWorld.Inv)
      (fun s b t hb hs (hstep : s.step b = some t) => ⟨hs.step hstep, hs.spends hb hstep⟩)
      hgo hinv hcont
  · intro hstuck hrunning
    have hq : q.Inv :=
      run_invariant (fun _ _ _ (_ : True) h hstep => h.step hstep) (fun _ _ => trivial) hinv hcont
    have hrest := hq.atRest hstuck hrunning
    refine ⟨hrest, fun call hcall => ?_⟩
    have hhas : q.Has call.node :=
      run_invariant (P := fun r : PoolWorld => r.Has call.node)
        (fun _ _ _ (_ : True) h hstep => h.step hstep) (fun _ _ => trivial)
        (Or.inl ⟨call, hcall, rfl⟩) hcont
    rcases hhas with ⟨c, hc, -⟩ | ⟨done, hdone | hdone, hnode⟩
    · rw [hrest.waiting] at hc
      cases hc
    · rw [hrest.inserting] at hdone
      cases hdone
    · exact ⟨done, hdone, hnode⟩

/-! ## A full store -/

/-- `n` calls of `lsmt_flush` have handed over an empty memtable each, and nothing else has happened. -/
structure PoolWorld.Handed (n : Nat) (p : PoolWorld) : Prop where
  status : p.store.status = .running
  immutables : p.store.lsmt.immutables.length = n
  memtable : ∃ addr, p.store.lsmt.memtable = slInit addr
  flushing : p.store.flushing = List.replicate n .spawn
  inserting : p.store.inserting = []
  waiting : p.waiting = []
  asleep : p.asleep = List.replicate n false

theorem PoolWorld.Handed.next {n : Nat} {p : PoolWorld} (h : p.Handed n) (hn : n < maxImmutables) :
    ∃ q, p.step (.thread .flush) = some q ∧ q.Handed (n + 1) := by
  have hroom : ¬ p.store.lsmt.immutables.length ≥ maxImmutables := by
    rw [h.immutables]
    omega
  have hstore : p.store.step .flush = some { p.store with
      lsmt := registerImmutable p.store.lsmt
      flushing := p.store.flushing ++ [.spawn] } := by
    unfold World.step flushStep
    rw [if_neg (not_not.mpr h.status), if_neg hroom]
  refine ⟨{ p with
    store := { p.store with
      lsmt := registerImmutable p.store.lsmt
      flushing := p.store.flushing ++ [.spawn] }
    asleep := p.asleep ++ [false] }, ?_, h.status, ?_, ⟨_, rfl⟩, ?_, h.inserting, h.waiting, ?_⟩
  · unfold PoolWorld.step
    rw [if_neg (not_not.mpr h.status)]
    show (p.store.step .flush).map _ = _
    rw [hstore, Option.map_some, if_pos h.status]
  · show (p.store.lsmt.immutables ++ [p.store.lsmt.memtable]).length = n + 1
    rw [List.length_append, h.immutables, List.length_singleton]
  · rw [List.replicate_succ', ← h.flushing]
  · rw [List.replicate_succ', ← h.asleep]

theorem PoolWorld.exists_handed {n : Nat} (hn : n ≤ maxImmutables) :
    ∃ p, run PoolWorld.step PoolWorld.init (List.replicate n (.thread .flush)) = some p ∧
      p.Handed n := by
  induction n with
  | zero => exact ⟨_, rfl, rfl, rfl, ⟨0, rfl⟩, rfl, rfl, rfl, rfl⟩
  | succ n ih =>
    obtain ⟨p, hrun, hp⟩ := ih (Nat.le_of_succ_le hn)
    obtain ⟨q, hstep, hq⟩ := hp.next hn
    refine ⟨q, ?_, hq⟩
    rw [List.replicate_succ']
    exact run_append_eq_some.mpr ⟨p, hrun, run_cons_eq_some.mpr ⟨q, hstep, rfl⟩⟩

/-- A call of `lsmt_flush` goes to sleep, an insertion fills the memtable, and the next one finds the
array full and goes to sleep as well. -/
def fallAsleep (content : Bytes) : List PoolAction :=
  [.thread (.flushCall 0), .thread (.flushCall 0), .flushWait 0, .thread (.insert ⟨1, 0⟩ content),
    .arrive ⟨2, 0⟩ (encodeData 1 [7]), .wait 0]

theorem PoolWorld.Handed.fallAsleep {p : PoolWorld} (h : p.Handed maxImmutables) {content : Bytes}
    (hfull : sizeThreshold < 16 + content.length) :
    ∃ q, run PoolWorld.step p (fallAsleep content) = some q ∧
      q.waiting = [⟨⟨2, 0⟩, encodeData 1 [7], .asleep⟩] ∧ q.asleep[0]? = some true := by
  obtain ⟨⟨lsmt, inserting, flushing, flushPc, compactPc, status, _, _, _, _⟩, waiting, asleep, _⟩ := p
  obtain ⟨hstatus, himm, ⟨addr, hmemtable⟩, hflushing, hinserting, hwaiting, hasleep⟩ := h
  simp only at hstatus himm hmemtable hflushing hinserting hwaiting hasleep
  subst hstatus hflushing hinserting hwaiting hasleep
  -- the memtable behind the insertion, which does not rotate an empty one
  obtain ⟨sl, hins, hsize⟩ : ∃ sl, slInsert lsmt.memtable ⟨1, 0⟩ content = (sl, 0) ∧
      sl.size = 16 + content.length := by
    rw [hmemtable]
    exact ⟨_, rfl, Nat.zero_add _ ▸ rfl⟩
  have hempty : lsmt.memtable.size = 0 := by
    rw [hmemtable]
    rfl
  have hwaits : sizeThreshold < sl.size := hsize ▸ hfull
  have hthreads : 0 < if lsmt.activeBackgroundThreads = 0 then 1 else lsmt.activeBackgroundThreads := by
    split <;> omega
  have hcalls : List.replicate maxImmutables FlushCall.spawn =
      .spawn :: List.replicate (maxImmutables - 1) .spawn := rfl
  have hflags : List.replicate maxImmutables false = false :: List.replicate (maxImmutables - 1) false :=
    rfl
  simp [run, Lsmt.fallAsleep, PoolWorld.step, PoolWorld.threadStep, World.step, flushCallStep,
    flushWaitStep, insertStep, lsmtInsertWaits, lsmtInsertLocked, lsmtRotate, waitStep, hcalls, hflags,
    himm, hempty, hins, hwaits, hthreads]

/-- Calls of `lsmt_insert` and of `lsmt_flush` that sleep in front of a full array. -/
theorem comes_to_rest_one :
    ∃ p n, p.waiting = [⟨⟨2, 0⟩, encodeData 1 [7], .asleep⟩] ∧ p.asleep[0]? = some true ∧
      run PoolWorld.step PoolWorld.init
        (List.replicate maxImmutables (.thread .flush) ++
          fallAsleep (List.replicate sizeThreshold 0)) = some p ∧
      ∀ bs q, (∀ b ∈ bs, b.GoesOn) → run PoolWorld.step p bs = some q →
        bs.length ≤ n ∧
        (q.Stuck → q.store.status = .running →
          q.AtRest ∧ ∀ call ∈ p.waiting, ∃ done ∈ q.store.returned, done.node = call.node) := by
  have hfull : sizeThreshold < 16 + (List.replicate sizeThreshold (0 : UInt8)).length := by
    rw [List.length_replicate]
    omega
  obtain ⟨p, hrun, hp⟩ := PoolWorld.exists_handed (le_refl maxImmutables)
  obtain ⟨q, hnext, hwaiting, hasleep⟩ := hp.fallAsleep hfull
  have hwhole := run_append_eq_some.mpr ⟨p, hrun, hnext⟩
  obtain ⟨n, hn⟩ := comes_to_rest hwhole
  exact ⟨q, n, hwaiting, hasleep, hwhole, hn⟩

end RaftLsmt.Lsmt
