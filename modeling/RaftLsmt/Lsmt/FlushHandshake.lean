import RaftLsmt.Lsmt.StoreInvariant

/-!
# The handshake with the flush daemon

A call that rotates the memtable tells the flush daemon by setting `flush_needed`, and skips this
when `active_background_threads` says that somebody else has done so. `lsmt_flush` then waits until
the daemon has found the array of immutable memtables empty.

`FlushHistory` is a run of the store with two more history variables: the memtables that have been
rotated away, in order, and for every call of `lsmt_flush` in progress the insertions before it.
`FlushHistory.Inv` is the invariant; `flush_handshake` reads off it that no memtable is left behind,
that each one is registered once and in order, and that `lsmt_flush` returns only when everything
inserted before it is registered.
-/

set_option autoImplicit false

namespace RaftLsmt.Lsmt

open RaftLsmt.Lib.StepMachine

/-- A world with the memtables rotated away so far, oldest first, and for each call in `flushing` the
insertions in front of it. -/
structure FlushHistory where
  world : World
  rotated : List Sl
  begun : List (List InsertCall)

/-- The memtable that a step moves to `immutables`. -/
def World.rotates (w : World) : Action → List Sl
  | .insert _ _ => if w.lsmt.memtable.size > sizeThreshold then [w.lsmt.memtable] else []
  | .flush => if w.lsmt.immutables.length ≥ maxImmutables then [] else [w.lsmt.memtable]
  | _ => []

/-- The calls of `lsmt_flush` that are in progress behind the step. -/
def FlushHistory.begunAfter (h : FlushHistory) : Action → List (List InsertCall)
  | .flush =>
    if h.world.lsmt.immutables.length ≥ maxImmutables then h.begun
    else h.begun ++ [h.world.inserted]
  | .flushCall i =>
    match h.world.flushing[i]? with
    | some .wait => h.begun.eraseIdx i
    | _ => h.begun
  | _ => h.begun

/-- A step of the store, recorded. -/
def FlushHistory.step (h : FlushHistory) (a : Action) : Option FlushHistory :=
  (h.world.step a).map fun w => ⟨w, h.rotated ++ h.world.rotates a, h.begunAfter a⟩

/-- The history of a store before its first step. -/
def FlushHistory.init (w : World) : FlushHistory := ⟨w, [], []⟩

/-- Every run of the store has a history. -/
theorem FlushHistory.exists_run {w : World} {as : List Action} (h : FlushHistory) {w' : World}
    (hw : h.world = w) (hrun : run World.step w as = some w') :
    ∃ h', run FlushHistory.step h as = some h' ∧ h'.world = w' := by
  induction as generalizing h w with
  | nil =>
    cases hrun
    exact ⟨h, rfl, hw⟩
  | cons a as ih =>
    obtain ⟨m, hm, hrest⟩ := run_cons_eq_some.mp hrun
    have hstep : h.step a = some ⟨m, h.rotated ++ h.world.rotates a, h.begunAfter a⟩ := by
      rw [FlushHistory.step, hw, hm]
      rfl
    obtain ⟨h', hrun', hworld⟩ := ih ⟨m, h.rotated ++ h.world.rotates a, h.begunAfter a⟩ rfl hrest
    exact ⟨h', run_cons_eq_some.mpr ⟨_, hstep, hrun'⟩, hworld⟩

/-- The compaction takes no step that changes the list of SSTs. -/
def FlushHistory.CompactionIdle (h : FlushHistory) (a : Action) : Prop :=
  ∀ faults w, a = .compact faults → h.world.step a = some w →
    w.lsmt.metadata = h.world.lsmt.metadata

/-- The daemon waits for a signal that has not been given. -/
def World.DaemonBlocked (w : World) : Prop := w.flushPc = .waiting ∧ w.lsmt.flushNeeded = false

/-- The call that the action lets go on is going to signal the daemon. -/
def World.Owes (w : World) : Action → Prop
  | .insertCall i => ∃ call, w.inserting[i]? = some call ∧ call.needSpawn = true
  | .flushCall i => w.flushing[i]? = some .spawn ∨ w.flushing[i]? = some .signal
  | _ => False

/-- Some call owes the signal. -/
def World.SomeoneOwes (w : World) : Prop :=
  (∃ call ∈ w.inserting, call.needSpawn = true) ∨ .spawn ∈ w.flushing ∨ .signal ∈ w.flushing

theorem World.SomeoneOwes.exists {w : World} (h : w.SomeoneOwes) : ∃ a, w.Owes a := by
  rcases h with ⟨call, hcall, hneed⟩ | hspawn | hsignal
  · obtain ⟨i, hi⟩ := List.mem_iff_getElem?.mp hcall
    exact ⟨.insertCall i, call, hi, hneed⟩
  · obtain ⟨i, hi⟩ := List.mem_iff_getElem?.mp hspawn
    exact ⟨.flushCall i, Or.inl hi⟩
  · obtain ⟨i, hi⟩ := List.mem_iff_getElem?.mp hsignal
    exact ⟨.flushCall i, Or.inr hi⟩

/-- When the daemon is blocked although there is work, or a count says that there is, some call owes
it the signal. -/
def World.SignalInv (w : World) : Prop :=
  w.DaemonBlocked → w.lsmt.activeBackgroundThreads ≠ 0 ∨ w.lsmt.immutables ≠ [] → w.SomeoneOwes

/-- Removing a call that owes nothing. -/
theorem mem_eraseIdx_of_ne {α : Type} {l : List α} {i : Nat} {a b : α} (ha : a ∈ l)
    (hget : l[i]? = some b) (hne : a ≠ b) : a ∈ l.eraseIdx i := by
  obtain ⟨j, hj⟩ := List.mem_iff_getElem?.mp ha
  refine List.mem_eraseIdx_iff_getElem?.mpr ⟨j, ?_, hj⟩
  rintro rfl
  rw [hget] at hj
  exact hne (Option.some.inj hj).symm

theorem World.SignalInv.insert {w : World} (h : w.SignalInv) (key : SlUint128) (content : Bytes)
    {call : InsertCall} (hcall : call = ⟨key, content, (lsmtInsertLocked w.lsmt key content).1,
      (lsmtInsertLocked w.lsmt key content).2.1⟩) :
    World.SignalInv { w with
      lsmt := (lsmtInsertLocked w.lsmt key content).2.2
      inserting := w.inserting ++ [call]
      inserted := w.inserted ++ [call] } := by
  have hkeep : ∀ call, w.SomeoneOwes →
      (∃ c ∈ w.inserting ++ [call], InsertCall.needSpawn c = true) ∨
        .spawn ∈ w.flushing ∨ .signal ∈ w.flushing := by
    rintro call (⟨c, hc, hneed⟩ | hcall)
    · exact Or.inl ⟨c, List.mem_append_left _ hc, hneed⟩
    · exact Or.inr hcall
  subst hcall
  unfold lsmtInsertLocked
  by_cases hsize : w.lsmt.memtable.size > sizeThreshold
  · rw [lsmtRotate, if_pos hsize]
    by_cases hidle : (registerImmutable w.lsmt).activeBackgroundThreads = 0
    · -- the first rotation since the daemon found nothing: the new call owes the signal
      rw [if_pos hidle]
      intro _ _
      exact Or.inl ⟨_, List.mem_append_right _ (List.mem_singleton.mpr rfl), rfl⟩
    · rw [if_neg hidle]
      intro hblocked _
      exact hkeep _ (h hblocked (Or.inl hidle))
  · rw [lsmtRotate, if_neg hsize]
    intro hblocked hwork
    exact hkeep _ (h hblocked hwork)

/-- A daemon that does not wait is not blocked. -/
theorem World.SignalInv.of_not_waiting {w : World} (h : w.flushPc ≠ .waiting) : w.SignalInv :=
  fun hblocked => absurd hblocked.1 h

/-- The daemon goes to sleep only behind an empty array, with the count at zero. -/
theorem World.FlushDaemonStep.signalInv {w w' : World} (h : w.FlushDaemonStep w') : w'.SignalInv := by
  cases h with
  | idle hpc himm =>
    rintro - (hthreads | hne)
    · exact absurd rfl hthreads
    · exact absurd himm hne
  | overrun memtable hpc => exact .of_not_waiting (by simp [hpc])
  | refused memtable sst hpc => exact .of_not_waiting (by simp [hpc])
  | unregister memtable registered hpc => cases registered <;> exact .of_not_waiting (by simp)
  | _ => exact .of_not_waiting (by simp)

theorem World.SignalInv.step {w w' : World} (h : w.SignalInv) {a : Action}
    (hstep : w.step a = some w') : w'.SignalInv := by
  cases (World.step_cases hstep).2 with
  | insert key content hwaits call hcall => exact h.insert key content hcall
  | insertSignal i call hget hspawn =>
    rintro ⟨-, hneeded⟩
    cases hneeded
  | insertReturn i call hget hspawn =>
    intro hblocked hwork
    rcases h hblocked hwork with ⟨c, hc, hcneed⟩ | hcall
    · refine Or.inl ⟨c, mem_eraseIdx_of_ne hc hget ?_, hcneed⟩
      rintro rfl
      exact hspawn hcneed
    · exact Or.inr hcall
  | flushOverflow hfull => exact h
  | flush hroom =>
    intro _ _
    exact Or.inr (Or.inl (List.mem_append_right _ (List.mem_singleton.mpr rfl)))
  | flushSpawn i hget =>
    intro _ _
    have hlt : i < w.flushing.length := (List.getElem?_eq_some_iff.mp hget).1
    exact Or.inr (Or.inr (List.mem_set hlt _))
  | flushSignal i hget =>
    rintro ⟨-, hneeded⟩
    cases hneeded
  | flushReturn i hget hidle =>
    intro hblocked hwork
    rcases h hblocked hwork with hcall | hspawn | hsignal
    · exact Or.inl hcall
    · exact Or.inr (Or.inl (mem_eraseIdx_of_ne hspawn hget (by simp)))
    · exact Or.inr (Or.inr (mem_eraseIdx_of_ne hsignal hget (by simp)))
  | flushDaemon _ hdaemon => exact hdaemon.signalInv
  | compact faults _ hcompact =>
    have hsame := hcompact.sameFlush
    rintro ⟨hpc, hneeded⟩ hwork
    rw [hsame.flushPc] at hpc
    rw [hsame.flushNeeded] at hneeded
    rw [hsame.threads, hsame.immutables] at hwork
    unfold SomeoneOwes
    rw [hsame.inserting, hsame.flushing]
    exact h ⟨hpc, hneeded⟩ hwork

/-! ## The memtables -/

/-- The memtables with at least one node. -/
def nonEmpty (memtables : List Sl) : List Sl := memtables.filter fun m => m.bottomLevel.isEmpty = false

@[simp]
theorem nonEmpty_append (ms ns : List Sl) : nonEmpty (ms ++ ns) = nonEmpty ms ++ nonEmpty ns :=
  List.filter_append ms ns

theorem mem_nonEmpty {ms : List Sl} {m : Sl} : m ∈ nonEmpty ms ↔ m ∈ ms ∧ m.bottomLevel ≠ [] := by
  simp [nonEmpty]

theorem nonEmpty_cons_of_records {m : Sl} {ms : List Sl} (h : m.records ≠ []) :
    nonEmpty (m :: ms) = m :: nonEmpty ms := by
  have hne : m.bottomLevel ≠ [] := by
    intro hnil
    exact h (by rw [Sl.records, hnil, List.map_nil])
  exact List.filter_cons_of_pos (by simpa using hne)

theorem nonEmpty_cons_of_records_nil {m : Sl} {ms : List Sl} (h : m.records = []) :
    nonEmpty (m :: ms) = nonEmpty ms := by
  have hnil : m.bottomLevel = [] := List.map_eq_nil_iff.mp h
  exact List.filter_cons_of_neg (by simp [hnil])

/-- Where the memtables of a history are: every rotated one that is not empty is registered or waits
for it, in the order of the rotations; every accepted record is in the active memtable or in a
rotated one. -/
structure FlushHistory.Ledger (base : List SstMetadataRecord) (h : FlushHistory) : Prop where
  memtable : h.world.lsmt.memtable.Wf
  rotated : ∀ m ∈ h.rotated, m.Wf
  immutables : h.world.lsmt.immutables ⊆ h.rotated
  flushPc : FlushPcOk h.world.lsmt.immutables h.world.flushPc
  registered : ∃ done, nonEmpty h.rotated = done ++ nonEmpty h.world.unflushed ∧
    List.Forall₂ SstOf h.world.flushed done
  listed : h.world.lsmt.metadata.records = h.world.flushed.reverse ++ base
  kept : ∀ call ∈ h.world.inserted, call.rv = 0 →
    call.node ∈ h.world.lsmt.memtable.bottomLevel ∨ ∃ m ∈ h.rotated, call.node ∈ m.bottomLevel

namespace FlushHistory.Ledger

variable {base : List SstMetadataRecord} {h : FlushHistory}

/-- A step that concerns none of this. -/
theorem same (hl : h.Ledger base) {w : World} (begun : List (List InsertCall))
    (hmem : w.lsmt.memtable = h.world.lsmt.memtable)
    (himm : w.lsmt.immutables = h.world.lsmt.immutables)
    (hmeta : w.lsmt.metadata = h.world.lsmt.metadata)
    (hreg : w.flushPc.registered = h.world.flushPc.registered)
    (hok : FlushPcOk h.world.lsmt.immutables w.flushPc)
    (hins : w.inserted = h.world.inserted) (hfl : w.flushed = h.world.flushed) :
    Ledger base ⟨w, h.rotated, begun⟩ := by
  have hunfl : w.unflushed = h.world.unflushed := by
    simp only [World.unflushed, hreg, himm]
  exact ⟨hmem ▸ hl.memtable, hl.rotated, by rw [himm]; exact hl.immutables, by rw [himm]; exact hok,
    by rw [hunfl, hfl]; exact hl.registered, by rw [hmeta, hfl]; exact hl.listed,
    by rw [hins, hmem]; exact hl.kept⟩

/-- A rotation. -/
theorem rotate (hl : h.Ledger base) (begun : List (List InsertCall)) {w : World}
    (hw : ∃ threads flushing, w = { h.world with
      lsmt := { registerImmutable h.world.lsmt with activeBackgroundThreads := threads }
      flushing := flushing }) :
    Ledger base ⟨w, h.rotated ++ [h.world.lsmt.memtable], begun⟩ := by
  obtain ⟨threads, flushing, rfl⟩ := hw
  have hunfl : World.unflushed { h.world with
      lsmt := { registerImmutable h.world.lsmt with activeBackgroundThreads := threads }
      flushing := flushing } = h.world.unflushed ++ [h.world.lsmt.memtable] := by
    simp only [World.unflushed, registerImmutable]
    split
    · rename_i hreg
      rw [List.tail_append_of_ne_nil (hl.flushPc.ne_nil hreg)]
    · rfl
  refine ⟨Sl.wf_slInit _, fun m hm => ?_, fun m hm => ?_, hl.flushPc.append _, ?_, hl.listed,
    fun call hcall hrv => ?_⟩
  · rcases List.mem_append.mp hm with hm | hm
    · exact hl.rotated m hm
    · rw [List.mem_singleton.mp hm]
      exact hl.memtable
  · rcases List.mem_append.mp hm with hm | hm
    · exact List.mem_append_left _ (hl.immutables hm)
    · exact List.mem_append_right _ hm
  · obtain ⟨done, hdone, hssts⟩ := hl.registered
    exact ⟨done, by rw [hunfl, nonEmpty_append, nonEmpty_append, hdone, List.append_assoc], hssts⟩
  · rcases hl.kept call hcall hrv with hmem | ⟨m, hm, hnode⟩
    · exact Or.inr ⟨_, List.mem_append_right _ (List.mem_singleton.mpr rfl), hmem⟩
    · exact Or.inr ⟨m, List.mem_append_left _ hm, hnode⟩

/-- An insertion into the active memtable. -/
theorem insertRecord (hl : h.Ledger base) (key : SlUint128) (content : Bytes) (needSpawn : Bool) :
    Ledger base ⟨(let call : InsertCall :=
        ⟨key, content, (slInsert h.world.lsmt.memtable key content).2, needSpawn⟩
      { h.world with
        lsmt := { h.world.lsmt with memtable := (slInsert h.world.lsmt.memtable key content).1 }
        inserting := h.world.inserting ++ [call]
        inserted := h.world.inserted ++ [call] }), h.rotated, h.begun⟩ := by
  rcases slInsert_cases hl.memtable key content with ⟨hins, -⟩ | ⟨sl', hins, -, hwf, -, hperm⟩
  · rw [hins]
    refine ⟨hl.memtable, hl.rotated, hl.immutables, hl.flushPc, hl.registered, hl.listed,
      fun call hcall hrv => ?_⟩
    rcases List.mem_append.mp hcall with hcall | hcall
    · exact hl.kept call hcall hrv
    · -- a refused call has not inserted anything
      rw [List.mem_singleton.mp hcall] at hrv
      exact absurd hrv (show ¬ (-1 : Int) = 0 by decide)
  · rw [hins]
    refine ⟨hwf, hl.rotated, hl.immutables, hl.flushPc, hl.registered, hl.listed,
      fun call hcall hrv => ?_⟩
    rcases List.mem_append.mp hcall with hcall | hcall
    · rcases hl.kept call hcall hrv with hmem | hrot
      · exact Or.inl (hperm.symm.subset (List.mem_cons_of_mem _ hmem))
      · exact Or.inr hrot
    · rw [List.mem_singleton.mp hcall]
      exact Or.inl (hperm.symm.subset List.mem_cons_self)

theorem insert (hl : h.Ledger base) (key : SlUint128) (content : Bytes) {call : InsertCall}
    (hcall : call = ⟨key, content, (lsmtInsertLocked h.world.lsmt key content).1,
      (lsmtInsertLocked h.world.lsmt key content).2.1⟩) :
    Ledger base ⟨{ h.world with
      lsmt := (lsmtInsertLocked h.world.lsmt key content).2.2
      inserting := h.world.inserting ++ [call]
      inserted := h.world.inserted ++ [call] },
      h.rotated ++ h.world.rotates (.insert key content), h.begun⟩ := by
  subst hcall
  unfold lsmtInsertLocked
  by_cases hsize : h.world.lsmt.memtable.size > sizeThreshold
  · have hone : h.world.rotates (.insert key content) = [h.world.lsmt.memtable] := if_pos hsize
    have hrotated (threads : Nat) :=
      hl.rotate h.begun (w := { h.world with
        lsmt := { registerImmutable h.world.lsmt with activeBackgroundThreads := threads } })
        ⟨threads, h.world.flushing, rfl⟩
    rw [lsmtRotate, if_pos hsize, hone]
    by_cases hidle : (registerImmutable h.world.lsmt).activeBackgroundThreads = 0
    · rw [if_pos hidle]
      exact (hrotated 1).insertRecord key content true
    · rw [if_neg hidle]
      exact (hrotated _).insertRecord key content false
  · have hnone : h.world.rotates (.insert key content) = [] := if_neg hsize
    rw [lsmtRotate, if_neg hsize, hnone, List.append_nil]
    exact hl.insertRecord key content false

/-- The SST of the first memtable goes to the list. -/
theorem register (hl : h.Ledger base) {memtable : Sl} {sst : SstMetadataRecord}
    (hpc : h.world.flushPc = .registering memtable sst) {metadata : SstMetadata}
    (hadd : sstMetadataAdd h.world.lsmt.metadata { sst with id := h.world.lsmt.sstableId } =
      some metadata) (sstableId generation : Nat) (snapshot : MetadataSnapshot) :
    Ledger base ⟨{ h.world with
      lsmt := { h.world.lsmt with
        metadata := metadata
        sstableId := sstableId
        metadataGeneration := generation }
      flushPc := .writingMetadata memtable generation snapshot
      flushed := h.world.flushed ++ [{ sst with id := h.world.lsmt.sstableId }] },
      h.rotated, h.begun⟩ := by
  have hok := hl.flushPc
  rw [hpc] at hok
  obtain ⟨hhead, hdisk⟩ := hok
  have hne := records_ne_nil_of_written hdisk
  have hof : SstOf { sst with id := h.world.lsmt.sstableId } memtable :=
    sstOf_of_written (hl.rotated _ (hl.immutables (List.mem_of_head? hhead))) hdisk _
  have hrecords : metadata.records = _ := records_sstMetadataAdd hadd
  obtain ⟨tail, htail⟩ : ∃ tail, h.world.lsmt.immutables = memtable :: tail :=
    List.head?_eq_some_iff.mp hhead
  obtain ⟨done, hdone, hssts⟩ := hl.registered
  refine ⟨hl.memtable, hl.rotated, hl.immutables, hhead, ⟨done ++ [memtable], ?_, ?_⟩, ?_, hl.kept⟩
  · have hbefore : h.world.unflushed = memtable :: tail := by
      simp [World.unflushed, hpc, FlushPc.registered, htail]
    rw [hbefore, nonEmpty_cons_of_records hne] at hdone
    rw [hdone, List.append_assoc]
    simp [World.unflushed, FlushPc.registered, htail]
  · exact List.rel_append hssts (List.Forall₂.cons hof List.Forall₂.nil)
  · show metadata.records = _
    rw [hrecords, hl.listed]
    simp

/-- The first memtable leaves the array, registered or empty. -/
theorem unregister (hl : h.Ledger base) {memtable : Sl} {registered : Bool}
    (hpc : h.world.flushPc = .unregistering memtable registered) :
    Ledger base ⟨{ h.world with
      lsmt := unregisterImmutableMemtable h.world.lsmt memtable
      flushPc := if registered then .signalling else .draining }, h.rotated, h.begun⟩ := by
  have hok := hl.flushPc
  rw [hpc] at hok
  obtain ⟨hhead, hempty⟩ := hok
  obtain ⟨tail, htail⟩ : ∃ tail, h.world.lsmt.immutables = memtable :: tail :=
    List.head?_eq_some_iff.mp hhead
  have herase : (h.world.lsmt.immutables.eraseP fun m => m.addr = memtable.addr) = tail := by
    rw [htail, List.eraseP_cons_of_pos (by simp)]
  have hnot : (if registered then FlushPc.signalling else FlushPc.draining).registered = false := by
    split <;> rfl
  have hafter : World.unflushed { h.world with
      lsmt := unregisterImmutableMemtable h.world.lsmt memtable
      flushPc := if registered then .signalling else .draining } = tail := by
    simp only [World.unflushed, hnot, Bool.false_eq_true, if_false, unregisterImmutableMemtable,
      herase]
  obtain ⟨done, hdone, hssts⟩ := hl.registered
  refine ⟨hl.memtable, hl.rotated, fun m hm => hl.immutables (List.eraseP_subset hm), ?_,
    ⟨done, ?_, hssts⟩, hl.listed, hl.kept⟩
  · show FlushPcOk _ (if registered then FlushPc.signalling else FlushPc.draining)
    split <;> trivial
  · rw [hafter, hdone]
    cases registered with
    | true => simp [World.unflushed, hpc, FlushPc.registered, htail]
    | false =>
      rw [show h.world.unflushed = memtable :: tail by
        simp [World.unflushed, hpc, FlushPc.registered, htail],
        nonEmpty_cons_of_records_nil (hempty rfl)]

theorem flushDaemonStep (hl : h.Ledger base) {w : World} (hstep : h.world.FlushDaemonStep w) :
    Ledger base ⟨w, h.rotated, h.begun⟩ := by
  have hok := hl.flushPc
  cases hstep with
  | wake hpc => exact hl.same h.begun rfl rfl rfl (by rw [hpc]; rfl) trivial rfl rfl
  | idle hpc => exact hl.same h.begun rfl rfl rfl (by rw [hpc]; rfl) trivial rfl rfl
  | drain memtable rest hpc himm =>
    exact hl.same h.begun rfl rfl rfl (by rw [hpc]; rfl) (by rw [himm]; rfl) rfl rfl
  | writeError memtable hpc hdisk =>
    rw [hpc] at hok
    exact hl.same h.begun rfl rfl rfl (by rw [hpc]; rfl)
      ⟨hok, fun _ => records_of_writeError hdisk⟩ rfl rfl
  | written memtable sst hpc hdisk =>
    rw [hpc] at hok
    exact hl.same h.begun rfl rfl rfl (by rw [hpc]; rfl) ⟨hok, hdisk⟩ rfl rfl
  | overrun memtable hpc =>
    -- a copy leaves a buffer: the run ends here
    exact hl.same h.begun rfl rfl rfl rfl hok rfl rfl
  | refused memtable sst hpc => exact hl.same h.begun rfl rfl rfl rfl hok rfl rfl
  | register memtable sst metadata hpc hadd => exact hl.register hpc hadd _ _ _
  | writeFile memtable generation snapshot hpc =>
    rw [hpc] at hok
    obtain ⟨h1, h2, h3⟩ := writeMetadata_same h.world.lsmt generation snapshot
    exact hl.same h.begun h1 h2 h3 (by rw [hpc]; rfl) ⟨hok, fun hnot => by cases hnot⟩ rfl rfl
  | unregister memtable registered hpc => exact hl.unregister hpc
  | signal hpc => exact hl.same h.begun rfl rfl rfl (by rw [hpc]; rfl) trivial rfl rfl

theorem step (hl : h.Ledger base) {a : Action} {h' : FlushHistory} (hidle : h.CompactionIdle a)
    (hstep : h.step a = some h') : h'.Ledger base := by
  obtain ⟨w, hw, rfl⟩ := Option.map_eq_some_iff.mp hstep
  cases (World.step_cases hw).2 with
  | insert key content hwaits call hcall =>
    have hbase := hl.insert key content hcall
    exact ⟨hbase.1, hbase.2, hbase.3, hbase.4, hbase.5, hbase.6, hbase.7⟩
  | flushOverflow hfull =>
    simp only [World.rotates]
    rw [if_pos hfull, List.append_nil]
    exact hl.same _ rfl rfl rfl rfl hl.flushPc rfl rfl
  | flush hroom =>
    simp only [World.rotates]
    rw [if_neg hroom]
    exact hl.rotate _ ⟨h.world.lsmt.activeBackgroundThreads, _, rfl⟩
  | flushDaemon _ hdaemon =>
    show Ledger base ⟨w, h.rotated ++ [], h.begun⟩
    rw [List.append_nil]
    exact hl.flushDaemonStep hdaemon
  | compact faults _ hcompact =>
    have hsame := hcompact.sameFlush
    show Ledger base ⟨w, h.rotated ++ [], h.begun⟩
    rw [List.append_nil]
    exact hl.same _ hsame.memtable hsame.immutables (hidle faults w rfl hw)
      (by rw [hsame.flushPc]) (by rw [hsame.flushPc]; exact hl.flushPc) hsame.inserted hsame.flushed
  | _ =>
    show Ledger base ⟨_, h.rotated ++ [], _⟩
    rw [List.append_nil]
    exact hl.same _ rfl rfl rfl rfl hl.flushPc rfl rfl

end FlushHistory.Ledger

/-! ## The calls of `lsmt_flush` -/

/-- The record is in a memtable whose SST the flush daemon has registered. -/
def World.InFlushedSst (w : World) (node : SlUint128 × Bytes) : Prop :=
  ∃ sst ∈ w.flushed, ∃ m, node ∈ m.bottomLevel ∧ SstOf sst m

/-- What the calls of `lsmt_flush` in progress rely on. Behind its rotation every accepted record in
front of a call is in a rotated memtable. Once it is counted, the count goes back to zero only when
these memtables are registered. -/
structure FlushHistory.Calls (h : FlushHistory) : Prop where
  length_eq : h.begun.length = h.world.flushing.length
  rotated : ∀ calls ∈ h.begun, ∀ call ∈ calls, call.rv = 0 →
    ∃ m ∈ h.rotated, call.node ∈ m.bottomLevel
  counted : ∀ (i : Nat) (calls : List InsertCall), h.begun[i]? = some calls →
    h.world.flushing[i]? = some .signal ∨ h.world.flushing[i]? = some .wait →
    h.world.lsmt.activeBackgroundThreads = 0 →
    ∀ call ∈ calls, call.rv = 0 → h.world.InFlushedSst call.node

namespace FlushHistory.Calls

variable {base : List SstMetadataRecord} {h : FlushHistory}

/-- A step that leaves the calls alone and does not reset the count. -/
theorem mono (hc : h.Calls) {w : World} {rotated : List Sl} (hrotated : h.rotated ⊆ rotated)
    (hflushing : w.flushing = h.world.flushing) (hflushed : h.world.flushed ⊆ w.flushed)
    (hthreads : w.lsmt.activeBackgroundThreads = 0 →
      h.world.lsmt.activeBackgroundThreads = 0) : Calls ⟨w, rotated, h.begun⟩ where
  length_eq := by
    rw [hflushing]
    exact hc.length_eq
  rotated calls hcalls call hcall hrv := by
    obtain ⟨m, hm, hnode⟩ := hc.rotated calls hcalls call hcall hrv
    exact ⟨m, hrotated hm, hnode⟩
  counted i calls hi hpc hzero call hcall hrv := by
    simp only [hflushing] at hpc
    obtain ⟨sst, hsst, hholds⟩ := hc.counted i calls hi hpc (hthreads hzero) call hcall hrv
    exact ⟨sst, hflushed hsst, hholds⟩

theorem insert (hc : h.Calls) (key : SlUint128) (content : Bytes) (call : InsertCall) :
    Calls ⟨{ h.world with
      lsmt := (lsmtInsertLocked h.world.lsmt key content).2.2
      inserting := h.world.inserting ++ [call]
      inserted := h.world.inserted ++ [call] },
      h.rotated ++ h.world.rotates (.insert key content), h.begun⟩ := by
  refine hc.mono (List.subset_append_left _ _) rfl (List.Subset.refl _) ?_
  show (lsmtRotate h.world.lsmt).1.activeBackgroundThreads = 0 → _
  unfold lsmtRotate
  split
  · -- a rotation counts the daemon when nothing is counted
    by_cases hidle : (registerImmutable h.world.lsmt).activeBackgroundThreads = 0
    · exact fun _ => hidle
    · rw [if_neg hidle]
      exact id
  · exact id

/-- A new call: all accepted records are now in rotated memtables. -/
theorem flush (hc : h.Calls) (hl : h.Ledger base)
    (hroom : ¬ h.world.lsmt.immutables.length ≥ maxImmutables) :
    Calls ⟨{ h.world with
      lsmt := registerImmutable h.world.lsmt
      flushing := h.world.flushing ++ [.spawn] },
      h.rotated ++ h.world.rotates .flush, h.begunAfter .flush⟩ := by
  have hbegun : h.begunAfter .flush = h.begun ++ [h.world.inserted] := if_neg hroom
  have hrotates : h.world.rotates .flush = [h.world.lsmt.memtable] := if_neg hroom
  rw [hbegun, hrotates]
  refine ⟨?_, fun calls hcalls call hcall hrv => ?_, fun i calls hi hpc hzero => ?_⟩
  · simp only [List.length_append, List.length_singleton, hc.length_eq]
  · rcases List.mem_append.mp hcalls with hcalls | hcalls
    · obtain ⟨m, hm, hnode⟩ := hc.rotated calls hcalls call hcall hrv
      exact ⟨m, List.mem_append_left _ hm, hnode⟩
    · rw [List.mem_singleton.mp hcalls] at hcall
      rcases hl.kept call hcall hrv with hmem | ⟨m, hm, hnode⟩
      · exact ⟨_, List.mem_append_right _ (List.mem_singleton.mpr rfl), hmem⟩
      · exact ⟨m, List.mem_append_left _ hm, hnode⟩
  · by_cases hlt : i < h.begun.length
    · simp only [List.getElem?_append_left hlt] at hi
      simp only [List.getElem?_append_left (hc.length_eq ▸ hlt)] at hpc
      exact hc.counted i calls hi hpc hzero
    · -- the new call is not counted yet
      have hlen : i < (h.begun ++ [h.world.inserted]).length :=
        (List.getElem?_eq_some_iff.mp hi).1
      rw [List.length_append, List.length_singleton] at hlen
      have hi' : i = h.world.flushing.length := by
        rw [← hc.length_eq]
        omega
      subst hi'
      simp at hpc

/-- A call counts itself, so the count is not zero behind it. -/
theorem spawn (hc : h.Calls) {i : Nat} :
    Calls ⟨{ h.world with
      lsmt := { h.world.lsmt with
        activeBackgroundThreads :=
          if h.world.lsmt.activeBackgroundThreads = 0 then 1
          else h.world.lsmt.activeBackgroundThreads }
      flushing := h.world.flushing.set i .signal }, h.rotated, h.begun⟩ := by
  refine ⟨?_, hc.rotated, fun j calls hj hpc hzero => ?_⟩
  · rw [List.length_set]
    exact hc.length_eq
  · exfalso
    simp only at hzero
    split at hzero
    · cases hzero
    · rename_i hne
      exact hne hzero

theorem signal (hc : h.Calls) {i : Nat} (hget : h.world.flushing[i]? = some .signal) :
    Calls ⟨{ h.world with
      lsmt := { h.world.lsmt with flushNeeded := true }
      flushing := h.world.flushing.set i .wait }, h.rotated, h.begun⟩ := by
  refine ⟨?_, hc.rotated, fun j calls hj hpc hzero => ?_⟩
  · rw [List.length_set]
    exact hc.length_eq
  · refine hc.counted j calls hj ?_ hzero
    by_cases hij : i = j
    · subst hij
      exact Or.inl hget
    · simpa only [List.getElem?_set_ne hij] using hpc

/-- A call that returns leaves the list of those in progress, with what was in front of it. -/
theorem returned (hc : h.Calls) {i : Nat} :
    Calls ⟨{ h.world with flushing := h.world.flushing.eraseIdx i }, h.rotated,
      h.begun.eraseIdx i⟩ := by
  refine ⟨?_, fun calls hcalls => hc.rotated calls (List.mem_of_mem_eraseIdx hcalls),
    fun j calls hj hpc hzero => ?_⟩
  · simp only [List.length_eraseIdx, hc.length_eq]
  · simp only [List.getElem?_eraseIdx] at hj hpc
    split at hj
    · rename_i hji
      rw [if_pos hji] at hpc
      exact hc.counted j calls hj hpc hzero
    · rename_i hji
      rw [if_neg hji] at hpc
      exact hc.counted (j + 1) calls hj hpc hzero

/-- With an empty array every rotated memtable that is not empty is registered. -/
theorem flushed_of_drained (hl : h.Ledger base) (hempty : h.world.lsmt.immutables = [])
    {node : SlUint128 × Bytes} {m : Sl} (hm : m ∈ h.rotated) (hnode : node ∈ m.bottomLevel) :
    h.world.InFlushedSst node := by
  obtain ⟨done, hdone, hssts⟩ := hl.registered
  have hunfl : h.world.unflushed = [] := by
    unfold World.unflushed
    rw [hempty]
    split <;> rfl
  have hmem : m ∈ done := by
    rw [hunfl] at hdone
    have hfull : m ∈ nonEmpty h.rotated := mem_nonEmpty.mpr ⟨hm, List.ne_nil_of_mem hnode⟩
    rw [hdone] at hfull
    simpa [nonEmpty] using hfull
  obtain ⟨i, hi⟩ := List.mem_iff_getElem?.mp hmem
  obtain ⟨sst, hsst, hholds⟩ : ∃ sst, h.world.flushed[i]? = some sst ∧ SstOf sst m := by
    have hlen := hssts.length_eq
    obtain ⟨hlt, hget⟩ := List.getElem?_eq_some_iff.mp hi
    refine ⟨h.world.flushed[i], List.getElem?_eq_getElem (by omega), ?_⟩
    have hpair := List.forall₂_iff_get.mp hssts |>.2 i (by omega) hlt
    simpa [← hget] using hpair
  exact ⟨sst, List.mem_of_getElem? hsst, m, hnode, hholds⟩

theorem flushDaemonStep (hc : h.Calls) (hl : h.Ledger base) {w : World}
    (hstep : h.world.FlushDaemonStep w) : Calls ⟨w, h.rotated, h.begun⟩ := by
  have hsame : ∀ {w : World}, w.flushing = h.world.flushing → h.world.flushed ⊆ w.flushed →
      w.lsmt.activeBackgroundThreads = h.world.lsmt.activeBackgroundThreads →
      Calls ⟨w, h.rotated, h.begun⟩ :=
    fun hflushing hflushed hthreads =>
      hc.mono (List.Subset.refl _) hflushing hflushed fun hzero => hthreads ▸ hzero
  cases hstep with
  | idle hpc himm =>
    -- the only step that resets the count
    refine ⟨hc.length_eq, hc.rotated, fun i calls hi _ _ call hcall hrv => ?_⟩
    obtain ⟨m, hm, hnode⟩ := hc.rotated calls (List.mem_of_getElem? hi) call hcall hrv
    exact flushed_of_drained hl himm hm hnode
  | register memtable sst metadata hpc hadd => exact hsame rfl (List.subset_append_left _ _) rfl
  | writeFile memtable generation snapshot hpc =>
    refine hsame rfl (List.Subset.refl _) ?_
    show (writeMetadata _ _ _).activeBackgroundThreads = _
    unfold writeMetadata
    split <;> rfl
  | _ => exact hsame rfl (List.Subset.refl _) rfl

theorem step (hc : h.Calls) (hl : h.Ledger base) {a : Action} {h' : FlushHistory}
    (hstep : h.step a = some h') : h'.Calls := by
  obtain ⟨w, hw, rfl⟩ := Option.map_eq_some_iff.mp hstep
  cases (World.step_cases hw).2 with
  | insert key content hwaits call hcall => exact hc.insert key content call
  | flushOverflow hfull =>
    rw [show h.begunAfter .flush = h.begun from if_pos hfull]
    exact hc.mono (List.subset_append_left _ _) rfl (List.Subset.refl _) id
  | flush hroom => exact hc.flush hl hroom
  | flushSpawn i hget =>
    have hbegun : h.begunAfter (.flushCall i) = h.begun := by simp only [begunAfter, hget]
    rw [hbegun]
    show Calls ⟨_, h.rotated ++ [], h.begun⟩
    rw [List.append_nil]
    exact hc.spawn
  | flushSignal i hget =>
    have hbegun : h.begunAfter (.flushCall i) = h.begun := by simp only [begunAfter, hget]
    rw [hbegun]
    show Calls ⟨_, h.rotated ++ [], h.begun⟩
    rw [List.append_nil]
    exact hc.signal hget
  | flushReturn i hget hidle =>
    -- the call that returns is no longer in progress
    have hbegun : h.begunAfter (.flushCall i) = h.begun.eraseIdx i := by
      simp only [begunAfter, hget]
    rw [hbegun]
    show Calls ⟨_, h.rotated ++ [], h.begun.eraseIdx i⟩
    rw [List.append_nil]
    exact hc.returned
  | flushDaemon _ hdaemon =>
    show Calls ⟨w, h.rotated ++ [], h.begun⟩
    rw [List.append_nil]
    exact hc.flushDaemonStep hl hdaemon
  | compact faults _ hcompact =>
    have hsame := hcompact.sameFlush
    refine hc.mono (List.subset_append_left _ _) hsame.flushing ?_ ?_
    · rw [hsame.flushed]
      exact List.Subset.refl _
    · rw [hsame.threads]
      exact id
  | _ => exact hc.mono (List.subset_append_left _ _) rfl (List.Subset.refl _) id

end FlushHistory.Calls

/-! ## All runs -/

/-- The invariant of a history. -/
structure FlushHistory.Inv (base : List SstMetadataRecord) (h : FlushHistory) : Prop where
  signal : h.world.SignalInv
  ledger : h.Ledger base
  calls : h.Calls

theorem FlushHistory.inv_init (m : SstMetadata) :
    (FlushHistory.init (World.init { lsmtInit with metadata := m })).Inv m.records where
  signal := by
    rintro - (hthreads | hne)
    · exact absurd rfl hthreads
    · exact absurd rfl hne
  ledger := by
    refine ⟨Sl.wf_slInit 0, ?_, List.Subset.refl _, trivial, ⟨[], rfl, List.Forall₂.nil⟩, rfl, ?_⟩
    · intro sl hsl
      cases hsl
    · intro call hcall
      cases hcall
  calls := by
    refine ⟨rfl, ?_, ?_⟩
    · intro calls hcalls
      cases hcalls
    · intro i calls hi
      cases hi

theorem FlushHistory.Inv.step {base : List SstMetadataRecord} {h h' : FlushHistory} {a : Action}
    (hinv : h.Inv base) (hidle : h.CompactionIdle a) (hstep : h.step a = some h') :
    h'.Inv base := by
  refine ⟨?_, hinv.ledger.step hidle hstep, hinv.calls.step hinv.ledger hstep⟩
  obtain ⟨w, hw, rfl⟩ := Option.map_eq_some_iff.mp hstep
  exact hinv.signal.step hw

end RaftLsmt.Lsmt
