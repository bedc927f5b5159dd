import RaftLsmt.Lsmt.StoreSteps

/-!
# The bound on the immutable memtables

`lsmt->immutables` has room for `MAX_IMMUTABLES` memtables. `lsmt_insert` and `lsmt_flush` append to
it, and `unregister_immutable_memtable` closes the gap that a flushed memtable leaves. `lsmt_insert`
waits for room before it appends. `lsmt_flush` does not: it appends to a full array, and the write
lands on the field behind it.

`immutables_bounded_iff` says that this is the only way to lose the bound.
-/

set_option autoImplicit false

namespace RaftLsmt.Lsmt

open RaftLsmt.Lib.StepMachine

/-- The indices at which a step writes to `lsmt->immutables`. -/
def World.immutableWrites (w : World) : Action → List Nat
  | .insert _ _ =>
    if lsmtInsertWaits w.lsmt then []
    else if w.lsmt.memtable.size > sizeThreshold then [w.lsmt.immutables.length]
    else []
  | .flush => [w.lsmt.immutables.length]
  | .flushDaemon =>
    match w.flushPc with
    | .unregistering memtable _ =>
      let i := w.lsmt.immutables.findIdx fun m => m.addr = memtable.addr
      (List.range (w.lsmt.immutables.length - 1)).drop i
    | _ => []
  | _ => []

/-- The array is filled within its bounds. -/
def World.ImmutablesFit (w : World) : Prop := w.lsmt.immutables.length ≤ maxImmutables

/-- The step writes only inside the array. -/
def World.WritesFit (w : World) (a : Action) : Prop := ∀ i ∈ w.immutableWrites a, i < maxImmutables

/-- A call of `lsmt_flush` finds a free entry in the array. -/
def World.FlushHasRoom (w : World) (a : Action) : Prop :=
  a = .flush → w.lsmt.immutables.length < maxImmutables

/-! ## One step -/

theorem lsmtRotate_immutables (lsmt : LsmtState) :
    (lsmtRotate lsmt).1.immutables =
      if lsmt.memtable.size > sizeThreshold then lsmt.immutables ++ [lsmt.memtable]
      else lsmt.immutables := by
  unfold lsmtRotate
  split
  · simp only
    split <;> rfl
  · rfl

/-- Behind the wait loop a full memtable has an entry to go to. -/
theorem room_of_not_waits {lsmt : LsmtState} (h : ¬ lsmtInsertWaits lsmt = true)
    (hsize : lsmt.memtable.size > sizeThreshold) : lsmt.immutables.length < maxImmutables := by
  simp only [lsmtInsertWaits, decide_eq_true_eq, not_and, not_le] at h
  exact h hsize

theorem World.FlushDaemonStep.immutables_le {w w' : World} (h : w.FlushDaemonStep w') :
    w'.lsmt.immutables.length ≤ w.lsmt.immutables.length := by
  cases h with
  | writeFile memtable generation snapshot hpc =>
    exact (congrArg List.length (writeMetadata_same w.lsmt generation snapshot).2.1).le
  | unregister memtable registered hpc => exact List.eraseP_sublist.length_le
  | _ => exact le_refl _

/-- Every step keeps the bound, a call of `lsmt_flush` if it finds a free entry. -/
theorem World.ImmutablesFit.step {w w' : World} {a : Action} (h : w.ImmutablesFit)
    (hroom : w.FlushHasRoom a) (hstep : w.step a = some w') : w'.ImmutablesFit := by
  cases (World.step_cases hstep).2 with
  | insert key content hwaits call hcall =>
    show (lsmtRotate w.lsmt).1.immutables.length ≤ maxImmutables
    rw [lsmtRotate_immutables]
    split
    · rename_i hsize
      rw [List.length_append, List.length_singleton]
      exact room_of_not_waits hwaits hsize
    · exact h
  | flush hfree =>
    show (w.lsmt.immutables ++ [w.lsmt.memtable]).length ≤ maxImmutables
    rw [List.length_append, List.length_singleton]
    exact hroom rfl
  | flushDaemon _ hdaemon => exact le_trans hdaemon.immutables_le h
  | compact faults _ hcompact =>
    show w'.lsmt.immutables.length ≤ maxImmutables
    rw [hcompact.sameFlush.immutables]
    exact h
  | _ => exact h

/-- Within the bound a step writes inside the array, a call of `lsmt_flush` exactly if it finds a
free entry. -/
theorem World.ImmutablesFit.writesFit_iff {w : World} (h : w.ImmutablesFit) (a : Action) :
    w.WritesFit a ↔ w.FlushHasRoom a := by
  constructor
  · intro hwrites ha
    subst ha
    exact hwrites _ (List.mem_singleton.mpr rfl)
  · intro hroom i hi
    cases a with
    | insert key content =>
      simp only [immutableWrites] at hi
      split at hi
      · cases hi
      · rename_i hwaits
        split at hi
        · rename_i hsize
          rw [List.mem_singleton.mp hi]
          exact room_of_not_waits hwaits hsize
        · cases hi
    | flush =>
      rw [List.mem_singleton.mp hi]
      exact hroom rfl
    | flushDaemon =>
      simp only [immutableWrites] at hi
      split at hi
      · -- the shift copies every entry behind the gap but the last one
        have hlt := List.mem_range.mp (List.mem_of_mem_drop hi)
        exact lt_of_lt_of_le (by omega) h
      · cases hi
    | insertCall i => cases hi
    | flushCall i => cases hi
    | compact faults => cases hi

/-! ## All runs -/

/-- A run stays within the array, in its count and in its writes, exactly when no call of
`lsmt_flush` begins while the array is full. -/
theorem immutables_bounded_iff {lsmt : LsmtState} (hlsmt : lsmt.immutables = [])
    (as : List Action) :
    (Always World.step World.ImmutablesFit (World.init lsmt) as ∧
      EachStep World.step World.WritesFit (World.init lsmt) as) ↔
    EachStep World.step World.FlushHasRoom (World.init lsmt) as := by
  have hinit : (World.init lsmt).ImmutablesFit := by
    show lsmt.immutables.length ≤ maxImmutables
    rw [hlsmt]
    exact Nat.zero_le _
  constructor
  · rintro ⟨hfit, hwrites⟩ pre a post t has ht
    have ht' : t.ImmutablesFit := hfit pre (a :: post) t has ht
    exact (ht'.writesFit_iff a).mp (hwrites pre a post t has ht)
  · intro hroom
    have hfit : Always World.step World.ImmutablesFit (World.init lsmt) as :=
      always_of_eachStep hinit fun pre a post t has ht t' hfits hstep =>
        hfits.step (hroom pre a post t has ht) hstep
    refine ⟨hfit, fun pre a post t has ht => ?_⟩
    have ht' : t.ImmutablesFit := hfit pre (a :: post) t has ht
    exact (ht'.writesFit_iff a).mpr (hroom pre a post t has ht)

/-- Two records in two memtables, both flushed: each unregistering moves the entries behind it. -/
def twoFlushes : List Action :=
  [.insert ⟨1, 0⟩ (encodeData 1 [7]), .insertCall 0, .flush,
    .insert ⟨2, 0⟩ (encodeData 1 [8]), .insertCall 0, .flush, .flushCall 1, .flushCall 1] ++
  List.replicate 13 .flushDaemon

/-- `lsmt_flush` finds a free entry. -/
def World.flushFindsRoom (w : World) : Action → Bool
  | .flush => decide (w.lsmt.immutables.length < maxImmutables)
  | _ => true

/-- A run with insertions between its flushes, to the end of the flush daemon. -/
theorem immutables_bounded_one :
    (∃ w, run World.step (World.init lsmtInit) twoFlushes = some w ∧ w.inserted.length = 2 ∧
      w.flushed.length = 2 ∧ w.lsmt.immutables = []) ∧
    Always World.step World.ImmutablesFit (World.init lsmtInit) twoFlushes ∧
      EachStep World.step World.WritesFit (World.init lsmtInit) twoFlushes := by
  refine ⟨⟨_, rfl, rfl, rfl, rfl⟩, (immutables_bounded_iff rfl twoFlushes).mpr ?_⟩
  refine eachStep_of_allSteps (q := World.flushFindsRoom) ?_ (by decide +kernel)
  intro w a hroom ha
  subst ha
  exact of_decide_eq_true hroom

/-- Calls of `lsmt_flush` alone, with a daemon that takes no step. -/
theorem run_flushes {n : Nat} (hn : n ≤ maxImmutables) :
    ∃ w, run World.step (World.init lsmtInit) (List.replicate n .flush) = some w ∧
      w.status = .running ∧ w.lsmt.immutables.length = n := by
  induction n with
  | zero => exact ⟨_, rfl, rfl, rfl⟩
  | succ n ih =>
    obtain ⟨w, hrun, hstatus, hlength⟩ := ih (by omega)
    have hstep : ∃ w', w.step .flush = some w' ∧ w'.status = .running ∧
        w'.lsmt.immutables.length = n + 1 := by
      unfold World.step flushStep
      rw [if_neg (not_not.mpr hstatus), if_neg (by omega)]
      refine ⟨_, rfl, hstatus, ?_⟩
      show (w.lsmt.immutables ++ [w.lsmt.memtable]).length = n + 1
      rw [List.length_append, hlength, List.length_singleton]
    obtain ⟨w', hw', hstatus', hlength'⟩ := hstep
    refine ⟨w', ?_, hstatus', hlength'⟩
    rw [List.replicate_succ']
    exact run_append_eq_some.mpr ⟨w, hrun, run_cons_eq_some.mpr ⟨w', hw', rfl⟩⟩

/-- The thirty-third of 33 calls of `lsmt_flush` in a row writes behind the array. -/
theorem immutables_bounded_fails :
    ¬ ∀ as : List Action, Always World.step World.ImmutablesFit (World.init lsmtInit) as ∧
      EachStep World.step World.WritesFit (World.init lsmtInit) as := by
  intro hall
  obtain ⟨w, hrun, -, hlength⟩ := run_flushes (le_refl maxImmutables)
  have hwrites := (hall (List.replicate maxImmutables .flush ++ [.flush])).2 _ .flush [] w rfl hrun
  have hlt := hwrites _ (List.mem_singleton.mpr rfl)
  rw [hlength] at hlt
  exact lt_irrefl _ hlt

end RaftLsmt.Lsmt
