import RaftLsmt.Lsmt.StoreInvariant

/-!
# What readers see of the SSTs during a compaction

`sst_compact` takes the inputs of a merge out of the list under `metadata_lock`, releases the lock
for the whole merge and adds the output afterwards. Between the two the records of the inputs are
reachable through no list. `seesAll_iff_held_eq_nil` says that the list is complete in exactly those
states in which no input is held, and `always_seesAll_iff` that it is complete in all states of a run
exactly when no tier the compaction examines makes it take an input.
-/

set_option autoImplicit false

namespace RaftLsmt.Lsmt

open RaftLsmt.Lib.StepMachine
open RaftLsmt.Lib.SortedMerge

/-- Register a list of SSTs one after the other. -/
def registerAll : SstMetadata → List SstMetadataRecord → Option SstMetadata
  | m, [] => some m
  | m, sst :: ssts => (sstMetadataAdd m sst).bind fun m => registerAll m ssts

theorem registerAll_spec {ssts : List SstMetadataRecord} {m m' : SstMetadata} (hm : m.Wf)
    (h : registerAll m ssts = some m') : m'.Wf ∧ m'.records = ssts.reverse ++ m.records := by
  induction ssts generalizing m with
  | nil =>
    cases h
    exact ⟨hm, rfl⟩
  | cons sst ssts ih =>
    obtain ⟨k, hk, hrest⟩ := Option.bind_eq_some_iff.mp h
    obtain ⟨hkwf, hkrec⟩ := sstMetadataAdd_spec hm hk
    obtain ⟨hwf, hrec⟩ := ih hkwf hrest
    exact ⟨hwf, by rw [hrec, hkrec, List.reverse_cons, List.append_assoc]; rfl⟩

/-- A store with these SSTs at the start of `sst_compact`. -/
def World.compacting (m : SstMetadata) : World :=
  { World.init { lsmtInit with metadata := m } with compactPc := .starting }

namespace World

/-- The list holds the records registered before and those flushed since, none missing and none
twice. -/
def SeesAll (base : List KvRawRecord) (w : World) : Prop :=
  (sstRecords w.lsmt.metadata.records).Perm (base ++ sstRecords w.flushed)

/-- The compaction is about to examine a tier above its threshold that has a queued table. -/
def PopsInputs (w : World) : Prop :=
  ∃ pass, w.compactPc = .scanning pass ∧ pass.tier ≤ pass.highestTier ∧
    tierSizeThreshold pass.tier < w.lsmt.metadata.tierSize pass.tier ∧
    sstCount w.lsmt.metadata pass.tier ≠ 0

theorem inv_compacting {m : SstMetadata} (hm : m.Wf) (hok : ∀ sst ∈ m.records, SstOk sst) :
    (World.compacting m).Inv (sstRecords m.records) := by
  obtain ⟨haccounts, hconsistent⟩ := inv_iff.mp (inv_init hm hok)
  exact inv_iff.mpr
    ⟨haccounts.moveCompactPc rfl rfl rfl rfl rfl rfl rfl trivial, hconsistent⟩

/-- What the compaction holds can be read and is not empty. -/
theorem Inv.held_ok {base : List KvRawRecord} {w : World} (h : w.Inv base) :
    ∀ sst ∈ w.compactPc.held, SstOk sst := by
  have hok := h.compactPc
  intro sst hsst
  cases hpc : w.compactPc with
  | mergeWait pass inputs =>
    rw [hpc] at hok hsst
    exact hok.2 sst hsst
  | merging pass inputs =>
    rw [hpc] at hok hsst
    exact hok.2 sst hsst
  | adding pass inputs newSst =>
    rw [hpc] at hok hsst
    exact hok.2.1 sst hsst
  | quitting inputs =>
    rw [hpc] at hok hsst
    exact hok sst hsst
  | waiting => simp [hpc, CompactPc.held] at hsst
  | starting => simp [hpc, CompactPc.held] at hsst
  | scanning pass => simp [hpc, CompactPc.held] at hsst
  | snapshotting sstToDelete => simp [hpc, CompactPc.held] at hsst
  | writingMetadata generation snapshot sstToDelete => simp [hpc, CompactPc.held] at hsst
  | deleting sstToDelete => simp [hpc, CompactPc.held] at hsst

/-- The list is complete exactly when the compaction holds no input. -/
theorem Inv.seesAll_iff_held_eq_nil {base : List KvRawRecord} {w : World} (h : w.Inv base) :
    w.SeesAll base ↔ w.compactPc.held = [] := by
  constructor
  · intro hsees
    have hlen := (h.registered.trans hsees.symm).length_eq
    simp only [List.length_append] at hlen
    have hnil : sstRecords w.compactPc.held = [] := List.length_eq_zero_iff.mp (by omega)
    rw [List.eq_nil_iff_forall_not_mem]
    intro sst hsst
    exact (h.held_ok sst hsst).ne_nil (List.flatMap_eq_nil_iff.mp hnil sst hsst)
  · intro hheld
    have hreg := h.registered
    rwa [hheld, sstRecords_nil, List.append_nil] at hreg

end World

/-- A queue that is not empty gives the selection loop at least one input. -/
theorem sstPopInputs_ne_nil {m : SstMetadata} {tier : Nat} (hcount : sstCount m tier ≠ 0)
    (sizeDelta fuel : Nat) : (sstPopInputs tier sizeDelta (fuel + 1) m []).1 ≠ [] := by
  rw [sstPopInputs, if_neg (by simp), if_neg hcount]
  cases hpop : sstMetadataPop m tier with
  | none =>
    rw [sstMetadataPop] at hpop
    rw [sstCount] at hcount
    split at hpop
    · rename_i hq
      simp [hq] at hcount
    · rename_i hq
      simp [hq] at hcount
    · cases hpop
  | some p =>
    obtain ⟨record, m'⟩ := p
    have hgrow : ∀ (fuel : Nat) (m : SstMetadata) (records : List SstMetadataRecord),
        records ≠ [] → (sstPopInputs tier sizeDelta fuel m records).1 ≠ [] := by
      intro fuel
      induction fuel with
      | zero => exact fun m records h => h
      | succ fuel ih =>
        intro m records h
        rw [sstPopInputs]
        split
        · exact h
        · split
          · exact h
          · split
            · exact h
            · exact ih _ _ (by simp)
    exact hgrow fuel m' _ (by simp)

theorem sstPopInputs_nil {m : SstMetadata} {tier : Nat} (hcount : sstCount m tier = 0)
    (sizeDelta fuel : Nat) : (sstPopInputs tier sizeDelta fuel m []).1 = [] := by
  cases fuel with
  | zero => rfl
  | succ fuel => rw [sstPopInputs, if_neg (by simp), if_pos hcount]

/-- Examining a tier takes inputs exactly when it is above its threshold and has a queued table. -/
theorem World.Scans.held_iff {w w' : World} {pass : CompactPass} (hpc : w.compactPc = .scanning pass)
    (hscan : w.Scans pass w') : w'.compactPc.held ≠ [] ↔ w.PopsInputs := by
  have hpops : w.PopsInputs ↔ pass.tier ≤ pass.highestTier ∧
      tierSizeThreshold pass.tier < w.lsmt.metadata.tierSize pass.tier ∧
      sstCount w.lsmt.metadata pass.tier ≠ 0 := by
    constructor
    · rintro ⟨p, hp, hrest⟩
      rw [hpc] at hp
      cases hp
      exact hrest
    · exact fun h => ⟨pass, hpc, h⟩
  rw [hpops]
  cases hscan with
  | finish htier =>
    refine iff_of_false (fun h => h ?_) fun h => absurd h.1 (not_le.mpr htier)
    show (if pass.mustFlush then CompactPc.snapshotting pass.sstToDelete else .waiting).held = []
    split <;> rfl
  | select selected htier hsize hselected =>
    have hheld : (if selected.1.length < 2 then CompactPc.quitting selected.1
        else CompactPc.mergeWait pass selected.1).held = selected.1 := by
      split <;> rfl
    rw [hheld, hselected]
    by_cases hcount : sstCount w.lsmt.metadata pass.tier = 0
    · exact iff_of_false (fun h => h (sstPopInputs_nil hcount _ _)) fun h => h.2.2 hcount
    · exact iff_of_true (sstPopInputs_ne_nil hcount _ _) ⟨htier, hsize, hcount⟩
  | skip htier hsize => exact iff_of_false (fun h => h rfl) fun h => absurd h.2.1 (not_lt.mpr hsize)

/-- Only the step that examines a tier takes inputs. -/
theorem World.CompactStep.held_eq {w w' : World} {faults : List IoFaults}
    (hheld : w.compactPc.held = []) (h : w.CompactStep faults w') (hpops : ¬ w.PopsInputs) :
    w'.compactPc.held = [] := by
  cases h with
  | scan pass _ hpc hscan =>
    exact not_not.mp fun hne => hpops (((compactScan_cases hscan).held_iff hpc).mp hne)
  | merge pass inputs hpc =>
    rw [hpc] at hheld
    exact hheld
  | mergeStops pass inputs hpc => exact hheld
  | merged pass inputs newSst hpc =>
    rw [hpc] at hheld
    exact hheld
  | refused pass inputs newSst hpc => exact hheld
  | quit inputs hpc => exact hheld
  | _ => rfl

theorem World.held_step {w w' : World} {a : Action} (hheld : w.compactPc.held = [])
    (hstep : w.step a = some w') (hpops : ∀ faults, a = .compact faults → ¬ w.PopsInputs) :
    w'.compactPc.held = [] := by
  by_cases ha : ∀ faults, a ≠ .compact faults
  · rw [(World.step_sameCompaction ha hstep).compactPc, hheld]
  · simp only [not_forall, not_not] at ha
    obtain ⟨faults, rfl⟩ := ha
    exact (World.compactStep_of_step hstep).held_eq hheld (hpops faults rfl)

/-- The step that takes inputs leaves their records out of the list. -/
theorem World.Inv.not_seesAll_of_pops {base : List KvRawRecord} {w w' : World} (h : w.Inv base)
    {faults : List IoFaults} (hnone : ∀ f ∈ faults, f = IoFaults.none) (hpops : w.PopsInputs)
    (hstep : w.step (.compact faults) = some w') : ¬ w'.SeesAll base := by
  have hinv := World.Inv.step w (.compact faults) w' hnone h hstep
  rw [hinv.seesAll_iff_held_eq_nil]
  obtain ⟨pass, hpc, -⟩ := id hpops
  unfold World.step at hstep
  split at hstep
  · cases hstep
  · simp only [Lsmt.compactStep, hpc, Option.some.injEq] at hstep
    exact ((compactScan_cases hstep).held_iff hpc).mpr hpops

/-- A running process can always examine the next tier. -/
theorem World.step_scan_isSome {w : World} (hrunning : w.status = .running) (hpops : w.PopsInputs)
    (faults : List IoFaults) : ∃ w', w.step (.compact faults) = some w' := by
  obtain ⟨pass, hpc, -⟩ := hpops
  exact ⟨compactScan w pass, by simp [World.step, hrunning, compactStep, hpc]⟩

/-- A run of the store in which the list of SSTs is complete in every state: exactly the runs in
which no step of the compaction finds a tier above its threshold with a queued table. -/
theorem always_seesAll_iff {ssts : List SstMetadataRecord} {m : SstMetadata}
    (hok : ∀ sst ∈ ssts, SstOk sst) (hm : registerAll sstMetadataInit ssts = some m)
    {as : List Action} (has : ∀ a ∈ as, a.Sound) {w : World}
    (hrun : run World.step (World.compacting m) as = some w) :
    Always World.step (World.SeesAll (sstRecords m.records)) (World.compacting m) as ↔
      EachStep World.step (fun t a => ∀ faults, a = .compact faults → ¬ t.PopsInputs)
        (World.compacting m) as := by
  obtain ⟨hwf, hrecords⟩ := registerAll_spec SstMetadata.wf_sstMetadataInit hm
  have hinit : (World.compacting m).Inv (sstRecords m.records) := by
    refine World.inv_compacting hwf fun sst hsst => hok sst ?_
    rw [hrecords] at hsst
    simpa [SstMetadata.records, sstMetadataInit] using hsst
  refine always_iff_eachStep
    (I := fun t => t.Inv (sstRecords m.records) ∧ t.compactPc.held = []) hrun ⟨hinit, rfl⟩
    (fun t ht => ht.1.seesAll_iff_held_eq_nil.mpr ht.2) ?_
  rintro t a t' ha ⟨hinv, hheld⟩ hstep
  have hinv' := World.Inv.step t a t' ((has a ha).soundIn t.lsmt) hinv hstep
  by_cases hquiet : ∀ faults, a = .compact faults → ¬ t.PopsInputs
  · exact Or.inl ⟨hquiet, hinv', World.held_step hheld hstep hquiet⟩
  · refine Or.inr ⟨hquiet, ?_⟩
    simp only [not_forall, not_not] at hquiet
    obtain ⟨faults, rfl, hpops⟩ := hquiet
    exact hinv.not_seesAll_of_pops (has _ ha) hpops hstep

/-- An SST with one record. -/
def oneRecordSst (key : SlUint128) (content : Bytes) : SstMetadataRecord :=
  writeSst 0 0 [rawOf (key, content)]

theorem sstHolds_oneRecordSst {key : SlUint128} (hkey : key.id ≠ 0) {content : Bytes}
    (hc : SelfConsistent content) :
    SstHolds (oneRecordSst key content) [rawOf (key, content)] := by
  have hwf : (rawOf (key, content)).Wf := rawOf_wf hc.readable
  refine sstHolds_writeSst 0 0 ?_ ?_ ?_ ?_
  · simpa using hwf
  · intro r hr
    rw [List.mem_singleton.mp hr, @totalSize_rawOf (key, content) hc.readable]
    exact hc.2
  · simpa using SlUint128.zero_lt_of_id_ne_zero hkey
  · simp [SortedBy]

theorem sstOk_oneRecordSst {key : SlUint128} (hkey : key.id ≠ 0) {content : Bytes}
    (hc : SelfConsistent content) : SstOk (oneRecordSst key content) :=
  (sstHolds_oneRecordSst hkey hc).ok (by simp)

theorem totalBytes_oneRecordSst (key : SlUint128) {content : Bytes} (hc : SelfConsistent content) :
    (oneRecordSst key content).totalBytes = 16 + content.length := by
  show 0 + (rawOf (key, content)).totalSize = _
  rw [KvRawRecord.totalSize, rawOf_rawData_of_selfConsistent hc, List.length_append,
    length_keyBytes, Nat.zero_add]

/-- Reading `highest_tier` and examining tier 0 with one small table: nothing is popped, and the list is
complete all the time. -/
theorem always_seesAll_iff_one_table : ∃ m w,
    registerAll sstMetadataInit [oneRecordSst ⟨1, 0⟩ (encodeData 1 [7])] = some m ∧
    run World.step (World.compacting m) [.compact [], .compact []] = some w ∧
    Always World.step (World.SeesAll (sstRecords m.records)) (World.compacting m)
      [.compact [], .compact []] := by
  have hok : ∀ sst ∈ [oneRecordSst ⟨1, 0⟩ (encodeData 1 [7])], SstOk sst := by
    intro sst hsst
    rw [List.mem_singleton.mp hsst]
    exact sstOk_oneRecordSst (by decide) (by decide)
  obtain ⟨m, hm, hsize⟩ : ∃ m, registerAll sstMetadataInit
      [oneRecordSst ⟨1, 0⟩ (encodeData 1 [7])] = some m ∧ m.tierSize 0 ≤ tierSizeThreshold 0 :=
    ⟨_, rfl, by decide⟩
  refine ⟨m, _, hm, rfl, (always_seesAll_iff hok hm (by simp [Action.Sound]) rfl).mpr ?_⟩
  refine eachStep_cons.mpr ⟨?_, fun t ht => eachStep_cons.mpr ⟨?_, fun t _ => eachStep_nil _ _ _⟩⟩
  · -- the compaction examines no tier yet
    rintro faults - ⟨pass, hpc, -⟩
    cases hpc
  · rintro faults - ⟨pass, hpc, -, hexcess, -⟩
    cases ht
    cases hpc
    exact absurd hexcess (Nat.not_lt.mpr hsize)

/-- The compaction takes inputs from two tables of tier 0 that are together above the threshold. -/
theorem popsInputs_two {a b : SstMetadataRecord} (ha : a.level = 0) (hb : b.level = 0)
    (hsize : tierSizeThreshold 0 < a.totalBytes + b.totalBytes) :
    ∃ m, registerAll sstMetadataInit [a, b] = some m ∧
      World.PopsInputs { World.compacting m with
        compactPc := .scanning ⟨0, m.highestTier, [], false⟩ } := by
  obtain ⟨m, hm⟩ : ∃ m, registerAll sstMetadataInit [a, b] = some m := by
    simp [registerAll, sstMetadataAdd, ha, hb, maxTiers]
  refine ⟨m, hm, ⟨0, m.highestTier, [], false⟩, rfl, Nat.zero_le _, ?_, ?_⟩
  all_goals
    simp only [registerAll, sstMetadataAdd, ha, hb, maxTiers, nonpos_iff_eq_zero, OfNat.ofNat_ne_zero,
      if_false, Option.bind_some, Option.some.injEq] at hm
    subst hm
  · simpa [World.compacting, World.init, sstMetadataInit] using hsize
  · simp [World.compacting, World.init, sstMetadataInit, sstCount, enqueue, queueCapacity]

/-- Two 40 MB tables of tier 0: while they are merged a reader sees none of their records. -/
theorem compaction_hides_inputs :
    ¬ ∀ (ssts : List SstMetadataRecord) (m : SstMetadata), (∀ sst ∈ ssts, SstOk sst) →
      registerAll sstMetadataInit ssts = some m → ∀ (as : List Action) (w : World),
        (∀ a ∈ as, a.Sound) → run World.step (World.compacting m) as = some w →
          w.SeesAll (sstRecords m.records) := by
  intro hall
  obtain ⟨content, hcons, hlen⟩ := exists_selfConsistent (n := 40 * 1024 * 1024) (by decide)
  have hok : ∀ sst ∈ [oneRecordSst ⟨1, 0⟩ content, oneRecordSst ⟨2, 0⟩ content], SstOk sst := by
    intro sst hsst
    simp only [List.mem_cons, List.not_mem_nil, or_false] at hsst
    rcases hsst with rfl | rfl
    · exact sstOk_oneRecordSst (by decide) hcons
    · exact sstOk_oneRecordSst (by decide) hcons
  have hsize : tierSizeThreshold 0 < (oneRecordSst ⟨1, 0⟩ content).totalBytes +
      (oneRecordSst ⟨2, 0⟩ content).totalBytes := by
    rw [totalBytes_oneRecordSst _ hcons, totalBytes_oneRecordSst _ hcons, hlen]
    decide
  obtain ⟨m, hm, hpops⟩ := popsInputs_two rfl rfl hsize
  obtain ⟨hwf, hrecords⟩ := registerAll_spec SstMetadata.wf_sstMetadataInit hm
  have hinit : (World.compacting m).Inv (sstRecords m.records) := by
    refine World.inv_compacting hwf fun sst hsst => hok sst ?_
    rw [hrecords] at hsst
    simpa [SstMetadata.records, sstMetadataInit, or_comm] using hsst
  have hsound : (Action.compact []).Sound := by simp [Action.Sound]
  -- the first step reads `highest_tier`, the second takes the two tables
  have hfirst : (World.compacting m).step (.compact []) = some { World.compacting m with
      compactPc := .scanning ⟨0, m.highestTier, [], false⟩ } := rfl
  have hinv := World.Inv.step _ _ _ (hsound.soundIn _) hinit hfirst
  obtain ⟨w, hsecond⟩ := World.step_scan_isSome rfl hpops []
  refine hinv.not_seesAll_of_pops hsound hpops hsecond ?_
  refine hall _ m hok hm [.compact [], .compact []] w ?_ ?_
  · intro a ha
    simp only [List.mem_cons, List.not_mem_nil, or_false, or_self] at ha
    rw [ha]
    exact hsound
  · exact run_cons_eq_some.mpr ⟨_, hfirst, run_cons_eq_some.mpr ⟨w, hsecond, rfl⟩⟩

end RaftLsmt.Lsmt
