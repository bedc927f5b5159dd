import RaftLsmt.Lsmt.CompactionFaults
import RaftLsmt.Lsmt.TierSizes

/-!
# Runs that fill a tier

A memtable is rotated with the first insertion behind the one that filled it, so a run of `count + 1`
insertions for each memtable leaves tables of one size in tier 0 (`exists_piled`). As soon as they are
above its threshold a pass of the compaction takes two of them at least, merges them and puts the
output into tier 1 (`World.Piled.pass`).

The list has no more tables than the daemons have made steps, and no more bytes than have been inserted,
which bounds both in every state of such a run (`World.run_tables_le`, `World.Inv.bytes_le`).
-/

set_option autoImplicit false

namespace RaftLsmt.Lsmt

open RaftLsmt.Lib.StepMachine

/-! ## The sizes of files -/

theorem length_fileBytes (rs : List KvRawRecord) :
    (fileBytes rs).length = (rs.map KvRawRecord.totalSize).sum := by
  induction rs with
  | nil => rfl
  | cons r rs ih =>
    rw [fileBytes_cons, List.length_append, List.map_cons, List.sum_cons, ih]
    rfl

/-- A memtable takes as many bytes in its file as it counts. -/
theorem Sl.Ok.length_fileBytes {sl : Sl} (h : sl.Ok) :
    (fileBytes sl.records).length = sl.size := by
  rw [Lsmt.length_fileBytes, h.wf.size_eq]
  unfold Sl.records
  rw [List.map_map]
  congr 1
  apply List.map_congr_left
  intro n hn
  simp only [Function.comp_apply, KvRawRecord.totalSize,
    rawOf_rawData_of_selfConsistent (h.consistent n hn), List.length_append, length_keyBytes,
    nodeSize]

/-- The output of a merge is no longer than its inputs together. -/
theorem sstMerge_totalBytes_le {inputs : List (SstMetadataRecord × IoFaults)}
    {newSst : SstMetadataRecord} (hok : ∀ i ∈ inputs, SstHolds i.1 i.1.records)
    (h : sstMerge inputs = some newSst) :
    newSst.totalBytes ≤ (inputs.map fun i => i.1.totalBytes).sum := by
  obtain ⟨id, level, out, -, hholds, hperm⟩ := sstMerge_writes hok h
  have hsum : (out.map KvRawRecord.totalSize).sum =
      ((inputs.flatMap fun i => readableRecords i.2 i.1.records).map KvRawRecord.totalSize).sum :=
    (hperm.map _).sum_nat
  rw [hholds.totalBytes_eq, hholds.file_eq, length_fileBytes, hsum]
  clear hsum hperm hholds h
  induction inputs with
  | nil => exact Nat.le_refl 0
  | cons i inputs ih =>
    have hi := hok i List.mem_cons_self
    have hread : ((readableRecords i.2 i.1.records).map KvRawRecord.totalSize).sum ≤
        i.1.totalBytes := by
      rw [hi.totalBytes_eq, hi.file_eq, length_fileBytes]
      exact ((readableRecords_sublist _ _).map _).sum_le_sum fun _ _ => Nat.zero_le _
    rw [List.flatMap_cons, List.map_append, List.sum_append, List.map_cons, List.sum_cons]
    exact Nat.add_le_add hread (ih fun j hj => hok j (List.mem_cons_of_mem _ hj))

/-! ## The flush daemon -/

/-- Where the flush daemon's memtable and its SST come from. -/
theorem World.step_flushPc {w w' : World} {a : Action} (hstep : w.step a = some w') :
    (∀ m, w'.flushPc = .writing m → w.flushPc = .writing m ∨ m ∈ w.lsmt.immutables) ∧
    ∀ m sst, w'.flushPc = .registering m sst →
      w.flushPc = .registering m sst ∨ w.flushPc = .writing m ∧ memtableToDisk m = .written sst := by
  -- the step is not one of the flush daemon
  have hsame : w'.flushPc = w.flushPc →
      (∀ m, w'.flushPc = .writing m → w.flushPc = .writing m ∨ m ∈ w.lsmt.immutables) ∧
      ∀ m sst, w'.flushPc = .registering m sst →
        w.flushPc = .registering m sst ∨
          w.flushPc = .writing m ∧ memtableToDisk m = .written sst := by
    intro hpc
    rw [hpc]
    exact ⟨fun m hm => Or.inl hm, fun m sst hm => Or.inl hm⟩
  -- the daemon is at neither of the two points behind the step
  have hother : (∀ m, w'.flushPc ≠ .writing m) → (∀ m sst, w'.flushPc ≠ .registering m sst) →
      (∀ m, w'.flushPc = .writing m → w.flushPc = .writing m ∨ m ∈ w.lsmt.immutables) ∧
      ∀ m sst, w'.flushPc = .registering m sst →
        w.flushPc = .registering m sst ∨
          w.flushPc = .writing m ∧ memtableToDisk m = .written sst := by
    intro hw hr
    exact ⟨fun m hm => absurd hm (hw m), fun m sst hm => absurd hm (hr m sst)⟩
  cases (World.step_cases hstep).2 with
  | flushDaemon _ hdaemon =>
    cases hdaemon with
    -- it takes the first memtable of the array
    | drain memtable rest hpc himm =>
      refine ⟨?_, ?_⟩
      · intro m hm
        cases hm
        rw [himm]
        exact Or.inr List.mem_cons_self
      · intro m sst hm
        cases hm
    -- the SST is what has been written of that memtable
    | written memtable sst hpc hdisk =>
      refine ⟨?_, ?_⟩
      · intro m hm
        cases hm
      · intro m sst hm
        cases hm
        exact Or.inr ⟨hpc, hdisk⟩
    | overrun memtable hpc => exact hsame rfl
    | refused memtable sst hpc => exact hsame rfl
    | unregister memtable registered hpc => cases registered <;> exact hother (by simp) (by simp)
    | _ => exact hother (by simp) (by simp)
  | compact faults _ hcompact => exact hsame hcompact.sameFlush.flushPc
  | _ => exact hsame rfl

/-! ## The levels -/

/-- What the compaction knows about the levels of its inputs and its output. -/
def CompactPcLevels (m : SstMetadata) : CompactPc → Prop
  | .mergeWait pass inputs =>
    pass.tier < m.highestTier ∧ ∀ sst ∈ inputs, sst.level = pass.tier
  | .merging pass inputs =>
    pass.tier < m.highestTier ∧ ∀ sst ∈ inputs, sst.level = pass.tier
  | .adding pass _ newSst => pass.tier < m.highestTier ∧ newSst.level = pass.tier + 1
  | _ => True

/-- Every file is in the tier of its level, and the tiers in use are the first ones. -/
structure World.Leveled (w : World) : Prop where
  wf : w.lsmt.metadata.Wf
  accounted : w.lsmt.metadata.Accounted
  tiered : w.lsmt.metadata.Tiered
  level_lt : ∀ n ∈ w.lsmt.metadata.list, n.content.level < w.lsmt.metadata.highestTier
  registering : ∀ m sst, w.flushPc = .registering m sst → sst.level = 0
  compactPc : CompactPcLevels w.lsmt.metadata w.compactPc

theorem memtableToDisk_level {sl : Sl} {sst : SstMetadataRecord}
    (h : memtableToDisk sl = .written sst) : sst.level = 0 := by
  unfold memtableToDisk at h
  split at h
  · cases h
  · split at h <;> cases h
    rfl

theorem CompactPcLevels.mono {m m' : SstMetadata} (hle : m.highestTier ≤ m'.highestTier)
    {pc : CompactPc} (h : CompactPcLevels m pc) : CompactPcLevels m' pc := by
  cases pc with
  | mergeWait pass inputs => exact ⟨Nat.lt_of_lt_of_le h.1 hle, h.2⟩
  | merging pass inputs => exact ⟨Nat.lt_of_lt_of_le h.1 hle, h.2⟩
  | adding pass inputs newSst => exact ⟨Nat.lt_of_lt_of_le h.1 hle, h.2⟩
  | _ => trivial

theorem CompactPcLevels.of_finishing {m : SstMetadata} {pc : CompactPc}
    (h : pc.Finishing ∨ pc = .waiting) : CompactPcLevels m pc := by
  rcases h with hfinishing | rfl
  · cases pc with
    | mergeWait pass inputs => cases hfinishing
    | merging pass inputs => cases hfinishing
    | adding pass inputs newSst => cases hfinishing
    | _ => trivial
  · trivial

theorem World.Leveled.of_same {w w' : World} (h : w.Leveled)
    (hmeta : w'.lsmt.metadata = w.lsmt.metadata)
    (hreg : ∀ m sst, w'.flushPc = .registering m sst → sst.level = 0)
    (hpc : CompactPcLevels w.lsmt.metadata w'.compactPc) : w'.Leveled := by
  refine ⟨?_, ?_, ?_, ?_, hreg, ?_⟩
  · exact hmeta ▸ h.wf
  · exact hmeta ▸ h.accounted
  · exact hmeta ▸ h.tiered
  · exact hmeta ▸ h.level_lt
  · exact hmeta ▸ hpc

/-- An addition to a tier in use or to the next one. -/
theorem World.Leveled.add {w w' : World} (h : w.Leveled) {record : SstMetadataRecord}
    (hadd : sstMetadataAdd w.lsmt.metadata record = some w'.lsmt.metadata)
    (hlevel : record.level ≤ w.lsmt.metadata.highestTier)
    (hreg : ∀ m sst, w'.flushPc = .registering m sst → sst.level = 0)
    (hpc : CompactPcLevels w'.lsmt.metadata w'.compactPc) : w'.Leveled := by
  obtain ⟨htiered, hhighest⟩ := h.tiered.sstMetadataAdd hlevel hadd
  obtain ⟨hlist, -, -⟩ := SstMetadata.sstMetadataAdd_used hadd
  refine ⟨(sstMetadataAdd_spec h.wf hadd).1, h.accounted.sstMetadataAdd hadd, htiered, ?_, hreg, hpc⟩
  intro n hn
  rw [hlist] at hn
  rw [hhighest]
  rcases List.mem_cons.mp hn with rfl | hn
  · show record.level < _
    omega
  · have := h.level_lt n hn
    omega

theorem World.Leveled.step {w w' : World} {a : Action} (h : w.Leveled)
    (hstep : w.step a = some w') : w'.Leveled := by
  have hreg : ∀ m sst, w'.flushPc = .registering m sst → sst.level = 0 := by
    intro m sst hm
    rcases (World.step_flushPc hstep).2 m sst hm with hold | ⟨-, hdisk⟩
    · exact h.registering m sst hold
    · exact memtableToDisk_level hdisk
  have hpc := h.compactPc
  cases World.tierStep_of_step hstep with
  | quiet hmeta hsame hwake => exact h.of_same hmeta hreg (hsame ▸ hpc)
  | register memtable sst hflush hadd hsame hwake =>
    -- a flush registers at level 0, so no tier is left out in between
    have hlevel : sst.level ≤ w.lsmt.metadata.highestTier := by
      rw [h.registering memtable sst hflush]
      exact Nat.zero_le _
    obtain ⟨-, hhighest⟩ := h.tiered.sstMetadataAdd (by exact hlevel) hadd
    refine h.add hadd hlevel hreg ?_
    rw [hsame]
    apply hpc.mono
    rw [hhighest]
    exact Nat.le_max_left _ _
  | wake hmeta hwaiting hneeded hpc' =>
    refine h.of_same hmeta hreg ?_
    -- a pass begins with an empty hand
    rw [hpc']
    trivial
  | start hmeta hstarting hpc' hwake =>
    refine h.of_same hmeta hreg ?_
    rw [hpc']
    trivial
  | finish pass hmeta hscan htier hpc' hwake =>
    exact h.of_same hmeta hreg (.of_finishing hpc')
  | skip pass hmeta hscan htier hsize hpc' hwake =>
    refine h.of_same hmeta hreg ?_
    rw [hpc']
    trivial
  | select pass inputs hscan htier hsize hselect hpc' hwake =>
    -- the inputs are records of one tier, taken off its queue
    obtain ⟨popped, m', heq, hpops, -, -⟩ := sstPopInputs_takes sstableMergeLimit h.wf h.accounted []
    rw [hselect, List.nil_append, Prod.mk.injEq] at heq
    obtain ⟨rfl, hm'⟩ := heq
    rw [← hm'] at hpops
    refine ⟨hpops.wf, hpops.accounted, h.tiered.of_same hpops.highestTier_eq hpops.isSome_eq, ?_,
      hreg, ?_⟩
    · -- what is still listed was listed before
      intro n hn
      rw [hpops.highestTier_eq]
      have hrecord : n.content ∈ w'.lsmt.metadata.records := List.mem_map_of_mem hn
      have hold : n.content ∈ w.lsmt.metadata.records :=
        hpops.records_perm.mem_iff.mpr (List.mem_append_right _ hrecord)
      obtain ⟨n', hn', heq⟩ := List.mem_map.mp hold
      rw [← heq]
      exact h.level_lt n' hn'
    · rw [hpc']
      -- with two inputs or more there is a merge to come, from a tier in use
      split
      · trivial
      · rename_i htwo
        have hlevel : ∀ n ∈ popped, n.content.level = pass.tier := by
          intro n hn
          have hlisted := hpops.listed_perm.mem_iff.mpr (List.mem_append_left _ hn)
          exact of_decide_eq_true (List.mem_filter.mp hlisted).2
        refine ⟨?_, ?_⟩
        · rw [hpops.highestTier_eq]
          apply h.tiered.lt_of_queue
          rw [hpops.queue_eq]
          intro hnil
          rw [(List.append_eq_nil_iff.mp hnil).1] at htwo
          exact htwo (Nat.zero_lt_two)
        · intro sst hsst
          obtain ⟨n, hn, rfl⟩ := List.mem_map.mp hsst
          exact hlevel n hn
  | merge pass inputs hmeta hwait hpc' hwake =>
    refine h.of_same hmeta hreg ?_
    rw [hwait] at hpc
    rw [hpc']
    exact hpc
  | merged pass inputs faults newSst hmeta hmerging hlen hmerge hpc' hwake =>
    refine h.of_same hmeta hreg ?_
    rw [hmerging] at hpc
    rw [hpc']
    -- the output is one level above its inputs
    obtain ⟨i, hi, hlevel⟩ := sstMerge_level hmerge
    rw [hpc.2 i.1 (List.of_mem_zip hi).1] at hlevel
    exact ⟨hpc.1, hlevel⟩
  | add pass inputs newSst hadding hadd hpc' hwake =>
    rw [hadding] at hpc
    refine h.add hadd ?_ hreg ?_
    · rw [hpc.2]
      exact hpc.1
    · rw [hpc']
      trivial
  | release hmeta hfinishing hpc' hwake => exact h.of_same hmeta hreg (.of_finishing hpc')

theorem World.Leveled.run {w w' : World} {as : List Action} (h : w.Leveled)
    (hrun : run World.step w as = some w') : w'.Leveled := by
  refine run_invariant (P := World.Leveled) ?_ (fun a _ => trivial) h hrun
  intro _ _ _ _ hs hstep
  exact hs.step hstep

theorem World.leveled_init : (World.init lsmtInit).Leveled where
  wf := SstMetadata.wf_sstMetadataInit
  accounted := SstMetadata.accounted_sstMetadataInit
  tiered := SstMetadata.tiered_sstMetadataInit
  level_lt := by
    intro n hn
    cases hn
  registering := by
    intro m sst hm
    cases hm
  compactPc := trivial

theorem SstMetadata.bytes_append (nodes nodes' : List SstNode) :
    SstMetadata.bytes (nodes ++ nodes') = SstMetadata.bytes nodes + SstMetadata.bytes nodes' := by
  unfold SstMetadata.bytes
  rw [List.map_append, List.sum_append]

theorem SstMetadata.Pops.tierSize_eq {m m' : SstMetadata} {tier : Nat} {popped : List SstNode}
    (h : m.Pops tier popped m') (hm : m.Accounted) :
    m.tierSize tier = SstMetadata.bytes popped + m'.tierSize tier := by
  rw [hm.tierSize_eq, h.accounted.tierSize_eq, SstMetadata.bytes_perm h.listed_perm,
    SstMetadata.bytes_append]

theorem SstMetadata.Pops.tierSize_of_ne {m m' : SstMetadata} {tier : Nat} {popped : List SstNode}
    (h : m.Pops tier popped m') (hm : m.Accounted) {t : Nat} (ht : t ≠ tier) :
    m'.tierSize t = m.tierSize t := by
  rw [hm.tierSize_eq, h.accounted.tierSize_eq, h.listed_of_ne t ht]

/-! ## A bound on the tables -/

/-- A step of one of the two daemons. -/
def Action.ofDaemon : Action → Bool
  | .flushDaemon => true
  | .compact _ => true
  | _ => false

/-- The calls leave the list of SSTs alone. -/
theorem World.step_calls_metadata {w w' : World} {a : Action} (ha : a.ofDaemon = false)
    (hstep : w.step a = some w') : w'.lsmt.metadata = w.lsmt.metadata := by
  cases (World.step_cases hstep).2 with
  | insert key content hwaits call hcall =>
    rcases lsmtRotate_cases w.lsmt with hrot | ⟨threads, needSpawn, -, hrot⟩
    · simp only [lsmtInsertLocked, hrot]
    · simp only [lsmtInsertLocked, hrot, registerImmutable]
  | flushDaemon _ _ => cases ha
  | compact faults _ _ => cases ha
  | _ => rfl

/-- A step adds one table at most. -/
theorem World.Leveled.tables_le {w w' : World} {a : Action} (h : w.Leveled)
    (hstep : w.step a = some w') :
    w'.lsmt.metadata.list.length ≤ w.lsmt.metadata.list.length + 1 := by
  have hsame : w'.lsmt.metadata = w.lsmt.metadata →
      w'.lsmt.metadata.list.length ≤ w.lsmt.metadata.list.length + 1 :=
    fun hmeta => hmeta ▸ Nat.le_succ _
  have hadd : ∀ record, sstMetadataAdd w.lsmt.metadata record = some w'.lsmt.metadata →
      w'.lsmt.metadata.list.length ≤ w.lsmt.metadata.list.length + 1 := by
    intro record hadd
    obtain ⟨hlist, -, -⟩ := SstMetadata.sstMetadataAdd_used hadd
    exact Nat.le_of_eq (congrArg List.length hlist)
  cases World.tierStep_of_step hstep with
  | register memtable sst hflush hregister hpc hwake => exact hadd _ hregister
  | add pass inputs newSst hpc hmerged hpc' hwake => exact hadd _ hmerged
  | select pass inputs hpc htier hsize hselect hpc' hwake =>
    -- the selected tables leave the list
    obtain ⟨popped, m', heq, hpops, -, -⟩ := sstPopInputs_takes sstableMergeLimit h.wf h.accounted []
    rw [hselect, List.nil_append, Prod.mk.injEq] at heq
    obtain ⟨-, hm'⟩ := heq
    rw [← hm'] at hpops
    have hlen := hpops.records_perm.length_eq
    unfold SstMetadata.records at hlen
    simp only [List.length_append, List.length_map] at hlen
    omega
  | quiet hmeta hpc hwake => exact hsame hmeta
  | wake hmeta hpc hneeded hpc' => exact hsame hmeta
  | start hmeta hpc hpc' hwake => exact hsame hmeta
  | finish pass hmeta hpc htier hpc' hwake => exact hsame hmeta
  | skip pass hmeta hpc htier hsize hpc' hwake => exact hsame hmeta
  | merge pass inputs hmeta hpc hpc' hwake => exact hsame hmeta
  | merged pass inputs faults newSst hmeta hpc hlen hmerge hpc' hwake => exact hsame hmeta
  | release hmeta hpc hpc' hwake => exact hsame hmeta

/-- There are no more tables than the daemons have made steps. -/
theorem World.run_tables_le {w w' : World} {as : List Action} (h : w.Leveled)
    (hrun : run World.step w as = some w') :
    w'.lsmt.metadata.list.length ≤ w.lsmt.metadata.list.length + as.countP Action.ofDaemon := by
  induction as generalizing w with
  | nil =>
    cases hrun
    exact Nat.le_refl _
  | cons a as ih =>
    obtain ⟨t, ht, hrest⟩ := run_cons_eq_some.mp hrun
    have htail := ih (h.step ht) hrest
    rw [List.countP_cons]
    cases ha : a.ofDaemon with
    | false =>
      rw [World.step_calls_metadata ha ht] at htail
      simpa using htail
    | true =>
      have hone := h.tables_le ht
      simp only [if_true]
      omega

/-- The bytes of the tables have been inserted. -/
theorem World.Inv.bytes_le {w : World} (h : w.Inv []) {size : Nat}
    (hsize : ∀ call ∈ w.inserted, 16 + call.content.length ≤ size) :
    (w.lsmt.metadata.records.map SstMetadataRecord.totalBytes).sum ≤ w.inserted.length * size := by
  -- a table has the bytes of its records
  have htables : ∀ ssts : List SstMetadataRecord, (∀ sst ∈ ssts, SstOk sst) →
      (ssts.map SstMetadataRecord.totalBytes).sum =
        ((sstRecords ssts).map KvRawRecord.totalSize).sum := by
    intro ssts hok
    induction ssts with
    | nil => rfl
    | cons sst ssts ih =>
      have hholds := (hok sst List.mem_cons_self).holds
      rw [List.map_cons, List.sum_cons, sstRecords_cons, List.map_append, List.sum_append,
        ih fun t ht => hok t (List.mem_cons_of_mem _ ht), hholds.totalBytes_eq, hholds.file_eq,
        length_fileBytes]
  have hregistered := ((h.registered.map KvRawRecord.totalSize).sum_nat)
  have hinserted := ((h.inserted.map KvRawRecord.totalSize).sum_nat)
  rw [List.nil_append, List.map_append, List.sum_append] at hregistered
  rw [List.map_append, List.map_append, List.sum_append, List.sum_append] at hinserted
  have haccepted : ((w.accepted.map rawOf).map KvRawRecord.totalSize).sum ≤
      w.inserted.length * size := by
    rw [List.map_map]
    calc (w.accepted.map (KvRawRecord.totalSize ∘ rawOf)).sum
        ≤ (w.accepted.map (KvRawRecord.totalSize ∘ rawOf)).length • size := by
          refine List.sum_le_card_nsmul _ _ fun x hx => ?_
          obtain ⟨n, hn, rfl⟩ := List.mem_map.mp hx
          obtain ⟨call, hcall, rfl⟩ := List.mem_map.mp hn
          have hle := hsize call (List.mem_filter.mp hcall).1
          simp only [Function.comp_apply, KvRawRecord.totalSize, rawOf, InsertCall.node,
            List.length_append, length_keyBytes, List.length_take]
          omega
      _ = w.accepted.length * size := by rw [List.length_map, smul_eq_mul]
      _ ≤ w.inserted.length * size := by
          refine Nat.mul_le_mul_right _ ?_
          unfold World.accepted
          rw [List.length_map]
          exact List.length_filter_le _ _
  rw [htables _ h.ssts]
  omega

/-- Both daemons wait and nothing is left to do. -/
structure World.AtRest (w : World) : Prop where
  flushPc : w.flushPc = .waiting
  compactPc : w.compactPc = .waiting
  flushNeeded : w.lsmt.flushNeeded = false
  compactionNeeded : w.lsmt.compactionNeeded = false
  immutables : w.lsmt.immutables = []

/-! ## Filling the memtables -/

/-- The flush daemon writes one memtable out and waits again. -/
theorem flushDaemon_drains {w : World} {memtable : Sl} {sst : SstMetadataRecord} {m : SstMetadata}
    (hrun : w.status = .running) (hpc : w.flushPc = .waiting) (hneeded : w.lsmt.flushNeeded = true)
    (himm : w.lsmt.immutables = [memtable]) (hdisk : memtableToDisk memtable = .written sst)
    (hadd : sstMetadataAdd w.lsmt.metadata { sst with id := w.lsmt.sstableId } = some m) :
    ∃ generation disk, run World.step w (List.replicate 8 .flushDaemon) =
      some { w with
        lsmt := { w.lsmt with
          metadata := m
          immutables := []
          sstableId := (w.lsmt.sstableId + 1) % 2 ^ 32
          metadataGeneration := w.lsmt.metadataGeneration + 1
          diskGeneration := generation
          flushActive := false
          activeBackgroundThreads := 0
          compactionNeeded := true
          flushNeeded := false
          diskMetadata := disk }
        flushed := w.flushed ++ [{ sst with id := w.lsmt.sstableId }] } := by
  obtain ⟨lsmt, _, _, flushPc, _, status, _, _, _, _⟩ := w
  simp only at hrun hpc hneeded himm hadd
  subst hrun hpc
  by_cases hgeneration : lsmt.metadataGeneration + 1 > lsmt.diskGeneration
  · refine ⟨lsmt.metadataGeneration + 1, some (sstMetadataCopyRecords m), ?_⟩
    simp [List.replicate, run, World.step, flushDaemonStep, hneeded, himm, hdisk, flushRegister, hadd,
      writeMetadata, hgeneration, unregisterImmutableMemtable]
  · refine ⟨lsmt.diskGeneration, lsmt.diskMetadata, ?_⟩
    simp [List.replicate, run, World.step, flushDaemonStep, hneeded, himm, hdisk, flushRegister, hadd,
      writeMetadata, hgeneration, unregisterImmutableMemtable]

/-- An insertion into a full memtable and the rest of the call. -/
theorem insert_rotates {w : World} {key : SlUint128} {content : Bytes} {sl : Sl}
    (hrun : w.status = .running) (hfull : sizeThreshold < w.lsmt.memtable.size)
    (himm : w.lsmt.immutables = []) (hthreads : w.lsmt.activeBackgroundThreads = 0)
    (hinserting : w.inserting = [])
    (hins : slInsert (slInit w.lsmt.nextAddr) key content = (sl, 0)) :
    run World.step w [.insert key content, .insertCall 0, .insertCall 0] =
      some { w with
        lsmt := { w.lsmt with
          memtable := sl
          immutables := [w.lsmt.memtable]
          activeBackgroundThreads := 1
          flushNeeded := true
          nextAddr := w.lsmt.nextAddr + 1 }
        inserted := w.inserted ++ [⟨key, content, 0, true⟩]
        returned := w.returned ++ [⟨key, content, 0, false⟩] } := by
  obtain ⟨lsmt, inserting, _, _, _, status, _, _, _, _⟩ := w
  simp only at hrun hfull himm hthreads hinserting hins
  subst hrun hinserting
  simp [run, World.step, insertStep, lsmtInsertWaits, lsmtInsertLocked, lsmtRotate, registerImmutable,
    insertCallStep, hfull, himm, hthreads, hins, maxImmutables]

/-- An insertion into a memtable that is not full and the rest of the call. -/
theorem insert_stays {w : World} {key : SlUint128} {content : Bytes} {sl : Sl}
    (hrun : w.status = .running) (hroom : w.lsmt.memtable.size ≤ sizeThreshold)
    (himm : w.lsmt.immutables = []) (hinserting : w.inserting = [])
    (hins : slInsert w.lsmt.memtable key content = (sl, 0)) :
    run World.step w [.insert key content, .insertCall 0] =
      some { w with
        lsmt := { w.lsmt with memtable := sl }
        inserted := w.inserted ++ [⟨key, content, 0, false⟩]
        returned := w.returned ++ [⟨key, content, 0, false⟩] } := by
  obtain ⟨lsmt, inserting, _, _, _, status, _, _, _, _⟩ := w
  simp only at hrun hroom himm hinserting hins
  subst hrun hinserting
  have hfull : ¬ sizeThreshold < lsmt.memtable.size := Nat.not_lt.mpr hroom
  simp [run, World.step, insertStep, lsmtInsertWaits, lsmtInsertLocked, lsmtRotate, insertCallStep,
    hfull, himm, hins, maxImmutables]

/-- The size of `count` records of this content. -/
def pileSize (content : Bytes) (count : Nat) : Nat := count * (16 + content.length)

/-- A memtable with `count` records of this content, with the timestamps below `count`. -/
structure Sl.Filled (content : Bytes) (count : Nat) (sl : Sl) : Prop where
  ok : sl.Ok
  size : sl.size = pileSize content count
  keys : ∀ n ∈ sl.bottomLevel, n.1.timestamp.toNat < count

theorem Sl.filled_slInit (content : Bytes) (addr : Nat) : (slInit addr).Filled content 0 where
  ok := Sl.ok_slInit addr
  size := (Nat.zero_mul _).symm
  keys _ hn := (List.not_mem_nil hn).elim

/-- One more record. -/
theorem Sl.Filled.insert {content : Bytes} {count : Nat} {sl : Sl} (h : sl.Filled content count)
    (hself : SelfConsistent content) (hcount : count < 2 ^ 64) :
    ∃ sl', slInsert sl ⟨1, UInt64.ofNat count⟩ content = (sl', 0) ∧ sl'.Filled content (count + 1) := by
  have htimestamp : (UInt64.ofNat count).toNat = count := by
    rw [UInt64.toNat_ofNat']
    exact Nat.mod_eq_of_lt hcount
  rcases slInsert_cases h.ok.wf ⟨1, UInt64.ofNat count⟩ content with ⟨-, hzero | ⟨n, hn, hkey⟩⟩ |
    ⟨sl', hins, -, hwf, -, hperm⟩
  · cases hzero
  · -- the timestamp is a new one
    have hlt := h.keys n hn
    rw [hkey, htimestamp] at hlt
    exact absurd hlt (Nat.lt_irrefl _)
  · refine ⟨sl', hins, ⟨hwf, fun n hn => ?_⟩, ?_, fun n hn => ?_⟩
    · rcases List.mem_cons.mp (hperm.subset hn) with rfl | hn
      · exact hself
      · exact h.ok.consistent n hn
    · rw [hwf.size_eq, (hperm.map nodeSize).sum_nat, List.map_cons, List.sum_cons,
        ← h.ok.wf.size_eq, h.size]
      unfold pileSize nodeSize
      rw [Nat.succ_mul, Nat.add_comm]
    · rcases List.mem_cons.mp (hperm.subset hn) with rfl | hn
      · rw [htimestamp]
        exact Nat.lt_succ_self _
      · exact Nat.lt_succ_of_lt (h.keys n hn)

/-- `count` insertions behind the first ones. -/
def insertions (content : Bytes) (first count : Nat) : List Action :=
  (List.range' first count).flatMap fun i => [.insert ⟨1, UInt64.ofNat i⟩ content, .insertCall 0]

/-- The insertions up to the one that fills the memtable. -/
theorem insertions_fill {content : Bytes} (hself : SelfConsistent content) (count : Nat) :
    ∀ {first : Nat} {w : World}, w.status = .running → w.lsmt.immutables = [] → w.inserting = [] →
      w.lsmt.memtable.Filled content first → first + count < 2 ^ 64 →
      (∀ i < first + count, pileSize content i ≤ sizeThreshold) →
      ∃ sl inserted returned, run World.step w (insertions content first count) =
          some { w with
            lsmt := { w.lsmt with memtable := sl }
            inserted := inserted
            returned := returned } ∧ sl.Filled content (first + count) := by
  induction count with
  | zero =>
    intro first w _ _ _ hfilled _ _
    exact ⟨w.lsmt.memtable, w.inserted, w.returned, rfl, hfilled⟩
  | succ count ih =>
    intro first w hrun himm hinserting hfilled hlast hroom
    obtain ⟨sl, hins, hnext⟩ := hfilled.insert hself (by omega)
    have hone := insert_stays hrun (hfilled.size ▸ hroom first (by omega)) himm hinserting hins
    obtain ⟨sl', inserted, returned, hrest, hfilled'⟩ := ih (w := { w with
        lsmt := { w.lsmt with memtable := sl }
        inserted := w.inserted ++ [⟨⟨1, UInt64.ofNat first⟩, content, 0, false⟩]
        returned := w.returned ++ [⟨⟨1, UInt64.ofNat first⟩, content, 0, false⟩] })
      hrun himm hinserting hnext (by omega) (fun i hi => hroom i (by omega))
    have hcount : first + 1 + count = first + (count + 1) := by omega
    exact ⟨sl', inserted, returned, run_append_eq_some.mpr ⟨_, hone, hrest⟩, hcount ▸ hfilled'⟩

/-- A quiet store with a memtable that has just been filled with `extra` records and one, and with
`tables` tables of as many records in tier 0, at which the compaction has not looked. -/
structure World.Piled (content : Bytes) (extra tables : Nat) (w : World) : Prop where
  status : w.status = .running
  flushPc : w.flushPc = .waiting
  compactPc : w.compactPc = .waiting
  inserting : w.inserting = []
  immutables : w.lsmt.immutables = []
  flushActive : w.lsmt.flushActive = false
  flushNeeded : w.lsmt.flushNeeded = false
  threads : w.lsmt.activeBackgroundThreads = 0
  needed : 0 < tables → w.lsmt.compactionNeeded = true
  memtable : w.lsmt.memtable.Filled content (extra + 1)
  leveled : w.Leveled
  highestTier : w.lsmt.metadata.highestTier ≤ 1
  listed : w.lsmt.metadata.list.length = tables
  queue : (w.lsmt.metadata.queue 0).length = tables
  ssts : ∀ n ∈ w.lsmt.metadata.list, SstOk n.content ∧ n.content.level = 0 ∧
    n.content.totalBytes = pileSize content (extra + 1)

/-- The memtable is full with its last record and not before. -/
structure FillsAt (content : Bytes) (extra : Nat) : Prop where
  selfConsistent : SelfConsistent content
  room : pileSize content extra ≤ sizeThreshold
  full : sizeThreshold < pileSize content (extra + 1)
  lt : extra + 1 < 2 ^ 64

theorem FillsAt.room_of_le {content : Bytes} {extra : Nat} (h : FillsAt content extra) {i : Nat}
    (hi : i ≤ extra) : pileSize content i ≤ sizeThreshold :=
  Nat.le_trans (Nat.mul_le_mul_right _ hi) h.room

/-- The table of a full memtable. -/
theorem World.Piled.written {content : Bytes} {extra tables : Nat} {w : World}
    (h : w.Piled content extra tables) :
    ∃ sst, memtableToDisk w.lsmt.memtable = .written sst ∧ SstOk sst ∧ sst.level = 0 ∧
      sst.totalBytes = pileSize content (extra + 1) := by
  have hbytes := h.memtable.ok.length_fileBytes
  rw [h.memtable.size] at hbytes
  rcases memtableToDisk_cases h.memtable.ok with ⟨-, hnil⟩ | ⟨sst, hdisk, hholds, hne⟩
  · rw [hnil] at hbytes
    have hzero : 0 = (extra + 1) * (16 + content.length) := hbytes
    rw [Nat.succ_mul] at hzero
    omega
  · refine ⟨sst, hdisk, ⟨?_, ?_⟩, memtableToDisk_level hdisk, ?_⟩
    · rw [hholds.records_eq]
      exact hholds
    · rw [hholds.records_eq]
      exact hne
    · rw [hholds.totalBytes_eq, hholds.file_eq, hbytes]

/-- The insertion that rotates the full memtable, its flush, and the insertions that fill the next. -/
def nextTable (content : Bytes) (extra : Nat) : List Action :=
  ([.insert ⟨1, UInt64.ofNat 0⟩ content, .insertCall 0, .insertCall 0] ++
    List.replicate 8 .flushDaemon) ++ insertions content 1 extra

theorem World.Piled.next {content : Bytes} {extra tables : Nat} {w : World}
    (h : w.Piled content extra tables) (hfills : FillsAt content extra)
    (hroom : tables ≠ queueCapacity) :
    ∃ w', run World.step w (nextTable content extra) = some w' ∧
      w'.Piled content extra (tables + 1) := by
  obtain ⟨sl, hins, hone⟩ :=
    (Sl.filled_slInit content w.lsmt.nextAddr).insert hfills.selfConsistent (by decide)
  obtain ⟨sst, hdisk, hsst, hlevel, htotal⟩ := h.written
  obtain ⟨m, hadd⟩ : ∃ m, sstMetadataAdd w.lsmt.metadata { sst with id := w.lsmt.sstableId } =
      some m := by
    unfold sstMetadataAdd
    rw [if_neg (by show ¬ maxTiers ≤ sst.level; rw [hlevel]; decide)]
    exact ⟨_, rfl⟩
  -- the insertion rotates the full memtable and the daemon writes it
  have hrotate := insert_rotates h.status (h.memtable.size.symm ▸ hfills.full) h.immutables h.threads
    h.inserting hins
  obtain ⟨generation, disk, hdrain⟩ := flushDaemon_drains (w := { w with
    lsmt := { w.lsmt with
      memtable := sl
      immutables := [w.lsmt.memtable]
      activeBackgroundThreads := 1
      flushNeeded := true
      nextAddr := w.lsmt.nextAddr + 1 }
    inserted := w.inserted ++ [⟨⟨1, UInt64.ofNat 0⟩, content, 0, true⟩]
    returned := w.returned ++ [⟨⟨1, UInt64.ofNat 0⟩, content, 0, false⟩] }) h.status h.flushPc rfl rfl
    hdisk hadd
  have hflushed := run_append_eq_some.mpr ⟨_, hrotate, hdrain⟩
  -- the next memtable is filled
  obtain ⟨sl', inserted, returned, hfill, hfilled⟩ := insertions_fill hfills.selfConsistent extra
    (w := { w with
      lsmt := { w.lsmt with
        memtable := sl
        nextAddr := w.lsmt.nextAddr + 1
        metadata := m
        immutables := []
        sstableId := (w.lsmt.sstableId + 1) % 2 ^ 32
        metadataGeneration := w.lsmt.metadataGeneration + 1
        diskGeneration := generation
        flushActive := false
        activeBackgroundThreads := 0
        compactionNeeded := true
        flushNeeded := false
        diskMetadata := disk }
      inserted := w.inserted ++ [⟨⟨1, UInt64.ofNat 0⟩, content, 0, true⟩]
      returned := w.returned ++ [⟨⟨1, UInt64.ofNat 0⟩, content, 0, false⟩]
      flushed := w.flushed ++ [{ sst with id := w.lsmt.sstableId }] })
    h.status rfl h.inserting hone (by have := hfills.lt; omega)
    (fun i hi => hfills.room_of_le (by omega))
  have hrun := run_append_eq_some.mpr ⟨_, hflushed, hfill⟩
  obtain ⟨hlist, -, -⟩ := SstMetadata.sstMetadataAdd_used hadd
  refine ⟨_, hrun, h.status, h.flushPc, h.compactPc, h.inserting, rfl, rfl, rfl, rfl, fun _ => rfl,
    Nat.add_comm 1 extra ▸ hfilled, h.leveled.run hrun, ?_, ?_, ?_, ?_⟩
  · show m.highestTier ≤ 1
    rw [(h.leveled.tiered.sstMetadataAdd (by rw [hlevel]; exact Nat.zero_le _) hadd).2]
    exact Nat.max_le.mpr ⟨h.highestTier, by rw [hlevel]⟩
  · show m.list.length = tables + 1
    rw [hlist, List.length_cons, h.listed]
  · show (m.queue 0).length = tables + 1
    rw [SstMetadata.queue_sstMetadataAdd hadd, if_pos hlevel,
      SstMetadata.length_enqueue_iff.mpr (by rw [h.queue]; exact hroom), h.queue]
  · intro n hn
    have hn : n ∈ m.list := hn
    rw [hlist] at hn
    rcases List.mem_cons.mp hn with rfl | hn
    · exact ⟨⟨hsst.holds.withId _, hsst.ne_nil⟩, hlevel, htotal⟩
    · exact h.ssts n hn

/-- The run to a full memtable and `tables` tables. -/
def pileRun (content : Bytes) (extra : Nat) : Nat → List Action
  | 0 => insertions content 0 (extra + 1)
  | tables + 1 => pileRun content extra tables ++ nextTable content extra

theorem mem_insertions {content : Bytes} {first count : Nat} {a : Action}
    (ha : a ∈ insertions content first count) :
    (∃ key, a = .insert key content) ∨ ∃ i, a = .insertCall i := by
  obtain ⟨i, -, ha⟩ := List.mem_flatMap.mp ha
  rcases List.mem_cons.mp ha with rfl | ha
  · exact Or.inl ⟨_, rfl⟩
  · exact Or.inr ⟨0, List.mem_singleton.mp ha⟩

/-- There are only insertions and steps of the flush daemon. -/
theorem mem_pileRun {content : Bytes} {extra tables : Nat} {a : Action}
    (ha : a ∈ pileRun content extra tables) :
    (∃ key, a = .insert key content) ∨ (∃ i, a = .insertCall i) ∨ a = .flushDaemon := by
  induction tables with
  | zero => exact (mem_insertions ha).imp_right Or.inl
  | succ tables ih =>
    rcases List.mem_append.mp ha with ha | ha
    · exact ih ha
    · rcases List.mem_append.mp ha with ha | ha
      · rcases List.mem_append.mp ha with ha | ha
        · simp only [List.mem_cons, List.not_mem_nil, or_false] at ha
          rcases ha with rfl | rfl | rfl
          · exact Or.inl ⟨_, rfl⟩
          · exact Or.inr (Or.inl ⟨0, rfl⟩)
          · exact Or.inr (Or.inl ⟨0, rfl⟩)
        · exact Or.inr (Or.inr (List.eq_of_mem_replicate ha))
      · exact (mem_insertions ha).imp_right Or.inl

theorem length_insertions (content : Bytes) (first count : Nat) :
    (insertions content first count).length = count * 2 := by
  unfold insertions
  simp only [List.length_flatMap, List.length_cons, List.length_nil, List.map_const',
    List.sum_replicate, List.length_range', smul_eq_mul]

theorem countP_insertions (content : Bytes) (first count : Nat) :
    (insertions content first count).countP Action.ofDaemon = 0 := by
  rw [List.countP_eq_zero]
  intro a ha
  rcases mem_insertions ha with ⟨key, rfl⟩ | ⟨i, rfl⟩ <;> exact Bool.false_ne_true

theorem length_pileRun (content : Bytes) (extra tables : Nat) :
    (pileRun content extra tables).length = (extra + 1) * 2 + tables * (11 + extra * 2) := by
  induction tables with
  | zero => rw [Nat.zero_mul, Nat.add_zero]; exact length_insertions _ _ _
  | succ tables ih =>
    simp only [pileRun, nextTable, List.length_append, ih, length_insertions, List.length_replicate,
      List.length_cons, List.length_nil, Nat.succ_mul]
    omega

theorem countP_pileRun (content : Bytes) (extra tables : Nat) :
    (pileRun content extra tables).countP Action.ofDaemon = tables * 8 := by
  induction tables with
  | zero => rw [Nat.zero_mul]; exact countP_insertions _ _ _
  | succ tables ih =>
    simp only [pileRun, nextTable, List.countP_append, ih, countP_insertions, Nat.succ_mul,
      Nat.add_zero]
    rfl

/-- Any number of tables that the queue has room for. -/
theorem exists_piled {content : Bytes} {extra : Nat} (hfills : FillsAt content extra) (tables : Nat)
    (hroom : tables ≤ queueCapacity) :
    ∃ w, run World.step (World.init lsmtInit) (pileRun content extra tables) = some w ∧
      w.Piled content extra tables := by
  induction tables with
  | zero =>
    obtain ⟨sl, inserted, returned, hrun, hfilled⟩ := insertions_fill hfills.selfConsistent
      (extra + 1) (w := World.init lsmtInit) rfl rfl rfl (Sl.filled_slInit content 0)
      (by have := hfills.lt; omega) (fun i hi => hfills.room_of_le (by omega))
    refine ⟨_, hrun, rfl, rfl, rfl, rfl, rfl, rfl, rfl, rfl, fun hpos => ?_,
      Nat.zero_add (extra + 1) ▸ hfilled, World.leveled_init.run hrun, Nat.zero_le 1, rfl, rfl,
      fun n hn => (List.not_mem_nil hn).elim⟩
    exact absurd hpos (Nat.lt_irrefl 0)
  | succ tables ih =>
    obtain ⟨w, hrun, hpiled⟩ := ih (Nat.le_of_succ_le hroom)
    obtain ⟨w', hnext, hpiled'⟩ := hpiled.next hfills (Nat.ne_of_lt hroom)
    exact ⟨w', run_append_eq_some.mpr ⟨w, hrun, hnext⟩, hpiled'⟩

/-! ## A pass of the compaction -/

/-- The compaction selects files of tier 0. -/
theorem compact_selects {w : World} {inputs : List SstMetadataRecord} {m : SstMetadata}
    (faults : List IoFaults) (hrun : w.status = .running) (hpc : w.compactPc = .waiting)
    (hneeded : w.lsmt.compactionNeeded = true) (hflush : w.lsmt.flushActive = false)
    (himm : w.lsmt.immutables = []) (hover : tierSizeThreshold 0 < w.lsmt.metadata.tierSize 0)
    (hselect : sstPopInputs 0 (w.lsmt.metadata.tierSize 0 - tierSizeThreshold 0) sstableMergeLimit
      w.lsmt.metadata [] = (inputs, m)) (htwo : 2 ≤ inputs.length) :
    run World.step w (List.replicate 4 (.compact faults)) =
      some { w with
        lsmt := { w.lsmt with
          metadata := m
          compactionNeeded := false }
        compactPc := .merging ⟨0, w.lsmt.metadata.highestTier, [], false⟩ inputs } := by
  obtain ⟨lsmt, _, _, _, compactPc, status, _, _, _, _⟩ := w
  simp only at hrun hpc hneeded hflush himm hover hselect
  subst hrun hpc
  have hnot : ¬ inputs.length ≤ 1 := Nat.not_le.mpr htwo
  simp [List.replicate, run, World.step, compactStep, compactScan, hneeded, hflush, himm, hover,
    hselect, hnot]

/-- The compaction merges the files, looks at the next tier and ends its pass. -/
theorem compact_merges {w : World} {inputs : List SstMetadataRecord} {m : SstMetadata}
    {newSst : SstMetadataRecord} (faults : List IoFaults) (hrun : w.status = .running)
    (hpc : w.compactPc = .merging ⟨0, 1, [], false⟩ inputs) (hlen : faults.length = inputs.length)
    (hmerge : sstMerge (inputs.zip faults) = some newSst)
    (hadd : sstMetadataAdd w.lsmt.metadata newSst = some m)
    (hfits : m.tierSize 1 ≤ tierSizeThreshold 1) :
    ∃ generation disk retired, run World.step w (List.replicate 7 (.compact faults)) =
      some { w with
        lsmt := { w.lsmt with
          metadata := m
          metadataGeneration := w.lsmt.metadataGeneration + 1
          diskGeneration := generation
          diskMetadata := disk }
        compactPc := .waiting
        retired := retired } := by
  obtain ⟨lsmt, _, _, _, compactPc, status, _, _, _, retired⟩ := w
  simp only at hrun hpc hadd
  subst hrun hpc
  have hskip : ¬ tierSizeThreshold 1 < m.tierSize 1 := Nat.not_lt.mpr hfits
  let held := holdForDeletion [] inputs
  by_cases hgeneration : lsmt.metadataGeneration + 1 > lsmt.diskGeneration
  · refine ⟨lsmt.metadataGeneration + 1, some (sstMetadataCopyRecords m),
      (retired ++ held.2) ++ held.1, ?_⟩
    simp [List.replicate, run, World.step, compactStep, compactScan, hlen, hmerge, hadd, hskip,
      writeMetadata, hgeneration, held]
  · refine ⟨lsmt.diskGeneration, lsmt.diskMetadata, (retired ++ held.2) ++ held.1, ?_⟩
    simp [List.replicate, run, World.step, compactStep, compactScan, hlen, hmerge, hadd, hskip,
      writeMetadata, hgeneration, held]

/-- Readable inputs are merged. -/
theorem sstMerge_of_readable {inputs : List SstMetadataRecord} (hne : inputs ≠ [])
    (hok : ∀ sst ∈ inputs, SstOk sst) :
    ∃ newSst, sstMerge (inputs.zip (List.replicate inputs.length IoFaults.none)) = some newSst ∧
      newSst.totalBytes ≤ (inputs.map SstMetadataRecord.totalBytes).sum := by
  have hlength : inputs.length ≤ (List.replicate inputs.length IoFaults.none).length :=
    Nat.le_of_eq List.length_replicate.symm
  have hholds : ∀ i ∈ inputs.zip (List.replicate inputs.length IoFaults.none),
      SstHolds i.1 i.1.records := fun i hi => (hok i.1 (List.of_mem_zip hi).1).holds
  have hfst := congrArg (List.map SstMetadataRecord.totalBytes) (List.map_fst_zip hlength)
  rw [List.map_map] at hfst
  obtain ⟨newSst, hmerge⟩ : ∃ newSst,
      sstMerge (inputs.zip (List.replicate inputs.length IoFaults.none)) = some newSst := by
    rw [← Option.ne_none_iff_exists', Ne, sstMerge_eq_none_iff _ hholds]
    · rintro ⟨i, hi, -, -, hindex⟩
      rw [List.eq_of_mem_replicate (List.of_mem_zip hi).2] at hindex
      cases hindex
    · intro hnil
      rw [hnil] at hfst
      exact hne (List.map_eq_nil_iff.mp hfst.symm)
  refine ⟨newSst, hmerge, ?_⟩
  have hsum := sstMerge_totalBytes_le hholds hmerge
  rw [← hfst]
  exact hsum

/-- The selection takes two tables at least, and no more than it needs or may. -/
theorem World.Piled.pops {content : Bytes} {extra tables : Nat} {w : World}
    (h : w.Piled content extra tables) (htables : 2 ≤ tables) :
    w.lsmt.metadata.tierSize 0 = tables * pileSize content (extra + 1) ∧
    ∃ popped m, sstPopInputs 0 (w.lsmt.metadata.tierSize 0 - tierSizeThreshold 0) sstableMergeLimit
        w.lsmt.metadata [] = (popped.map SstNode.content, m) ∧
      w.lsmt.metadata.Pops 0 popped m ∧ (∀ n ∈ popped, n ∈ w.lsmt.metadata.list) ∧
      2 ≤ popped.length ∧ popped.length ≤ sstableMergeLimit ∧
      SstMetadata.bytes popped = popped.length * pileSize content (extra + 1) ∧
      (popped.length = sstableMergeLimit ∨ popped.length = tables ∨
        tables * pileSize content (extra + 1) - tierSizeThreshold 0 <
          popped.length * pileSize content (extra + 1)) := by
  -- all tables have the same size
  have hbytes : ∀ nodes : List SstNode, (∀ n ∈ nodes, n ∈ w.lsmt.metadata.list) →
      SstMetadata.bytes nodes = nodes.length * pileSize content (extra + 1) := by
    intro nodes hnodes
    unfold SstMetadata.bytes
    rw [List.map_congr_left fun n hn => (h.ssts n (hnodes n hn)).2.2, List.map_const',
      List.sum_replicate, smul_eq_mul]
  have hlisted : w.lsmt.metadata.listed 0 = w.lsmt.metadata.list :=
    List.filter_eq_self.mpr fun n hn => decide_eq_true (h.ssts n hn).2.1
  have hsize : w.lsmt.metadata.tierSize 0 = tables * pileSize content (extra + 1) := by
    rw [h.leveled.accounted.tierSize_eq, hlisted, hbytes _ fun _ hn => hn, h.listed]
  obtain ⟨popped, m, hselect, hpops, hle, hstop⟩ := @sstPopInputs_takes 0
    (w.lsmt.metadata.tierSize 0 - tierSizeThreshold 0) sstableMergeLimit _ h.leveled.wf
    h.leveled.accounted []
  rw [List.nil_append] at hselect hstop
  have hmem : ∀ n ∈ popped, n ∈ w.lsmt.metadata.list := by
    intro n hn
    rw [← hlisted]
    exact hpops.listed_perm.mem_iff.mpr (List.mem_append_left _ hn)
  have hbytes := hbytes popped hmem
  -- the loop stops at its limit, behind the last table, or with what holds the excess
  have hstop : popped.length = sstableMergeLimit ∨ popped.length = tables ∨ 2 ≤ popped.length ∧
      tables * pileSize content (extra + 1) - tierSizeThreshold 0 <
        popped.length * pileSize content (extra + 1) := by
    rcases hstop with hlimit | hempty | ⟨htwo, hmore⟩
    · exact Or.inl hlimit
    · have hall := congrArg List.length hpops.queue_eq
      rw [hempty, List.append_nil, h.queue] at hall
      exact Or.inr (Or.inl hall.symm)
    · rw [List.map_map] at hmore
      rw [List.length_map] at htwo
      have hmore : w.lsmt.metadata.tierSize 0 - tierSizeThreshold 0 < SstMetadata.bytes popped := hmore
      rw [hsize, hbytes] at hmore
      exact Or.inr (Or.inr ⟨htwo, hmore⟩)
  refine ⟨hsize, popped, m, hselect, hpops, hmem, ?_, hle, hbytes, ?_⟩
  · rcases hstop with hlimit | hall | ⟨htwo, -⟩
    · rw [hlimit]
      decide
    · rw [hall]
      exact htables
    · exact htwo
  · exact hstop.imp_right (Or.imp_right And.right)

/-- What a pass leaves behind: the merged tables have left tier 0, and there is one in tier 1. -/
structure World.Merged (content : Bytes) (extra tables merged : Nat) (w : World) : Prop where
  status : w.status = .running
  atRest : w.AtRest
  tierSize : w.lsmt.metadata.tierSize 0 = (tables - merged) * pileSize content (extra + 1)
  output : ∃ sst ∈ w.lsmt.metadata.records, sst.level = 1
  fewer : w.lsmt.metadata.list.length < w.lsmt.metadata.nextAddr

/-- Tables of less than two full memtables are above the threshold of tier 0 together only if there are
several. -/
theorem two_le_of_excess {content : Bytes} {extra tables : Nat}
    (hover : tierSizeThreshold 0 < tables * pileSize content (extra + 1))
    (hsize : pileSize content (extra + 1) ≤ 2 * sizeThreshold) : 2 ≤ tables := by
  have hzero : tierSizeThreshold 0 = 4 * sizeThreshold := rfl
  by_contra hfew
  have hle : tables * pileSize content (extra + 1) ≤ 1 * (2 * sizeThreshold) :=
    Nat.mul_le_mul (by omega) hsize
  omega

/-- Tier 1 is empty. -/
theorem World.Piled.tierSize_one {content : Bytes} {extra tables : Nat} {w : World}
    (h : w.Piled content extra tables) : w.lsmt.metadata.tierSize 1 = 0 := by
  have hnil : w.lsmt.metadata.listed 1 = [] := by
    apply List.filter_eq_nil_iff.mpr
    intro n hn hone
    have hlevel := of_decide_eq_true hone
    rw [(h.ssts n hn).2.1] at hlevel
    cases hlevel
  rw [h.leveled.accounted.tierSize_eq, hnil]
  rfl

/-- Tier 0 alone is in use. -/
theorem World.Piled.highestTier_eq {content : Bytes} {extra tables : Nat} {w : World}
    (h : w.Piled content extra tables) (htables : 0 < tables) :
    w.lsmt.metadata.highestTier = 1 := by
  have hused : 0 < w.lsmt.metadata.highestTier := by
    apply h.leveled.tiered.lt_of_queue
    intro hnil
    have hqueue := h.queue
    rw [hnil, List.length_nil] at hqueue
    omega
  exact Nat.le_antisymm h.highestTier hused

/-- A merge of several tables makes the list shorter, but for its output. -/
theorem SstMetadata.Pops.length_lt {m m' m'' : SstMetadata} {tier : Nat} {popped : List SstNode}
    {newSst : SstMetadataRecord} (h : m.Pops tier popped m') (hm : m.Wf) (htwo : 2 ≤ popped.length)
    (hadd : sstMetadataAdd m' newSst = some m'') : m''.list.length < m''.nextAddr := by
  obtain ⟨hlist, -, -⟩ := SstMetadata.sstMetadataAdd_used hadd
  have hlen := h.records_perm.length_eq
  have hle := hm.length_le_nextAddr
  unfold SstMetadata.records at hlen
  simp only [List.length_append, List.length_map] at hlen
  rw [hlist, List.length_cons, SstMetadata.nextAddr_sstMetadataAdd hadd, h.nextAddr_eq]
  omega

/-- A pass over full tables selects some, merges them and puts the output into tier 1. -/
theorem World.Piled.pass {content : Bytes} {extra tables : Nat} {w : World}
    (h : w.Piled content extra tables)
    (hover : tierSizeThreshold 0 < tables * pileSize content (extra + 1))
    (hsize : pileSize content (extra + 1) ≤ 2 * sizeThreshold) :
    ∃ merged inputs w₁ w', inputs.length = merged ∧ 2 ≤ merged ∧ merged ≤ sstableMergeLimit ∧
      (merged = sstableMergeLimit ∨ merged = tables ∨
        tables * pileSize content (extra + 1) - tierSizeThreshold 0 <
          merged * pileSize content (extra + 1)) ∧
      run World.step w (List.replicate 4 (.compact (List.replicate merged IoFaults.none))) =
        some w₁ ∧
      w₁.compactPc = .merging ⟨0, 1, [], false⟩ inputs ∧
      run World.step w₁ (List.replicate 7 (.compact (List.replicate merged IoFaults.none))) =
        some w' ∧
      w'.Merged content extra tables merged := by
  have hzero : tierSizeThreshold 0 = 4 * sizeThreshold := rfl
  have hone : tierSizeThreshold 1 = 40 * sizeThreshold := rfl
  have htables : 2 ≤ tables := two_le_of_excess hover hsize
  have haccounted := h.leveled.accounted
  obtain ⟨htier, popped, m, hselect, hpops, hmem, htwo, hle, hpopped, hstop⟩ := h.pops htables
  have hlength : (popped.map SstNode.content).length = popped.length := List.length_map _
  have hne : popped.map SstNode.content ≠ [] := by
    intro hnil
    rw [← hlength, hnil] at htwo
    exact absurd htwo (by decide)
  have hok : ∀ sst ∈ popped.map SstNode.content, SstOk sst := by
    intro sst hsst
    obtain ⟨n, hn, rfl⟩ := List.mem_map.mp hsst
    exact (h.ssts n (hmem n hn)).1
  -- the output of the merge goes to tier 1
  obtain ⟨newSst, hmerge, htotal⟩ := sstMerge_of_readable hne hok
  rw [hlength] at hmerge
  rw [List.map_map] at htotal
  have htotal : newSst.totalBytes ≤ SstMetadata.bytes popped := htotal
  have hlevel : newSst.level = 1 := by
    obtain ⟨i, hi, hlevel⟩ := sstMerge_level hmerge
    obtain ⟨n, hn, heq⟩ := List.mem_map.mp (List.of_mem_zip hi).1
    rw [hlevel, ← heq, (h.ssts n (hmem n hn)).2.1]
  obtain ⟨m', hadd⟩ : ∃ m', sstMetadataAdd m newSst = some m' := by
    unfold sstMetadataAdd
    rw [if_neg (by rw [hlevel]; decide)]
    exact ⟨_, rfl⟩
  obtain ⟨hlist, -, -⟩ := SstMetadata.sstMetadataAdd_used hadd
  -- tier 1 is empty in front of it and within its budget behind it
  have hnext : m'.tierSize 1 ≤ tierSizeThreshold 1 := by
    rw [SstMetadata.tierSize_sstMetadataAdd hadd, if_pos hlevel,
      hpops.tierSize_of_ne haccounted (by decide), h.tierSize_one, Nat.zero_add]
    have hfour : popped.length * pileSize content (extra + 1) ≤ 4 * (2 * sizeThreshold) :=
      Nat.mul_le_mul hle hsize
    omega
  -- the other tables stay in tier 0
  have hrest : m'.tierSize 0 = (tables - popped.length) * pileSize content (extra + 1) := by
    have hsplit := hpops.tierSize_eq haccounted
    rw [SstMetadata.tierSize_sstMetadataAdd hadd, if_neg (by rw [hlevel]; decide), Nat.sub_mul]
    omega
  have hselects := compact_selects (List.replicate popped.length IoFaults.none) h.status h.compactPc
    (h.needed (by omega)) h.flushActive h.immutables (by omega) hselect (by rw [hlength]; exact htwo)
  rw [h.highestTier_eq (by omega)] at hselects
  obtain ⟨generation, disk, retired, hmerges⟩ := compact_merges (m := m') (w := { w with
      lsmt := { w.lsmt with
        metadata := m
        compactionNeeded := false }
      compactPc := .merging ⟨0, 1, [], false⟩ (popped.map SstNode.content) })
    (List.replicate popped.length IoFaults.none) h.status rfl (by rw [hlength, List.length_replicate])
    hmerge hadd hnext
  refine ⟨popped.length, popped.map SstNode.content, _, _, hlength, htwo, hle, hstop, hselects, rfl,
    hmerges, h.status, ⟨h.flushPc, rfl, h.flushNeeded, rfl, h.immutables⟩, hrest, ⟨newSst, ?_, hlevel⟩, ?_⟩
  · show newSst ∈ m'.list.map SstNode.content
    rw [hlist]
    exact List.mem_cons_self
  · exact hpops.length_lt h.leveled.wf htwo hadd

/-- One record of 16 MB fills a memtable. -/
theorem exists_fillsAt :
    ∃ content, FillsAt content 0 ∧ pileSize content (0 + 1) = 16 + sizeThreshold := by
  obtain ⟨content, hself, hlen⟩ := exists_selfConsistent (n := sizeThreshold - 5) (by decide)
  have hlen : content.length = sizeThreshold := hlen
  have hpile : pileSize content (0 + 1) = 16 + sizeThreshold := by
    unfold pileSize
    rw [hlen, Nat.zero_add, Nat.one_mul]
  refine ⟨content, ⟨hself, ?_, ?_, by decide⟩, hpile⟩
  · unfold pileSize
    rw [Nat.zero_mul]
    exact Nat.zero_le _
  · rw [hpile]
    omega

/-- Four tables of 16 MB are flushed, and a pass merges two of them at least. -/
theorem exists_merged :
    ∃ as w, run World.step (World.init lsmtInit) as = some w ∧ w.status = .running ∧ w.AtRest ∧
      (∃ sst ∈ w.lsmt.metadata.records, sst.level = 1) ∧
      w.lsmt.metadata.list.length < w.lsmt.metadata.nextAddr ∧ as.countP Action.ofDaemon = 43 := by
  obtain ⟨content, hfills, hpile⟩ := exists_fillsAt
  have hthreshold : 16 ≤ sizeThreshold := by decide
  have hzero : tierSizeThreshold 0 = 4 * sizeThreshold := rfl
  obtain ⟨w, hrun, hpiled⟩ := exists_piled hfills 4 (by decide)
  obtain ⟨merged, inputs, w₁, w', -, -, -, -, hselect, -, hmerge, hmerged⟩ :=
    hpiled.pass (by rw [hpile]; omega) (by rw [hpile]; omega)
  refine ⟨_, w', run_append_eq_some.mpr ⟨w, hrun, run_append_eq_some.mpr ⟨w₁, hselect, hmerge⟩⟩,
    hmerged.status, hmerged.atRest, hmerged.output, hmerged.fewer, ?_⟩
  rw [List.countP_append, List.countP_append, countP_pileRun, List.countP_replicate,
    List.countP_replicate]
  rfl

end RaftLsmt.Lsmt
