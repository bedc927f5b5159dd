import RaftLsmt.Lsmt.CompactionVisibility

/-!
# Compaction under read failures

An iterator that cannot open, position or read its file behaves as one that has reached its end, so a
merge goes on without the rest of that input and the compaction releases it all the same. Only an
index file that cannot be opened stops the process, and it is opened only while the metadata record has
no index: a table that has been scanned before keeps the index in its record (`afterOpen`).

`sstMerge_eq_none_iff` says when the process stops, and `keepsReleased_iff` says under which failures
the released inputs survive in the output: when the process stops or every record of every input is
read from this or another one.
-/

set_option autoImplicit false

namespace RaftLsmt.Lsmt

open RaftLsmt.Lib.StepMachine
open RaftLsmt.Lib.SortedMerge

/-- Some input that has no index in its record opens its data file but not its index file. -/
def MergeStops (inputs : List (SstMetadataRecord × IoFaults)) : Prop :=
  ∃ i ∈ inputs, i.1.cachedIndex = none ∧ i.2.openSst = false ∧ i.2.openIndex = true

/-- Each record of each input lies in front of the failures of some input. -/
def AllRead (inputs : List (SstMetadataRecord × IoFaults)) : Prop :=
  ∀ i ∈ inputs, ∀ r ∈ i.1.records, ∃ j ∈ inputs, r ∈ readableRecords j.2 j.1.records

/-! ## Tables that have been scanned -/

/-- The metadata record when an iterator has opened the table: it has an index, which stays as it is. -/
def SstMetadataRecord.afterOpen (sst : SstMetadataRecord) (faults : IoFaults) : SstMetadataRecord :=
  { sst with cachedIndex := some (sst.cachedIndex.getD (indexLoad faults 0 sst.sstIndexFile)) }

/-- The index in the record is the one of the iterator that has opened the table. -/
theorem cachedIndex_afterOpen {sst : SstMetadataRecord} {faults : IoFaults} {it : SstIterator}
    (h : sstIteratorEnsureOpen (sstIteratorCreate sst faults) = some (true, it)) :
    (sst.afterOpen faults).cachedIndex = it.cachedIndex := by
  rw [sstIteratorEnsureOpen] at h
  split at h
  · cases h
  · simp only [sstIteratorCreate] at h
    cases hcached : sst.cachedIndex with
    | some index =>
      simp only [hcached] at h
      cases h
      simp [SstMetadataRecord.afterOpen, hcached]
    | none =>
      simp only [hcached, indexLoadFromDisk] at h
      split at h
      · cases h
      · rename_i index hindex
        split at hindex
        · cases hindex
        · cases hindex
          cases h
          simp [SstMetadataRecord.afterOpen, hcached]

theorem SstHolds.afterOpen {sst : SstMetadataRecord} {rs : List KvRawRecord} (h : SstHolds sst rs)
    (faults : IoFaults) : SstHolds (sst.afterOpen faults) rs := by
  refine ⟨h.file_eq, h.wf, h.totalSize_lt, h.pos, h.sorted, h.minKey_le, h.le_maxKey, h.index, ?_,
    h.totalBytes_eq⟩
  intro index hindex
  cases hcached : sst.cachedIndex with
  | some cached =>
    simp only [SstMetadataRecord.afterOpen, hcached, Option.getD_some, Option.some.injEq] at hindex
    exact h.cached index (hindex ▸ hcached)
  | none =>
    simp only [SstMetadataRecord.afterOpen, hcached, Option.getD_none, Option.some.injEq] at hindex
    exact ⟨faults, hindex.symm⟩

/-! ## When the process stops -/

/-- The full-range seek of an unopened file stops the process exactly when the record has no index, the
data file opens and the index file does not. -/
theorem seek_all_eq_none_iff (sst : SstMetadataRecord) (faults : IoFaults) :
    sstIteratorSeek (sstIteratorCreate sst faults) SlUint128.zero SlUint128.max = none ↔
      sst.cachedIndex = none ∧ faults.openSst = false ∧ faults.openIndex = true := by
  rw [sstIteratorSeek, if_neg (by simp)]
  cases hopen : faults.openSst with
  | true => simp [sstIteratorEnsureOpen, sstIteratorCreate, hopen]
  | false =>
    cases hcached : sst.cachedIndex with
    | some index =>
      simp only [sstIteratorEnsureOpen, sstIteratorCreate, hopen, hcached, Bool.false_eq_true,
        and_false, if_false, reduceCtorEq, false_and, iff_false]
      split <;> simp
    | none =>
      cases hindex : faults.openIndex with
      | true =>
        simp [sstIteratorEnsureOpen, sstIteratorCreate, indexLoadFromDisk, hopen, hindex, hcached]
      | false =>
        simp only [sstIteratorEnsureOpen, sstIteratorCreate, indexLoadFromDisk, hopen, hindex, hcached,
          Bool.false_eq_true, and_false, if_false, iff_false]
        split <;> simp

section Dead

variable {start endKey : SlUint128} {dead : SstIterator}

/-- The second loop stops in front of a file whose seek would stop the process, or stops it. -/
theorem openPending_dead (hdead : sstIteratorSeek dead start endKey = none)
    (its : List SstIterator) :
    ∀ {opened : List SstIterator} {winner winner' : Winner} {opened' pending' : List SstIterator},
      dead ∈ its →
      openPending start endKey opened winner its = some (winner', opened', pending') →
      winner' ≠ none ∧ dead ∈ pending' := by
  induction its with
  | nil =>
    intro opened winner winner' opened' pending' hmem _
    cases hmem
  | cons it its ih =>
    intro opened winner winner' opened' pending' hmem h
    rw [openPending] at h
    by_cases hstop : startsAfter winner it = true
    · rw [if_pos hstop] at h
      cases h
      refine ⟨fun hnone => ?_, hmem⟩
      rw [hnone] at hstop
      cases hstop
    · rw [if_neg hstop] at h
      rcases List.mem_cons.mp hmem with rfl | hmem
      · rw [hdead] at h
        cases h
      · cases hseek : sstIteratorSeek it start endKey with
        | none =>
          rw [hseek] at h
          cases h
        | some answer =>
          rw [hseek] at h
          exact ih hmem h

/-- The merge is active and such a file is still to be opened. -/
structure SstKIterators.Waits (k : SstKIterators) (dead : SstIterator) : Prop where
  active : k.active = true
  pending : dead ∈ k.pending
  stops : sstIteratorSeek dead k.seekStart k.seekEnd = none

theorem SstKIterators.Waits.next {k t : SstKIterators} {answer : Option KvRawRecord}
    (h : k.Waits dead) (hnext : sstKIteratorsNext k = some (answer, t)) :
    answer ≠ none ∧ t.Waits dead := by
  rw [sstKIteratorsNext, if_neg (by simp [h.active])] at hnext
  simp only at hnext
  split at hnext
  · cases hnext
  · rename_i opened' pending' hopen
    exact absurd rfl (openPending_dead h.stops _ h.pending hopen).1
  · rename_i i rec opened' pending' hopen
    cases hnext
    exact ⟨by simp, h.active, (openPending_dead h.stops _ h.pending hopen).2, h.stops⟩

end Dead

/-- The merge stops the process exactly when it has to load an index and cannot open its file. -/
theorem sstMerge_eq_none_iff {inputs : List (SstMetadataRecord × IoFaults)} (hne : inputs ≠ [])
    (hok : ∀ i ∈ inputs, SstHolds i.1 i.1.records) :
    sstMerge inputs = none ↔ MergeStops inputs := by
  obtain ⟨first, rest, rfl⟩ := List.exists_cons_of_ne_nil hne
  have hmerge : sstMerge (first :: rest) = none ↔
      sstKIteratorsScan (first :: rest) SlUint128.zero SlUint128.max = none := by
    simp [sstMerge]
  rw [hmerge]
  constructor
  · intro hnone
    by_contra hstops
    have hlive : ∀ i ∈ first :: rest,
        sstIteratorSeek (sstIteratorCreate i.1 i.2) SlUint128.zero SlUint128.max ≠ none :=
      fun i hi hseek => hstops ⟨i, hi, (seek_all_eq_none_iff i.1 i.2).mp hseek⟩
    obtain ⟨out, hout⟩ := sstKIteratorsScan_eq_some
      (fun i hi => scansTo_all (hok i hi) i.2) hlive
    rw [hnone] at hout
    cases hout
  · rintro ⟨i, hi, hfaults⟩
    have hseek := (seek_all_eq_none_iff i.1 i.2).mpr hfaults
    have hwaits : (sstKIteratorsSeek (sstKIteratorsCreate (first :: rest)) SlUint128.zero
        SlUint128.max).Waits (sstIteratorCreate i.1 i.2) := by
      rw [sstKIteratorsSeek_create]
      exact ⟨rfl, List.mem_mergeSort.mpr (List.mem_map_of_mem hi), hseek⟩
    have hnext : ∀ (k : SstKIterators) answer t, k.Waits (sstIteratorCreate i.1 i.2) →
        sstKIteratorsNext k = some (answer, t) →
          answer ≠ none ∧ t.Waits (sstIteratorCreate i.1 i.2) := fun k answer t hk => hk.next
    exact drain_eq_none hnext _ hwaits

/-! ## What the compaction releases -/

/-- `sst` is registered in some state of the run. -/
def World.Registers (w : World) (as : List Action) (sst : SstMetadataRecord) : Prop :=
  ¬ Always World.step (fun t => sst ∉ t.lsmt.metadata.records) w as

/-- In every run that starts with the merge of these inputs under these failures, an input is
released only when the output of the merge has been registered and contains each of its records. -/
def KeepsReleased (inputs : List SstMetadataRecord) (faults : List IoFaults) : Prop :=
  ∀ (w : World) (pass : CompactPass), w.compactPc = .merging pass inputs →
    ∀ (as : List Action) (w' : World), run World.step w (.compact faults :: as) = some w' →
      ∀ sst ∈ inputs, sst ∈ w'.retired → sst ∉ w.retired →
        ∃ newSst, sstMerge (inputs.zip faults) = some newSst ∧
          w.Registers (.compact faults :: as) newSst ∧ sst.records ⊆ newSst.records

/-- While the output is not registered nothing is released. -/
theorem World.step_adding {w w' : World} {a : Action} {pass : CompactPass}
    {inputs : List SstMetadataRecord} {newSst : SstMetadataRecord}
    (hpc : w.compactPc = .adding pass inputs newSst) (hstep : w.step a = some w') :
    newSst ∈ w'.lsmt.metadata.records ∨
      w'.compactPc = .adding pass inputs newSst ∧ w'.retired = w.retired := by
  by_cases ha : ∀ faults, a ≠ .compact faults
  · have hsame := World.step_sameCompaction ha hstep
    exact Or.inr ⟨hsame.compactPc.trans hpc, hsame.retired⟩
  · simp only [not_forall, not_not] at ha
    obtain ⟨faults, rfl⟩ := ha
    unfold World.step at hstep
    split at hstep
    · cases hstep
    · simp only [compactStep, hpc] at hstep
      split at hstep
      · cases hstep
        exact Or.inr ⟨rfl, rfl⟩
      · rename_i metadata hadd
        cases hstep
        refine Or.inl ?_
        rw [show SstMetadata.records _ = _ from records_sstMetadataAdd hadd]
        exact List.mem_cons_self

theorem World.registers_of_adding {w w' : World} {as : List Action} {pass : CompactPass}
    {inputs : List SstMetadataRecord} {newSst : SstMetadataRecord}
    (hpc : w.compactPc = .adding pass inputs newSst) (hrun : run World.step w as = some w')
    (hretired : w'.retired ≠ w.retired) : w.Registers as newSst := by
  induction as generalizing w with
  | nil =>
    cases hrun
    exact absurd rfl hretired
  | cons a as ih =>
    obtain ⟨t, hstep, hrest⟩ := run_cons_eq_some.mp hrun
    intro halways
    rcases World.step_adding hpc hstep with hreg | ⟨hpc', hsame⟩
    · exact halways [a] as t rfl (run_cons_eq_some.mpr ⟨t, hstep, rfl⟩) hreg
    · refine ih hpc' hrest (by rw [hsame]; exact hretired) ?_
      intro pre post u has hu
      exact halways (a :: pre) post u (by rw [has]; rfl) (run_cons_eq_some.mpr ⟨t, hstep, hu⟩)

/-- The step that merges: the process stops or the output is next to be registered. -/
theorem World.step_merging {w w' : World} {pass : CompactPass} {inputs : List SstMetadataRecord}
    {faults : List IoFaults} (hpc : w.compactPc = .merging pass inputs)
    (hstep : w.step (.compact faults) = some w') :
    faults.length = inputs.length ∧
      (sstMerge (inputs.zip faults) = none ∧ w' = { w with status := .exited } ∨
        ∃ newSst, sstMerge (inputs.zip faults) = some newSst ∧
          w' = { w with compactPc := .adding pass inputs newSst }) := by
  unfold World.step at hstep
  split at hstep
  · cases hstep
  · simp only [compactStep, hpc] at hstep
    split at hstep
    · rename_i hlen
      refine ⟨hlen, ?_⟩
      split at hstep
      · rename_i hmerge
        cases hstep
        exact Or.inl ⟨hmerge, by rw [← hpc]⟩
      · rename_i newSst hmerge
        cases hstep
        exact Or.inr ⟨newSst, hmerge, rfl⟩
    · cases hstep

/-- A process that has stopped takes no step. -/
theorem World.run_of_not_running {w w' : World} {as : List Action} (h : w.status ≠ .running)
    (hrun : run World.step w as = some w') : w' = w := by
  cases as with
  | nil =>
    cases hrun
    rfl
  | cons a as =>
    obtain ⟨t, hstep, -⟩ := run_cons_eq_some.mp hrun
    unfold World.step at hstep
    rw [if_pos h] at hstep
    cases hstep

theorem mem_zip_iff_mem {inputs : List SstMetadataRecord} {faults : List IoFaults}
    (hlen : faults.length = inputs.length) (sst : SstMetadataRecord) :
    sst ∈ inputs ↔ ∃ f, (sst, f) ∈ inputs.zip faults := by
  have hmap : (inputs.zip faults).map Prod.fst = inputs := List.map_fst_zip (by omega)
  have hmem : sst ∈ (inputs.zip faults).map Prod.fst ↔ ∃ f, (sst, f) ∈ inputs.zip faults := by
    simp
  rwa [hmap] at hmem

theorem keepsReleased_of_allRead {inputs : List SstMetadataRecord} {faults : List IoFaults}
    (hok : ∀ sst ∈ inputs, SstOk sst) (hread : MergeStops (inputs.zip faults) ∨
      AllRead (inputs.zip faults)) : KeepsReleased inputs faults := by
  intro w pass hpc as w' hrun sst hsst hret hnot
  have hholds : ∀ i ∈ inputs.zip faults, SstHolds i.1 i.1.records :=
    fun i hi => (hok i.1 (List.of_mem_zip hi).1).holds
  have hchanged : w'.retired ≠ w.retired := fun heq => hnot (heq ▸ hret)
  obtain ⟨t, hstep, hrest⟩ := run_cons_eq_some.mp hrun
  obtain ⟨hlen, ⟨-, rfl⟩ | ⟨newSst, hmerge, rfl⟩⟩ := World.step_merging hpc hstep
  · rw [World.run_of_not_running (by simp) hrest] at hchanged
    exact absurd rfl hchanged
  · obtain ⟨f, hf⟩ := (mem_zip_iff_mem hlen sst).mp hsst
    refine ⟨newSst, hmerge, ?_, ?_⟩
    · intro halways
      refine World.registers_of_adding rfl hrest hchanged ?_
      intro pre post u has hu
      exact halways (.compact faults :: pre) post u (by rw [has]; rfl)
        (run_cons_eq_some.mpr ⟨_, hstep, hu⟩)
    · rcases hread with hstops | hread
      · rw [(sstMerge_eq_none_iff (List.ne_nil_of_mem hf) hholds).mpr hstops] at hmerge
        cases hmerge
      · intro r hr
        obtain ⟨j, hj, hrj⟩ := hread (sst, f) hf r hr
        exact (sstMerge_spec hholds hmerge).2.symm.subset (List.mem_flatMap.mpr ⟨j, hj, hrj⟩)

/-- A compaction that has taken its inputs out of tier 0 and found nothing else to merge. -/
def World.merging (inputs : List SstMetadataRecord) : World :=
  { World.init lsmtInit with compactPc := .merging ⟨0, 0, [], false⟩ inputs }

/-- The rest of such a compaction, step by step, up to the release of the inputs. -/
theorem merging_releases {inputs : List SstMetadataRecord} {faults : List IoFaults}
    {newSst : SstMetadataRecord} (hlen : faults.length = inputs.length)
    (hlimit : inputs.length ≤ sstableMergeLimit) (hlevel : newSst.level < maxTiers)
    (hmerge : sstMerge (inputs.zip faults) = some newSst) :
    ∃ w', run World.step (World.merging inputs)
        [.compact faults, .compact [], .compact [], .compact [], .compact [], .compact []] =
          some w' ∧ w'.retired = inputs := by
  have hstep : (World.merging inputs).step (.compact faults) =
      some { World.merging inputs with compactPc := .adding ⟨0, 0, [], false⟩ inputs newSst } := by
    unfold World.step
    rw [if_neg (by simp [World.merging, World.init])]
    show compactStep (World.merging inputs) faults = _
    simp only [compactStep, World.merging, if_pos hlen, hmerge]
  obtain ⟨metadata, hadd⟩ := (@sstMetadataAdd_eq_some_iff sstMetadataInit newSst).mpr hlevel
  have hroom : holdForDeletion [] inputs = (inputs, []) := by
    rw [holdForDeletion, List.length_nil, List.take_of_length_le, List.drop_eq_nil_of_le]
    · rfl
    all_goals exact le_trans hlimit (by decide)
  have hregister : World.step { World.merging inputs with
      compactPc := .adding ⟨0, 0, [], false⟩ inputs newSst } (.compact []) =
      some { World.merging inputs with
        lsmt := { lsmtInit with metadata := metadata }
        compactPc := .scanning ⟨1, 0, inputs, true⟩ } := by
    unfold World.step
    rw [if_neg (by simp [World.merging, World.init])]
    show compactStep _ [] = _
    simp only [compactStep, World.merging, World.init, lsmtInit, hadd, hroom, List.append_nil]
  refine ⟨_, run_cons_eq_some.mpr ⟨_, hstep, run_cons_eq_some.mpr ⟨_, hregister, rfl⟩⟩, ?_⟩
  exact List.nil_append inputs

theorem allRead_of_keepsReleased {inputs : List SstMetadataRecord} {faults : List IoFaults}
    (hok : ∀ sst ∈ inputs, SstOk sst) (hlevel : ∀ sst ∈ inputs, sst.level + 1 < maxTiers)
    (hne : inputs ≠ []) (hlimit : inputs.length ≤ sstableMergeLimit)
    (hlen : faults.length = inputs.length) (hkeeps : KeepsReleased inputs faults) :
    MergeStops (inputs.zip faults) ∨ AllRead (inputs.zip faults) := by
  have hholds : ∀ i ∈ inputs.zip faults, SstHolds i.1 i.1.records :=
    fun i hi => (hok i.1 (List.of_mem_zip hi).1).holds
  have hzip : inputs.zip faults ≠ [] := by
    obtain ⟨sst, hsst⟩ := List.exists_mem_of_ne_nil inputs hne
    obtain ⟨f, hf⟩ := (mem_zip_iff_mem hlen sst).mp hsst
    exact List.ne_nil_of_mem hf
  cases hmerge : sstMerge (inputs.zip faults) with
  | none => exact Or.inl ((sstMerge_eq_none_iff hzip hholds).mp hmerge)
  | some newSst =>
    refine Or.inr fun i hi r hr => ?_
    obtain ⟨j, hj, hnew⟩ := sstMerge_level hmerge
    obtain ⟨w', hrun, hretired⟩ := merging_releases hlen hlimit
      (hnew ▸ hlevel j.1 (List.of_mem_zip hj).1) hmerge
    have hi' : i.1 ∈ inputs := (List.of_mem_zip hi).1
    obtain ⟨out, hout, -, hsub⟩ := hkeeps (World.merging inputs) _ rfl _ w' hrun i.1 hi'
      (hretired.symm ▸ hi') (by simp [World.merging, World.init])
    rw [hmerge] at hout
    cases hout
    exact List.mem_flatMap.mp ((sstMerge_spec hholds hmerge).2.subset (hsub hr))

/-- The compaction keeps what it releases exactly under those failures that stop the process, where an
input has no index yet, or leave every record of every input readable in this or another input. -/
theorem keepsReleased_iff {inputs : List SstMetadataRecord} {faults : List IoFaults}
    (hok : ∀ sst ∈ inputs, SstOk sst) (hlevel : ∀ sst ∈ inputs, sst.level + 1 < maxTiers)
    (htwo : 2 ≤ inputs.length) (hlimit : inputs.length ≤ sstableMergeLimit)
    (hlen : faults.length = inputs.length) :
    KeepsReleased inputs faults ↔
      MergeStops (inputs.zip faults) ∨ AllRead (inputs.zip faults) := by
  have hne : inputs ≠ [] := by
    rintro rfl
    simp at htwo
  exact ⟨allRead_of_keepsReleased hok hlevel hne hlimit hlen, keepsReleased_of_allRead hok⟩

/-- Two tables with one record each. -/
def twoSsts : List SstMetadataRecord :=
  [oneRecordSst ⟨1, 0⟩ (encodeData 1 [7]), oneRecordSst ⟨2, 0⟩ (encodeData 1 [8])]

theorem sstOk_twoSsts : ∀ sst ∈ twoSsts, SstOk sst := by
  intro sst hsst
  simp only [twoSsts, List.mem_cons, List.not_mem_nil, or_false] at hsst
  rcases hsst with rfl | rfl
  · exact sstOk_oneRecordSst (by decide) (by decide)
  · exact sstOk_oneRecordSst (by decide) (by decide)

theorem level_twoSsts : ∀ sst ∈ twoSsts, sst.level + 1 < maxTiers := by
  intro sst hsst
  simp only [twoSsts, List.mem_cons, List.not_mem_nil, or_false] at hsst
  rcases hsst with rfl | rfl <;> decide

theorem records_twoSsts : (oneRecordSst ⟨1, 0⟩ (encodeData 1 [7])).records =
    [rawOf (⟨1, 0⟩, encodeData 1 [7])] :=
  (sstHolds_oneRecordSst (by decide) (by decide)).records_eq

/-- The same tables, the first one scanned before. -/
def scannedSsts : List SstMetadataRecord :=
  [(oneRecordSst ⟨1, 0⟩ (encodeData 1 [7])).afterOpen IoFaults.none,
    oneRecordSst ⟨2, 0⟩ (encodeData 1 [8])]

theorem sstOk_scannedSsts : ∀ sst ∈ scannedSsts, SstOk sst := by
  intro sst hsst
  rcases List.mem_pair.mp hsst with rfl | rfl
  · exact ((sstHolds_oneRecordSst (by decide) (by decide)).afterOpen _).ok (List.cons_ne_nil _ _)
  · exact sstOk_oneRecordSst (by decide) (by decide)

/-- The index file of the scanned table cannot be opened any more: its index is in the record, so the
process goes on, and both tables survive their merge. -/
theorem keepsReleased_scannedSsts :
    let faults := [{ IoFaults.none with openIndex := true }, IoFaults.none]
    KeepsReleased scannedSsts faults ∧ ¬ MergeStops (scannedSsts.zip faults) ∧
      AllRead (scannedSsts.zip faults) := by
  intro faults
  have hlevel : ∀ sst ∈ scannedSsts, sst.level + 1 < maxTiers := by
    intro sst hsst
    rcases List.mem_pair.mp hsst with rfl | rfl <;> decide
  have hall : AllRead (scannedSsts.zip faults) := by
    have hfirst : ((oneRecordSst ⟨1, 0⟩ (encodeData 1 [7])).afterOpen IoFaults.none).records =
        [rawOf (⟨1, 0⟩, encodeData 1 [7])] := records_twoSsts
    intro i hi r hr
    refine ⟨i, hi, ?_⟩
    rcases List.mem_pair.mp hi with rfl | rfl
    · rw [hfirst] at hr ⊢
      simpa [readableRecords, readablePart, IoFaults.none] using hr
    · rwa [readableRecords_none]
  refine ⟨?_, ?_, hall⟩
  · exact (keepsReleased_iff sstOk_scannedSsts hlevel (by decide) (by decide) rfl).mpr (Or.inr hall)
  · rintro ⟨i, hi, hcached, -, hindex⟩
    rcases List.mem_pair.mp hi with rfl | rfl
    · cases hcached
    · cases hindex

/-- The second table cannot be opened: it is released and its record is in no table. -/
theorem keepsReleased_fails : ¬ ∀ (inputs : List SstMetadataRecord) (faults : List IoFaults),
    (∀ sst ∈ inputs, SstOk sst) → (∀ sst ∈ inputs, sst.level + 1 < maxTiers) →
      2 ≤ inputs.length → inputs.length ≤ sstableMergeLimit → faults.length = inputs.length →
        KeepsReleased inputs faults := by
  intro hall
  have hkeeps := hall twoSsts [IoFaults.none, { IoFaults.none with openSst := true }]
    sstOk_twoSsts level_twoSsts (by decide) (by decide) rfl
  have hread := allRead_of_keepsReleased sstOk_twoSsts level_twoSsts (by decide) (by decide) rfl
    hkeeps
  have hlost : rawOf (⟨2, 0⟩, encodeData 1 [8]) ∈
      (oneRecordSst ⟨2, 0⟩ (encodeData 1 [8])).records := by
    rw [(sstHolds_oneRecordSst (by decide) (by decide)).records_eq]
    exact List.mem_cons_self
  simp only [twoSsts, MergeStops, AllRead, List.zip_cons_cons, List.zip_nil_right, List.mem_cons,
    List.not_mem_nil, or_false, exists_eq_or_imp, exists_eq_left, forall_eq_or_imp, forall_eq,
    readableRecords_none, records_twoSsts] at hread
  rcases hread with hstops | ⟨-, hread⟩
  · simp [IoFaults.none] at hstops
  · rcases hread _ hlost with hfirst | hsecond
    · have hkey := congrArg KvRawRecord.key hfirst
      simp at hkey
    · simp [readableRecords] at hsecond

end RaftLsmt.Lsmt
