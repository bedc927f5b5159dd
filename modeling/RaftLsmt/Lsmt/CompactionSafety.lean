import RaftLsmt.Lsmt.FullTiers

/-!
# The fatal path of the compaction

`sst_compact` leaves the process when it finds a tier above its threshold and fewer than two SSTs in
the queue of the tier. A file of tier `t` merges at most `4 ^ t` memtables, and the threshold of the
tier grows as `10 ^ t`, so that one file never exceeds it (`SstFits`).

`compaction_safe` says that the path is not taken, that the levels stay inside the tier arrays and
that `sst_to_delete` has room, in every run within the limits of the queues and of the doubles.
-/

set_option autoImplicit false

namespace RaftLsmt.Lsmt

open RaftLsmt.Lib.StepMachine

/-- A full memtable and the largest record behind it. -/
def fullMemtable : Nat := sizeThreshold + (16 + 255)

/-- Insertions in the store's content format of at most 255 bytes. -/
def Action.Fits : Action → Prop
  | .insert _ content => SelfConsistent content ∧ content.length ≤ 255
  | _ => True

/-! ## The memtables -/

/-- A memtable whose file fits into tier 0. -/
structure Sl.Fits (sl : Sl) : Prop where
  ok : sl.Ok
  size_le : sl.size ≤ fullMemtable

/-- An SST of the merges of memtables. -/
structure SstFits (sst : SstMetadataRecord) : Prop where
  holds : SstHolds sst sst.records
  totalBytes_le : sst.totalBytes ≤ 4 ^ sst.level * fullMemtable

/-- The memtables, and the SST that the flush daemon has written. -/
structure World.MemtablesFit (w : World) : Prop where
  memtable : w.lsmt.memtable.Fits
  immutables : ∀ m ∈ w.lsmt.immutables, m.Fits
  writing : ∀ m, w.flushPc = .writing m → m.Fits
  registering : ∀ m sst, w.flushPc = .registering m sst → SstFits sst ∧ sst.level = 0

theorem Sl.fits_slInit (addr : Nat) : (slInit addr).Fits where
  ok := Sl.ok_slInit addr
  size_le := Nat.zero_le _

/-- The SST of a flushed memtable. -/
theorem Sl.Fits.written {sl : Sl} (h : sl.Fits) {sst : SstMetadataRecord}
    (hdisk : memtableToDisk sl = .written sst) : SstFits sst ∧ sst.level = 0 := by
  have hlevel : sst.level = 0 := by
    unfold memtableToDisk at hdisk
    split at hdisk
    · cases hdisk
    · split at hdisk <;> cases hdisk
      rfl
  rcases memtableToDisk_cases h.ok with ⟨herror, -⟩ | ⟨sst', hwritten, hholds, -⟩
  · rw [herror] at hdisk
    cases hdisk
  · rw [hwritten] at hdisk
    cases hdisk
    have hrecords := hholds.records_eq
    refine ⟨⟨by rw [hrecords]; exact hholds, ?_⟩, hlevel⟩
    rw [hholds.totalBytes_eq, hholds.file_eq, h.ok.length_fileBytes, hlevel, Nat.pow_zero,
      Nat.one_mul]
    exact h.size_le

/-- An insertion into a memtable that is not full. -/
theorem Sl.Fits.slInsert {sl : Sl} (h : sl.Ok) (hsize : sl.size ≤ sizeThreshold) (key : SlUint128)
    {content : Bytes} (hself : SelfConsistent content) (hlen : content.length ≤ 255) :
    (slInsert sl key content).1.Fits := by
  rcases slInsert_cases h.wf key content with ⟨hins, -⟩ | ⟨sl', hins, -, hwf, -, hperm⟩
  · rw [hins]
    refine ⟨h, Nat.le_trans hsize ?_⟩
    exact Nat.le_add_right _ _
  · rw [hins]
    refine ⟨⟨hwf, ?_⟩, ?_⟩
    · intro n hn
      rcases List.mem_cons.mp (hperm.subset hn) with rfl | hn
      · exact hself
      · exact h.consistent n hn
    · rw [hwf.size_eq, (hperm.map nodeSize).sum_nat, List.map_cons, List.sum_cons, ← h.wf.size_eq]
      show 16 + content.length + sl.size ≤ sizeThreshold + (16 + 255)
      omega

/-- Behind a rotation the memtable is not full. -/
theorem World.MemtablesFit.rotate {w : World} (h : w.MemtablesFit) :
    (lsmtRotate w.lsmt).1.memtable.Ok ∧ (lsmtRotate w.lsmt).1.memtable.size ≤ sizeThreshold ∧
      ∀ m ∈ (lsmtRotate w.lsmt).1.immutables, m.Fits := by
  unfold lsmtRotate
  split
  · simp only
    have himm : ∀ m ∈ w.lsmt.immutables ++ [w.lsmt.memtable], m.Fits := by
      intro m hm
      rcases List.mem_append.mp hm with hm | hm
      · exact h.immutables m hm
      · rw [List.mem_singleton.mp hm]
        exact h.memtable
    split
    · exact ⟨Sl.ok_slInit _, Nat.zero_le _, himm⟩
    · exact ⟨Sl.ok_slInit _, Nat.zero_le _, himm⟩
  · rename_i hsize
    exact ⟨h.memtable.ok, Nat.le_of_not_lt hsize, h.immutables⟩

theorem World.MemtablesFit.step {w w' : World} {a : Action} (h : w.MemtablesFit) (ha : a.Fits)
    (hstep : w.step a = some w') : w'.MemtablesFit := by
  obtain ⟨hwriting, hregistering⟩ := World.step_flushPc hstep
  have hdaemon : (∀ m, w'.flushPc = .writing m → m.Fits) ∧
      ∀ m sst, w'.flushPc = .registering m sst → SstFits sst ∧ sst.level = 0 := by
    refine ⟨fun m hm => ?_, fun m sst hm => ?_⟩
    · rcases hwriting m hm with hold | himm
      · exact h.writing m hold
      · exact h.immutables m himm
    · rcases hregistering m sst hm with hold | ⟨hold, hdisk⟩
      · exact h.registering m sst hold
      · exact (h.writing m hold).written hdisk
  rcases World.step_memtables hstep with ⟨key, content, rfl, hmem, himm⟩ | ⟨-, hmem, himm⟩ |
    ⟨-, ⟨addr, hmem⟩, himm⟩ | ⟨memtable, registered, -, -, hmem, himm⟩
  · obtain ⟨hself, hlen⟩ := ha
    obtain ⟨hok, hsize, himms⟩ := h.rotate
    refine ⟨?_, ?_, hdaemon.1, hdaemon.2⟩
    · rw [hmem]
      exact Sl.Fits.slInsert hok hsize key hself hlen
    · rw [himm]
      exact himms
  · exact ⟨hmem ▸ h.memtable, himm ▸ h.immutables, hdaemon.1, hdaemon.2⟩
  · refine ⟨hmem ▸ Sl.fits_slInit addr, ?_, hdaemon.1, hdaemon.2⟩
    rw [himm]
    intro m hm
    rcases List.mem_append.mp hm with hm | hm
    · exact h.immutables m hm
    · rw [List.mem_singleton.mp hm]
      exact h.memtable
  · refine ⟨hmem ▸ h.memtable, ?_, hdaemon.1, hdaemon.2⟩
    rw [himm]
    intro m hm
    exact h.immutables m (List.eraseP_subset hm)

/-! ## The tables -/

/-- No tier has more tables than its queue has room for, and the totals are exact doubles. -/
structure World.WithinLimits (w : World) : Prop where
  length_le : ∀ t, (w.lsmt.metadata.listed t).length ≤ queueCapacity
  bytes_lt : (w.lsmt.metadata.records.map SstMetadataRecord.totalBytes).sum < 2 ^ 53

/-- The highest tier that can be above its threshold. -/
def highestFullTier : Nat := 8

/-- A pass of the compaction: the tiers it looks at and the room in `sst_to_delete`. -/
structure CompactPass.Fits (pass : CompactPass) : Prop where
  highestTier_le : pass.highestTier ≤ highestFullTier + 2
  tier_le : pass.tier ≤ pass.highestTier + 1
  length_le : pass.sstToDelete.length ≤ sstableMergeLimit * pass.tier

/-- The inputs of a merge of the pass. -/
structure InputsFit (m : SstMetadata) (pass : CompactPass) (inputs : List SstMetadataRecord) :
    Prop where
  passFits : pass.Fits
  two_le : 2 ≤ inputs.length
  length_le : inputs.length ≤ sstableMergeLimit
  tier_le : pass.tier ≤ highestFullTier
  tier_lt : pass.tier < m.highestTier
  le_highestTier : pass.tier ≤ pass.highestTier
  fits : ∀ sst ∈ inputs, SstFits sst ∧ sst.level = pass.tier

/-- The compaction is not about to leave the process. -/
def CompactPcFits (m : SstMetadata) : CompactPc → Prop
  | .scanning pass => pass.Fits
  | .mergeWait pass inputs => InputsFit m pass inputs
  | .merging pass inputs => InputsFit m pass inputs
  | .adding pass inputs newSst =>
    InputsFit m pass inputs ∧ SstFits newSst ∧ newSst.level = pass.tier + 1
  | .quitting _ => False
  | _ => True

/-- The invariant of the list and of the compaction. -/
structure World.TablesFit (w : World) : Prop where
  wf : w.lsmt.metadata.Wf
  accounted : w.lsmt.metadata.Accounted
  complete : w.lsmt.metadata.Complete
  tiered : w.lsmt.metadata.Tiered
  highestTier_le : w.lsmt.metadata.highestTier ≤ highestFullTier + 2
  ssts : ∀ sst ∈ w.lsmt.metadata.records, SstFits sst
  compactPc : CompactPcFits w.lsmt.metadata w.compactPc

/-- One file of a tier is not above the threshold of the tier. -/
theorem SstFits.totalBytes_le_threshold {sst : SstMetadataRecord} (h : SstFits sst) :
    sst.totalBytes ≤ tierSizeThreshold sst.level := by
  calc sst.totalBytes ≤ 4 ^ sst.level * fullMemtable := h.totalBytes_le
    _ ≤ 10 ^ sst.level * zeroLevelMaxSize :=
      Nat.mul_le_mul (Nat.pow_le_pow_left (by decide) _) (by decide)
    _ = tierSizeThreshold sst.level := Nat.mul_comm _ _

/-- A tier is above its threshold below 2 ^ 53 bytes only if it is a low one. -/
theorem World.WithinLimits.le_highestFullTier {w : World} (h : w.WithinLimits)
    (hm : w.lsmt.metadata.Accounted) {t : Nat}
    (hsize : tierSizeThreshold t < w.lsmt.metadata.tierSize t) : t ≤ highestFullTier := by
  have hbytes : w.lsmt.metadata.tierSize t ≤
      (w.lsmt.metadata.records.map SstMetadataRecord.totalBytes).sum := by
    rw [hm.tierSize_eq]
    unfold SstMetadata.records SstMetadata.bytes
    rw [List.map_map]
    exact (List.filter_sublist.map _).sum_le_sum fun _ _ => Nat.zero_le _
  have hlt := h.bytes_lt
  by_contra hhigh
  have hpow : 10 ^ 9 ≤ 10 ^ t := Nat.pow_le_pow_right (by decide) (Nat.lt_of_not_le hhigh)
  have hthreshold : zeroLevelMaxSize * 10 ^ 9 ≤ tierSizeThreshold t :=
    Nat.mul_le_mul_left _ hpow
  have hlarge : 2 ^ 53 ≤ zeroLevelMaxSize * 10 ^ 9 := by decide
  omega

/-- A tier above its threshold has two tables in its queue. -/
theorem World.TablesFit.two_le_length {w : World} (h : w.TablesFit) {t : Nat}
    (hsize : tierSizeThreshold t < w.lsmt.metadata.tierSize t) :
    2 ≤ (w.lsmt.metadata.queue t).length := by
  have hperm := h.complete.perm h.wf t
  rw [h.accounted.tierSize_eq, ← SstMetadata.bytes_perm hperm] at hsize
  cases hqueue : w.lsmt.metadata.queue t with
  | nil =>
    rw [hqueue] at hsize
    exact absurd hsize (Nat.not_lt_zero _)
  | cons n rest =>
    cases rest with
    | nil =>
      have hn : n ∈ w.lsmt.metadata.listed t := h.wf.queue_subset t (hqueue ▸ List.mem_cons_self)
      obtain ⟨hlist, hlevel⟩ := List.mem_filter.mp hn
      have hfits := (h.ssts n.content (List.mem_map_of_mem hlist)).totalBytes_le_threshold
      rw [of_decide_eq_true hlevel] at hfits
      rw [hqueue] at hsize
      simp only [SstMetadata.bytes, List.map_singleton, List.sum_singleton] at hsize
      omega
    | cons n' rest =>
      simp only [List.length_cons]
      omega

theorem CompactPcFits.mono {m m' : SstMetadata} (hle : m.highestTier ≤ m'.highestTier)
    {pc : CompactPc} (h : CompactPcFits m pc) : CompactPcFits m' pc := by
  have hinputs : ∀ {pass inputs}, InputsFit m pass inputs → InputsFit m' pass inputs := by
    intro pass inputs hfits
    exact { hfits with tier_lt := Nat.lt_of_lt_of_le hfits.tier_lt hle }
  cases pc with
  | scanning pass => exact h
  | mergeWait pass inputs => exact hinputs h
  | merging pass inputs => exact hinputs h
  | adding pass inputs newSst => exact ⟨hinputs h.1, h.2⟩
  | quitting inputs => exact h
  | waiting => trivial
  | starting => trivial
  | snapshotting sstToDelete => trivial
  | writingMetadata generation snapshot sstToDelete => trivial
  | deleting sstToDelete => trivial

/-- A step that leaves the list alone. -/
theorem World.TablesFit.of_same {w w' : World} (h : w.TablesFit)
    (hmeta : w'.lsmt.metadata = w.lsmt.metadata)
    (hpc : CompactPcFits w.lsmt.metadata w'.compactPc) : w'.TablesFit := by
  refine ⟨?_, ?_, ?_, ?_, ?_, ?_, ?_⟩
  · exact hmeta ▸ h.wf
  · exact hmeta ▸ h.accounted
  · exact hmeta ▸ h.complete
  · exact hmeta ▸ h.tiered
  · exact hmeta ▸ h.highestTier_le
  · exact hmeta ▸ h.ssts
  · exact hmeta ▸ hpc

/-- An addition to a tier in use or to the next one. -/
theorem World.TablesFit.add {w w' : World} (h : w.TablesFit) (hlimits : w'.WithinLimits)
    {record : SstMetadataRecord}
    (hadd : sstMetadataAdd w.lsmt.metadata record = some w'.lsmt.metadata) (hfits : SstFits record)
    (hlevel : record.level ≤ w.lsmt.metadata.highestTier)
    (hle : record.level ≤ highestFullTier + 1)
    (hpc : CompactPcFits w'.lsmt.metadata w'.compactPc) : w'.TablesFit := by
  obtain ⟨hwf, hrecords⟩ := sstMetadataAdd_spec h.wf hadd
  obtain ⟨htiered, hhighest⟩ := h.tiered.sstMetadataAdd hlevel hadd
  -- a refused node would be one more than the queue has room for
  have hroom : (w.lsmt.metadata.queue record.level).length ≠ queueCapacity := by
    intro hfull
    have hlisted := SstMetadata.listed_sstMetadataAdd hadd record.level
    have hlength := hlimits.length_le record.level
    rw [if_pos rfl] at hlisted
    rw [hlisted, List.length_cons, ← h.complete, hfull] at hlength
    exact absurd hlength (Nat.not_succ_le_self _)
  refine ⟨hwf, h.accounted.sstMetadataAdd hadd, ?_, htiered, ?_, ?_, hpc⟩
  · exact (SstMetadata.complete_sstMetadataAdd_iff h.accounted hadd).mpr ⟨h.complete, hroom⟩
  · have hold := h.highestTier_le
    rw [hhighest]
    omega
  · intro sst hsst
    rw [hrecords] at hsst
    rcases List.mem_cons.mp hsst with rfl | hsst
    · exact hfits
    · exact h.ssts sst hsst

/-- What the selection takes from a tier above its threshold. -/
theorem World.TablesFit.select {w : World} (h : w.TablesFit) (hlimits : w.WithinLimits)
    {pass : CompactPass} (hpass : pass.Fits) (htier : pass.tier ≤ pass.highestTier)
    (hsize : tierSizeThreshold pass.tier < w.lsmt.metadata.tierSize pass.tier)
    {inputs : List SstMetadataRecord} {m' : SstMetadata}
    (hselect : sstPopInputs pass.tier
      (w.lsmt.metadata.tierSize pass.tier - tierSizeThreshold pass.tier) sstableMergeLimit
      w.lsmt.metadata [] = (inputs, m')) :
    InputsFit m' pass inputs ∧ ∃ popped, inputs = popped.map SstNode.content ∧
      w.lsmt.metadata.Pops pass.tier popped m' := by
  obtain ⟨popped, m'', heq, hpops, hlen, hstop⟩ := sstPopInputs_takes sstableMergeLimit h.wf
    h.accounted []
  rw [hselect, List.nil_append, Prod.mk.injEq] at heq
  obtain ⟨rfl, rfl⟩ := heq
  have htwo := h.two_le_length hsize
  have hpoppedLen : 2 ≤ popped.length := by
    rcases hstop with hlimit | hempty | ⟨henough, -⟩
    · rw [hlimit]
      decide
    · rw [hpops.queue_eq, hempty, List.append_nil] at htwo
      exact htwo
    · rw [List.nil_append, List.length_map] at henough
      exact henough
  have hmem : ∀ n ∈ popped, n ∈ w.lsmt.metadata.listed pass.tier := fun n hn =>
    hpops.listed_perm.symm.subset (List.mem_append_left _ hn)
  refine ⟨⟨hpass, ?_, ?_, hlimits.le_highestFullTier h.accounted hsize, ?_, htier, ?_⟩, popped, rfl,
    hpops⟩
  · rw [List.length_map]
    exact hpoppedLen
  · rw [List.length_map]
    exact hlen
  · rw [hpops.highestTier_eq]
    apply h.tiered.lt_of_queue
    intro hnil
    rw [hnil] at htwo
    exact absurd htwo (by decide)
  · intro sst hsst
    obtain ⟨n, hn, rfl⟩ := List.mem_map.mp hsst
    obtain ⟨hlist, hlevel⟩ := List.mem_filter.mp (hmem n hn)
    exact ⟨h.ssts _ (List.mem_map_of_mem hlist), of_decide_eq_true hlevel⟩

/-- The output of a merge is one tier up. -/
theorem InputsFit.merged {m : SstMetadata} {pass : CompactPass} {inputs : List SstMetadataRecord}
    (h : InputsFit m pass inputs) {faults : List IoFaults} (hlen : faults.length = inputs.length)
    {newSst : SstMetadataRecord} (hmerge : sstMerge (inputs.zip faults) = some newSst) :
    SstFits newSst ∧ newSst.level = pass.tier + 1 := by
  have hok : ∀ i ∈ inputs.zip faults, SstHolds i.1 i.1.records := fun i hi =>
    (h.fits i.1 (List.of_mem_zip hi).1).1.holds
  obtain ⟨i, hi, hlevel⟩ := sstMerge_level hmerge
  rw [(h.fits i.1 (List.of_mem_zip hi).1).2] at hlevel
  have hinputs : ((inputs.zip faults).map fun i => i.1.totalBytes) =
      inputs.map SstMetadataRecord.totalBytes := by
    have hfst : (inputs.zip faults).map Prod.fst = inputs :=
      List.map_fst_zip (Nat.le_of_eq hlen.symm)
    conv_rhs => rw [← hfst, List.map_map]
    rfl
  have hsum : (inputs.map SstMetadataRecord.totalBytes).sum ≤
      inputs.length * (4 ^ pass.tier * fullMemtable) := by
    have hle := List.sum_le_card_nsmul (inputs.map SstMetadataRecord.totalBytes)
      (4 ^ pass.tier * fullMemtable) (by
        intro x hx
        obtain ⟨sst, hsst, rfl⟩ := List.mem_map.mp hx
        obtain ⟨hfits, hsstLevel⟩ := h.fits sst hsst
        rw [← hsstLevel]
        exact hfits.totalBytes_le)
    rw [List.length_map, smul_eq_mul] at hle
    exact hle
  refine ⟨⟨(sstMerge_spec hok hmerge).1, ?_⟩, hlevel⟩
  calc newSst.totalBytes ≤ (inputs.map SstMetadataRecord.totalBytes).sum := by
        rw [← hinputs]
        exact sstMerge_totalBytes_le hok hmerge
    _ ≤ inputs.length * (4 ^ pass.tier * fullMemtable) := hsum
    _ ≤ 4 * (4 ^ pass.tier * fullMemtable) := Nat.mul_le_mul_right _ h.length_le
    _ = 4 ^ newSst.level * fullMemtable := by
        rw [hlevel, Nat.pow_succ, ← Nat.mul_assoc, Nat.mul_comm 4]

/-- The inputs of a merge fit into `sst_to_delete`. -/
theorem InputsFit.room {m : SstMetadata} {pass : CompactPass} {inputs : List SstMetadataRecord}
    (h : InputsFit m pass inputs) :
    pass.sstToDelete.length + inputs.length ≤ deleteBufferSize := by
  have hpass := h.passFits.length_le
  have htier := h.tier_le
  have hlen := h.length_le
  simp only [sstableMergeLimit, highestFullTier] at hpass htier hlen
  simp only [deleteBufferSize]
  omega

/-- A step within the limits keeps the invariant. -/
theorem World.TablesFit.step {w w' : World} (h : w.TablesFit) (hmem : w.MemtablesFit)
    (hlimits : w.WithinLimits) (hlimits' : w'.WithinLimits) (hstep : w.TierStep w') :
    w'.TablesFit := by
  have hpc := h.compactPc
  cases hstep with
  | quiet hmeta hsame hwake => exact h.of_same hmeta (hsame ▸ hpc)
  -- a flushed SST goes to level 0
  | register memtable sst hflush hadd hsame hwake =>
    obtain ⟨hfits, hlevel⟩ := hmem.registering memtable sst hflush
    obtain ⟨-, hhighest⟩ := h.tiered.sstMetadataAdd (by rw [hlevel]; exact Nat.zero_le _) hadd
    refine h.add hlimits' hadd ?_ ?_ ?_ ?_
    · refine ⟨?_, hfits.totalBytes_le⟩
      exact hfits.holds.withId _
    · rw [hlevel]
      exact Nat.zero_le _
    · rw [hlevel]
      exact Nat.zero_le _
    · rw [hsame]
      apply hpc.mono
      rw [hhighest]
      exact Nat.le_max_left _ _
  | wake hmeta hwaiting hneeded hpc' =>
    refine h.of_same hmeta ?_
    rw [hpc']
    trivial
  -- the pass begins at tier 0 with nothing to delete
  | start hmeta hstarting hpc' hwake =>
    refine h.of_same hmeta ?_
    rw [hpc']
    exact ⟨h.highestTier_le, Nat.zero_le _, Nat.zero_le _⟩
  | finish pass hmeta hscan htier hpc' hwake =>
    refine h.of_same hmeta ?_
    rcases hpc' with hfinishing | hwaiting
    · cases hcase : w'.compactPc <;> rw [hcase] at hfinishing <;> trivial
    · rw [hwaiting]
      trivial
  -- the bound on `sst_to_delete` grows with the tier
  | skip pass hmeta hscan htier hsize hpc' hwake =>
    refine h.of_same hmeta ?_
    rw [hscan] at hpc
    rw [hpc']
    refine ⟨hpc.highestTier_le, Nat.succ_le_succ htier, ?_⟩
    exact Nat.le_trans hpc.length_le (Nat.mul_le_mul_left _ (Nat.le_succ _))
  -- the popped records leave the list, and there are at least two
  | select pass inputs hscan htier hsize hselect hpc' hwake =>
    rw [hscan] at hpc
    obtain ⟨hinputs, popped, -, hpops⟩ := h.select hlimits hpc htier hsize hselect
    refine ⟨hpops.wf, hpops.accounted, hpops.complete_iff.mpr h.complete,
      h.tiered.of_same hpops.highestTier_eq hpops.isSome_eq, ?_, ?_, ?_⟩
    · rw [hpops.highestTier_eq]
      exact h.highestTier_le
    · intro sst hsst
      exact h.ssts sst (hpops.records_perm.symm.subset (List.mem_append_right _ hsst))
    · rw [hpc', if_neg (Nat.not_lt.mpr hinputs.two_le)]
      exact hinputs
  | merge pass inputs hmeta hwait hpc' hwake =>
    refine h.of_same hmeta ?_
    rw [hwait] at hpc
    rw [hpc']
    exact hpc
  -- the output has the size of what was read of the inputs
  | merged pass inputs faults newSst hmeta hmerging hlen hmerge hpc' hwake =>
    refine h.of_same hmeta ?_
    rw [hmerging] at hpc
    rw [hpc']
    exact ⟨hpc, InputsFit.merged hpc hlen hmerge⟩
  -- the output is one level higher, where the pass comes next
  | add pass inputs newSst hadding hadd hpc' hwake =>
    rw [hadding] at hpc
    obtain ⟨hinputs, hfits, hlevel⟩ := hpc
    have htier := hinputs.tier_le
    refine h.add hlimits' hadd hfits ?_ ?_ ?_
    · rw [hlevel]
      exact hinputs.tier_lt
    · rw [hlevel]
      exact Nat.succ_le_succ htier
    · rw [hpc']
      refine ⟨hinputs.passFits.highestTier_le, Nat.succ_le_succ hinputs.le_highestTier, ?_⟩
      have hroom := hinputs.passFits.length_le
      have hlen := hinputs.length_le
      show (pass.sstToDelete ++ inputs.take _).length ≤ sstableMergeLimit * (pass.tier + 1)
      -- each tier adds at most `sstableMergeLimit` inputs
      rw [List.length_append, List.length_take, Nat.mul_succ]
      omega
  | release hmeta hfinishing hpc' hwake =>
    refine h.of_same hmeta ?_
    rcases hpc' with hfinishing' | hwaiting
    · cases hcase : w'.compactPc <;> rw [hcase] at hfinishing' <;> trivial
    · rw [hwaiting]
      trivial

/-! ## All runs -/

/-- A tier above its threshold gives two inputs, levels stay inside the tier arrays and the inputs
find room in `sst_to_delete`. -/
structure World.CompactionSafe (w : World) : Prop where
  selects : ∀ pass, w.compactPc = .scanning pass → pass.tier ≤ pass.highestTier →
    pass.tier < maxTiers ∧
      (tierSizeThreshold pass.tier < w.lsmt.metadata.tierSize pass.tier →
        2 ≤ (sstPopInputs pass.tier
          (w.lsmt.metadata.tierSize pass.tier - tierSizeThreshold pass.tier) sstableMergeLimit
          w.lsmt.metadata []).1.length)
  not_quitting : ∀ inputs, w.compactPc ≠ .quitting inputs
  registered : ∀ sst ∈ w.lsmt.metadata.records, sst.level < maxTiers
  registering : ∀ memtable sst, w.flushPc = .registering memtable sst → sst.level < maxTiers
  adding : ∀ pass inputs newSst, w.compactPc = .adding pass inputs newSst →
    newSst.level < maxTiers ∧ pass.sstToDelete.length + inputs.length ≤ deleteBufferSize

/-- A registered table belongs to a tier in use. -/
theorem World.TablesFit.level_lt {w : World} (h : w.TablesFit) {sst : SstMetadataRecord}
    (hsst : sst ∈ w.lsmt.metadata.records) : sst.level < w.lsmt.metadata.highestTier := by
  obtain ⟨n, hn, rfl⟩ := List.mem_map.mp hsst
  apply h.tiered.lt_of_queue
  intro hnil
  have hlen := h.complete n.content.level
  rw [hnil] at hlen
  have hmem : n ∈ w.lsmt.metadata.listed n.content.level :=
    List.mem_filter.mpr ⟨hn, decide_eq_true rfl⟩
  rw [List.eq_nil_of_length_eq_zero hlen.symm] at hmem
  cases hmem

theorem World.TablesFit.safe {w : World} (h : w.TablesFit) (hmem : w.MemtablesFit)
    (hlimits : w.WithinLimits) : w.CompactionSafe := by
  have hpc := h.compactPc
  have htiers : highestFullTier + 2 < maxTiers := by decide
  refine ⟨?_, ?_, ?_, ?_, ?_⟩
  · intro pass hscan htier
    rw [hscan] at hpc
    refine ⟨?_, ?_⟩
    · exact Nat.lt_of_le_of_lt (Nat.le_trans htier hpc.highestTier_le) htiers
    · intro hsize
      exact (h.select hlimits hpc htier hsize rfl).1.two_le
  · intro inputs hquit
    rw [hquit] at hpc
    exact hpc
  · intro sst hsst
    exact Nat.lt_trans (Nat.lt_of_lt_of_le (h.level_lt hsst) h.highestTier_le) htiers
  · intro memtable sst hflush
    rw [(hmem.registering memtable sst hflush).2]
    decide
  · intro pass inputs newSst hadding
    rw [hadding] at hpc
    obtain ⟨hinputs, -, hlevel⟩ := hpc
    refine ⟨?_, hinputs.room⟩
    rw [hlevel]
    exact Nat.lt_trans (Nat.succ_lt_succ (Nat.lt_succ_of_le hinputs.tier_le)) htiers

theorem World.memtablesFit_init : (World.init lsmtInit).MemtablesFit where
  memtable := Sl.fits_slInit 0
  immutables := by
    intro m hm
    cases hm
  writing := by
    intro m hm
    cases hm
  registering := by
    intro m sst hm
    cases hm

theorem World.tablesFit_init : (World.init lsmtInit).TablesFit where
  wf := SstMetadata.wf_sstMetadataInit
  accounted := SstMetadata.accounted_sstMetadataInit
  complete := SstMetadata.complete_sstMetadataInit
  tiered := SstMetadata.tiered_sstMetadataInit
  highestTier_le := Nat.zero_le _
  ssts := by
    intro sst hsst
    cases hsst
  compactPc := trivial

/-- In every run within the limits the compaction finds two tables wherever it looks for them. -/
theorem compaction_safe {as : List Action} (hfits : ∀ a ∈ as, a.Fits)
    (hlimits : Always World.step World.WithinLimits (World.init lsmtInit) as) :
    Always World.step World.CompactionSafe (World.init lsmtInit) as := by
  have hall : Always World.step (fun w => w.MemtablesFit ∧ w.TablesFit) (World.init lsmtInit) as := by
    refine always_of_eachStep ⟨World.memtablesFit_init, World.tablesFit_init⟩ ?_
    rintro pre a post w has hw w' ⟨hmem, htables⟩ hstep
    have hrun : run World.step (World.init lsmtInit) (pre ++ [a]) = some w' :=
      run_append_eq_some.mpr ⟨w, hw, run_cons_eq_some.mpr ⟨w', hstep, rfl⟩⟩
    have hafter : as = (pre ++ [a]) ++ post := by
      rw [has, List.append_assoc]
      rfl
    refine ⟨hmem.step ?_ hstep, ?_⟩
    · apply hfits a
      rw [has]
      exact List.mem_append_right _ List.mem_cons_self
    · exact htables.step hmem (hlimits pre (a :: post) w has hw)
        (hlimits (pre ++ [a]) post w' hafter hrun) (World.tierStep_of_step hstep)
  intro pre post w has hw
  obtain ⟨hmem, htables⟩ := hall pre post w has hw
  exact htables.safe hmem (hlimits pre post w has hw)

/-- Contents of at most 255 bytes stay below the limits as long as the daemons make no more steps than
a queue has room for, and the run is short enough for the doubles. -/
theorem withinLimits_of_run {as : List Action} (hsound : ∀ a ∈ as, a.Sound) (hfits : ∀ a ∈ as, a.Fits)
    (hdaemons : as.countP Action.ofDaemon ≤ queueCapacity)
    (hlength : as.length * (16 + 255) < 2 ^ 53) :
    Always World.step World.WithinLimits (World.init lsmtInit) as := by
  rintro pre post w rfl hw
  have hinv := World.inv_of_run (fun a ha => hsound a (List.mem_append_left _ ha)) hw
  have hinserted : w.inserted.map InsertCall.node = insertedNodes pre := by
    rw [World.run_inserted hw]
    rfl
  have hcount : w.inserted.length ≤ pre.length := by
    rw [← List.length_map InsertCall.node, hinserted]
    exact List.length_filterMap_le _ _
  refine ⟨fun t => ?_, ?_⟩
  · have htables := World.run_tables_le World.leveled_init hw
    rw [List.countP_append] at hdaemons
    calc (w.lsmt.metadata.listed t).length ≤ w.lsmt.metadata.list.length := List.length_filter_le _ _
      _ ≤ 0 + pre.countP Action.ofDaemon := htables
      _ ≤ queueCapacity := by omega
  · have hsize : ∀ call ∈ w.inserted, 16 + call.content.length ≤ 16 + 255 := by
      intro call hcall
      have hnode : call.node ∈ insertedNodes pre := hinserted ▸ List.mem_map_of_mem hcall
      obtain ⟨a, ha, hnode⟩ := List.mem_filterMap.mp hnode
      have hfit := hfits a (List.mem_append_left _ ha)
      cases a with
      | insert key content =>
        cases hnode
        exact Nat.add_le_add_left hfit.2 16
      | _ => cases hnode
    have hbytes := hinv.bytes_le hsize
    have hpre : pre.length ≤ (pre ++ post).length := by
      rw [List.length_append]
      exact Nat.le_add_right _ _
    calc (w.lsmt.metadata.records.map SstMetadataRecord.totalBytes).sum
        ≤ w.inserted.length * (16 + 255) := hbytes
      _ ≤ (pre ++ post).length * (16 + 255) := Nat.mul_le_mul_right _ (Nat.le_trans hcount hpre)
      _ < 2 ^ 53 := hlength

/-- Four memtables of 61,909 records of 255 bytes are flushed; the pass that follows finds tier 0 above
its threshold, pops two tables at least and merges them into tier 1. -/
theorem compaction_safe_merges : ∃ as bs w₁ w₂ inputs,
    run World.step (World.init lsmtInit) as = some w₁ ∧
    w₁.compactPc = .merging ⟨0, 1, [], false⟩ inputs ∧ 2 ≤ inputs.length ∧
    run World.step w₁ bs = some w₂ ∧ (∃ sst ∈ w₂.lsmt.metadata.records, sst.level = 1) ∧
    Always World.step World.WithinLimits (World.init lsmtInit) (as ++ bs) ∧
    Always World.step World.CompactionSafe (World.init lsmtInit) (as ++ bs) := by
  obtain ⟨content, hself, hcontent⟩ := exists_selfConsistent (n := 250) (by decide)
  have hcontent : content.length = 255 := hcontent
  have hfills : FillsAt content 61908 := by
    refine ⟨hself, ?_, ?_, by decide⟩
    · unfold pileSize
      rw [hcontent]
      decide
    · unfold pileSize
      rw [hcontent]
      decide
  have hpile : pileSize content (61908 + 1) = 16777339 := by
    unfold pileSize
    rw [hcontent]
  obtain ⟨w, hrun, hpiled⟩ := exists_piled hfills 4 (by decide)
  obtain ⟨merged, inputs, w₁, w₂, hinputs, htwo, -, -, hselect, hpc, hmerge, hmerged⟩ :=
    hpiled.pass (by rw [hpile]; decide) (by rw [hpile]; decide)
  let compacts (n : Nat) : List Action :=
    List.replicate n (.compact (List.replicate merged IoFaults.none))
  -- the actions of the whole run
  have hactions : ∀ a ∈ pileRun content 61908 4 ++ compacts 4 ++ compacts 7, a.Sound ∧ a.Fits := by
    have hcompact : ∀ n, ∀ a ∈ compacts n, a.Sound ∧ a.Fits := by
      intro n a ha
      rw [List.eq_of_mem_replicate ha]
      exact ⟨fun f hf => List.eq_of_mem_replicate hf, trivial⟩
    intro a ha
    rcases List.mem_append.mp ha with ha | ha
    · rcases List.mem_append.mp ha with ha | ha
      · rcases mem_pileRun ha with ⟨key, rfl⟩ | ⟨i, rfl⟩ | rfl
        · exact ⟨hself, hself, Nat.le_of_eq hcontent⟩
        · exact ⟨trivial, trivial⟩
        · exact ⟨trivial, trivial⟩
      · exact hcompact 4 a ha
    · exact hcompact 7 a ha
  have hlimits : Always World.step World.WithinLimits (World.init lsmtInit)
      (pileRun content 61908 4 ++ compacts 4 ++ compacts 7) := by
    refine withinLimits_of_run (fun a ha => (hactions a ha).1) (fun a ha => (hactions a ha).2) ?_ ?_
    · have hcompacts : ∀ n, (compacts n).countP Action.ofDaemon = n := fun n => by
        rw [List.countP_replicate]
        exact if_pos rfl
      rw [List.countP_append, List.countP_append, countP_pileRun, hcompacts, hcompacts]
      decide
    · rw [List.length_append, List.length_append, length_pileRun, List.length_replicate,
        List.length_replicate]
      decide
  exact ⟨_, _, w₁, w₂, inputs, run_append_eq_some.mpr ⟨w, hrun, hselect⟩, hpc, hinputs ▸ htwo, hmerge,
    hmerged.output, hlimits, compaction_safe (fun a ha => (hactions a ha).2) hlimits⟩

end RaftLsmt.Lsmt
