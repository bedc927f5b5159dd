import RaftLsmt.Lsmt.MetadataQueues
import RaftLsmt.Lsmt.StoreInvariant

/-!
# The tiers under the steps of the store

The list of SSTs changes in three places: the flush daemon adds to tier 0, the compaction takes the
inputs of a merge out of a tier, oldest first, and adds the output (`World.tierStep_of_step`).
`sstPopInputs_takes` says what the selection takes and why it stops, and `SstMetadata.Tiered` that the
tiers in use are those below `highest_tier`.
-/

set_option autoImplicit false

namespace RaftLsmt.Lsmt

/-- The tiers in use are the first ones. -/
def SstMetadata.Tiered (m : SstMetadata) : Prop := ∀ t, (m.tier t).isSome ↔ t < m.highestTier

theorem SstMetadata.tiered_sstMetadataInit : sstMetadataInit.Tiered := by
  intro t
  simp [sstMetadataInit]

namespace SstMetadata

variable {m m' : SstMetadata} {record : SstMetadataRecord}

/-- A tier comes into use when it is the next one. -/
theorem Tiered.sstMetadataAdd (hm : m.Tiered) (hlevel : record.level ≤ m.highestTier)
    (h : sstMetadataAdd m record = some m') :
    m'.Tiered ∧ m'.highestTier = max m.highestTier (record.level + 1) := by
  obtain ⟨-, hhighest, hused⟩ := sstMetadataAdd_used h
  have hnew : (m.tier record.level).isNone ↔ m.highestTier ≤ record.level := by
    rw [← Option.not_isSome, Bool.not_eq_true', ← Bool.not_eq_true, hm record.level, Nat.not_lt]
  have hmax : m'.highestTier = max m.highestTier (record.level + 1) := by
    rw [hhighest]
    split
    · rename_i hnone
      have := hnew.mp hnone
      omega
    · rename_i hsome
      have : ¬ m.highestTier ≤ record.level := fun hle => hsome (hnew.mpr hle)
      omega
  refine ⟨?_, hmax⟩
  intro t
  rw [hused, hm t, hmax]
  omega

theorem Tiered.of_same (hm : m.Tiered) (hhighest : m'.highestTier = m.highestTier)
    (hused : ∀ t, (m'.tier t).isSome = (m.tier t).isSome) : m'.Tiered := by
  intro t
  rw [hused, hhighest]
  exact hm t

/-- A queue with an element belongs to a tier in use. -/
theorem Tiered.lt_of_queue (hm : m.Tiered) {t : Nat} (h : m.queue t ≠ []) : t < m.highestTier := by
  apply (hm t).mp
  by_contra hnone
  apply h
  unfold queue
  rw [Option.not_isSome_iff_eq_none.mp hnone]
  rfl

end SstMetadata

/-! ## The inputs of a merge -/

/-- The nodes `popped` came out of the queue of the tier, from the front. -/
structure SstMetadata.Pops (m : SstMetadata) (tier : Nat) (popped : List SstNode)
    (m' : SstMetadata) : Prop where
  wf : m'.Wf
  accounted : m'.Accounted
  complete_iff : m'.Complete ↔ m.Complete
  queue_eq : m.queue tier = popped ++ m'.queue tier
  queue_of_ne : ∀ t, t ≠ tier → m'.queue t = m.queue t
  listed_perm : (m.listed tier).Perm (popped ++ m'.listed tier)
  listed_of_ne : ∀ t, t ≠ tier → m'.listed t = m.listed t
  records_perm : m.records.Perm (popped.map SstNode.content ++ m'.records)
  highestTier_eq : m'.highestTier = m.highestTier
  isSome_eq : ∀ t, (m'.tier t).isSome = (m.tier t).isSome
  nextAddr_eq : m'.nextAddr = m.nextAddr

theorem SstMetadata.Pops.refl {m : SstMetadata} (hw : m.Wf) (hm : m.Accounted) (tier : Nat) :
    m.Pops tier [] m :=
  ⟨hw, hm, Iff.rfl, rfl, fun _ _ => rfl, List.Perm.refl _, fun _ _ => rfl, List.Perm.refl _, rfl,
    fun _ => rfl, rfl⟩

/-- One more node in front. -/
theorem SstMetadata.Pops.cons {m m₁ m₂ : SstMetadata} (hw : m.Wf) {tier : Nat}
    {record : SstMetadataRecord} (hpop : sstMetadataPop m tier = some (record, m₁))
    {popped : List SstNode} (h : m₁.Pops tier popped m₂) :
    ∃ node, node.content = record ∧ m.Pops tier (node :: popped) m₂ := by
  obtain ⟨node, hrecord, hqueue, hqueues, -, hlisted, hothers, -⟩ :=
    SstMetadata.sstMetadataPop_cases hw hpop
  obtain ⟨hhighest, hused⟩ := SstMetadata.sstMetadataPop_used hpop
  obtain ⟨-, -, hperm⟩ := sstMetadataPop_spec hw hpop
  refine ⟨node, hrecord, h.wf, h.accounted, ?_, ?_, ?_, ?_, ?_, ?_, ?_, ?_, ?_⟩
  · rw [h.complete_iff]
    exact SstMetadata.complete_sstMetadataPop_iff hw hpop
  · rw [hqueue, h.queue_eq]
    rfl
  · intro t ht
    rw [h.queue_of_ne t ht, hqueues t ht]
  · exact hlisted.trans (h.listed_perm.cons node)
  · intro t ht
    rw [h.listed_of_ne t ht, hothers t ht]
  · rw [List.map_cons, hrecord]
    exact hperm.trans (h.records_perm.cons record)
  · rw [h.highestTier_eq, hhighest]
  · intro t
    rw [h.isSome_eq, hused]
  · rw [h.nextAddr_eq, SstMetadata.nextAddr_sstMetadataPop hpop]

/-- The selection loop takes nodes from the front of the queue until it has `SSTABLE_MERGE_LIMIT` of
them, the queue is empty, or at least two clear more than the excess. -/
theorem sstPopInputs_takes {tier sizeDelta : Nat} (fuel : Nat) {m : SstMetadata} (hw : m.Wf)
    (hm : m.Accounted) (records : List SstMetadataRecord) :
    ∃ popped m', sstPopInputs tier sizeDelta fuel m records =
        (records ++ popped.map SstNode.content, m') ∧ m.Pops tier popped m' ∧
      popped.length ≤ fuel ∧
      (popped.length = fuel ∨ m'.queue tier = [] ∨
        2 ≤ (records ++ popped.map SstNode.content).length ∧
          sizeDelta < ((records ++ popped.map SstNode.content).map
            SstMetadataRecord.totalBytes).sum) := by
  induction fuel generalizing m records with
  | zero =>
    refine ⟨[], m, ?_, .refl hw hm tier, Nat.le_refl 0, Or.inl rfl⟩
    rw [List.map_nil, List.append_nil]
    rfl
  | succ fuel ih =>
    unfold sstPopInputs
    split
    · -- enough has been taken
      rename_i henough
      refine ⟨[], m, ?_, .refl hw hm tier, Nat.zero_le _, Or.inr (Or.inr ?_)⟩
      · rw [List.map_nil, List.append_nil]
      · rw [List.map_nil, List.append_nil]
        exact henough
    · split
      · -- the queue is empty
        rename_i hempty
        refine ⟨[], m, ?_, .refl hw hm tier, Nat.zero_le _, Or.inr (Or.inl ?_)⟩
        · rw [List.map_nil, List.append_nil]
        · exact List.length_eq_zero_iff.mp hempty
      · -- one more node is taken, and the loop goes on
        rename_i hcount
        obtain ⟨node, rest, hqueue⟩ := List.exists_cons_of_ne_nil
          (fun hnil => hcount (List.length_eq_zero_iff.mpr hnil) : m.queue tier ≠ [])
        obtain ⟨m₁, hpop⟩ := SstMetadata.sstMetadataPop_of_queue hqueue
        rw [hpop]
        obtain ⟨popped, m₂, heq, hpops, hlen, hstop⟩ :=
          ih (sstMetadataPop_spec hw hpop).1 (hm.sstMetadataPop hw hpop) (records ++ [node.content])
        obtain ⟨node', hrecord, hpops'⟩ := hpops.cons hw hpop
        have happend : records ++ [node.content] ++ popped.map SstNode.content =
            records ++ (node' :: popped).map SstNode.content := by
          rw [List.map_cons, hrecord, List.append_assoc]
          rfl
        rw [happend] at heq hstop
        refine ⟨node' :: popped, m₂, heq, hpops', Nat.succ_le_succ hlen, ?_⟩
        exact hstop.imp_left fun hfull => congrArg Nat.succ hfull

/-! ## The steps -/

/-- The flush daemon has registered an SST and not signalled the compaction yet. -/
def FlushPc.OwesSignal : FlushPc → Prop
  | .writingMetadata _ _ _ => True
  | .unregistering _ registered => registered = true
  | .signalling => True
  | _ => False

/-- The compaction has looked at all tiers and is about to wait again. -/
def CompactPc.Finishing : CompactPc → Prop
  | .snapshotting _ => True
  | .writingMetadata _ _ _ => True
  | .deleting _ => True
  | _ => False

/-- The compaction will run another pass. -/
def World.WakeUp (w : World) : Prop := w.lsmt.compactionNeeded = true ∨ w.flushPc.OwesSignal

/-- What a step does to the list of SSTs and to the compaction. -/
inductive World.TierStep (w w' : World) : Prop
  | quiet (hmeta : w'.lsmt.metadata = w.lsmt.metadata) (hpc : w'.compactPc = w.compactPc)
      (hwake : w.WakeUp → w'.WakeUp)
  | register (memtable : Sl) (sst : SstMetadataRecord)
      (hflush : w.flushPc = .registering memtable sst)
      (hadd : sstMetadataAdd w.lsmt.metadata { sst with id := w.lsmt.sstableId } =
        some w'.lsmt.metadata)
      (hpc : w'.compactPc = w.compactPc) (hwake : w'.WakeUp)
  | wake (hmeta : w'.lsmt.metadata = w.lsmt.metadata) (hpc : w.compactPc = .waiting)
      (hneeded : w.lsmt.compactionNeeded = true) (hpc' : w'.compactPc = .starting)
  | start (hmeta : w'.lsmt.metadata = w.lsmt.metadata) (hpc : w.compactPc = .starting)
      (hpc' : w'.compactPc = .scanning ⟨0, w.lsmt.metadata.highestTier, [], false⟩)
      (hwake : w.WakeUp → w'.WakeUp)
  | finish (pass : CompactPass) (hmeta : w'.lsmt.metadata = w.lsmt.metadata)
      (hpc : w.compactPc = .scanning pass) (htier : pass.highestTier < pass.tier)
      (hpc' : w'.compactPc.Finishing ∨ w'.compactPc = .waiting) (hwake : w.WakeUp → w'.WakeUp)
  | skip (pass : CompactPass) (hmeta : w'.lsmt.metadata = w.lsmt.metadata)
      (hpc : w.compactPc = .scanning pass) (htier : pass.tier ≤ pass.highestTier)
      (hsize : w.lsmt.metadata.tierSize pass.tier ≤ tierSizeThreshold pass.tier)
      (hpc' : w'.compactPc = .scanning { pass with tier := pass.tier + 1 })
      (hwake : w.WakeUp → w'.WakeUp)
  | select (pass : CompactPass) (inputs : List SstMetadataRecord)
      (hpc : w.compactPc = .scanning pass) (htier : pass.tier ≤ pass.highestTier)
      (hsize : tierSizeThreshold pass.tier < w.lsmt.metadata.tierSize pass.tier)
      (hselect : sstPopInputs pass.tier
        (w.lsmt.metadata.tierSize pass.tier - tierSizeThreshold pass.tier) sstableMergeLimit
        w.lsmt.metadata [] = (inputs, w'.lsmt.metadata))
      (hpc' : w'.compactPc = if inputs.length < 2 then .quitting inputs else .mergeWait pass inputs)
      (hwake : w.WakeUp → w'.WakeUp)
  | merge (pass : CompactPass) (inputs : List SstMetadataRecord)
      (hmeta : w'.lsmt.metadata = w.lsmt.metadata) (hpc : w.compactPc = .mergeWait pass inputs)
      (hpc' : w'.compactPc = .merging pass inputs) (hwake : w.WakeUp → w'.WakeUp)
  | merged (pass : CompactPass) (inputs : List SstMetadataRecord) (faults : List IoFaults)
      (newSst : SstMetadataRecord) (hmeta : w'.lsmt.metadata = w.lsmt.metadata)
      (hpc : w.compactPc = .merging pass inputs) (hlen : faults.length = inputs.length)
      (hmerge : sstMerge (inputs.zip faults) = some newSst)
      (hpc' : w'.compactPc = .adding pass inputs newSst) (hwake : w.WakeUp → w'.WakeUp)
  | add (pass : CompactPass) (inputs : List SstMetadataRecord) (newSst : SstMetadataRecord)
      (hpc : w.compactPc = .adding pass inputs newSst)
      (hadd : sstMetadataAdd w.lsmt.metadata newSst = some w'.lsmt.metadata)
      (hpc' : w'.compactPc = .scanning ⟨pass.tier + 1, pass.highestTier,
        (holdForDeletion pass.sstToDelete inputs).1, true⟩)
      (hwake : w.WakeUp → w'.WakeUp)
  | release (hmeta : w'.lsmt.metadata = w.lsmt.metadata) (hpc : w.compactPc.Finishing)
      (hpc' : w'.compactPc.Finishing ∨ w'.compactPc = .waiting) (hwake : w.WakeUp → w'.WakeUp)

/-- A daemon that owes no signal has none to lose. -/
theorem World.WakeUp.of_same {w w' : World} (howes : ¬ w.flushPc.OwesSignal)
    (hneeded : w'.lsmt.compactionNeeded = w.lsmt.compactionNeeded) (h : w.WakeUp) : w'.WakeUp :=
  Or.inl (hneeded.trans (h.resolve_right howes))

theorem World.FlushDaemonStep.tierStep {w w' : World} (h : w.FlushDaemonStep w') :
    w.TierStep w' := by
  cases h with
  | wake hpc => exact .quiet rfl rfl (.of_same (by rw [hpc]; exact not_false) rfl)
  | idle hpc => exact .quiet rfl rfl (.of_same (by rw [hpc]; exact not_false) rfl)
  | drain memtable rest hpc => exact .quiet rfl rfl (.of_same (by rw [hpc]; exact not_false) rfl)
  | writeError memtable hpc => exact .quiet rfl rfl (.of_same (by rw [hpc]; exact not_false) rfl)
  | written memtable sst hpc => exact .quiet rfl rfl (.of_same (by rw [hpc]; exact not_false) rfl)
  | overrun memtable hpc => exact .quiet rfl rfl id
  | refused memtable sst hpc => exact .quiet rfl rfl id
  | register memtable sst metadata hpc hadd =>
    exact .register memtable sst hpc hadd rfl (Or.inr trivial)
  | writeFile memtable generation snapshot hpc =>
    -- the daemon owes the signal from the registration on
    exact .quiet (writeMetadata_same _ _ _).2.2 rfl fun _ => Or.inr rfl
  | unregister memtable registered hpc =>
    refine .quiet rfl rfl ?_
    rintro (hneeded | howes)
    · exact Or.inl hneeded
    · rw [hpc] at howes
      have hregistered : registered = true := howes
      subst hregistered
      exact Or.inr trivial
  | signal hpc => exact .quiet rfl rfl fun _ => Or.inl rfl

theorem World.Scans.tierStep {w w' : World} {pass : CompactPass} (hpc : w.compactPc = .scanning pass)
    (h : w.Scans pass w') : w.TierStep w' := by
  cases h with
  | finish htier =>
    refine .finish pass rfl hpc htier ?_ id
    cases hflush : pass.mustFlush with
    | false => exact Or.inr rfl
    | true => exact Or.inl trivial
  | select selected htier hsize hselected =>
    exact .select pass selected.1 hpc htier hsize hselected.symm rfl id
  | skip htier hsize => exact .skip pass rfl hpc htier hsize rfl id

theorem World.CompactStep.tierStep {w w' : World} {faults : List IoFaults}
    (h : w.CompactStep faults w') : w.TierStep w' := by
  cases h with
  | wake hpc hneeded => exact .wake rfl hpc hneeded rfl
  | start hpc => exact .start rfl hpc rfl id
  | scan pass _ hpc hscan => exact (compactScan_cases hscan).tierStep hpc
  | merge pass inputs hpc => exact .merge pass inputs rfl hpc rfl id
  | mergeStops pass inputs hpc => exact .quiet rfl rfl id
  | merged pass inputs newSst hpc hlen hmerge =>
    exact .merged pass inputs faults newSst rfl hpc hlen hmerge rfl id
  | refused pass inputs newSst hpc => exact .quiet rfl rfl id
  | add pass inputs newSst metadata hpc hadd => exact .add pass inputs newSst hpc hadd rfl id
  | copyList sstToDelete hpc => exact .release rfl (by rw [hpc]; trivial) (Or.inl trivial) id
  | writeFile generation snapshot sstToDelete hpc =>
    refine .release (writeMetadata_same _ _ _).2.2 (by rw [hpc]; trivial) (Or.inl trivial) ?_
    rintro (hneeded | howes)
    · refine Or.inl ?_
      show (writeMetadata _ _ _).compactionNeeded = true
      unfold writeMetadata
      split <;> exact hneeded
    · exact Or.inr howes
  | release sstToDelete hpc => exact .release rfl (by rw [hpc]; trivial) (Or.inr rfl) id
  | quit inputs hpc => exact .quiet rfl rfl id

/-- A step changes the list of SSTs and the compaction in one of these ways. -/
theorem World.tierStep_of_step {w w' : World} {a : Action} (h : w.step a = some w') :
    w.TierStep w' := by
  cases (World.step_cases h).2 with
  | insert key content hwaits call hcall =>
    have hsame : (lsmtRotate w.lsmt).1.metadata = w.lsmt.metadata ∧
        (lsmtRotate w.lsmt).1.compactionNeeded = w.lsmt.compactionNeeded := by
      rcases lsmtRotate_cases w.lsmt with hrot | ⟨threads, needSpawn, -, hrot⟩ <;>
        rw [hrot] <;> exact ⟨rfl, rfl⟩
    refine .quiet hsame.1 rfl ?_
    rintro (hneeded | howes)
    · exact Or.inl (hsame.2.trans hneeded)
    · exact Or.inr howes
  | flushDaemon _ hdaemon => exact hdaemon.tierStep
  | compact faults _ hcompact => exact hcompact.tierStep
  | _ => exact .quiet rfl rfl id

end RaftLsmt.Lsmt
