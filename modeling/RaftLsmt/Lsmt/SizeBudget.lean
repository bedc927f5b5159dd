import RaftLsmt.Lsmt.CompactionSafety

/-!
# The size budget of a quiet tree

The flush daemon sets one flag for any number of registered SSTs, and one pass of the compaction
merges at most `SSTABLE_MERGE_LIMIT` files of a tier, the oldest ones. When these do not hold the
excess, the tier stays above its threshold and nobody wakes the compaction again.

`size_budget` says that a quiet tree is within its budget in every run whose passes clear the excess
of each tier or know of another wake-up. The invariant is `World.Covered`: a wake-up is outstanding,
or the pass will still look at every tier above its threshold.
-/

set_option autoImplicit false

namespace RaftLsmt.Lsmt

open RaftLsmt.Lib.StepMachine

/-- No tier is above its threshold. -/
def World.WithinBudget (w : World) : Prop :=
  ∀ t, w.lsmt.metadata.tierSize t ≤ tierSizeThreshold t

/-- When the compaction finds a tier above its threshold, the oldest `SSTABLE_MERGE_LIMIT` files in
its queue hold the excess, or it will be woken up again. -/
def World.ClearsExcess (w : World) (a : Action) : Prop :=
  ∀ faults pass, a = .compact faults → w.compactPc = .scanning pass →
    pass.tier ≤ pass.highestTier →
    tierSizeThreshold pass.tier < w.lsmt.metadata.tierSize pass.tier →
    w.WakeUp ∨ w.lsmt.metadata.tierSize pass.tier - tierSizeThreshold pass.tier ≤
      SstMetadata.bytes ((w.lsmt.metadata.queue pass.tier).take sstableMergeLimit)

/-! ## The tiers a pass will still see -/

/-- The compaction will still look at this tier. -/
def CompactPc.Pending (t : Nat) : CompactPc → Prop
  | .starting => True
  | .scanning pass => pass.tier ≤ t ∧ t ≤ pass.highestTier
  | .mergeWait pass _ => pass.tier < t ∧ t ≤ pass.highestTier
  | .merging pass _ => pass.tier < t ∧ t ≤ pass.highestTier
  | .adding pass _ _ => pass.tier < t ∧ t ≤ pass.highestTier
  | .quitting _ => True
  | _ => False

/-- The first tier that was not in use when the pass began holds at most the output of the merge
before it. -/
def CompactPcFresh (m : SstMetadata) : CompactPc → Prop
  | .scanning pass =>
    (pass.tier < pass.highestTier → m.queue pass.highestTier = []) ∧
      (pass.tier = pass.highestTier → (m.queue pass.highestTier).length ≤ 1)
  | .mergeWait pass _ => pass.tier < pass.highestTier ∧ m.queue pass.highestTier = []
  | .merging pass _ => pass.tier < pass.highestTier ∧ m.queue pass.highestTier = []
  | .adding pass _ _ => pass.tier < pass.highestTier ∧ m.queue pass.highestTier = []
  | _ => True

/-- Every tier above its threshold will be looked at by the pass at work. -/
structure World.Seen (w : World) : Prop where
  pending : ∀ t, tierSizeThreshold t < w.lsmt.metadata.tierSize t → w.compactPc.Pending t
  fresh : CompactPcFresh w.lsmt.metadata w.compactPc

/-- No excess is forgotten. -/
def World.Covered (w : World) : Prop := w.WakeUp ∨ w.Seen

/-- A step that leaves the list of SSTs alone and no tier behind. -/
theorem World.Covered.of_same {w w' : World} (h : w.Covered) (hwake : w.WakeUp → w'.WakeUp)
    (hmeta : w'.lsmt.metadata = w.lsmt.metadata)
    (hpending : ∀ t, tierSizeThreshold t < w.lsmt.metadata.tierSize t → w.compactPc.Pending t →
      w'.compactPc.Pending t)
    (hfresh : CompactPcFresh w.lsmt.metadata w.compactPc →
      CompactPcFresh w.lsmt.metadata w'.compactPc) : w'.Covered := by
  rcases h with h | h
  · exact Or.inl (hwake h)
  · refine Or.inr ⟨?_, ?_⟩
    · intro t ht
      rw [hmeta] at ht
      exact hpending t ht (h.pending t ht)
    · rw [hmeta]
      exact hfresh h.fresh

theorem CompactPcFresh.of_finishing {m : SstMetadata} {pc : CompactPc}
    (h : pc.Finishing ∨ pc = .waiting) : CompactPcFresh m pc := by
  rcases h with hfinishing | rfl
  · cases pc with
    | scanning pass => cases hfinishing
    | mergeWait pass inputs => cases hfinishing
    | merging pass inputs => cases hfinishing
    | adding pass inputs newSst => cases hfinishing
    | _ => trivial
  · trivial

theorem CompactPc.Finishing.not_pending {pc : CompactPc} (h : pc.Finishing) (t : Nat) :
    ¬ pc.Pending t := by
  cases pc with
  | snapshotting sstToDelete => exact id
  | writingMetadata generation snapshot sstToDelete => exact id
  | deleting sstToDelete => exact id
  | _ => exact absurd h id

/-- When the oldest files hold the excess, the selection clears it. -/
theorem SstMetadata.Pops.clears {m m' : SstMetadata} {tier delta : Nat} {popped : List SstNode}
    (h : m.Pops tier popped m') (hlen : popped.length ≤ sstableMergeLimit)
    (hstop : popped.length = sstableMergeLimit ∨ m'.queue tier = [] ∨
      2 ≤ popped.length ∧ delta < SstMetadata.bytes popped)
    (hclears : delta ≤ SstMetadata.bytes ((m.queue tier).take sstableMergeLimit)) :
    delta ≤ SstMetadata.bytes popped := by
  rcases hstop with hfull | hempty | ⟨-, hmore⟩
  · rw [h.queue_eq, List.take_left' hfull] at hclears
    exact hclears
  · rw [h.queue_eq, hempty, List.append_nil, List.take_of_length_le hlen] at hclears
    exact hclears
  · exact Nat.le_of_lt hmore

/-- The tier at which the pass selects the inputs of a merge. -/
theorem World.Seen.select {w w' : World} (h : w.Seen) (hlev : w.Leveled) {pass : CompactPass}
    {inputs : List SstMetadataRecord} (hscan : w.compactPc = .scanning pass)
    (htier : pass.tier ≤ pass.highestTier)
    (hselect : sstPopInputs pass.tier
      (w.lsmt.metadata.tierSize pass.tier - tierSizeThreshold pass.tier) sstableMergeLimit
      w.lsmt.metadata [] = (inputs, w'.lsmt.metadata))
    (hpc : w'.compactPc = if inputs.length < 2 then .quitting inputs else .mergeWait pass inputs)
    (hclears : w.lsmt.metadata.tierSize pass.tier - tierSizeThreshold pass.tier ≤
      SstMetadata.bytes ((w.lsmt.metadata.queue pass.tier).take sstableMergeLimit)) : w'.Seen := by
  obtain ⟨hpending, hfresh⟩ := h
  rw [hscan] at hpending hfresh
  obtain ⟨popped, m', heq, hpops, hlen, hstop⟩ :=
    sstPopInputs_takes sstableMergeLimit hlev.wf hlev.accounted []
  rw [hselect, List.nil_append, Prod.mk.injEq] at heq
  obtain ⟨rfl, hm'⟩ := heq
  rw [← hm'] at hpops hstop
  rw [List.nil_append, List.length_map, List.map_map] at hstop
  by_cases htwo : (popped.map SstNode.content).length < 2
  · -- the process is about to exit
    rw [if_pos htwo] at hpc
    refine ⟨?_, ?_⟩
    · rw [hpc]
      exact fun _ _ => trivial
    · rw [hpc]
      trivial
  · rw [if_neg htwo] at hpc
    rw [List.length_map] at htwo
    -- what is popped covers the excess of the tier
    have hcleared := hpops.clears hlen hstop hclears
    have hsize := hpops.tierSize_eq hlev.accounted
    -- the last tier has one file at most, so it cannot be the one that merges
    have hlt : pass.tier < pass.highestTier := by
      refine Nat.lt_of_le_of_ne htier fun heq => htwo ?_
      have hone := hfresh.2 heq
      rw [← heq, hpops.queue_eq, List.length_append] at hone
      omega
    refine ⟨?_, ?_⟩
    · intro t ht
      rw [hpc]
      -- the tier itself is within its budget now, the others are as they were
      by_cases hself : t = pass.tier
      · subst hself
        omega
      · rw [hpops.tierSize_of_ne hlev.accounted hself] at ht
        obtain ⟨hle, hhigh⟩ := hpending t ht
        exact ⟨Nat.lt_of_le_of_ne hle (Ne.symm hself), hhigh⟩
    · rw [hpc]
      refine ⟨hlt, ?_⟩
      rw [hpops.queue_of_ne _ (Nat.ne_of_gt hlt)]
      exact hfresh.1 hlt

/-- The output of a merge goes to the tier the pass looks at next. -/
theorem World.Seen.add {w w' : World} (h : w.Seen) (hlev : w.Leveled) {pass : CompactPass}
    {inputs : List SstMetadataRecord} {newSst : SstMetadataRecord}
    (hadding : w.compactPc = .adding pass inputs newSst)
    (hadd : sstMetadataAdd w.lsmt.metadata newSst = some w'.lsmt.metadata)
    (hpc : w'.compactPc = .scanning ⟨pass.tier + 1, pass.highestTier,
      (holdForDeletion pass.sstToDelete inputs).1, true⟩) : w'.Seen := by
  obtain ⟨hpending, hfresh⟩ := h
  have hlevels := hlev.compactPc
  rw [hadding] at hpending hfresh hlevels
  obtain ⟨hlt, hempty⟩ := hfresh
  have hlevel : newSst.level = pass.tier + 1 := hlevels.2
  refine ⟨?_, ?_⟩
  · intro t ht
    rw [hpc]
    rw [SstMetadata.tierSize_sstMetadataAdd hadd] at ht
    show pass.tier + 1 ≤ t ∧ t ≤ pass.highestTier
    by_cases hself : newSst.level = t
    · omega
    · rw [if_neg hself] at ht
      obtain ⟨hgt, hhigh⟩ := hpending t ht
      exact ⟨hgt, hhigh⟩
  · rw [hpc]
    refine ⟨?_, ?_⟩
    · intro (hbelow : pass.tier + 1 < pass.highestTier)
      show w'.lsmt.metadata.queue pass.highestTier = []
      rw [SstMetadata.queue_sstMetadataAdd hadd, if_neg (by omega)]
      exact hempty
    · intro (hself : pass.tier + 1 = pass.highestTier)
      show (w'.lsmt.metadata.queue pass.highestTier).length ≤ 1
      rw [SstMetadata.queue_sstMetadataAdd hadd, if_pos (by omega), hempty]
      exact SstMetadata.length_enqueue_le _ _

/-- A step that clears the excess of the tier it looks at forgets none. -/
theorem World.Covered.step {w w' : World} {a : Action} (h : w.Covered) (hlev : w.Leveled)
    (hclears : w.ClearsExcess a) (hstep : w.step a = some w') : w'.Covered := by
  cases World.tierStep_of_step hstep with
  | quiet hmeta hpc hwake =>
    apply h.of_same hwake hmeta
    · intro t _ hpending
      exact hpc ▸ hpending
    · exact fun hfresh => hpc ▸ hfresh
  | register memtable sst hflush hadd hpc hwake => exact Or.inl hwake
  | wake hmeta hwaiting hneeded hpc =>
    refine Or.inr ⟨?_, ?_⟩
    · rw [hpc]
      exact fun _ _ => trivial
    · rw [hpc]
      trivial
  | start hmeta hstarting hpc hwake =>
    apply h.of_same hwake hmeta
    · intro t ht _
      rw [hpc]
      refine ⟨Nat.zero_le t, ?_⟩
      -- a tier above its threshold has a file, and files are in the tiers in use
      rw [hlev.accounted.tierSize_eq] at ht
      show t ≤ w.lsmt.metadata.highestTier
      by_contra hhigh
      have hnil : w.lsmt.metadata.listed t = [] := by
        apply List.filter_eq_nil_iff.mpr
        intro n hn hlevel
        have := hlev.level_lt n hn
        have := of_decide_eq_true hlevel
        omega
      rw [hnil] at ht
      exact absurd ht (Nat.not_lt_zero _)
    · intro _
      -- no file has ever been put into the tier above the highest one in use
      have hempty : w.lsmt.metadata.queue w.lsmt.metadata.highestTier = [] := by
        by_contra hne
        exact Nat.lt_irrefl _ (hlev.tiered.lt_of_queue hne)
      rw [hpc]
      refine ⟨fun _ => hempty, ?_⟩
      intro _
      show (w.lsmt.metadata.queue w.lsmt.metadata.highestTier).length ≤ 1
      rw [hempty]
      exact Nat.zero_le 1
  | finish pass hmeta hscan htier hpc hwake =>
    apply h.of_same hwake hmeta
    · intro t _ hpending
      rw [hscan] at hpending
      -- a tier that is still pending would not be behind the pass
      have : pass.tier ≤ pass.highestTier := Nat.le_trans hpending.1 hpending.2
      omega
    · exact fun _ => .of_finishing hpc
  | skip pass hmeta hscan htier hsize hpc hwake =>
    apply h.of_same hwake hmeta
    · intro t ht hpending
      rw [hscan] at hpending
      rw [hpc]
      refine ⟨?_, hpending.2⟩
      -- the tier that is skipped is not above its threshold
      refine Nat.lt_of_le_of_ne hpending.1 fun heq => ?_
      rw [heq] at hsize
      omega
    · intro hfresh
      rw [hscan] at hfresh
      rw [hpc]
      refine ⟨fun hlt => hfresh.1 (Nat.lt_of_succ_lt hlt), ?_⟩
      intro (heq : pass.tier + 1 = pass.highestTier)
      have hempty := hfresh.1 (by omega)
      show (w.lsmt.metadata.queue pass.highestTier).length ≤ 1
      rw [hempty]
      exact Nat.zero_le 1
  | select pass inputs hscan htier hsize hselect hpc hwake =>
    rcases h with h | h
    · exact Or.inl (hwake h)
    · -- only the compaction daemon moves on from a scan
      have hcompact : ∃ faults, a = .compact faults := by
        by_contra hnone
        have hpc' := (World.step_sameCompaction (fun faults heq => hnone ⟨faults, heq⟩) hstep).compactPc
        rw [hpc, hscan] at hpc'
        split at hpc' <;> cases hpc'
      obtain ⟨faults, rfl⟩ := hcompact
      -- the condition of this step clears the tier
      rcases hclears faults pass rfl hscan htier hsize with hawake | hexcess
      · exact Or.inl (hwake hawake)
      · exact Or.inr (h.select hlev hscan htier hselect hpc hexcess)
  | merge pass inputs hmeta hwait hpc hwake =>
    apply h.of_same hwake hmeta
    · intro t _ hpending
      rw [hwait] at hpending
      rw [hpc]
      exact hpending
    · intro hfresh
      rw [hwait] at hfresh
      rw [hpc]
      exact hfresh
  | merged pass inputs faults newSst hmeta hmerging hlen hmerge hpc hwake =>
    apply h.of_same hwake hmeta
    · intro t _ hpending
      rw [hmerging] at hpending
      rw [hpc]
      exact hpending
    · intro hfresh
      rw [hmerging] at hfresh
      rw [hpc]
      exact hfresh
  | add pass inputs newSst hadding hadd hpc hwake =>
    rcases h with h | h
    · exact Or.inl (hwake h)
    · exact Or.inr (h.add hlev hadding hadd hpc)
  | release hmeta hfinishing hpc hwake =>
    apply h.of_same hwake hmeta
    · intro t _ hpending
      -- a pass that is finishing looks at no tier
      exact absurd hpending (hfinishing.not_pending t)
    · exact fun _ => .of_finishing hpc

/-! ## All runs -/

theorem World.covered_init : (World.init lsmtInit).Covered := by
  refine Or.inr ⟨?_, trivial⟩
  intro t ht
  exact absurd ht (Nat.not_lt_zero _)

/-- A quiet store has no pass left that could look at an excess. -/
theorem World.Covered.withinBudget {w : World} (h : w.Covered) (hquiet : w.AtRest) :
    w.WithinBudget := by
  intro t
  by_contra hover
  rcases h with (hneeded | howes) | hseen
  · rw [hquiet.compactionNeeded] at hneeded
    cases hneeded
  · rw [hquiet.flushPc] at howes
    exact howes
  · have hpending := hseen.pending t (Nat.lt_of_not_le hover)
    rw [hquiet.compactPc] at hpending
    exact hpending

/-- A quiet tree is within its budget in every run whose passes clear the excess of the tiers they
find above their thresholds, or know of another wake-up. -/
theorem size_budget {as : List Action}
    (hclears : EachStep World.step World.ClearsExcess (World.init lsmtInit) as) :
    Always World.step (fun w => w.AtRest → w.WithinBudget) (World.init lsmtInit) as := by
  have hall : Always World.step (fun w => w.Leveled ∧ w.Covered) (World.init lsmtInit) as := by
    refine always_of_eachStep ⟨World.leveled_init, World.covered_init⟩ ?_
    rintro pre a post w has hw w' ⟨hlev, hcovered⟩ hstep
    exact ⟨hlev.step hstep, hcovered.step hlev (hclears pre a post w has hw) hstep⟩
  intro pre post w has hw hquiet
  exact (hall pre post w has hw).2.withinBudget hquiet

/-- Only the compaction selects inputs. -/
theorem eachStep_clearsExcess_of_ne {w : World} {as : List Action}
    (h : ∀ a ∈ as, ∀ faults, a ≠ .compact faults) : EachStep World.step World.ClearsExcess w as := by
  intro pre a post t has _ faults pass ha
  refine absurd ha (h a ?_ faults)
  rw [has]
  exact List.mem_append_right _ List.mem_cons_self

theorem World.WithinBudget.clearsExcess {w : World} (h : w.WithinBudget) (a : Action) :
    w.ClearsExcess a :=
  fun _ pass _ _ _ hsize => absurd hsize (Nat.not_lt_of_le (h pass.tier))

/-- One record, its flush and a pass of the compaction. -/
theorem size_budget_one :
    Always World.step (fun w => w.AtRest → w.WithinBudget) (World.init lsmtInit)
      ([.insert ⟨1, 0⟩ (encodeData 1 [7]), .flush, .flushCall 0, .flushCall 0] ++
        List.replicate 8 .flushDaemon ++ List.replicate 5 (.compact [])) := by
  apply size_budget
  rw [eachStep_append]
  refine ⟨eachStep_clearsExcess_of_ne (by simp [List.replicate]), ?_⟩
  intro w hw
  cases hw
  have hbudget : ∀ (w : World) (a : Action), (∀ t, w.lsmt.metadata.tierSize t =
      Function.update (fun _ => 0) 0 22 t) → w.ClearsExcess a := by
    intro w a hsize
    apply World.WithinBudget.clearsExcess
    intro t
    rw [hsize]
    cases t with
    | zero => exact (by decide : 22 ≤ tierSizeThreshold 0)
    | succ t => exact Nat.zero_le _
  refine (eachStep_cons_of_step rfl).mpr ⟨hbudget _ _ fun _ => rfl, ?_⟩
  refine (eachStep_cons_of_step rfl).mpr ⟨hbudget _ _ fun _ => rfl, ?_⟩
  refine (eachStep_cons_of_step rfl).mpr ⟨hbudget _ _ fun _ => rfl, ?_⟩
  refine (eachStep_cons_of_step rfl).mpr ⟨hbudget _ _ fun _ => rfl, ?_⟩
  refine (eachStep_cons_of_step rfl).mpr ⟨hbudget _ _ fun _ => rfl, ?_⟩
  exact eachStep_nil _ _ _

/-! ## A run that leaves an excess -/

/-- The pass over nine full tables merges four; the other five are still too much for tier 0. -/
theorem World.Piled.leaves_excess {content : Bytes} {w : World} (h : w.Piled content 0 9)
    (hfull : sizeThreshold < pileSize content (0 + 1))
    (hsize : pileSize content (0 + 1) ≤ 2 * sizeThreshold) :
    ∃ bs w', run World.step w bs = some w' ∧ w'.AtRest ∧ ¬ w'.WithinBudget := by
  have hzero : tierSizeThreshold 0 = 4 * sizeThreshold := rfl
  obtain ⟨merged, inputs, w₁, w', -, -, hle, hstop, hselect, -, hmerge, -, hatRest, hrest, -⟩ :=
    h.pass (by rw [hzero]; omega) hsize
  refine ⟨_, w', run_append_eq_some.mpr ⟨w₁, hselect, hmerge⟩, hatRest, fun hbudget => ?_⟩
  have hbudget : w'.lsmt.metadata.tierSize 0 ≤ tierSizeThreshold 0 := hbudget 0
  rw [hrest] at hbudget
  -- five tables of more than the threshold of a rotation exceed four of them
  have hfive : 5 * pileSize content (0 + 1) ≤ (9 - merged) * pileSize content (0 + 1) :=
    Nat.mul_le_mul_right _ (by have : sstableMergeLimit = 4 := rfl; omega)
  omega

/-- Nine records of 16 MB, inserted and flushed before the compaction looks at the tree. -/
theorem not_size_budget :
    ¬ ∀ as, Always World.step (fun w => w.AtRest → w.WithinBudget) (World.init lsmtInit) as := by
  intro hall
  obtain ⟨content, hfills, hpile⟩ := exists_fillsAt
  have hthreshold : 16 ≤ sizeThreshold := by decide
  obtain ⟨w, hrun, hpiled⟩ := exists_piled hfills 9 (by decide)
  obtain ⟨bs, w', hpass, hquiet, hexcess⟩ :=
    hpiled.leaves_excess (by rw [hpile]; omega) (by rw [hpile]; omega)
  have hend := run_append_eq_some.mpr ⟨w, hrun, hpass⟩
  exact hexcess (hall _ _ [] w' (List.append_nil _).symm hend hquiet)

end RaftLsmt.Lsmt
