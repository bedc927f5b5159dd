import RaftLsmt.Lsmt.Metadata

/-!
# The queues of the tiers

A registered SST is in the list, and in the queue of its tier unless the queue was full when it came.
`Complete` says that none was refused: then every queue holds what the list has of its tier. An
addition keeps this exactly when the queue has room (`complete_sstMetadataAdd_iff`), and nothing
repairs it (`complete_sstMetadataPop_iff`).
-/

set_option autoImplicit false

namespace RaftLsmt.Lsmt

namespace SstMetadata

variable {m m' : SstMetadata} {record : SstMetadataRecord}

/-- The queue of a tier. -/
def queue (m : SstMetadata) (t : Nat) : List SstNode := (m.tier t).getD []

/-- The nodes of a tier in the list. -/
def listed (m : SstMetadata) (t : Nat) : List SstNode :=
  m.list.filter fun n => n.content.level = t

/-- The bytes of the SSTs of some nodes. -/
def bytes (nodes : List SstNode) : Nat := (nodes.map fun n => n.content.totalBytes).sum

/-- Every registered SST is in the queue of its tier. -/
def Complete (m : SstMetadata) : Prop := ∀ t, (m.queue t).length = (m.listed t).length

/-- The totals count the list, and no queue holds more than the list. -/
structure Accounted (m : SstMetadata) : Prop where
  tierSize_eq : ∀ t, m.tierSize t = bytes (m.listed t)
  length_le : ∀ t, (m.queue t).length ≤ (m.listed t).length

theorem Wf.queue_subset (hm : m.Wf) (t : Nat) : m.queue t ⊆ m.listed t := by
  intro n hn
  unfold queue at hn
  cases hq : m.tier t with
  | none =>
    rw [hq] at hn
    cases hn
  | some q =>
    rw [hq] at hn
    obtain ⟨hlist, hlevel⟩ := hm.queued t q hq n hn
    exact List.mem_filter.mpr ⟨hlist, decide_eq_true hlevel⟩

theorem Wf.nodup_queue (hm : m.Wf) (t : Nat) : ((m.queue t).map SstNode.addr).Nodup := by
  unfold queue
  cases hq : m.tier t with
  | none => exact List.nodup_nil
  | some q => exact hm.queue_nodup t q hq

theorem Wf.nodup_listed (hm : m.Wf) (t : Nat) : ((m.listed t).map SstNode.addr).Nodup :=
  hm.nodup.sublist (List.filter_sublist.map _)

/-- A queue that misses nothing is the tier's part of the list, in some order. -/
theorem Complete.perm (hm : m.Wf) (h : m.Complete) (t : Nat) : (m.queue t).Perm (m.listed t) := by
  have hnodup : (m.queue t).Nodup := List.Nodup.of_map _ (hm.nodup_queue t)
  have hsub := List.subperm_of_subset hnodup (hm.queue_subset t)
  exact hsub.perm_of_length_le (Nat.le_of_eq (h t).symm)

/-- The list is made up of the tiers. -/
theorem perm_flatMap_listed {m : SstMetadata} {tiers : Nat}
    (h : ∀ n ∈ m.list, n.content.level < tiers) :
    m.list.Perm ((List.range tiers).flatMap m.listed) := by
  have hall : ∀ k, (m.list.filter fun n => n.content.level < k).Perm
      ((List.range k).flatMap m.listed) := by
    intro k
    induction k with
    | zero =>
      have hnil : (m.list.filter fun n => n.content.level < 0) = [] :=
        List.filter_eq_nil_iff.mpr (by simp)
      rw [hnil]
      exact List.Perm.refl _
    | succ k ih =>
      rw [List.range_succ, List.flatMap_append, List.flatMap_singleton]
      have hsplit := List.filter_append_perm (fun n : SstNode => n.content.level < k)
        (m.list.filter fun n => n.content.level < k + 1)
      rw [List.filter_filter, List.filter_filter] at hsplit
      refine hsplit.symm.trans (List.Perm.append ?_ ?_)
      · refine (List.Perm.of_eq ?_).trans ih
        apply List.filter_congr
        intro n _
        simp only [← Bool.decide_and, decide_eq_decide]
        omega
      · apply List.Perm.of_eq
        apply List.filter_congr
        intro n _
        simp only [← decide_not, ← Bool.decide_and, decide_eq_decide]
        omega
  have hself : (m.list.filter fun n => n.content.level < tiers) = m.list :=
    List.filter_eq_self.mpr fun n hn => decide_eq_true (h n hn)
  have htiers := hall tiers
  rw [hself] at htiers
  exact htiers

/-- The queues hold the whole list only when none misses a node. -/
theorem complete_of_length_le {m : SstMetadata} (hm : ∀ t, (m.queue t).length ≤ (m.listed t).length)
    {tiers : Nat} (hlevel : ∀ n ∈ m.list, n.content.level < tiers)
    (h : m.list.length ≤ ((List.range tiers).flatMap m.queue).length) : m.Complete := by
  rw [(perm_flatMap_listed hlevel).length_eq] at h
  -- up to each tier the queues hold no more than the list
  have hsum : ∀ k, ((List.range k).flatMap m.queue).length ≤
      ((List.range k).flatMap m.listed).length := by
    intro k
    induction k with
    | zero => exact Nat.le_refl 0
    | succ k ih =>
      rw [List.range_succ, List.flatMap_append, List.flatMap_append, List.length_append,
        List.length_append, List.flatMap_singleton, List.flatMap_singleton]
      exact Nat.add_le_add ih (hm k)
  -- so they can only be as long together if each tier is
  have hall : ∀ k, ((List.range k).flatMap m.listed).length ≤
      ((List.range k).flatMap m.queue).length → ∀ t, t < k →
        (m.queue t).length = (m.listed t).length := by
    intro k
    induction k with
    | zero =>
      intro _ t ht
      cases ht
    | succ k ih =>
      rw [List.range_succ, List.flatMap_append, List.flatMap_append, List.length_append,
        List.length_append, List.flatMap_singleton, List.flatMap_singleton]
      intro hle t ht
      have hprefix := hsum k
      have hlast := hm k
      rcases Nat.lt_succ_iff_lt_or_eq.mp ht with ht | rfl
      · exact ih (by omega) t ht
      · omega
  intro t
  rcases Nat.lt_or_ge t tiers with ht | ht
  · exact hall tiers h t ht
  · -- there is no node above the tiers
    have hnil : m.listed t = [] := by
      apply List.filter_eq_nil_iff.mpr
      intro n hn hlev
      have hlt := hlevel n hn
      have heq := of_decide_eq_true hlev
      omega
    have hle := hm t
    rw [hnil] at hle ⊢
    exact Nat.le_antisymm hle (Nat.zero_le _)

theorem bytes_perm {nodes nodes' : List SstNode} (h : nodes.Perm nodes') :
    bytes nodes = bytes nodes' := (h.map _).sum_nat

theorem accounted_sstMetadataInit : sstMetadataInit.Accounted where
  tierSize_eq := by
    intro t
    rfl
  length_le := by
    intro t
    exact Nat.le_refl 0

theorem complete_sstMetadataInit : sstMetadataInit.Complete := by
  intro t
  rfl

/-! ## Additions -/

theorem listed_sstMetadataAdd (h : sstMetadataAdd m record = some m') (t : Nat) :
    m'.listed t =
      if record.level = t then ⟨m.nextAddr, record⟩ :: m.listed t else m.listed t := by
  rw [sstMetadataAdd] at h
  split at h
  · cases h
  · cases h
    unfold listed
    simp only [List.filter_cons, decide_eq_true_eq]

theorem queue_sstMetadataAdd (h : sstMetadataAdd m record = some m') (t : Nat) :
    m'.queue t =
      if record.level = t then enqueue (m.queue t) ⟨m.nextAddr, record⟩ else m.queue t := by
  rw [sstMetadataAdd] at h
  split at h
  · cases h
  · cases h
    simp only [queue]
    by_cases ht : record.level = t
    · subst ht
      rw [if_pos rfl, Function.update_self]
      rfl
    · rw [if_neg ht, Function.update_of_ne (Ne.symm ht)]

theorem tierSize_sstMetadataAdd (h : sstMetadataAdd m record = some m') (t : Nat) :
    m'.tierSize t = m.tierSize t + if record.level = t then record.totalBytes else 0 := by
  rw [sstMetadataAdd] at h
  split at h
  · cases h
  · cases h
    by_cases ht : record.level = t
    · subst ht
      rw [if_pos rfl]
      exact Function.update_self _ _ _
    · rw [if_neg ht]
      exact Function.update_of_ne (Ne.symm ht) _ _

/-- What an addition does to the tiers in use. -/
theorem sstMetadataAdd_used (h : sstMetadataAdd m record = some m') :
    m'.list = ⟨m.nextAddr, record⟩ :: m.list ∧
    m'.highestTier =
      (if (m.tier record.level).isNone then m.highestTier + 1 else m.highestTier) ∧
    ∀ t, (m'.tier t).isSome ↔ t = record.level ∨ (m.tier t).isSome := by
  unfold Lsmt.sstMetadataAdd at h
  split at h
  · cases h
  · cases h
    refine ⟨rfl, rfl, ?_⟩
    intro t
    by_cases ht : t = record.level
    · simp [ht]
    · simp only [Function.update_of_ne ht]
      exact ⟨Or.inr, fun h => h.resolve_left ht⟩

theorem nextAddr_sstMetadataAdd (h : sstMetadataAdd m record = some m') :
    m'.nextAddr = m.nextAddr + 1 := by
  unfold Lsmt.sstMetadataAdd at h
  split at h <;> cases h
  rfl

theorem length_enqueue_le {α : Type} (queue : List α) (data : α) :
    (enqueue queue data).length ≤ queue.length + 1 := by
  unfold enqueue
  split
  · exact Nat.le_succ _
  · rw [List.length_append]
    exact Nat.le_refl _

/-- A queue grows unless it is full. -/
theorem length_enqueue_iff {α : Type} {queue : List α} {data : α} :
    (enqueue queue data).length = queue.length + 1 ↔ queue.length ≠ queueCapacity := by
  unfold enqueue
  split
  · simp [*]
  · simp [*]

theorem Accounted.sstMetadataAdd (hm : m.Accounted) (h : sstMetadataAdd m record = some m') :
    m'.Accounted where
  tierSize_eq := by
    intro t
    rw [tierSize_sstMetadataAdd h, listed_sstMetadataAdd h, hm.tierSize_eq]
    split
    · exact Nat.add_comm _ _
    · rfl
  length_le := by
    intro t
    rw [queue_sstMetadataAdd h, listed_sstMetadataAdd h]
    split
    · exact Nat.le_trans (length_enqueue_le _ _) (Nat.succ_le_succ (hm.length_le t))
    · exact hm.length_le t

/-- An addition misses no queue exactly when the queue of the tier has room. -/
theorem complete_sstMetadataAdd_iff (hm : m.Accounted) (h : sstMetadataAdd m record = some m') :
    m'.Complete ↔ m.Complete ∧ (m.queue record.level).length ≠ queueCapacity := by
  have hqueue := queue_sstMetadataAdd h
  have hlisted := listed_sstMetadataAdd h
  constructor
  · intro hcomplete
    have hown := hcomplete record.level
    rw [hqueue, hlisted, if_pos rfl, if_pos rfl, List.length_cons] at hown
    have hgrow := length_enqueue_le (m.queue record.level) ⟨m.nextAddr, record⟩
    have hle := hm.length_le record.level
    have hone : (enqueue (m.queue record.level) ⟨m.nextAddr, record⟩).length =
        (m.queue record.level).length + 1 := by omega
    refine ⟨?_, length_enqueue_iff.mp hone⟩
    intro t
    by_cases ht : record.level = t
    · subst ht
      omega
    · have hother := hcomplete t
      rw [hqueue, hlisted, if_neg ht, if_neg ht] at hother
      exact hother
  · rintro ⟨hcomplete, hroom⟩ t
    rw [hqueue, hlisted]
    split
    · rename_i ht
      subst ht
      rw [length_enqueue_iff.mpr hroom, hcomplete]
      rfl
    · exact hcomplete t

/-! ## Removals -/

/-- What a removal takes out of the queue and out of the list. -/
theorem sstMetadataPop_cases (hm : m.Wf) {tier : Nat}
    (h : sstMetadataPop m tier = some (record, m')) :
    ∃ node, node.content = record ∧ m.queue tier = node :: m'.queue tier ∧
      (∀ t, t ≠ tier → m'.queue t = m.queue t) ∧
      m'.list = m.list.filter (fun n => n.addr ≠ node.addr) ∧
      (m.listed tier).Perm (node :: m'.listed tier) ∧
      (∀ t, t ≠ tier → m'.listed t = m.listed t) ∧
      m'.tierSize = Function.update m.tierSize tier (m.tierSize tier - record.totalBytes) := by
  rw [sstMetadataPop] at h
  split at h
  · cases h
  · cases h
  · rename_i node rest hq
    cases h
    obtain ⟨hnode, hlevel⟩ := hm.queued tier _ hq node List.mem_cons_self
    have hmem : node ∈ m.listed tier := List.mem_filter.mpr ⟨hnode, decide_eq_true hlevel⟩
    refine ⟨node, rfl, ?_, ?_, rfl, ?_, ?_, ?_⟩
    · simp only [queue]
      rw [hq, Function.update_self]
      rfl
    · intro t ht
      simp only [queue]
      rw [Function.update_of_ne ht]
    · -- the node is the one of its tier that goes
      have hperm := perm_cons_filter_addr (hm.nodup_listed tier) hmem
      unfold listed at hperm ⊢
      simp only [List.filter_filter] at hperm ⊢
      simpa only [Bool.and_comm] using hperm
    · intro t ht
      unfold listed
      simp only [List.filter_filter]
      apply List.filter_congr
      intro n hn
      by_cases hn' : n.content.level = t
      · have hne : n.addr ≠ node.addr := by
          intro heq
          have hsame := List.inj_on_of_nodup_map hm.nodup hn hnode heq
          rw [hsame, hlevel] at hn'
          exact ht hn'.symm
        simp [hne]
      · simp [hn']
    · simp only [hlevel]

theorem sstMetadataPop_of_queue {tier : Nat} {node : SstNode} {rest : List SstNode}
    (h : m.queue tier = node :: rest) :
    ∃ m', sstMetadataPop m tier = some (node.content, m') := by
  unfold queue at h
  unfold Lsmt.sstMetadataPop
  cases hq : m.tier tier with
  | none =>
    rw [hq] at h
    cases h
  | some q =>
    rw [hq] at h
    cases h
    exact ⟨_, rfl⟩

theorem nextAddr_sstMetadataPop {tier : Nat} (h : sstMetadataPop m tier = some (record, m')) :
    m'.nextAddr = m.nextAddr := by
  unfold Lsmt.sstMetadataPop at h
  split at h <;> cases h
  rfl

theorem sstMetadataPop_used {tier : Nat} (h : sstMetadataPop m tier = some (record, m')) :
    m'.highestTier = m.highestTier ∧ ∀ t, (m'.tier t).isSome = (m.tier t).isSome := by
  unfold Lsmt.sstMetadataPop at h
  split at h
  · cases h
  · cases h
  · rename_i hq
    cases h
    refine ⟨rfl, ?_⟩
    intro t
    by_cases ht : t = tier
    · rw [ht, hq]
      simp only [Function.update_self, Option.isSome_some]
    · simp only [Function.update_of_ne ht]

theorem Accounted.sstMetadataPop (hw : m.Wf) (hm : m.Accounted) {tier : Nat}
    (h : sstMetadataPop m tier = some (record, m')) : m'.Accounted := by
  obtain ⟨node, hrecord, hqueue, hqueues, -, hlisted, hothers, hsize⟩ := sstMetadataPop_cases hw h
  refine ⟨?_, ?_⟩
  · intro t
    by_cases ht : t = tier
    · subst ht
      have htotal : bytes (m.listed t) = record.totalBytes + bytes (m'.listed t) := by
        rw [bytes_perm hlisted, ← hrecord]
        rfl
      rw [hsize, Function.update_self, hm.tierSize_eq, htotal, Nat.add_sub_cancel_left]
    · rw [hsize, Function.update_of_ne ht, hothers t ht]
      exact hm.tierSize_eq t
  · intro t
    by_cases ht : t = tier
    · subst ht
      have hle := hm.length_le t
      rw [hqueue, hlisted.length_eq] at hle
      exact Nat.le_of_succ_le_succ hle
    · rw [hqueues t ht, hothers t ht]
      exact hm.length_le t

/-- A removal neither loses nor finds a node that was refused. -/
theorem complete_sstMetadataPop_iff (hw : m.Wf) {tier : Nat}
    (h : sstMetadataPop m tier = some (record, m')) : m'.Complete ↔ m.Complete := by
  obtain ⟨node, -, hqueue, hqueues, -, hlisted, hothers, -⟩ := sstMetadataPop_cases hw h
  have hown : (m'.queue tier).length = (m'.listed tier).length ↔
      (m.queue tier).length = (m.listed tier).length := by
    rw [hqueue, hlisted.length_eq, List.length_cons, List.length_cons, Nat.add_right_cancel_iff]
  constructor
  · intro hcomplete t
    by_cases ht : t = tier
    · subst ht
      exact hown.mp (hcomplete t)
    · rw [← hqueues t ht, ← hothers t ht]
      exact hcomplete t
  · intro hcomplete t
    by_cases ht : t = tier
    · subst ht
      exact hown.mpr (hcomplete t)
    · rw [hqueues t ht, hothers t ht]
      exact hcomplete t

end SstMetadata

end RaftLsmt.Lsmt
