import RaftLsmt.Lsmt.SstFile
import Mathlib.Logic.Function.Basic

/-!
# The list of registered SSTs

`sst_metadata_t` keeps every registered SST in one list, newest first, and the nodes of each tier
also in a queue, from which the compaction takes the oldest one. Nodes are compared by address, as
`node_remove` does. Adding puts one record in front of the list (`sstMetadataAdd_spec`), popping
takes exactly one record of the tier out of it (`sstMetadataPop_spec`).
-/

set_option autoImplicit false

namespace RaftLsmt.Lsmt

/-- `QUEUE_CAPACITY`. -/
def queueCapacity : Nat := 4 * 1024

/-- `enqueue`: a full queue refuses the element, and the caller does not look at the answer. -/
def enqueue {α : Type} (queue : List α) (data : α) : List α :=
  if queue.length = queueCapacity then queue else queue ++ [data]

/-- `sst_node_t` with its address. -/
structure SstNode where
  addr : Nat
  content : SstMetadataRecord

/-- `sst_metadata_t`. `nextAddr` is the address the next node gets. -/
structure SstMetadata where
  version : Nat
  highestTier : Nat
  list : List SstNode
  tier : Nat → Option (List SstNode)
  tierSize : Nat → Nat
  nextAddr : Nat

/-- The number of tiers there is room for. -/
def maxTiers : Nat := 64

/-- `sst_metadata_init`. -/
def sstMetadataInit : SstMetadata where
  version := 1
  highestTier := 0
  list := []
  tier := fun _ => none
  tierSize := fun _ => 0
  nextAddr := 0

/-- `sst_metadata_add`; `none` when the level is outside the tier arrays. -/
def sstMetadataAdd (m : SstMetadata) (record : SstMetadataRecord) : Option SstMetadata :=
  if maxTiers ≤ record.level then none
  else
    let node : SstNode := ⟨m.nextAddr, record⟩
    some { m with
      list := node :: m.list
      highestTier := if (m.tier record.level).isNone then m.highestTier + 1 else m.highestTier
      tier := Function.update m.tier record.level
        (some (enqueue ((m.tier record.level).getD []) node))
      tierSize := Function.update m.tierSize record.level
        (m.tierSize record.level + record.totalBytes)
      nextAddr := m.nextAddr + 1 }

/-- `sst_metadata_pop`; `none` when the queue of the tier is empty. -/
def sstMetadataPop (m : SstMetadata) (tier : Nat) : Option (SstMetadataRecord × SstMetadata) :=
  match m.tier tier with
  | none => none
  | some [] => none
  | some (node :: queue) =>
    let record := node.content
    some (record, { m with
      list := m.list.filter fun n => n.addr ≠ node.addr
      tier := Function.update m.tier tier (some queue)
      tierSize := Function.update m.tierSize record.level
        (m.tierSize record.level - record.totalBytes) })

/-- `sst_count`. -/
def sstCount (m : SstMetadata) (tier : Nat) : Nat := ((m.tier tier).getD []).length

/-- `sst_metadata_copy_records`, and what `sst_metadata_write_records` puts on disk. -/
structure MetadataSnapshot where
  version : Nat
  highestTier : Nat
  records : List SstMetadataRecord

namespace SstMetadata

/-- The registered SSTs, newest first. -/
def records (m : SstMetadata) : List SstMetadataRecord := m.list.map SstNode.content

/-- Addresses are unique and the queues hold registered nodes of their tier. -/
structure Wf (m : SstMetadata) : Prop where
  addr_lt : ∀ n ∈ m.list, n.addr < m.nextAddr
  nodup : (m.list.map SstNode.addr).Nodup
  queued : ∀ t queue, m.tier t = some queue → ∀ n ∈ queue, n ∈ m.list ∧ n.content.level = t
  queue_nodup : ∀ t queue, m.tier t = some queue → (queue.map SstNode.addr).Nodup

/-- A table has an address of its own below the next one. -/
theorem Wf.length_le_nextAddr {m : SstMetadata} (h : m.Wf) : m.list.length ≤ m.nextAddr := by
  have hsub : m.list.map SstNode.addr ⊆ List.range m.nextAddr := by
    intro a ha
    obtain ⟨n, hn, rfl⟩ := List.mem_map.mp ha
    exact List.mem_range.mpr (h.addr_lt n hn)
  have hle := (List.subperm_of_subset h.nodup hsub).length_le
  rwa [List.length_map, List.length_range] at hle

theorem wf_sstMetadataInit : sstMetadataInit.Wf where
  addr_lt := by simp [sstMetadataInit]
  nodup := by simp [sstMetadataInit]
  queued := by simp [sstMetadataInit]
  queue_nodup := by simp [sstMetadataInit]

end SstMetadata

/-- `sst_metadata_copy_records`. -/
def sstMetadataCopyRecords (m : SstMetadata) : MetadataSnapshot where
  version := m.version
  highestTier := m.highestTier
  records := m.records

theorem mem_enqueue {α : Type} {queue : List α} {data a : α} (h : a ∈ enqueue queue data) :
    a ∈ queue ∨ a = data := by
  rw [enqueue] at h
  split at h
  · exact Or.inl h
  · simpa using h

theorem sstMetadataAdd_eq_some_iff {m : SstMetadata} {record : SstMetadataRecord} :
    (∃ m', sstMetadataAdd m record = some m') ↔ record.level < maxTiers := by
  rw [sstMetadataAdd]
  split <;> simp <;> omega

theorem records_sstMetadataAdd {m m' : SstMetadata} {record : SstMetadataRecord}
    (h : sstMetadataAdd m record = some m') : m'.records = record :: m.records := by
  rw [sstMetadataAdd] at h
  split at h <;> cases h
  rfl

/-- Adding registers the record and keeps the invariant. -/
theorem sstMetadataAdd_spec {m m' : SstMetadata} (hm : m.Wf) {record : SstMetadataRecord}
    (h : sstMetadataAdd m record = some m') : m'.Wf ∧ m'.records = record :: m.records := by
  rw [sstMetadataAdd] at h
  split at h
  · cases h
  · cases h
    -- the new node has an address that no node has
    have hfresh : ∀ n ∈ m.list, n.addr ≠ m.nextAddr := fun n hn => ne_of_lt (hm.addr_lt n hn)
    refine ⟨⟨fun n hn => ?_, ?_, fun t queue hq n hn => ?_, fun t queue hq => ?_⟩, rfl⟩
    · rcases List.mem_cons.mp hn with rfl | hn
      · exact Nat.lt_succ_self _
      · exact Nat.lt_succ_of_lt (hm.addr_lt n hn)
    · simp only [List.map_cons, List.nodup_cons, List.mem_map, not_exists, not_and]
      exact ⟨hfresh, hm.nodup⟩
    · -- a full queue does not take the node, which is then in the list only
      by_cases ht : t = record.level
      · subst ht
        simp only [Function.update_self, Option.some.injEq] at hq
        subst hq
        rcases mem_enqueue hn with hn | rfl
        · cases hold : m.tier record.level with
          | none => simp [hold] at hn
          | some old =>
            rw [hold] at hn
            obtain ⟨hlist, hlevel⟩ := hm.queued _ old hold n hn
            exact ⟨List.mem_cons_of_mem _ hlist, hlevel⟩
        · exact ⟨List.mem_cons_self, rfl⟩
      · simp only [Function.update_of_ne ht] at hq
        obtain ⟨hlist, hlevel⟩ := hm.queued t queue hq n hn
        exact ⟨List.mem_cons_of_mem _ hlist, hlevel⟩
    · by_cases ht : t = record.level
      · subst ht
        simp only [Function.update_self, Option.some.injEq] at hq
        subst hq
        cases hold : m.tier record.level with
        | none => simp [enqueue, queueCapacity]
        | some old =>
          have hnodup := hm.queue_nodup _ old hold
          simp only [Option.getD_some, enqueue]
          split
          · exact hnodup
          · rw [List.map_append, List.nodup_append]
            refine ⟨hnodup, by simp, fun a ha b hb => ?_⟩
            obtain ⟨n, hn, rfl⟩ := List.mem_map.mp ha
            rw [List.map_singleton, List.mem_singleton] at hb
            rw [hb]
            exact hfresh n (hm.queued _ old hold n hn).1
      · simp only [Function.update_of_ne ht] at hq
        exact hm.queue_nodup t queue hq

/-- With unique addresses only the node itself has its address. -/
theorem filter_addr_ne {before behind : List SstNode} {node : SstNode}
    (h : ((before ++ node :: behind).map SstNode.addr).Nodup) :
    (before ++ node :: behind).filter (fun n => n.addr ≠ node.addr) = before ++ behind := by
  rw [List.map_append, List.map_cons, List.nodup_middle, List.nodup_cons] at h
  have hkeep : ∀ n ∈ before ++ behind, n.addr ≠ node.addr := by
    intro n hn heq
    refine h.1 ?_
    rw [← List.map_append, ← heq]
    exact List.mem_map_of_mem hn
  rw [List.filter_append, List.filter_cons_of_neg (by simp), ← List.filter_append,
    List.filter_eq_self.mpr]
  simpa using hkeep

/-- A list with unique addresses is a node and the list without its address. -/
theorem perm_cons_filter_addr {l : List SstNode} (h : (l.map SstNode.addr).Nodup) {node : SstNode}
    (hnode : node ∈ l) : l.Perm (node :: l.filter fun n => n.addr ≠ node.addr) := by
  obtain ⟨before, behind, rfl⟩ := List.append_of_mem hnode
  rw [filter_addr_ne h]
  exact List.perm_middle

/-- Popping takes one registered record of the tier and keeps the invariant. -/
theorem sstMetadataPop_spec {m m' : SstMetadata} (hm : m.Wf) {tier : Nat}
    {record : SstMetadataRecord} (h : sstMetadataPop m tier = some (record, m')) :
    m'.Wf ∧ record.level = tier ∧ m.records.Perm (record :: m'.records) := by
  rw [sstMetadataPop] at h
  split at h
  · cases h
  · cases h
  · rename_i node queue hq
    cases h
    obtain ⟨hnode, hlevel⟩ := hm.queued tier _ hq node List.mem_cons_self
    have hqn := hm.queue_nodup tier _ hq
    rw [List.map_cons, List.nodup_cons] at hqn
    have hkeep : ∀ n ∈ m.list, n.addr ≠ node.addr →
        n ∈ m.list.filter fun n => n.addr ≠ node.addr :=
      fun n hn hne => List.mem_filter.mpr ⟨hn, by simpa using hne⟩
    refine ⟨⟨fun n hn => hm.addr_lt n (List.mem_filter.mp hn).1,
      hm.nodup.sublist (List.filter_sublist.map _), fun t queue' hq' n hn => ?_,
      fun t queue' hq' => ?_⟩, hlevel, (perm_cons_filter_addr hm.nodup hnode).map _⟩
    · by_cases ht : t = tier
      · subst ht
        simp only [Function.update_self, Option.some.injEq] at hq'
        subst hq'
        obtain ⟨hlist, hl⟩ := hm.queued t _ hq n (List.mem_cons_of_mem _ hn)
        refine ⟨hkeep n hlist fun heq => hqn.1 ?_, hl⟩
        rw [← heq]
        exact List.mem_map_of_mem hn
      · simp only [Function.update_of_ne ht] at hq'
        obtain ⟨hlist, hl⟩ := hm.queued t queue' hq' n hn
        refine ⟨hkeep n hlist fun heq => ?_, hl⟩
        have hsame : n = node := List.inj_on_of_nodup_map hm.nodup hlist hnode heq
        exact ht (hl.symm.trans (hsame ▸ hlevel))
    · by_cases ht : t = tier
      · subst ht
        simp only [Function.update_self, Option.some.injEq] at hq'
        subst hq'
        exact hqn.2
      · simp only [Function.update_of_ne ht] at hq'
        exact hm.queue_nodup t queue' hq'

end RaftLsmt.Lsmt
