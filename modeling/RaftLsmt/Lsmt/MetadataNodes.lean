import RaftLsmt.Lib.Binary64
import RaftLsmt.Lib.DoublyLinked
import RaftLsmt.Lib.RingQueue
import RaftLsmt.Lib.StepMachine
import RaftLsmt.Lsmt.MetadataQueues
import Mathlib.Data.List.Dedup

/-!
# The nodes and the pointers of the registered SSTs

`sst_metadata_t` as it lies in memory: the list is linked through the nodes in both directions, the
queue of a tier is a ring buffer of node addresses, and the totals are doubles. `Tracks` relates it to
the list of `Metadata`, in any placement of the nodes that `malloc` chooses.

`represents_iff` says when the three views agree behind a sequence of additions and removals: when no
SST is added to a tier whose queue is full. A refused node stays in the list for good and no removal
finds it.
-/

set_option autoImplicit false

namespace RaftLsmt.Lsmt.Nodes

open RaftLsmt.Lib.Binary64
open RaftLsmt.Lib.DoublyLinked
open RaftLsmt.Lib.RingQueue
open RaftLsmt.Lib.StepMachine

/-- `sst_metadata_t` with the heap of its nodes; the content of a node is gone when it was detached. -/
structure SstMetadata where
  highestTier : Nat
  heap : Heap (Option SstMetadataRecord)
  list : Option Nat
  tier : Nat → Option (Queue Nat)
  tierSize : Nat → Nat

/-- `sst_metadata_init`. -/
def sstMetadataInit : SstMetadata where
  highestTier := 0
  heap := fun _ => none
  list := none
  tier := fun _ => none
  tierSize := fun _ => 0

/-- `queue_init`. -/
def queueInit : Queue Nat := Queue.init queueCapacity (by decide)

/-- `new_node` at the address that `malloc` answers. -/
def newNode (heap : Heap (Option SstMetadataRecord)) (addr : Nat) (content : SstMetadataRecord) :
    Heap (Option SstMetadataRecord) :=
  Function.update heap addr (some ⟨some content, none, none⟩)

/-- `node_add`; `none` when it follows a pointer to no node. -/
def nodeAdd (heap : Heap (Option SstMetadataRecord)) (list : Option Nat) (node : Nat) :
    Option (Heap (Option SstMetadataRecord) × Option Nat) :=
  match list with
  | none => some (heap, some node)
  | some first => do
    let heap ← setNext heap node (some first)
    let heap ← setPrev heap first (some node)
    some (heap, some node)

/-- `if (next) next->prev = prev`. -/
def relinkPrev (heap : Heap (Option SstMetadataRecord)) (next prev : Option Nat) :
    Option (Heap (Option SstMetadataRecord)) :=
  match next with
  | none => some heap
  | some next => setPrev heap next prev

/-- `if (prev) prev->next = next`. -/
def relinkNext (heap : Heap (Option SstMetadataRecord)) (prev next : Option Nat) :
    Option (Heap (Option SstMetadataRecord)) :=
  match prev with
  | none => some heap
  | some prev => setNext heap prev next

/-- `node_remove`. -/
def nodeRemove (heap : Heap (Option SstMetadataRecord)) (list : Option Nat) (node : Nat) :
    Option (Heap (Option SstMetadataRecord) × Option Nat) := do
  let n ← heap node
  if list = some node then
    let heap ← relinkPrev heap n.next none
    some (Function.update heap node none, n.next)
  else
    let heap ← relinkNext heap n.prev n.next
    let n ← heap node
    let heap ← relinkPrev heap n.next n.prev
    some (Function.update heap node none, list)

/-- `sst_metadata_add`, with the address of the new node. -/
def sstMetadataAdd (m : SstMetadata) (addr : Nat) (record : SstMetadataRecord) :
    Option SstMetadata :=
  if maxTiers ≤ record.level then none
  else
    match nodeAdd (newNode m.heap addr record) m.list addr with
    | none => none
    | some (heap, list) =>
      some {
        highestTier := if (m.tier record.level).isNone then m.highestTier + 1 else m.highestTier
        heap := heap
        list := list
        tier := Function.update m.tier record.level
          (some (((m.tier record.level).getD queueInit).enqueue addr).2)
        tierSize := Function.update m.tierSize record.level
          (roundNat (m.tierSize record.level + roundNat record.totalBytes)) }

/-- `sst_metadata_pop`: the record, or a null pointer when the queue is empty or was never made. -/
def sstMetadataPop (m : SstMetadata) (tier : Nat) :
    Option (Option SstMetadataRecord × SstMetadata) :=
  if maxTiers ≤ tier then none
  else
    match m.tier tier with
    | none => some (none, m)
    | some queue =>
      match queue.dequeue with
      | (none, queue) => some (none, { m with tier := Function.update m.tier tier (some queue) })
      | (some node, queue) => do
        let n ← m.heap node
        let record ← n.content
        let heap := Function.update m.heap node (some { n with content := none })
        let (heap, list) ← nodeRemove heap m.list node
        some (some record, { m with
          heap := heap
          list := list
          tier := Function.update m.tier tier (some queue)
          tierSize := Function.update m.tierSize record.level
            (roundNat (m.tierSize record.level - roundNat record.totalBytes)) })

/-! ## The list -/

section

variable {heap : Heap (Option SstMetadataRecord)} {list : Option Nat} {nodes : List Nat}

theorem contentAt_newNode (addr : Nat) (record : SstMetadataRecord) (b : Nat) :
    contentAt (newNode heap addr record) b =
      if b = addr then some (some record) else contentAt heap b := by
  unfold contentAt newNode
  split
  · rename_i hb
    rw [hb, Function.update_self]
    rfl
  · rename_i hb
    rw [Function.update_of_ne hb]

/-- A new node comes first. -/
theorem nodeAdd_spec (h : Linked heap list nodes) (hnodup : nodes.Nodup) {addr : Nat} (haddr : addr ∉ nodes)
    (record : SstMetadataRecord) :
    ∃ heap', nodeAdd (newNode heap addr record) list addr = some (heap', some addr) ∧
      Linked heap' (some addr) (addr :: nodes) ∧
      ∀ b, contentAt heap' b = if b = addr then some (some record) else contentAt heap b := by
  obtain ⟨last, hseg⟩ := h
  have hnew : Seg (newNode heap addr record) none (some addr) ([] ++ [addr]) (some addr) none :=
    ⟨rfl, _, Function.update_self _ _ _, rfl, rfl, rfl⟩
  have hold : Seg (newNode heap addr record) none list nodes last none := hseg.update haddr _
  cases nodes with
  | nil =>
    obtain ⟨-, rfl⟩ := hold
    exact ⟨_, rfl, ⟨_, hnew⟩, contentAt_newNode addr record⟩
  | cons first nodes =>
    obtain ⟨rfl, -⟩ := hold.first_eq
    -- the new node points on to the first one, then that one points back
    obtain ⟨heap₁, hnext, hseg₁, hframe₁, hcontent₁⟩ :=
      hnew.setNext List.not_mem_nil (some first)
    have hne : addr ≠ first := fun heq => haddr (heq ▸ List.mem_cons_self)
    have hold₁ : Seg heap₁ none (some first) (first :: nodes) last none := by
      apply hold.of_eq
      intro a ha
      apply hframe₁
      rintro rfl
      exact haddr ha
    obtain ⟨heap₂, hprev, hseg₂, hframe₂, hcontent₂⟩ :=
      hold₁.setPrev (List.nodup_cons.mp hnodup).1 (some addr)
    refine ⟨heap₂, ?_, ⟨last, ?_⟩, ?_⟩
    · unfold nodeAdd
      simp only [hnext, hprev, Option.bind_eq_bind, Option.bind_some]
    · have hseg₁' : Seg heap₂ none (some addr) [addr] (some addr) (some first) := by
        apply hseg₁.of_eq
        intro a ha
        apply hframe₂
        rw [List.mem_singleton.mp ha]
        exact hne
      exact seg_append.mpr ⟨_, _, hseg₁', hseg₂⟩
    · intro b
      rw [hcontent₂, hcontent₁]
      exact contentAt_newNode addr record b

/-- Removing a node links its neighbours and frees it. -/
theorem nodeRemove_spec {before behind : List Nat} {node : Nat}
    (h : Linked heap list (before ++ node :: behind)) (hnodup : (before ++ node :: behind).Nodup) :
    ∃ heap' list', nodeRemove heap list node = some (heap', list') ∧
      Linked heap' list' (before ++ behind) ∧
      ∀ b, contentAt heap' b = if b = node then none else contentAt heap b := by
  have hnot := (List.nodup_cons.mp (List.nodup_middle.mp hnodup)).1
  have hheader := h.first_eq_iff fun hmem => hnot (List.mem_append_left _ hmem)
  obtain ⟨n, heap₁, heap₂, hn, hnext, hn₁, hback, -, hprev, ⟨last, hseg⟩, -, hcontent⟩ :=
    h.unlink hnodup
  refine ⟨Function.update heap₂ node none, if list = some node then n.next else list, ?_,
    ⟨last, hseg.update hnot none⟩, ?_⟩
  · unfold nodeRemove
    simp only [hn, Option.bind_eq_bind, Option.bind_some]
    split
    · rename_i hfirst
      -- no node is in front of the header
      rw [hprev.mpr (hheader.mp hfirst)] at hnext hback
      cases hnext
      have hset : relinkPrev heap n.next none = some heap₂ := hback
      rw [hset, Option.bind_some]
    · have hrelink : relinkNext heap n.prev n.next = some heap₁ := hnext
      have hset : relinkPrev heap₁ n.next n.prev = some heap₂ := hback
      rw [hrelink, Option.bind_some, hn₁, Option.bind_some, hset, Option.bind_some]
  · intro b
    split
    · rename_i hb
      unfold contentAt
      rw [hb, Function.update_self]
      rfl
    · rename_i hb
      rw [← hcontent b]
      unfold contentAt
      rw [Function.update_of_ne hb]

end

/-! ## The memory of the model's list -/

/-- The nodes of a list lie where `place` says and are linked in its order; there are no others. -/
structure Placed (heap : Heap (Option SstMetadataRecord)) (list : Option Nat)
    (nodes : List SstNode) (place : Nat → Nat) : Prop where
  linked : Linked heap list (nodes.map fun n => place n.addr)
  nodup : (nodes.map fun n => place n.addr).Nodup
  content : ∀ n ∈ nodes, contentAt heap (place n.addr) = some (some n.content)
  allocated : ∀ a, contentAt heap a ≠ none → a ∈ nodes.map fun n => place n.addr

section

variable {heap : Heap (Option SstMetadataRecord)} {list : Option Nat} {nodes : List SstNode}
  {place : Nat → Nat}

/-- `malloc` answers an address that no node has. -/
theorem Placed.fresh (h : Placed heap list nodes place) {addr : Nat} (hfree : heap addr = none) :
    addr ∉ nodes.map fun n => place n.addr := by
  intro hmem
  obtain ⟨n, hn, rfl⟩ := List.mem_map.mp hmem
  have hcontent := h.content n hn
  unfold contentAt at hcontent
  rw [hfree] at hcontent
  cases hcontent

/-- A new node with an address of its own may lie anywhere. -/
theorem map_place_update {next : Nat} (hnext : ∀ n ∈ nodes, n.addr ≠ next) (addr : Nat) :
    nodes.map (fun n => Function.update place next addr n.addr) =
      nodes.map fun n => place n.addr := by
  apply List.map_congr_left
  intro n hn
  exact Function.update_of_ne (hnext n hn) _ _

theorem Placed.add (h : Placed heap list nodes place) {next addr : Nat}
    (hnext : ∀ n ∈ nodes, n.addr ≠ next) (hfree : heap addr = none) (record : SstMetadataRecord) :
    ∃ heap', nodeAdd (newNode heap addr record) list addr = some (heap', some addr) ∧
      Placed heap' (some addr) (⟨next, record⟩ :: nodes) (Function.update place next addr) := by
  have haddr := h.fresh hfree
  obtain ⟨heap', hadd, hlinked, hcontent⟩ := nodeAdd_spec h.linked h.nodup haddr record
  have hplaces : (⟨next, record⟩ :: nodes : List SstNode).map
      (fun n => Function.update place next addr n.addr) =
        addr :: nodes.map fun n => place n.addr := by
    rw [List.map_cons, map_place_update hnext, Function.update_self]
  refine ⟨heap', hadd, ?_, ?_, ?_, ?_⟩
  · rw [hplaces]
    exact hlinked
  · rw [hplaces]
    exact List.nodup_cons.mpr ⟨haddr, h.nodup⟩
  · intro n hn
    rw [hcontent]
    rcases List.mem_cons.mp hn with rfl | hn
    · rw [Function.update_self, if_pos rfl]
    · rw [Function.update_of_ne (hnext n hn), if_neg]
      · exact h.content n hn
      · intro heq
        exact haddr (heq ▸ List.mem_map_of_mem hn)
  · intro a ha
    rw [hplaces]
    rw [hcontent] at ha
    by_cases heq : a = addr
    · rw [heq]
      exact List.mem_cons_self
    · rw [if_neg heq] at ha
      exact List.mem_cons_of_mem _ (h.allocated a ha)

/-- A node is detached from its record, unlinked and freed. -/
theorem Placed.remove {before behind : List SstNode} {node : SstNode}
    (h : Placed heap list (before ++ node :: behind) place) :
    ∃ n heap' list', heap (place node.addr) = some n ∧ n.content = some node.content ∧
      nodeRemove (Function.update heap (place node.addr) (some { n with content := none })) list
        (place node.addr) = some (heap', list') ∧
      Placed heap' list' (before ++ behind) place := by
  have hnodup := h.nodup
  rw [List.map_append, List.map_cons] at hnodup
  obtain ⟨hnot, hrest⟩ := List.nodup_cons.mp (List.nodup_middle.mp hnodup)
  rw [← List.map_append] at hnot hrest
  have hmem : node ∈ before ++ node :: behind := List.mem_append_right _ List.mem_cons_self
  obtain ⟨n, hn, hcontent⟩ := Option.map_eq_some_iff.mp (h.content node hmem)
  obtain ⟨last, hseg⟩ := h.linked
  rw [List.map_append, List.map_cons] at hseg
  obtain ⟨heap', list', hremove, hlinked, hcontents⟩ :=
    nodeRemove_spec ⟨last, hseg.setContent hn none⟩ hnodup
  -- the content of every other place stays
  have hkept : ∀ b, b ≠ place node.addr → contentAt heap' b = contentAt heap b := by
    intro b hb
    rw [hcontents, if_neg hb]
    unfold contentAt
    rw [Function.update_of_ne hb]
  rw [← List.map_append] at hlinked
  refine ⟨n, heap', list', hn, hcontent, hremove, hlinked, hrest, ?_, ?_⟩
  · -- the other nodes have other places
    intro n' hn'
    rw [hkept]
    · apply h.content n'
      rcases List.mem_append.mp hn' with hn' | hn'
      · exact List.mem_append_left _ hn'
      · exact List.mem_append_right _ (List.mem_cons_of_mem _ hn')
    · intro heq
      exact hnot (heq ▸ List.mem_map_of_mem hn')
  · -- what is allocated is the place of a node that is left
    intro a ha
    by_cases heq : a = place node.addr
    · rw [hcontents, if_pos heq] at ha
      exact absurd rfl ha
    · rw [hkept a heq] at ha
      have hold := h.allocated a ha
      rw [List.map_append, List.map_cons] at hold
      rw [List.map_append]
      rcases List.mem_append.mp hold with hold | hold
      · exact List.mem_append_left _ hold
      · exact List.mem_append_right _ ((List.mem_cons.mp hold).resolve_left heq)

end

/-- The nodes in the queue of a tier. -/
def queued (tier : Nat → Option (Queue Nat)) (t : Nat) : List Nat :=
  ((tier t).map Queue.toList).getD []

/-- The ring buffers hold the queues of the model. -/
structure Queued (tier : Nat → Option (Queue Nat)) (m : Lsmt.SstMetadata) (place : Nat → Nat) :
    Prop where
  toList_eq : ∀ t, queued tier t = (m.queue t).map fun n => place n.addr
  capacity_eq : ∀ t queue, tier t = some queue → queue.capacity = queueCapacity
  isSome_eq : ∀ t, (tier t).isSome = (m.tier t).isSome

section

variable {tier : Nat → Option (Queue Nat)} {m m' : Lsmt.SstMetadata} {place : Nat → Nat}
  {record : SstMetadataRecord}

theorem Queued.length_queue_le (h : Queued tier m place) (t : Nat) :
    (m.queue t).length ≤ queueCapacity := by
  have hlen := congrArg List.length (h.toList_eq t)
  rw [List.length_map] at hlen
  rw [← hlen]
  unfold queued
  cases hq : tier t with
  | none => exact Nat.zero_le _
  | some queue =>
    rw [← h.capacity_eq t queue hq]
    exact Nat.le_trans (Nat.le_of_eq queue.length_toList) queue.size_le

/-- The ring buffer takes a node when the queue of the model does. -/
theorem toList_enqueue {queue : Queue Nat} (hcapacity : queue.capacity = queueCapacity) (node : Nat) :
    (queue.enqueue node).2.toList = enqueue queue.toList node := by
  unfold Lsmt.enqueue
  rw [queue.length_toList, ← hcapacity]
  split
  · rename_i hfull
    rw [Queue.enqueue_of_full hfull]
  · rename_i hroom
    exact Queue.toList_enqueue hroom node

theorem map_enqueue {α β : Type} (f : α → β) (queue : List α) (data : α) :
    (enqueue queue data).map f = enqueue (queue.map f) (f data) := by
  unfold enqueue
  rw [List.length_map]
  split
  · rfl
  · rw [List.map_append, List.map_singleton]

theorem toList_getD (tier : Nat → Option (Queue Nat)) (t : Nat) :
    ((tier t).getD queueInit).toList = queued tier t := by
  unfold queued
  cases tier t with
  | none => rfl
  | some queue => rfl

theorem queued_update (tier : Nat → Option (Queue Nat)) (t : Nat) (queue : Queue Nat) (t' : Nat) :
    queued (Function.update tier t (some queue)) t' =
      if t' = t then queue.toList else queued tier t' := by
  unfold queued
  split
  · rename_i ht
    rw [ht, Function.update_self]
    rfl
  · rename_i ht
    rw [Function.update_of_ne ht]

theorem Queued.capacity_getD (h : Queued tier m place) (t : Nat) :
    ((tier t).getD queueInit).capacity = queueCapacity := by
  cases hq : tier t with
  | none => rfl
  | some queue => exact h.capacity_eq t queue hq

theorem Queued.add (h : Queued tier m place) (hw : m.Wf)
    (hadd : Lsmt.sstMetadataAdd m record = some m') (addr : Nat) :
    Queued (Function.update tier record.level
      (some (((tier record.level).getD queueInit).enqueue addr).2)) m'
        (Function.update place m.nextAddr addr) where
  toList_eq := by
    intro t
    have hold : ∀ n ∈ m.queue t, n.addr ≠ m.nextAddr := by
      intro n hn
      exact Nat.ne_of_lt (hw.addr_lt n (List.mem_filter.mp (hw.queue_subset t hn)).1)
    rw [queued_update, SstMetadata.queue_sstMetadataAdd hadd]
    by_cases ht : t = record.level
    · subst ht
      rw [if_pos rfl, if_pos rfl, toList_enqueue (h.capacity_getD _), toList_getD, map_enqueue,
        map_place_update hold, Function.update_self, h.toList_eq]
    · rw [if_neg ht, if_neg (Ne.symm ht), map_place_update hold]
      exact h.toList_eq t
  capacity_eq := by
    intro t queue hq
    by_cases ht : t = record.level
    · subst ht
      rw [Function.update_self] at hq
      cases hq
      rw [Queue.capacity_enqueue]
      exact h.capacity_getD _
    · rw [Function.update_of_ne ht] at hq
      exact h.capacity_eq t queue hq
  isSome_eq := by
    intro t
    unfold Lsmt.sstMetadataAdd at hadd
    split at hadd
    · cases hadd
    · cases hadd
      by_cases ht : t = record.level
      · subst ht
        simp only [Function.update_self, Option.isSome_some]
      · simp only [Function.update_of_ne ht]
        exact h.isSome_eq t

/-- The oldest node of a tier leaves its ring buffer. -/
theorem Queued.dequeue (h : Queued tier m place) {t : Nat} {node : SstNode} {rest : List SstNode}
    (hqueue : m.queue t = node :: rest) :
    ∃ queue queue', tier t = some queue ∧ queue.dequeue = (some (place node.addr), queue') ∧
      queue'.toList = rest.map fun n => place n.addr := by
  have hlist := h.toList_eq t
  rw [hqueue, List.map_cons] at hlist
  unfold queued at hlist
  cases hq : tier t with
  | none =>
    rw [hq] at hlist
    cases hlist
  | some queue =>
    rw [hq, Option.map_some, Option.getD_some] at hlist
    have hhead : queue.dequeue.1 = some (place node.addr) := by
      rw [queue.dequeue_eq_head?, hlist]
      rfl
    have hrest := queue.toList_dequeue
    rw [hhead, hlist] at hrest
    exact ⟨queue, queue.dequeue.2, rfl, Prod.ext hhead rfl, (List.cons.inj hrest).2.symm⟩

theorem Queued.dequeue_nil (h : Queued tier m place) {t : Nat} (hqueue : m.queue t = [])
    {queue : Queue Nat} (hq : tier t = some queue) : queue.dequeue = (none, queue) := by
  have hlist := h.toList_eq t
  unfold queued at hlist
  rw [hq, hqueue, Option.map_some, Option.getD_some] at hlist
  have hsize := queue.length_toList
  rw [hlist] at hsize
  exact Queue.dequeue_of_empty hsize.symm

theorem Queued.pop (h : Queued tier m place) (hw : m.Wf) {t : Nat}
    (hpop : Lsmt.sstMetadataPop m t = some (record, m')) {queue queue' : Queue Nat} {data : Option Nat}
    (hq : tier t = some queue) (hdequeue : queue.dequeue = (data, queue'))
    (hrest : queue'.toList = (m'.queue t).map fun n => place n.addr) :
    Queued (Function.update tier t (some queue')) m' place where
  toList_eq := by
    intro t'
    rw [queued_update]
    by_cases ht : t' = t
    · rw [if_pos ht, ht]
      exact hrest
    · obtain ⟨_, -, -, hqueues, -⟩ := SstMetadata.sstMetadataPop_cases hw hpop
      rw [if_neg ht, hqueues t' ht]
      exact h.toList_eq t'
  capacity_eq := by
    intro t' q hq'
    by_cases ht : t' = t
    · rw [ht, Function.update_self] at hq'
      cases hq'
      have hcapacity := queue.capacity_dequeue
      rw [hdequeue] at hcapacity
      exact hcapacity.trans (h.capacity_eq t queue hq)
    · rw [Function.update_of_ne ht] at hq'
      exact h.capacity_eq t' q hq'
  isSome_eq := by
    intro t'
    unfold Lsmt.sstMetadataPop at hpop
    split at hpop
    · cases hpop
    · cases hpop
    · cases hpop
      by_cases ht : t' = t
      · rw [ht, Function.update_self]
        simp only [Function.update_self, Option.isSome_some]
      · simp only [Function.update_of_ne ht]
        exact h.isSome_eq t'

end

/-! ## Sequences of additions and removals -/

/-- An addition of a record, with the address of its node, or a removal. -/
inductive MetadataOp where
  | add (addr : Nat) (record : SstMetadataRecord)
  | pop (tier : Nat)

/-- The metadata behind some operations. `added` are the records added so far, newest first, and
`pending` those of each tier that no removal has taken, oldest first. -/
structure MetadataRun where
  metadata : SstMetadata
  added : List SstMetadataRecord
  pending : Nat → List SstMetadataRecord
  undefined : Bool

namespace MetadataRun

/-- Before the first operation. -/
def init : MetadataRun where
  metadata := sstMetadataInit
  added := []
  pending := fun _ => []
  undefined := false

/-- One operation, on a level there is room for; `malloc` answers an address without a node. -/
def step (s : MetadataRun) (op : MetadataOp) : Option MetadataRun :=
  if s.undefined then none
  else
    match op with
    | .add addr record =>
      if record.level < maxTiers ∧ s.metadata.heap addr = none then
        match sstMetadataAdd s.metadata addr record with
        | none => some { s with undefined := true }
        | some metadata =>
          some { s with
            metadata := metadata
            added := record :: s.added
            pending := Function.update s.pending record.level
              (s.pending record.level ++ [record]) }
      else none
    | .pop tier =>
      if tier < maxTiers then
        match sstMetadataPop s.metadata tier with
        | none => some { s with undefined := true }
        | some (_, metadata) =>
          some { s with
            metadata := metadata
            pending := Function.update s.pending tier (s.pending tier).tail }
      else none

/-- The bytes of some records. -/
def totalBytes (records : List SstMetadataRecord) : Nat :=
  (records.map SstMetadataRecord.totalBytes).sum

/-- The list, the queues and the totals agree with what was added and not yet removed. -/
structure Represents (s : MetadataRun) : Prop where
  defined : s.undefined = false
  linked : ∃ nodes, Linked s.metadata.heap s.metadata.list nodes ∧ nodes.Nodup ∧
    nodes.Perm ((List.range maxTiers).flatMap (queued s.metadata.tier)) ∧
    ∀ a, s.metadata.heap a ≠ none → a ∈ nodes
  content : ∀ t, t < maxTiers → (queued s.metadata.tier t).map (contentAt s.metadata.heap) =
    (s.pending t).map fun record => some (some record)
  pop : ∀ t, t < maxTiers →
    (sstMetadataPop s.metadata t).map Prod.fst = some (s.pending t).head?
  tierSize : ∀ t, t < maxTiers → s.metadata.tierSize t = totalBytes (s.pending t)
  highestTier : s.metadata.highestTier = (s.added.map SstMetadataRecord.level).dedup.length

/-- An addition goes to a tier that holds fewer SSTs than its queue has room for. -/
def HasRoom (s : MetadataRun) : MetadataOp → Prop
  | .add _ record => (s.pending record.level).length < queueCapacity
  | .pop _ => True

/-- Every total is an exact double. -/
def Exact (s : MetadataRun) : Prop := ∀ t, totalBytes (s.pending t) < 2 ^ 53

/-- The memory holds the metadata `m`, whose nodes lie where `place` says. -/
structure Tracks (s : MetadataRun) (m : Lsmt.SstMetadata) (place : Nat → Nat) : Prop where
  defined : s.undefined = false
  wf : m.Wf
  accounted : m.Accounted
  level_lt : ∀ n ∈ m.list, n.content.level < maxTiers
  placed : Placed s.metadata.heap s.metadata.list m.list place
  queues : Queued s.metadata.tier m place
  highestTier_eq : s.metadata.highestTier = m.highestTier
  used_iff : ∀ t, (m.tier t).isSome ↔ t ∈ s.added.map SstMetadataRecord.level
  used_length : m.highestTier = (s.added.map SstMetadataRecord.level).dedup.length
  exact : s.Exact
  pending_eq : m.Complete → ∀ t, s.pending t = (m.queue t).map SstNode.content
  tierSize_eq : m.Complete → ∀ t, s.metadata.tierSize t = m.tierSize t

theorem tracks_init : init.Tracks Lsmt.sstMetadataInit id where
  defined := rfl
  wf := SstMetadata.wf_sstMetadataInit
  accounted := SstMetadata.accounted_sstMetadataInit
  level_lt := by
    intro n hn
    cases hn
  placed := by
    refine ⟨⟨none, rfl, rfl⟩, List.nodup_nil, ?_, ?_⟩
    · intro n hn
      cases hn
    · intro a ha
      exact absurd rfl ha
  queues := by
    refine ⟨fun _ => rfl, ?_, fun _ => rfl⟩
    intro t queue hq
    cases hq
  highestTier_eq := rfl
  used_iff := by
    intro t
    simp [init, Lsmt.sstMetadataInit]
  used_length := rfl
  exact := by
    intro t
    exact Nat.pow_pos (by decide)
  pending_eq := by
    intro _ t
    rfl
  tierSize_eq := by
    intro _ t
    rfl

variable {s s' : MetadataRun} {m : Lsmt.SstMetadata} {place : Nat → Nat}

theorem totalBytes_map_content (nodes : List SstNode) :
    totalBytes (nodes.map SstNode.content) = SstMetadata.bytes nodes := by
  unfold totalBytes SstMetadata.bytes
  rw [List.map_map]
  rfl

/-- A total is the sum over the tier when no node was refused. -/
theorem Tracks.tierSize (h : s.Tracks m place) (hcomplete : m.Complete) (t : Nat) :
    s.metadata.tierSize t = totalBytes (s.pending t) := by
  rw [h.tierSize_eq hcomplete, h.accounted.tierSize_eq, h.pending_eq hcomplete,
    totalBytes_map_content]
  exact (SstMetadata.bytes_perm (hcomplete.perm h.wf t)).symm

/-- An addition is the model's. -/
theorem Tracks.add (h : s.Tracks m place) {addr : Nat} {record : SstMetadataRecord}
    (hexact : s'.Exact) (hstep : s.step (.add addr record) = some s') :
    ∃ m' place', s'.Tracks m' place' ∧
      (m'.Complete ↔ m.Complete ∧ s.HasRoom (.add addr record)) := by
  unfold step at hstep
  rw [h.defined] at hstep
  simp only [Bool.false_eq_true, if_false] at hstep
  split at hstep
  · rename_i hfree
    obtain ⟨hlevel, hfree⟩ := hfree
    -- the model takes every node of a level below the number of tiers
    obtain ⟨m', hm'⟩ := (sstMetadataAdd_eq_some_iff (m := m)).mpr hlevel
    obtain ⟨hlist, hhighest, hused⟩ := SstMetadata.sstMetadataAdd_used hm'
    -- the new node's address is the model's next one
    have hnext : ∀ n ∈ m.list, n.addr ≠ m.nextAddr := fun n hn =>
      Nat.ne_of_lt (h.wf.addr_lt n hn)
    obtain ⟨heap', hadd, hplaced⟩ := h.placed.add hnext hfree record
    have hcomplete := SstMetadata.complete_sstMetadataAdd_iff h.accounted hm'
    unfold sstMetadataAdd at hstep
    rw [if_neg (Nat.not_le.mpr hlevel), hadd] at hstep
    cases hstep
    refine ⟨m', Function.update place m.nextAddr addr, ?_, ?_⟩
    · exact {
        defined := rfl
        wf := (Lsmt.sstMetadataAdd_spec h.wf hm').1
        accounted := h.accounted.sstMetadataAdd hm'
        -- only the new node's level is new
        level_lt := by
          intro n hn
          rw [hlist] at hn
          rcases List.mem_cons.mp hn with rfl | hn
          · exact hlevel
          · exact h.level_lt n hn
        placed := by
          rw [hlist]
          exact hplaced
        queues := h.queues.add h.wf hm' addr
        highestTier_eq := by
          have hnone : (s.metadata.tier record.level).isNone = (m.tier record.level).isNone := by
            rw [← Option.not_isSome, ← Option.not_isSome, h.queues.isSome_eq]
          rw [hhighest, hnone, h.highestTier_eq]
        used_iff := by
          intro t
          rw [hused, h.used_iff]
          simp only [List.map_cons, List.mem_cons]
        used_length := by
          rw [hhighest, h.used_length, List.map_cons]
          by_cases hold : record.level ∈ s.added.map SstMetadataRecord.level
          · have hsome := (h.used_iff record.level).mpr hold
            -- the tier had a queue already
            rw [List.dedup_cons_of_mem hold, if_neg]
            rw [← Option.not_isSome, hsome]
            decide
          · have hnone : ¬ (m.tier record.level).isSome := fun hsome =>
              hold ((h.used_iff record.level).mp hsome)
            -- the first node of the tier creates its queue
            rw [List.dedup_cons_of_notMem hold, if_pos]
            · rfl
            · rw [← Option.not_isSome, Bool.eq_false_iff.mpr hnone]
              rfl
        exact := hexact
        -- where nothing was refused, the node has gone to the end of its queue
        pending_eq := by
          intro hcomplete' t
          obtain ⟨hold, hroom⟩ := hcomplete.mp hcomplete'
          rw [SstMetadata.queue_sstMetadataAdd hm']
          show Function.update s.pending record.level _ t = _
          by_cases ht : t = record.level
          · subst ht
            rw [Function.update_self, if_pos rfl, h.pending_eq hold]
            unfold enqueue
            rw [if_neg hroom, List.map_append]
            rfl
          · rw [Function.update_of_ne ht, if_neg (Ne.symm ht)]
            exact h.pending_eq hold t
        -- within the exact range the rounded total is the sum
        tierSize_eq := by
          intro hcomplete' t
          obtain ⟨hold, -⟩ := hcomplete.mp hcomplete'
          rw [SstMetadata.tierSize_sstMetadataAdd hm']
          show Function.update s.metadata.tierSize record.level _ t = _
          by_cases ht : t = record.level
          · subst ht
            have hsum := hexact record.level
            simp only [Function.update_self, totalBytes, List.map_append, List.map_singleton,
              List.sum_append, List.sum_singleton] at hsum
            have hsize := h.tierSize hold record.level
            unfold totalBytes at hsize
            rw [← hsize] at hsum
            rw [Function.update_self, if_pos rfl, ← h.tierSize_eq hold,
              roundNat_of_lt (n := record.totalBytes) (by omega), roundNat_of_lt hsum]
          · rw [Function.update_of_ne ht, if_neg (Ne.symm ht)]
            exact h.tierSize_eq hold t }
    · rw [hcomplete]
      show _ ↔ m.Complete ∧ (s.pending record.level).length < queueCapacity
      -- a queue has room while it holds fewer than `queueCapacity` nodes
      constructor
      · rintro ⟨hold, hroom⟩
        have hle := h.queues.length_queue_le record.level
        rw [h.pending_eq hold, List.length_map]
        exact ⟨hold, by omega⟩
      · rintro ⟨hold, hroom⟩
        rw [h.pending_eq hold, List.length_map] at hroom
        exact ⟨hold, Nat.ne_of_lt hroom⟩
  · cases hstep

/-- What a removal from an empty queue does. -/
theorem Tracks.sstMetadataPop_nil (h : s.Tracks m place) {tier : Nat} (htier : tier < maxTiers)
    (hqueue : m.queue tier = []) : sstMetadataPop s.metadata tier = some (none, s.metadata) := by
  unfold sstMetadataPop
  rw [if_neg (Nat.not_le.mpr htier)]
  cases hq : s.metadata.tier tier with
  | none => rfl
  | some queue =>
    have hsame : Function.update s.metadata.tier tier (some queue) = s.metadata.tier := by
      rw [← hq]
      exact Function.update_eq_self tier s.metadata.tier
    simp only [h.queues.dequeue_nil hqueue hq, hsame]

/-- What a removal from another queue does. -/
theorem Tracks.sstMetadataPop_cons (h : s.Tracks m place) {tier : Nat} (htier : tier < maxTiers)
    {m' : Lsmt.SstMetadata} {record : SstMetadataRecord}
    (hpop : Lsmt.sstMetadataPop m tier = some (record, m')) :
    ∃ metadata, sstMetadataPop s.metadata tier = some (some record, metadata) ∧
      Placed metadata.heap metadata.list m'.list place ∧ Queued metadata.tier m' place ∧
      metadata.highestTier = s.metadata.highestTier ∧
      metadata.tierSize = Function.update s.metadata.tierSize tier
        (roundNat (s.metadata.tierSize tier - roundNat record.totalBytes)) := by
  obtain ⟨node, hrecord, hqueue, -, hlist, -, -, -⟩ := SstMetadata.sstMetadataPop_cases h.wf hpop
  obtain ⟨queue, queue', hq, hdequeue, hrest⟩ := h.queues.dequeue hqueue
  -- the head of the queue is on the list, at the level of the tier
  have hnode : node ∈ m.listed tier := h.wf.queue_subset tier (hqueue ▸ List.mem_cons_self)
  obtain ⟨hmem, hlevel⟩ := List.mem_filter.mp hnode
  have hlevel : record.level = tier := by
    rw [← hrecord]
    exact of_decide_eq_true hlevel
  obtain ⟨before, behind, hsplit⟩ := List.append_of_mem hmem
  -- the list without that address is the list around the node
  have hnodup := h.wf.nodup
  rw [hsplit] at hnodup hlist
  rw [filter_addr_ne hnodup] at hlist
  have hplaced := h.placed
  rw [hsplit] at hplaced
  obtain ⟨n, heap', list', hn, hcontent, hremove, hplaced'⟩ := hplaced.remove
  rw [hrecord] at hcontent
  -- all the fields that the pop writes
  let metadata : SstMetadata := { s.metadata with
    heap := heap'
    list := list'
    tier := Function.update s.metadata.tier tier (some queue')
    tierSize := Function.update s.metadata.tierSize tier
      (roundNat (s.metadata.tierSize tier - roundNat record.totalBytes)) }
  refine ⟨metadata, ?_, ?_, h.queues.pop h.wf hpop hq hdequeue hrest, rfl, rfl⟩
  · unfold sstMetadataPop
    rw [if_neg (Nat.not_le.mpr htier)]
    simp only [hq, hdequeue, hn, hcontent, hremove, hlevel, Option.bind_eq_bind, Option.bind_some]
    rfl
  · rw [hlist]
    exact hplaced'

/-- A removal is the model's; it neither loses a node nor finds one that was refused. -/
theorem Tracks.pop (h : s.Tracks m place) {tier : Nat} (hexact : s'.Exact)
    (hstep : s.step (.pop tier) = some s') :
    ∃ m', s'.Tracks m' place ∧ (m'.Complete ↔ m.Complete) := by
  unfold step at hstep
  rw [h.defined] at hstep
  simp only [Bool.false_eq_true, if_false] at hstep
  split at hstep
  · rename_i htier
    cases hqueue : m.queue tier with
    -- an empty queue: the call returns no record and changes nothing
    | nil =>
      rw [h.sstMetadataPop_nil htier hqueue] at hstep
      cases hstep
      refine ⟨m, ?_, Iff.rfl⟩
      exact {
        h with
        defined := rfl
        exact := hexact
        pending_eq := by
          intro hcomplete t
          show Function.update s.pending tier _ t = _
          by_cases ht : t = tier
          · rw [ht, Function.update_self, h.pending_eq hcomplete, hqueue]
            rfl
          · rw [Function.update_of_ne ht]
            exact h.pending_eq hcomplete t }
    -- the oldest node of the tier leaves queue, list and total
    | cons node rest =>
      obtain ⟨m', hpop⟩ := SstMetadata.sstMetadataPop_of_queue hqueue
      obtain ⟨metadata, hlow, hplaced, hqueued, hhighest, hsize⟩ :=
        h.sstMetadataPop_cons htier hpop
      rw [hlow] at hstep
      cases hstep
      have hcomplete := SstMetadata.complete_sstMetadataPop_iff h.wf hpop
      obtain ⟨hhighest', hused⟩ := SstMetadata.sstMetadataPop_used hpop
      obtain ⟨node', hrecord, hfirst, hqueues, hlist, -, -, hsize'⟩ :=
        SstMetadata.sstMetadataPop_cases h.wf hpop
      refine ⟨m', ?_, hcomplete⟩
      exact {
        defined := rfl
        wf := (Lsmt.sstMetadataPop_spec h.wf hpop).1
        accounted := h.accounted.sstMetadataPop h.wf hpop
        level_lt := by
          intro n hn
          rw [hlist] at hn
          exact h.level_lt n (List.mem_filter.mp hn).1
        placed := hplaced
        queues := hqueued
        highestTier_eq := by rw [hhighest, hhighest', h.highestTier_eq]
        used_iff := by
          intro t
          rw [hused]
          exact h.used_iff t
        used_length := by
          rw [hhighest']
          exact h.used_length
        exact := hexact
        pending_eq := by
          intro hcomplete' t
          show Function.update s.pending tier _ t = _
          by_cases ht : t = tier
          · rw [ht, Function.update_self, h.pending_eq (hcomplete.mp hcomplete'), hfirst]
            rfl
          · rw [Function.update_of_ne ht, hqueues t ht]
            exact h.pending_eq (hcomplete.mp hcomplete') t
        -- the total loses the record's bytes, and both numbers are exact
        tierSize_eq := by
          intro hcomplete' t
          have hold := hcomplete.mp hcomplete'
          rw [hsize, hsize']
          by_cases ht : t = tier
          · have hsum := h.exact tier
            have hbytes : node.content.totalBytes ≤ totalBytes (s.pending tier) := by
              rw [h.pending_eq hold, hfirst, List.map_cons, hrecord]
              exact Nat.le_add_right _ _
            have htotal := h.tierSize hold tier
            rw [ht, Function.update_self, Function.update_self, ← h.tierSize_eq hold,
              roundNat_of_lt (n := node.content.totalBytes) (by omega), roundNat_of_lt (by omega)]
          · rw [Function.update_of_ne ht, Function.update_of_ne ht]
            exact h.tierSize_eq hold t }
  · cases hstep

/-! ## The three views agree -/

theorem Tracks.flatMap_queued (h : s.Tracks m place) :
    (List.range maxTiers).flatMap (queued s.metadata.tier) =
      ((List.range maxTiers).flatMap m.queue).map fun n => place n.addr := by
  rw [List.map_flatMap]
  apply List.flatMap_congr
  intro t _
  exact h.queues.toList_eq t

/-- The next removal takes the oldest SST of the tier. -/
theorem Tracks.pop_eq_head? (h : s.Tracks m place) (hcomplete : m.Complete) {tier : Nat}
    (htier : tier < maxTiers) :
    (sstMetadataPop s.metadata tier).map Prod.fst = some (s.pending tier).head? := by
  rw [h.pending_eq hcomplete]
  cases hqueue : m.queue tier with
  | nil =>
    rw [h.sstMetadataPop_nil htier hqueue]
    rfl
  | cons node rest =>
    obtain ⟨m', hpop⟩ := SstMetadata.sstMetadataPop_of_queue hqueue
    obtain ⟨metadata, hlow, -⟩ := h.sstMetadataPop_cons htier hpop
    rw [hlow]
    rfl

theorem Tracks.represents (h : s.Tracks m place) (hcomplete : m.Complete) : s.Represents where
  defined := h.defined
  linked := by
    refine ⟨_, h.placed.linked, h.placed.nodup, ?_, ?_⟩
    · rw [h.flatMap_queued]
      apply List.Perm.map
      refine (SstMetadata.perm_flatMap_listed h.level_lt).trans ?_
      apply List.Perm.flatMap_left
      intro t _
      exact (hcomplete.perm h.wf t).symm
    · intro a ha
      apply h.placed.allocated
      unfold contentAt
      rw [Ne, Option.map_eq_none_iff]
      exact ha
  content := by
    intro t _
    rw [h.queues.toList_eq, h.pending_eq hcomplete, List.map_map, List.map_map]
    apply List.map_congr_left
    intro n hn
    exact h.placed.content n (List.mem_filter.mp (h.wf.queue_subset t hn)).1
  pop := fun t ht => h.pop_eq_head? hcomplete ht
  tierSize := fun t _ => h.tierSize hcomplete t
  highestTier := h.highestTier_eq.trans h.used_length

/-- A refused node is in the list and in no queue. -/
theorem Tracks.complete_of_represents (h : s.Tracks m place) (hs : s.Represents) : m.Complete := by
  obtain ⟨nodes, hlinked, -, hperm, -⟩ := hs.linked
  have hnodes := hlinked.unique h.placed.linked
  have hlen := hperm.length_eq
  rw [hnodes, h.flatMap_queued, List.length_map, List.length_map] at hlen
  exact SstMetadata.complete_of_length_le h.accounted.length_le h.level_lt (Nat.le_of_eq hlen)

/-- One operation keeps the correspondence, and the agreement of the views exactly when it finds
room. -/
theorem represents_step {op : MetadataOp} (h : ∃ m place, s.Tracks m place) (hexact : s'.Exact)
    (hstep : s.step op = some s') :
    (∃ m place, s'.Tracks m place) ∧ (s'.Represents ↔ s.Represents ∧ s.HasRoom op) := by
  obtain ⟨m, place, htracks⟩ := h
  have hiff : s.Represents ↔ m.Complete :=
    ⟨htracks.complete_of_represents, htracks.represents⟩
  cases op with
  | add addr record =>
    obtain ⟨m', place', htracks', hcomplete⟩ := htracks.add hexact hstep
    refine ⟨⟨m', place', htracks'⟩, ?_⟩
    rw [hiff, ← hcomplete]
    exact ⟨htracks'.complete_of_represents, htracks'.represents⟩
  | pop tier =>
    obtain ⟨m', htracks', hcomplete⟩ := htracks.pop hexact hstep
    refine ⟨⟨m', place, htracks'⟩, ?_⟩
    rw [hiff, ← hcomplete]
    exact ⟨fun hs => ⟨htracks'.complete_of_represents hs, trivial⟩, fun hs => htracks'.represents hs.1⟩

/-- Behind a sequence of additions and removals the list, the queues and the totals agree if and only
if no SST was added to a tier that held as many as its queue has room for. -/
theorem represents_iff {ops : List MetadataOp} (hrun : run step init ops = some s)
    (hexact : Always step Exact init ops) :
    s.Represents ↔ EachStep step HasRoom init ops := by
  have hinit : init.Represents :=
    tracks_init.represents SstMetadata.complete_sstMetadataInit
  have hsteps : EachStep step (fun s op => ∀ s', s.step op = some s' → s'.Exact) init ops := by
    intro before op behind t hops ht s' hs'
    have hbefore : ops = (before ++ [op]) ++ behind := by
      rw [hops, List.append_assoc]
      rfl
    exact hexact _ _ s' hbefore (run_append_eq_some.mpr ⟨t, ht, run_cons_eq_some.mpr ⟨s', hs', rfl⟩⟩)
  have hall := run_iff_eachStep (I := fun s => ∃ m place, s.Tracks m place)
    (fun _ _ _ hs hR hstep => represents_step hs (hR _ hstep) hstep) ⟨_, _, tracks_init⟩ hsteps hrun
  rw [hall.2]
  exact and_iff_right hinit

/-- There is room for another node. -/
theorem Tracks.exists_free (h : s.Tracks m place) : ∃ addr, s.metadata.heap addr = none := by
  obtain ⟨addr, haddr⟩ := Infinite.exists_notMem_finset (m.list.map fun n => place n.addr).toFinset
  refine ⟨addr, ?_⟩
  by_contra hne
  apply haddr
  rw [List.mem_toFinset]
  apply h.placed.allocated
  unfold contentAt
  rw [Ne, Option.map_eq_none_iff]
  exact hne

/-- The metadata behind an addition, whether or not the queue takes the node. -/
theorem Tracks.exists_add (h : s.Tracks m place) {record : SstMetadataRecord}
    (hlevel : record.level < maxTiers) {addr : Nat} (hfree : s.metadata.heap addr = none) :
    ∃ s', s.step (.add addr record) = some s' ∧
      s'.pending =
        Function.update s.pending record.level (s.pending record.level ++ [record]) := by
  have hnext : ∀ n ∈ m.list, n.addr ≠ m.nextAddr := fun n hn =>
    Nat.ne_of_lt (h.wf.addr_lt n hn)
  obtain ⟨heap', hadd, -⟩ := h.placed.add hnext hfree record
  obtain ⟨metadata, hmetadata⟩ : ∃ metadata,
      sstMetadataAdd s.metadata addr record = some metadata := by
    unfold sstMetadataAdd
    rw [if_neg (Nat.not_le.mpr hlevel), hadd]
    exact ⟨_, rfl⟩
  unfold step
  simp only [h.defined, Bool.false_eq_true, if_false, if_pos (And.intro hlevel hfree), hmetadata]
  exact ⟨_, rfl, rfl⟩

/-- A tier takes any number of SSTs. -/
theorem exists_run_of_length {record : SstMetadataRecord} (hlevel : record.level < maxTiers)
    (n : Nat) (hbytes : n * record.totalBytes < 2 ^ 53) :
    ∃ ops s, run step init ops = some s ∧ Always step Exact init ops ∧
      (∃ m place, s.Tracks m place) ∧
      s.pending = Function.update (fun _ => []) record.level (List.replicate n record) := by
  induction n with
  | zero =>
    refine ⟨[], init, rfl, always_nil tracks_init.exact, ⟨_, _, tracks_init⟩, ?_⟩
    rw [List.replicate_zero]
    exact (Function.update_eq_self record.level init.pending).symm
  | succ n ih =>
    rw [Nat.succ_mul] at hbytes
    obtain ⟨ops, s, hrun, hexact, ⟨m, place, h⟩, hpending⟩ := ih (by omega)
    obtain ⟨addr, hfree⟩ := h.exists_free
    obtain ⟨s', hstep, hpending'⟩ := h.exists_add hlevel hfree
    rw [hpending, Function.update_self, Function.update_idem, ← List.replicate_succ'] at hpending'
    have hs' : s'.Exact := by
      intro t
      rw [hpending']
      by_cases ht : t = record.level
      · rw [ht, Function.update_self]
        unfold totalBytes
        rw [List.map_replicate, List.sum_replicate, smul_eq_mul, Nat.succ_mul]
        exact hbytes
      · rw [Function.update_of_ne ht]
        exact Nat.pow_pos (by decide)
    have hrun' : run step init (ops ++ [.add addr record]) = some s' :=
      run_append_eq_some.mpr ⟨s, hrun, run_cons_eq_some.mpr ⟨s', hstep, rfl⟩⟩
    obtain ⟨m', place', h', -⟩ := h.add hs' hstep
    refine ⟨_, s', hrun', always_concat hexact ?_, ⟨m', place', h'⟩, hpending'⟩
    intro t ht
    rw [hrun'] at ht
    cases ht
    exact hs'

/-- An SST of one record. -/
def smallSst : SstMetadataRecord where
  id := 0
  level := 0
  totalBytes := 26
  minKey := ⟨1, 1⟩
  maxKey := ⟨1, 1⟩
  sstFile := []
  sstIndexFile := []
  cachedIndex := none

/-- An addition at the address 7, which finds room, and a removal. -/
theorem represents_iff_one :
    ∃ s, run step init [.add 7 smallSst, .pop 0] = some s ∧ s.Represents := by
  obtain ⟨s, hrun⟩ : ∃ s, run step init [.add 7 smallSst, .pop 0] = some s := ⟨_, rfl⟩
  refine ⟨s, hrun, (represents_iff hrun ?_).mpr ?_⟩
  rotate_left
  · refine eachStep_cons.mpr ⟨?_, fun t _ => eachStep_cons.mpr ⟨trivial, fun t _ => eachStep_nil _ _ _⟩⟩
    show 0 < queueCapacity
    decide
  have hone : Always step Exact init [.add 7 smallSst] := by
    refine always_concat (always_nil tracks_init.exact) ?_
    intro s hs
    cases hs
    intro t
    show totalBytes (Function.update (fun _ => []) 0 [smallSst] t) < 2 ^ 53
    by_cases ht : t = 0
    · rw [ht, Function.update_self]
      decide
    · rw [Function.update_of_ne ht]
      decide
  refine always_concat hone ?_
  intro s hs
  cases hs
  intro t
  show totalBytes (Function.update (Function.update (fun _ => []) 0 [smallSst]) 0 [] t) < 2 ^ 53
  rw [Function.update_idem]
  by_cases ht : t = 0
  · rw [ht, Function.update_self]
    decide
  · rw [Function.update_of_ne ht]
    decide

/-- One SST more than the queue of tier 0 has room for is in the list and in no queue. -/
theorem not_represents :
    ¬ ∀ ops s, run step init ops = some s → Always step Exact init ops → s.Represents := by
  intro hall
  obtain ⟨ops, s, hrun, hexact, ⟨m, place, h⟩, hpending⟩ :=
    exists_run_of_length (show smallSst.level < maxTiers by decide) (queueCapacity + 1) (by decide)
  have hlen := congrArg List.length ((hall ops s hrun hexact).content 0 (by decide))
  have hroom := h.queues.length_queue_le 0
  have hlevel : Function.update (fun _ => []) smallSst.level
      (List.replicate (queueCapacity + 1) smallSst) 0 =
        List.replicate (queueCapacity + 1) smallSst := Function.update_self 0 _ _
  rw [List.length_map, List.length_map, h.queues.toList_eq, List.length_map, hpending, hlevel,
    List.length_replicate] at hlen
  omega

end MetadataRun

end RaftLsmt.Lsmt.Nodes
