import RaftLsmt.Lib.RefCount
import RaftLsmt.Lsmt.FullTiers

/-!
# The lifetime of SSTs

A `sst_metadata_record_t` is counted: the metadata list holds one reference, which a pop hands to the
compaction, and every SST iterator holds one. The last release frees the record and, when it is
marked old, removes its two files. `Lifetime` is the store together with the records on the heap, the
iterators of the merge and those of any number of query threads. A record is named by the address of
the node it is allocated with. Every creation and every release of a single iterator is a step of its
own; while `lsmt_iterator_create` holds `metadata_lock`, the steps that need it are not enabled.

`Lifetime.Inv` says who holds the references; `sst_lifetime` is what follows for the counts and the
files. Every run of the store is the store's part of one with iterators (`Lifetime.exists_run_store`).
-/

set_option autoImplicit false

namespace RaftLsmt.Lsmt

open RaftLsmt.Lib.StepMachine
open RaftLsmt.Lib.RefCount

/-! ## Popping nodes -/

/-- `sst_metadata_pop`, with the node that carries the record. -/
def sstMetadataPopNode (m : SstMetadata) (tier : Nat) : Option (SstNode × SstMetadata) :=
  match m.tier tier with
  | none => none
  | some [] => none
  | some (node :: queue) =>
    some (node, { m with
      list := m.list.filter fun n => n.addr ≠ node.addr
      tier := Function.update m.tier tier (some queue)
      tierSize := Function.update m.tierSize node.content.level
        (m.tierSize node.content.level - node.content.totalBytes) })

theorem sstMetadataPop_eq (m : SstMetadata) (tier : Nat) :
    sstMetadataPop m tier = (sstMetadataPopNode m tier).map fun p => (p.1.content, p.2) := by
  unfold sstMetadataPop sstMetadataPopNode
  cases m.tier tier with
  | none => rfl
  | some queue => cases queue <;> rfl

/-- `sstPopInputs` with the nodes. -/
def sstPopNodes (tier sizeDelta : Nat) :
    Nat → SstMetadata → List SstNode → List SstNode × SstMetadata
  | 0, m, nodes => (nodes, m)
  | fuel + 1, m, nodes =>
    if 2 ≤ nodes.length ∧ (nodes.map fun n => n.content.totalBytes).sum > sizeDelta then (nodes, m)
    else if sstCount m tier = 0 then (nodes, m)
    else
      match sstMetadataPopNode m tier with
      | none => (nodes, m)
      | some (node, m) => sstPopNodes tier sizeDelta fuel m (nodes ++ [node])

theorem sstPopInputs_eq (tier sizeDelta fuel : Nat) (m : SstMetadata) (nodes : List SstNode) :
    sstPopInputs tier sizeDelta fuel m (nodes.map SstNode.content) =
      ((sstPopNodes tier sizeDelta fuel m nodes).1.map SstNode.content,
        (sstPopNodes tier sizeDelta fuel m nodes).2) := by
  induction fuel generalizing m nodes with
  | zero => rfl
  | succ fuel ih =>
    have hsum : ((nodes.map SstNode.content).map SstMetadataRecord.totalBytes).sum =
        (nodes.map fun n => n.content.totalBytes).sum := by
      rw [List.map_map]
      rfl
    rw [sstPopInputs, sstPopNodes, List.length_map, hsum, sstMetadataPop_eq]
    split
    · rfl
    · split
      · rfl
      · cases hpop : sstMetadataPopNode m tier with
        | none => rfl
        | some p =>
          have h := ih p.2 (nodes ++ [p.1])
          rw [List.map_append, List.map_singleton] at h
          exact h

/-- One pop moves one node of the tier out of the list. -/
theorem sstMetadataPopNode_spec {m m' : SstMetadata} (hm : m.Wf) {tier : Nat} {node : SstNode}
    (h : sstMetadataPopNode m tier = some (node, m')) :
    m'.Wf ∧ node.content.level = tier ∧ m'.nextAddr = m.nextAddr ∧ m.list.Perm (node :: m'.list) := by
  have hpop : sstMetadataPop m tier = some (node.content, m') := by rw [sstMetadataPop_eq, h]; rfl
  obtain ⟨hwf, hlevel, -⟩ := sstMetadataPop_spec hm hpop
  refine ⟨hwf, hlevel, ?_⟩
  unfold sstMetadataPopNode at h
  split at h
  · cases h
  · cases h
  · rename_i queue hq
    cases h
    exact ⟨rfl, perm_cons_filter_addr hm.nodup (hm.queued tier _ hq node List.mem_cons_self).1⟩

/-- The selection loop moves at most `fuel` nodes of the tier out of the list. -/
theorem sstPopNodes_spec (tier sizeDelta fuel : Nat) {m : SstMetadata} (hm : m.Wf)
    (nodes : List SstNode) :
    ∃ popped, (sstPopNodes tier sizeDelta fuel m nodes).1 = nodes ++ popped ∧
      popped.length ≤ fuel ∧ (∀ n ∈ popped, n.content.level = tier) ∧
      (sstPopNodes tier sizeDelta fuel m nodes).2.Wf ∧
      (sstPopNodes tier sizeDelta fuel m nodes).2.nextAddr = m.nextAddr ∧
      m.list.Perm (popped ++ (sstPopNodes tier sizeDelta fuel m nodes).2.list) := by
  have hnone : ∀ fuel, ∃ popped, nodes = nodes ++ popped ∧ popped.length ≤ fuel ∧
      (∀ n ∈ popped, n.content.level = tier) ∧ m.Wf ∧ m.nextAddr = m.nextAddr ∧
      m.list.Perm (popped ++ m.list) := by
    intro fuel
    exact ⟨[], by simp, Nat.zero_le _, by simp, hm, rfl, List.Perm.refl _⟩
  induction fuel generalizing m nodes with
  | zero => exact hnone 0
  | succ fuel ih =>
    rw [sstPopNodes]
    split
    · exact hnone _
    · split
      · exact hnone _
      · split
        · exact hnone _
        · rename_i node m' hpop
          obtain ⟨hm', hlevel, hnext, hperm⟩ := sstMetadataPopNode_spec hm hpop
          obtain ⟨popped, hfst, hlen, hlevels, hwf, hnext', hperm'⟩ := ih hm' (nodes ++ [node])
            fun fuel => ⟨[], by simp, Nat.zero_le _, by simp, hm', rfl, List.Perm.refl _⟩
          refine ⟨node :: popped, ?_, ?_, ?_, hwf, hnext'.trans hnext, ?_⟩
          · rw [hfst, List.append_assoc, List.singleton_append]
          · rw [List.length_cons]
            omega
          · intro n hn
            rcases List.mem_cons.mp hn with rfl | hn
            · exact hlevel
            · exact hlevels n hn
          · exact hperm.trans (hperm'.cons node)

/-! ## The heap of metadata records -/

/-- The counts, the `old` marks and the records whose files have been removed. -/
structure SstHeap where
  refs : RefHeap
  old : Nat → Bool
  removed : List Nat

namespace SstHeap

/-- `new_node`. -/
def alloc (h : SstHeap) : SstHeap :=
  { h with
    refs := h.refs.alloc
    old := Function.update h.old h.refs.allocated false }

/-- `sst_metadata_record_retain`. -/
def retain (h : SstHeap) (a : Nat) : SstHeap := { h with refs := h.refs.retain a }

/-- `sst_metadata_record_release`. -/
def release (h : SstHeap) (a : Nat) : SstHeap :=
  { h with
    refs := h.refs.release a
    removed := if h.refs.count a = 1 ∧ h.old a = true then h.removed ++ [a] else h.removed }

/-- `old = true`, then `sst_metadata_record_release`. -/
def delete (h : SstHeap) (a : Nat) : SstHeap :=
  release { h with old := Function.update h.old a true } a

end SstHeap

/-! ## The machine -/

/-- The store with its records. `inputs` is the array `records` of `sst_compact`, `sstToDelete` its
array of the same name; `mergeTodo` are the inputs for which `sst_merge` has yet to create an
iterator and `mergeIts` those its iterators hold. `readers` are the iterators of the query threads,
the newest first, each with the records it holds; `creating` is what the newest has yet to retain.
`replaced` is history: the inputs whose merged record has been registered. -/
structure Lifetime where
  world : World
  heap : SstHeap
  inputs : List SstNode
  mergeTodo : List Nat
  mergeIts : List Nat
  sstToDelete : List SstNode
  readers : List (List Nat)
  creating : List Nat
  replaced : List Nat

/-- What happens next: a step of the store, or of one iterator. -/
inductive LifeAction where
  | store (a : Action)
  | mergeCreate
  | mergeOpen (j : Nat)
  | mergeFree (j : Nat)
  | deleteInput
  | readerCreate
  | readerRetain
  | readerOpen (i j : Nat)
  | readerFree (i j : Nat)

/-- The records on the metadata list. -/
def SstMetadata.addrs (m : SstMetadata) : List Nat := m.list.map SstNode.addr

/-- The steps of the store that hold `metadata_lock`. -/
def World.locksMetadata (w : World) : Action → Bool
  | .flushDaemon =>
    match w.flushPc with
    | .registering _ _ => true
    | _ => false
  | .compact _ =>
    match w.compactPc with
    | .starting => true
    | .scanning _ => true
    | .adding _ _ _ => true
    | .snapshotting _ => true
    | _ => false
  | _ => false

/-- The nodes that a tier of `sst_compact` pops. -/
def World.popped (w : World) (pass : CompactPass) : List SstNode :=
  if pass.tier > pass.highestTier then []
  else if w.lsmt.metadata.tierSize pass.tier > tierSizeThreshold pass.tier then
    (sstPopNodes pass.tier (w.lsmt.metadata.tierSize pass.tier - tierSizeThreshold pass.tier)
      sstableMergeLimit w.lsmt.metadata []).1
  else []

namespace Lifetime

/-- The store before its first step. -/
def init : Lifetime where
  world := World.init lsmtInit
  heap := ⟨RefHeap.empty, fun _ => false, []⟩
  inputs := []
  mergeTodo := []
  mergeIts := []
  sstToDelete := []
  readers := []
  creating := []
  replaced := []

/-- A step of the flush daemon to `w`. -/
def afterFlush (s : Lifetime) (w : World) : Lifetime :=
  match s.world.flushPc with
  | .registering _ _ =>
    if w.status = .running then { s with world := w, heap := s.heap.alloc } else { s with world := w }
  | _ => { s with world := w }

/-- A step of the compaction to `w`. `sst_merge` begins when its iterators exist and ends when they
are closed, and the compaction is over when all of `sst_to_delete` is released. -/
def afterCompact (s : Lifetime) (w : World) : Option Lifetime :=
  match s.world.compactPc with
  | .scanning pass =>
    some { s with
      world := w
      inputs := s.world.popped pass
      mergeTodo := (s.world.popped pass).map SstNode.addr }
  | .mergeWait _ _ => if s.mergeTodo ≠ [] then none else some { s with world := w }
  | .adding _ _ _ =>
    if s.mergeIts ≠ [] then none
    else if w.status = .running then
      let room := deleteBufferSize - s.sstToDelete.length
      some { s with
        world := w
        heap := (s.inputs.drop room).foldl (fun heap n => heap.delete n.addr) s.heap.alloc
        inputs := []
        sstToDelete := s.sstToDelete ++ s.inputs.take room
        replaced := s.replaced ++ s.inputs.map SstNode.addr }
    else some { s with world := w }
  | .deleting _ => if s.sstToDelete ≠ [] then none else some { s with world := w }
  | _ => some { s with world := w }

/-- A step of the store's threads. -/
def storeStep (s : Lifetime) (a : Action) : Option Lifetime :=
  if s.creating ≠ [] ∧ s.world.locksMetadata a = true then none
  else
    match s.world.step a with
    | none => none
    | some w =>
      match a with
      | .flushDaemon => some (s.afterFlush w)
      | .compact _ => s.afterCompact w
      | _ => some { s with world := w }

/-- Where the compaction takes its steps: `sst_merge` creates its iterators before it waits, reads and
then closes them; the inputs are released at the end. -/
def enabled (s : Lifetime) : LifeAction → Bool
  | .mergeCreate =>
    match s.world.compactPc with
    | .mergeWait _ _ => true
    | _ => false
  | .mergeOpen _ =>
    match s.world.compactPc with
    | .merging _ _ => true
    | _ => false
  | .mergeFree _ =>
    match s.world.compactPc with
    | .adding _ _ _ => true
    | _ => false
  | .deleteInput =>
    match s.world.compactPc with
    | .deleting _ => true
    | _ => false
  | _ => true

/-- One step of one thread. -/
def step (s : Lifetime) (act : LifeAction) : Option Lifetime :=
  if s.world.status ≠ .running ∨ s.enabled act = false then none
  else
    match act with
    | .store a => s.storeStep a
    | .mergeCreate =>
      match s.mergeTodo with
      | [] => none
      | a :: rest =>
        some { s with heap := s.heap.retain a, mergeTodo := rest, mergeIts := s.mergeIts ++ [a] }
    | .mergeOpen j => if j < s.mergeIts.length then some s else none
    | .mergeFree j =>
      match s.mergeIts[j]? with
      | none => none
      | some a => some { s with heap := s.heap.release a, mergeIts := s.mergeIts.eraseIdx j }
    | .deleteInput =>
      match s.sstToDelete with
      | [] => none
      | n :: rest => some { s with heap := s.heap.delete n.addr, sstToDelete := rest }
    | .readerCreate =>
      if s.creating ≠ [] then none
      else some { s with creating := s.world.lsmt.metadata.addrs, readers := [] :: s.readers }
    | .readerRetain =>
      match s.creating, s.readers with
      | a :: rest, its :: readers =>
        some { s with
          heap := s.heap.retain a
          creating := rest
          readers := (its ++ [a]) :: readers }
      | _, _ => none
    | .readerOpen i j =>
      match s.readers[i]? with
      | none => none
      | some its => if j < its.length then some s else none
    | .readerFree i j =>
      if i = 0 ∧ s.creating ≠ [] then none
      else
        match s.readers[i]? with
        | none => none
        | some its =>
          match its[j]? with
          | none => none
          | some a =>
            some { s with
              heap := s.heap.release a
              readers := s.readers.set i (its.eraseIdx j) }

/-- The record whose files a step opens. -/
def opens (s : Lifetime) : LifeAction → Option Nat
  | .mergeOpen j => s.mergeIts[j]?
  | .readerOpen i j => (s.readers[i]?).bind fun its => its[j]?
  | _ => none

/-- The records on the list, and those the compaction holds. -/
def owners (s : Lifetime) : List Nat :=
  s.world.lsmt.metadata.addrs ++ (s.inputs ++ s.sstToDelete).map SstNode.addr

/-- The records that open iterators hold, one entry for each iterator. -/
def iterators (s : Lifetime) : List Nat := s.mergeIts ++ s.readers.flatten

end Lifetime

/-! ## Who holds the references -/

/-- Each of `owners` has one reference and the others belong to `iterators`. What has no owner is
marked old, and what is freed has lost its files. -/
structure SstHeap.Holds (h : SstHeap) (owners iterators : List Nat) : Prop where
  accounts : h.refs.Accounts (owners ++ iterators)
  nodup : owners.Nodup
  old : ∀ a, a < h.refs.allocated → a ∉ owners → h.old a = true
  removed : h.removed = h.refs.freed

namespace SstHeap.Holds

variable {h : SstHeap} {owners owners' iterators iterators' : List Nat} {a : Nat}

theorem perm (hh : h.Holds owners iterators) (howners : owners.Perm owners')
    (hits : iterators.Perm iterators') : h.Holds owners' iterators' where
  accounts := hh.accounts.perm (howners.append hits)
  nodup := howners.nodup_iff.mp hh.nodup
  old b hb hnot := hh.old b hb fun hmem => hnot (howners.subset hmem)
  removed := hh.removed

theorem alloc (hh : h.Holds owners iterators) :
    h.alloc.Holds (h.refs.allocated :: owners) iterators where
  accounts := hh.accounts.alloc
  nodup := by
    apply List.nodup_cons.mpr
    refine ⟨fun hmem => ?_, hh.nodup⟩
    exact Nat.lt_irrefl _ (hh.accounts.lt_allocated _ (List.mem_append_left _ hmem))
  old b hb hnot := by
    rw [List.mem_cons, not_or] at hnot
    have hlt : b < h.refs.allocated + 1 := hb
    show Function.update h.old h.refs.allocated false b = true
    rw [Function.update_of_ne hnot.1]
    exact hh.old b (by omega) hnot.2
  removed := hh.removed

/-- An iterator is created over a record that has an owner. -/
theorem retain (hh : h.Holds owners iterators) (ha : a ∈ owners) :
    (h.retain a).Holds owners (a :: iterators) where
  accounts := (hh.accounts.retain (List.mem_append_left _ ha)).perm List.perm_middle.symm
  nodup := hh.nodup
  old := hh.old
  removed := hh.removed

/-- An iterator that holds the last reference frees a record without an owner, which is marked. -/
theorem release (hh : h.Holds owners (a :: iterators)) : (h.release a).Holds owners iterators where
  accounts := (hh.accounts.perm List.perm_middle).release
  nodup := hh.nodup
  old := hh.old
  removed := by
    have hlast : h.refs.count a = 1 → h.old a = true := by
      intro hcount
      have hlt : a < h.refs.allocated :=
        hh.accounts.lt_allocated a (List.mem_append_right _ List.mem_cons_self)
      apply hh.old a hlt
      intro hmem
      have htwo := hh.accounts.count_eq a hlt
      rw [List.count_append, List.count_cons_self] at htwo
      have hone := List.count_pos_iff.mpr hmem
      omega
    show (if h.refs.count a = 1 ∧ h.old a = true then h.removed ++ [a] else h.removed) =
      if h.refs.count a = 1 then h.refs.freed ++ [a] else h.refs.freed
    rw [hh.removed]
    by_cases hcount : h.refs.count a = 1
    · rw [if_pos ⟨hcount, hlast hcount⟩, if_pos hcount]
    · rw [if_neg fun hboth => hcount hboth.1, if_neg hcount]

/-- The owner gives up its reference. -/
theorem delete (hh : h.Holds (a :: owners) iterators) : (h.delete a).Holds owners iterators where
  accounts := hh.accounts.release
  nodup := (List.nodup_cons.mp hh.nodup).2
  old b hb hnot := by
    show Function.update h.old a true b = true
    by_cases hab : b = a
    · rw [hab, Function.update_self]
    · rw [Function.update_of_ne hab]
      apply hh.old b hb
      rw [List.mem_cons, not_or]
      exact ⟨hab, hnot⟩
  removed := by
    show (if h.refs.count a = 1 ∧ Function.update h.old a true a = true then h.removed ++ [a]
      else h.removed) = if h.refs.count a = 1 then h.refs.freed ++ [a] else h.refs.freed
    rw [Function.update_self, hh.removed]
    simp only [and_true]

end SstHeap.Holds

namespace Lifetime

/-- The compaction has popped `nodes` with the records `inputs` from the tier of `pass`. -/
structure Merges (nodes sstToDelete : List SstNode) (pass : CompactPass)
    (inputs : List SstMetadataRecord) : Prop where
  inputs_eq : inputs = nodes.map SstNode.content
  level : ∀ n ∈ nodes, n.content.level = pass.tier
  nodes_length : nodes.length ≤ sstableMergeLimit
  toDelete_length : sstToDelete.length ≤ sstableMergeLimit * pass.tier

/-- What the compaction holds at each point. Every tier puts at most `sstableMergeLimit` records into
`sst_to_delete`, so that the array is never full. -/
def CompactionHolds (s : Lifetime) : CompactPc → Prop
  | .waiting => s.inputs = [] ∧ s.sstToDelete = []
  | .starting => s.inputs = [] ∧ s.sstToDelete = []
  | .scanning pass =>
    s.inputs = [] ∧ s.sstToDelete.length ≤ sstableMergeLimit * pass.tier ∧
      (pass.mustFlush = false → s.sstToDelete = [])
  | .mergeWait pass inputs => Merges s.inputs s.sstToDelete pass inputs
  | .merging pass inputs => s.mergeTodo = [] ∧ Merges s.inputs s.sstToDelete pass inputs
  | .adding pass inputs newSst =>
    s.mergeTodo = [] ∧ Merges s.inputs s.sstToDelete pass inputs ∧ newSst.level = pass.tier + 1
  | .snapshotting _ => s.inputs = []
  | .writingMetadata _ _ _ => s.inputs = []
  | .deleting _ => s.inputs = []
  | .quitting _ => True

/-- The invariant: who holds the references, what is still to be retained is owned, and what is
neither listed nor an input has been replaced. -/
structure Inv (s : Lifetime) : Prop where
  wf : s.world.lsmt.metadata.Wf
  allocated : s.heap.refs.allocated = s.world.lsmt.metadata.nextAddr
  holds : s.heap.Holds s.owners s.iterators
  creating : s.creating ⊆ s.world.lsmt.metadata.addrs
  mergeTodo : s.mergeTodo ⊆ s.inputs.map SstNode.addr
  compaction : s.CompactionHolds s.world.compactPc
  replaced : ∀ a, a < s.heap.refs.allocated → a ∉ s.world.lsmt.metadata.addrs →
    a ∉ s.inputs.map SstNode.addr → a ∈ s.replaced

/-- The invariant holds again and nothing has lost its owner. -/
structure Keeps (s s' : Lifetime) : Prop where
  inv : s'.Inv
  owners : s.owners ⊆ s'.owners

theorem inv_init : init.Inv where
  wf := SstMetadata.wf_sstMetadataInit
  allocated := rfl
  holds := ⟨RefHeap.accounts_empty, List.nodup_nil, fun a ha => absurd ha (Nat.not_lt_zero a), rfl⟩
  creating := List.Subset.refl _
  mergeTodo := List.Subset.refl _
  compaction := ⟨rfl, rfl⟩
  replaced a ha := absurd ha (Nat.not_lt_zero a)

end Lifetime

/-! ## The steps of the store -/

theorem SstMetadata.addrs_add {m m' : SstMetadata} {record : SstMetadataRecord}
    (h : sstMetadataAdd m record = some m') :
    m'.addrs = m.nextAddr :: m.addrs ∧ m'.nextAddr = m.nextAddr + 1 ∧ record.level < maxTiers := by
  unfold sstMetadataAdd at h
  split at h
  · cases h
  · rename_i hlevel
    cases h
    exact ⟨rfl, rfl, Nat.lt_of_not_le hlevel⟩

/-- The snapshot a daemon is about to write, with its generation. -/
def FlushPc.copied : FlushPc → Option (Nat × MetadataSnapshot)
  | .writingMetadata _ generation snapshot => some (generation, snapshot)
  | _ => none

/-- The generation of the list and the metadata file stay as they are. -/
structure World.SameFile (w w' : World) : Prop where
  generation : w'.lsmt.metadataGeneration = w.lsmt.metadataGeneration
  diskGeneration : w'.lsmt.diskGeneration = w.lsmt.diskGeneration
  diskMetadata : w'.lsmt.diskMetadata = w.lsmt.diskMetadata

/-- What a step that is not one of the compaction does to the metadata: nothing, or the flush daemon
registers an SST and copies the list, or it writes its copy. -/
inductive World.MetadataStep (w w' : World) : Action → Prop where
  | same {a : Action} (hlist : w'.lsmt.metadata = w.lsmt.metadata) (hfile : w.SameFile w')
      (hcopied : w'.flushPc.copied = w.flushPc.copied)
      (hstopped : ∀ memtable sst, a = .flushDaemon → w.flushPc = .registering memtable sst →
        w'.status ≠ .running) : MetadataStep w w' a
  | registers {memtable : Sl} {sst : SstMetadataRecord} (hpc : w.flushPc = .registering memtable sst)
      (hrunning : w'.status = .running)
      (hadd : sstMetadataAdd w.lsmt.metadata { sst with id := w.lsmt.sstableId } =
        some w'.lsmt.metadata)
      (hgeneration : w'.lsmt.metadataGeneration = w.lsmt.metadataGeneration + 1)
      (hdisk : w'.lsmt.diskGeneration = w.lsmt.diskGeneration ∧
        w'.lsmt.diskMetadata = w.lsmt.diskMetadata)
      (hcopied : w'.flushPc.copied =
        some (w.lsmt.metadataGeneration + 1, sstMetadataCopyRecords w'.lsmt.metadata)) :
      MetadataStep w w' .flushDaemon
  | writes {memtable : Sl} {generation : Nat} {snapshot : MetadataSnapshot}
      (hpc : w.flushPc = .writingMetadata memtable generation snapshot)
      (hlsmt : w'.lsmt = writeMetadata w.lsmt generation snapshot)
      (hcopied : w'.flushPc.copied = none) : MetadataStep w w' .flushDaemon

theorem World.FlushDaemonStep.metadataStep {w w' : World} (hrunning : w.status = .running)
    (h : w.FlushDaemonStep w') : w.MetadataStep w' .flushDaemon := by
  cases h with
  | wake hpc => exact .same rfl ⟨rfl, rfl, rfl⟩ (by rw [hpc]; rfl) (by simp [hpc])
  | idle hpc => exact .same rfl ⟨rfl, rfl, rfl⟩ (by rw [hpc]; rfl) (by simp [hpc])
  | drain memtable rest hpc => exact .same rfl ⟨rfl, rfl, rfl⟩ (by rw [hpc]; rfl) (by simp [hpc])
  | writeError memtable hpc => exact .same rfl ⟨rfl, rfl, rfl⟩ (by rw [hpc]; rfl) (by simp [hpc])
  | written memtable sst hpc => exact .same rfl ⟨rfl, rfl, rfl⟩ (by rw [hpc]; rfl) (by simp [hpc])
  | overrun memtable hpc => exact .same rfl ⟨rfl, rfl, rfl⟩ rfl (by simp [hpc])
  | refused memtable sst hpc =>
    -- the process stops instead of registering
    exact .same rfl ⟨rfl, rfl, rfl⟩ rfl fun _ _ _ _ hrun => nomatch hrun
  | register memtable sst metadata hpc hadd => exact .registers hpc hrunning hadd rfl ⟨rfl, rfl⟩ rfl
  | writeFile memtable generation snapshot hpc => exact .writes hpc rfl rfl
  | unregister memtable registered hpc =>
    refine .same rfl ⟨rfl, rfl, rfl⟩ ?_ (by simp [hpc])
    rw [hpc]
    cases registered <;> rfl
  | signal hpc => exact .same rfl ⟨rfl, rfl, rfl⟩ (by rw [hpc]; rfl) (by simp [hpc])

/-- The threads other than the compaction. -/
theorem World.step_metadata {w w' : World} {a : Action} (ha : ∀ faults, a ≠ .compact faults)
    (hstep : w.step a = some w') : w.MetadataStep w' a := by
  obtain ⟨hrunning, hstep⟩ := World.step_cases hstep
  cases hstep with
  | insert key content hwaits call hcall =>
    unfold lsmtInsertLocked
    rcases lsmtRotate_cases w.lsmt with hrot | ⟨threads, needSpawn, -, hrot⟩
    · rw [hrot]
      exact .same rfl ⟨rfl, rfl, rfl⟩ rfl (by simp)
    · rw [hrot]
      exact .same rfl ⟨rfl, rfl, rfl⟩ rfl (by simp)
  | flushDaemon _ hdaemon => exact hdaemon.metadataStep hrunning
  | compact faults => exact absurd rfl (ha faults)
  | _ => exact .same rfl ⟨rfl, rfl, rfl⟩ rfl (by simp)

theorem perm_cons_eraseIdx {l : List Nat} {j a : Nat} (h : l[j]? = some a) :
    l.Perm (a :: l.eraseIdx j) := by
  obtain ⟨hlt, rfl⟩ := List.getElem?_eq_some_iff.mp h
  exact (List.getElem_cons_eraseIdx_perm hlt).symm

theorem flatten_set_perm {ls : List (List Nat)} {i a : Nat} {l l' : List Nat}
    (h : ls[i]? = some l) (hperm : l.Perm (a :: l')) :
    ls.flatten.Perm (a :: (ls.set i l').flatten) := by
  induction ls generalizing i with
  | nil => cases h
  | cons head ls ih =>
    cases i with
    | zero =>
      cases h
      exact hperm.append_right _
    | succ i => exact ((ih h).append_left head).trans List.perm_middle

namespace Lifetime

namespace Inv

variable {s s' : Lifetime} {w : World}

/-- A step that leaves the list and the references alone. -/
theorem move (hs : s.Inv) (hlist : w.lsmt.metadata = s.world.lsmt.metadata)
    (hpc : s.CompactionHolds w.compactPc) : s.Keeps { s with world := w } := by
  -- no owner has moved
  have howners : owners { s with world := w } = s.owners := by
    show w.lsmt.metadata.addrs ++ _ = s.world.lsmt.metadata.addrs ++ _
    rw [hlist]
  refine ⟨?_, howners ▸ List.Subset.refl _⟩
  exact {
    wf := by
      show w.lsmt.metadata.Wf
      rw [hlist]
      exact hs.wf
    allocated := by
      show s.heap.refs.allocated = w.lsmt.metadata.nextAddr
      rw [hlist]
      exact hs.allocated
    holds := by
      rw [howners]
      exact hs.holds
    creating := by
      show s.creating ⊆ w.lsmt.metadata.addrs
      rw [hlist]
      exact hs.creating
    mergeTodo := hs.mergeTodo
    compaction := hpc
    replaced := by
      intro a ha hlisted
      apply hs.replaced a ha
      rw [← hlist]
      exact hlisted }

/-- The flush daemon registers an SST. -/
theorem register (hs : s.Inv) {record : SstMetadataRecord}
    (hadd : sstMetadataAdd s.world.lsmt.metadata record = some w.lsmt.metadata)
    (hpc : w.compactPc = s.world.compactPc) (hcreating : s.creating = []) :
    s.Keeps { s with world := w, heap := s.heap.alloc } := by
  obtain ⟨haddrs, hnext, -⟩ := SstMetadata.addrs_add hadd
  -- the new record's owner is the list
  have howners : owners { s with world := w, heap := s.heap.alloc } =
      s.heap.refs.allocated :: s.owners := by
    show w.lsmt.metadata.addrs ++ _ = _
    rw [haddrs, hs.allocated]
    rfl
  refine ⟨?_, howners ▸ List.subset_cons_self _ _⟩
  refine ⟨(sstMetadataAdd_spec hs.wf hadd).1, ?_, ?_, ?_, hs.mergeTodo, ?_, ?_⟩
  · show s.heap.refs.allocated + 1 = w.lsmt.metadata.nextAddr
    rw [hnext, hs.allocated]
  · rw [howners]
    exact hs.holds.alloc
  · rw [hcreating]
    exact List.nil_subset _
  · show s.CompactionHolds w.compactPc
    rw [hpc]
    exact hs.compaction
  · -- the new record is listed, and the others are as before
    intro a ha hlisted hinput
    have hlt : a < s.heap.refs.allocated + 1 := ha
    have hnot : a ∉ w.lsmt.metadata.addrs := hlisted
    rw [haddrs, List.mem_cons, not_or, ← hs.allocated] at hnot
    exact hs.replaced a (by omega) hnot.2 hinput

theorem afterFlush (hs : s.Inv) {a : Action} (hstep : s.world.MetadataStep w a)
    (ha : a = .flushDaemon) (hpc : w.compactPc = s.world.compactPc)
    (hlock : ¬ (s.creating ≠ [] ∧ s.world.locksMetadata a = true)) :
    s.Keeps (s.afterFlush w) := by
  have hsame : s.CompactionHolds w.compactPc := by
    rw [hpc]
    exact hs.compaction
  unfold Lifetime.afterFlush
  cases hstep with
  | same hlist _ _ hstopped =>
    split
    · rename_i memtable sst hflush
      rw [if_neg (hstopped memtable sst ha hflush)]
      exact hs.move hlist hsame
    · exact hs.move hlist hsame
  | registers hflush hrunning hadd _ _ _ =>
    -- a reader that is collecting records holds `metadata_lock`
    have hcreating : s.creating = [] := by
      by_contra hne
      refine hlock ⟨hne, ?_⟩
      simp [World.locksMetadata, hflush]
    rw [hflush]
    simp only [if_pos hrunning]
    exact hs.register hadd hpc hcreating
  | writes hflush hlsmt _ =>
    rw [hflush]
    apply hs.move _ hsame
    rw [hlsmt]
    exact (writeMetadata_same _ _ _).2.2

/-- Nodes move from the list to the inputs of the compaction. -/
theorem pop (hs : s.Inv) {nodes : List SstNode} (hinputs : s.inputs = []) (hwf : w.lsmt.metadata.Wf)
    (hnext : w.lsmt.metadata.nextAddr = s.world.lsmt.metadata.nextAddr)
    (hperm : s.world.lsmt.metadata.list.Perm (nodes ++ w.lsmt.metadata.list))
    (hcreating : s.creating = [])
    (hpc : CompactionHolds
      { s with world := w, inputs := nodes, mergeTodo := nodes.map SstNode.addr } w.compactPc) :
    s.Keeps { s with world := w, inputs := nodes, mergeTodo := nodes.map SstNode.addr } := by
  have haddrs : s.world.lsmt.metadata.addrs.Perm
      (nodes.map SstNode.addr ++ w.lsmt.metadata.addrs) := by
    have hmap := hperm.map SstNode.addr
    rw [List.map_append] at hmap
    exact hmap
  -- the popped records change owners from the list to the inputs
  have howners : s.owners.Perm
      (owners { s with world := w, inputs := nodes, mergeTodo := nodes.map SstNode.addr }) := by
    rw [owners, hinputs, List.nil_append]
    show (s.world.lsmt.metadata.addrs ++ s.sstToDelete.map SstNode.addr).Perm
      (w.lsmt.metadata.addrs ++ (nodes ++ s.sstToDelete).map SstNode.addr)
    rw [List.map_append, ← List.append_assoc]
    exact (haddrs.trans List.perm_append_comm).append_right _
  refine ⟨⟨hwf, hs.allocated.trans hnext.symm, ?_, ?_, List.Subset.refl _, hpc, ?_⟩, howners.subset⟩
  · exact hs.holds.perm howners (List.Perm.refl _)
  · rw [hcreating]
    exact List.nil_subset _
  · intro a ha hlisted hinput
    apply hs.replaced a ha
    · intro hmem
      rcases List.mem_append.mp (haddrs.subset hmem) with hnode | hrest
      · exact hinput hnode
      · exact hlisted hrest
    · rw [hinputs]
      exact List.not_mem_nil

/-- One tier of the compaction. -/
theorem scanning (hs : s.Inv) {pass : CompactPass} (hpc : s.world.compactPc = .scanning pass)
    (hscan : s.world.Scans pass w) (hcreating : s.creating = []) :
    s.Keeps { s with
      world := w
      inputs := s.world.popped pass
      mergeTodo := (s.world.popped pass).map SstNode.addr } := by
  have hcompaction := hs.compaction
  rw [hpc] at hcompaction
  obtain ⟨hinputs, hdelete, hflush⟩ := hcompaction
  unfold World.popped
  cases hscan with
  | finish htier =>
    rw [if_pos htier]
    refine hs.pop hinputs hs.wf rfl (List.Perm.refl _) hcreating ?_
    cases hmust : pass.mustFlush with
    | false => exact ⟨rfl, hflush hmust⟩
    | true => exact rfl
  | select selected htier hsize hselected =>
    rw [if_neg (Nat.not_lt.mpr htier), if_pos hsize]
    obtain ⟨popped, hpopped, hlength, hlevel, hwf, hnext, hperm⟩ :=
      sstPopNodes_spec pass.tier
        (s.world.lsmt.metadata.tierSize pass.tier - tierSizeThreshold pass.tier)
        sstableMergeLimit hs.wf []
    -- the store pops the contents of the nodes
    rw [← List.map_nil, sstPopInputs_eq] at hselected
    subst hselected
    rw [List.nil_append] at hpopped
    refine hs.pop hinputs hwf hnext (hpopped ▸ hperm) hcreating ?_
    simp only
    split
    · exact trivial
    · exact ⟨rfl, hpopped ▸ hlevel, hpopped ▸ hlength, hdelete⟩
  | skip htier hsize =>
    rw [if_neg (Nat.not_lt.mpr htier), if_neg (Nat.not_lt.mpr hsize)]
    refine hs.pop hinputs hs.wf rfl (List.Perm.refl _) hcreating ⟨rfl, ?_, hflush⟩
    show s.sstToDelete.length ≤ sstableMergeLimit * (pass.tier + 1)
    rw [Nat.mul_succ]
    omega

/-- The merged record takes the place of the inputs, which all fit into `sst_to_delete`. -/
theorem adding (hs : s.Inv) {pass : CompactPass} {inputs : List SstMetadataRecord}
    {newSst : SstMetadataRecord} (hpc : s.world.compactPc = .adding pass inputs newSst)
    (hadd : sstMetadataAdd s.world.lsmt.metadata newSst = some w.lsmt.metadata)
    {toDelete : List SstMetadataRecord}
    (hw : w.compactPc = .scanning ⟨pass.tier + 1, pass.highestTier, toDelete, true⟩)
    (hcreating : s.creating = []) :
    s.Keeps { s with
      world := w
      heap := (s.inputs.drop (deleteBufferSize - s.sstToDelete.length)).foldl
        (fun heap n => heap.delete n.addr) s.heap.alloc
      inputs := []
      sstToDelete := s.sstToDelete ++ s.inputs.take (deleteBufferSize - s.sstToDelete.length)
      replaced := s.replaced ++ s.inputs.map SstNode.addr } := by
  have hcompaction := hs.compaction
  rw [hpc] at hcompaction
  obtain ⟨htodo, hmerges, hlevel⟩ := hcompaction
  obtain ⟨haddrs, hnext, htier⟩ := SstMetadata.addrs_add hadd
  -- with at most `sstableMergeLimit` inputs a tier, `sst_to_delete` never fills up
  have hroom : s.inputs.length ≤ deleteBufferSize - s.sstToDelete.length := by
    have hinputs := hmerges.nodes_length
    have hdelete := hmerges.toDelete_length
    simp only [sstableMergeLimit, deleteBufferSize, maxTiers] at *
    omega
  rw [List.drop_of_length_le hroom, List.take_of_length_le hroom]
  -- the inputs move to `sst_to_delete` and the output joins the list
  have howners : (s.heap.refs.allocated :: s.owners).Perm
      (w.lsmt.metadata.addrs ++ ([] ++ (s.sstToDelete ++ s.inputs)).map SstNode.addr) := by
    rw [haddrs, ← hs.allocated, List.nil_append]
    exact ((List.perm_append_comm.map _).append_left _).cons _
  refine ⟨⟨(sstMetadataAdd_spec hs.wf hadd).1, ?_, ?_, ?_, ?_, ?_, ?_⟩,
    fun a ha => howners.subset (List.mem_cons_of_mem _ ha)⟩
  · show s.heap.refs.allocated + 1 = w.lsmt.metadata.nextAddr
    rw [hnext, hs.allocated]
  · exact hs.holds.alloc.perm howners (List.Perm.refl _)
  · rw [hcreating]
    exact List.nil_subset _
  · show s.mergeTodo ⊆ []
    rw [htodo]
    exact List.Subset.refl _
  · show CompactionHolds _ w.compactPc
    rw [hw]
    refine ⟨rfl, ?_, fun hfalse => absurd hfalse Bool.true_eq_false_eq_False⟩
    show (s.sstToDelete ++ s.inputs).length ≤ sstableMergeLimit * (pass.tier + 1)
    rw [List.length_append, Nat.mul_succ]
    exact Nat.add_le_add hmerges.toDelete_length hmerges.nodes_length
  · -- what has just left the list are the inputs
    intro a ha hlisted _
    have hlt : a < s.heap.refs.allocated + 1 := ha
    have hnot : a ∉ w.lsmt.metadata.addrs := hlisted
    rw [haddrs, List.mem_cons, not_or, ← hs.allocated] at hnot
    apply List.mem_append.mpr
    by_cases hinput : a ∈ s.inputs.map SstNode.addr
    · exact Or.inr hinput
    · exact Or.inl (hs.replaced a (by omega) hnot.2 hinput)

theorem afterCompact (hs : s.Inv) {faults : List IoFaults} (hrunning : s.world.status = .running)
    (hw : s.world.CompactStep faults w)
    (hlock : ¬ (s.creating ≠ [] ∧ s.world.locksMetadata (.compact faults) = true))
    (hstep : s.afterCompact w = some s') : s.Keeps s' := by
  have hcompaction := hs.compaction
  have hcreating : s.world.locksMetadata (.compact faults) = true → s.creating = [] := by
    intro hlocks
    by_contra hne
    exact hlock ⟨hne, hlocks⟩
  unfold Lifetime.afterCompact at hstep
  cases hw with
  | wake hpc =>
    rw [hpc] at hstep hcompaction
    cases hstep
    exact hs.move rfl hcompaction
  | start hpc =>
    rw [hpc] at hstep hcompaction
    cases hstep
    obtain ⟨hinputs, hdelete⟩ := hcompaction
    refine hs.move rfl ⟨hinputs, ?_, fun _ => hdelete⟩
    rw [hdelete]
    exact Nat.zero_le _
  | scan pass _ hpc hscan =>
    rw [hpc] at hstep
    cases hstep
    exact hs.scanning hpc (compactScan_cases hscan) (hcreating (by simp [World.locksMetadata, hpc]))
  | merge pass inputs hpc =>
    -- `sst_merge` begins when it has an iterator for every input
    rw [hpc] at hstep hcompaction
    simp only at hstep
    split at hstep
    · cases hstep
    · rename_i htodo
      cases hstep
      exact hs.move rfl ⟨not_not.mp htodo, hcompaction⟩
  | mergeStops pass inputs hpc =>
    rw [hpc] at hstep hcompaction
    cases hstep
    exact hs.move rfl hcompaction
  | merged pass inputs newSst hpc hlen hmerge =>
    rw [hpc] at hstep hcompaction
    cases hstep
    obtain ⟨htodo, hmerges⟩ := hcompaction
    refine hs.move rfl ⟨htodo, hmerges, ?_⟩
    -- the output is one level above an input, and all inputs are of one level
    obtain ⟨i, hi, hlevel⟩ := sstMerge_level hmerge
    have hinput : i.1 ∈ s.inputs.map SstNode.content := hmerges.inputs_eq ▸ (List.of_mem_zip hi).1
    obtain ⟨n, hn, hcontent⟩ := List.mem_map.mp hinput
    rw [hlevel, ← hcontent, hmerges.level n hn]
  | refused pass inputs newSst hpc =>
    rw [hpc] at hstep hcompaction
    simp only at hstep
    split at hstep
    · cases hstep
    · rw [if_neg (by simp)] at hstep
      cases hstep
      exact hs.move rfl hcompaction
  | add pass inputs newSst metadata hpc hadd =>
    rw [hpc] at hstep
    simp only at hstep
    split at hstep
    · cases hstep
    · cases hstep
      exact hs.adding hpc hadd rfl (hcreating (by simp [World.locksMetadata, hpc]))
  | copyList sstToDelete hpc =>
    rw [hpc] at hstep hcompaction
    cases hstep
    exact hs.move rfl hcompaction
  | writeFile generation snapshot sstToDelete hpc =>
    rw [hpc] at hstep hcompaction
    cases hstep
    exact hs.move (writeMetadata_same _ _ _).2.2 hcompaction
  | release sstToDelete hpc =>
    rw [hpc] at hstep hcompaction
    simp only at hstep
    split at hstep
    · cases hstep
    · rename_i hdelete
      cases hstep
      exact hs.move rfl ⟨hcompaction, not_not.mp hdelete⟩
  | quit inputs hpc =>
    rw [hpc] at hstep hcompaction
    cases hstep
    exact hs.move rfl hcompaction

theorem storeStep (hs : s.Inv) {a : Action} (hstep : s.storeStep a = some s') : s.Keeps s' := by
  unfold Lifetime.storeStep at hstep
  split at hstep
  · cases hstep
  · rename_i hlock
    split at hstep
    · cases hstep
    · rename_i w hw
      have hrunning := (World.step_cases hw).1
      by_cases hcompact : ∃ faults, a = .compact faults
      · obtain ⟨faults, rfl⟩ := hcompact
        exact hs.afterCompact hrunning (World.compactStep_of_step hw) hlock hstep
      · have ha : ∀ faults, a ≠ .compact faults := fun faults heq => hcompact ⟨faults, heq⟩
        have hmeta := World.step_metadata ha hw
        have hpc := (World.step_sameCompaction ha hw).compactPc
        -- the calls of `lsmt_insert` and `lsmt_flush` touch no record
        have hother : a ≠ .flushDaemon → s.Keeps { s with world := w } := by
          intro hne
          cases hmeta with
          | same hlist _ _ _ =>
            apply hs.move hlist
            rw [hpc]
            exact hs.compaction
          | registers _ _ _ _ _ _ => exact absurd rfl hne
          | writes _ _ _ => exact absurd rfl hne
        cases a with
        | flushDaemon =>
          cases hstep
          exact hs.afterFlush hmeta rfl hpc hlock
        | compact faults => exact absurd rfl (ha faults)
        | insert key content =>
          cases hstep
          exact hother nofun
        | insertCall i =>
          cases hstep
          exact hother nofun
        | flush =>
          cases hstep
          exact hother nofun
        | flushCall i =>
          cases hstep
          exact hother nofun

/-! ### The iterators -/

/-- Creations and releases of iterators: the owners are as before. -/
theorem iterate (hs : s.Inv) {heap : SstHeap} {mergeTodo mergeIts creating : List Nat}
    {readers : List (List Nat)} (hallocated : heap.refs.allocated = s.heap.refs.allocated)
    (hholds : heap.Holds s.owners (mergeIts ++ readers.flatten))
    (hcreating : creating ⊆ s.world.lsmt.metadata.addrs)
    (htodo : mergeTodo ⊆ s.mergeTodo) :
    Inv { s with
      heap := heap
      mergeTodo := mergeTodo
      mergeIts := mergeIts
      creating := creating
      readers := readers } where
  wf := hs.wf
  allocated := hallocated.trans hs.allocated
  holds := hholds
  creating := hcreating
  mergeTodo a ha := hs.mergeTodo (htodo ha)
  compaction := by
    have hcompaction := hs.compaction
    show CompactionHolds _ s.world.compactPc
    -- a merge that runs has its iterators, so nothing was left to create
    cases hpc : s.world.compactPc with
    | merging pass inputs =>
      rw [hpc] at hcompaction
      rw [hcompaction.1] at htodo
      exact ⟨List.subset_nil.mp htodo, hcompaction.2⟩
    | adding pass inputs newSst =>
      rw [hpc] at hcompaction
      rw [hcompaction.1] at htodo
      exact ⟨List.subset_nil.mp htodo, hcompaction.2⟩
    | _ =>
      rw [hpc] at hcompaction
      exact hcompaction
  replaced a ha hlisted hinput := hs.replaced a (hallocated ▸ ha) hlisted hinput

theorem mergeCreate (hs : s.Inv) {a : Nat} {rest : List Nat} (htodo : s.mergeTodo = a :: rest) :
    Inv { s with heap := s.heap.retain a, mergeTodo := rest, mergeIts := s.mergeIts ++ [a] } := by
  -- the input is owned by the compaction
  have ha : a ∈ s.owners := by
    have hinput : a ∈ s.inputs.map SstNode.addr := hs.mergeTodo (htodo ▸ List.mem_cons_self)
    rw [owners, List.map_append]
    exact List.mem_append_right _ (List.mem_append_left _ hinput)
  refine hs.iterate rfl ?_ hs.creating (htodo ▸ List.subset_cons_self a rest)
  apply (hs.holds.retain ha).perm (List.Perm.refl _)
  rw [iterators, List.append_assoc, List.singleton_append]
  exact List.perm_middle.symm

theorem mergeFree (hs : s.Inv) {j a : Nat} (hj : s.mergeIts[j]? = some a) :
    Inv { s with heap := s.heap.release a, mergeIts := s.mergeIts.eraseIdx j } := by
  refine hs.iterate rfl ?_ hs.creating (List.Subset.refl _)
  apply SstHeap.Holds.release
  apply hs.holds.perm (List.Perm.refl _)
  exact (perm_cons_eraseIdx hj).append_right _

theorem readerCreate (hs : s.Inv) :
    Inv { s with creating := s.world.lsmt.metadata.addrs, readers := [] :: s.readers } :=
  hs.iterate rfl hs.holds (List.Subset.refl _) (List.Subset.refl _)

theorem readerRetain (hs : s.Inv) {a : Nat} {rest its : List Nat} {readers : List (List Nat)}
    (hcreating : s.creating = a :: rest) (hreaders : s.readers = its :: readers) :
    Inv { s with
      heap := s.heap.retain a
      creating := rest
      readers := (its ++ [a]) :: readers } := by
  have hlisted : a :: rest ⊆ s.world.lsmt.metadata.addrs := hcreating ▸ hs.creating
  -- the record is still on the list, because the reader holds `metadata_lock`
  have ha : a ∈ s.owners := List.mem_append_left _ (hlisted List.mem_cons_self)
  refine hs.iterate rfl ?_ (fun b hb => hlisted (List.mem_cons_of_mem a hb)) (List.Subset.refl _)
  apply (hs.holds.retain ha).perm (List.Perm.refl _)
  rw [iterators, hreaders, List.flatten_cons, List.flatten_cons, List.append_assoc,
    List.singleton_append]
  exact List.perm_middle.symm.trans (List.perm_middle.symm.append_left _)

theorem readerFree (hs : s.Inv) {i j a : Nat} {its : List Nat} (hi : s.readers[i]? = some its)
    (hj : its[j]? = some a) :
    Inv { s with heap := s.heap.release a, readers := s.readers.set i (its.eraseIdx j) } := by
  refine hs.iterate rfl ?_ hs.creating (List.Subset.refl _)
  apply SstHeap.Holds.release
  apply hs.holds.perm (List.Perm.refl _)
  -- the iterator is one of those of all readers
  have hflatten := flatten_set_perm hi (perm_cons_eraseIdx hj)
  exact (hflatten.append_left _).trans List.perm_middle

/-- The compaction marks an input and releases it. -/
theorem deleteInput (hs : s.Inv) {n : SstNode} {rest : List SstNode}
    (hdelete : s.sstToDelete = n :: rest) {toDelete : List SstMetadataRecord}
    (hpc : s.world.compactPc = .deleting toDelete) :
    Inv { s with heap := s.heap.delete n.addr, sstToDelete := rest } := by
  have hcompaction := hs.compaction
  rw [hpc] at hcompaction
  refine ⟨hs.wf, hs.allocated, ?_, hs.creating, hs.mergeTodo, ?_, hs.replaced⟩
  · apply SstHeap.Holds.delete
    apply hs.holds.perm _ (List.Perm.refl _)
    rw [owners, hdelete]
    rw [List.map_append, List.map_cons, ← List.append_assoc]
    apply List.perm_middle.trans
    rw [List.append_assoc, ← List.map_append]
    exact List.Perm.refl _
  · show CompactionHolds _ s.world.compactPc
    rw [hpc]
    exact hcompaction

/-- Every step keeps the invariant, and only the releases at the end of a compaction take records
from their owners. -/
theorem step (hs : s.Inv) {act : LifeAction} (hstep : s.step act = some s') :
    s'.Inv ∧ (act ≠ .deleteInput → s.owners ⊆ s'.owners) := by
  unfold Lifetime.step at hstep
  split at hstep
  · cases hstep
  · rename_i hgo
    rw [not_or, not_not, Bool.not_eq_false] at hgo
    obtain ⟨hrunning, henabled⟩ := hgo
    cases act with
    | store a =>
      have hkeeps := hs.storeStep hstep
      exact ⟨hkeeps.inv, fun _ => hkeeps.owners⟩
    | mergeCreate =>
      simp only at hstep
      split at hstep
      · cases hstep
      · rename_i htodo
        cases hstep
        exact ⟨hs.mergeCreate htodo, fun _ => List.Subset.refl _⟩
    -- opening a file reads it and changes no count
    | mergeOpen j =>
      simp only at hstep
      split at hstep <;> cases hstep
      exact ⟨hs, fun _ => List.Subset.refl _⟩
    | mergeFree j =>
      simp only at hstep
      split at hstep
      · cases hstep
      · rename_i hj
        cases hstep
        exact ⟨hs.mergeFree hj, fun _ => List.Subset.refl _⟩
    -- the only step that takes a record from its owner
    | deleteInput =>
      simp only at hstep
      split at hstep
      · cases hstep
      · rename_i hdelete
        cases hstep
        unfold enabled at henabled
        simp only at henabled
        split at henabled
        · rename_i hpc
          exact ⟨hs.deleteInput hdelete hpc, fun hne => absurd rfl hne⟩
        · cases henabled
    | readerCreate =>
      simp only at hstep
      split at hstep <;> cases hstep
      exact ⟨hs.readerCreate, fun _ => List.Subset.refl _⟩
    | readerRetain =>
      simp only at hstep
      split at hstep
      · rename_i hcreating hreaders
        cases hstep
        exact ⟨hs.readerRetain hcreating hreaders, fun _ => List.Subset.refl _⟩
      · cases hstep
    | readerOpen i j =>
      simp only at hstep
      split at hstep
      · cases hstep
      · split at hstep <;> cases hstep
        exact ⟨hs, fun _ => List.Subset.refl _⟩
    | readerFree i j =>
      simp only at hstep
      split at hstep
      · cases hstep
      · split at hstep
        · cases hstep
        · rename_i hi
          split at hstep
          · cases hstep
          · rename_i hj
            cases hstep
            exact ⟨hs.readerFree hi hj, fun _ => List.Subset.refl _⟩

theorem of_run {as : List LifeAction} (hrun : run Lifetime.step init as = some s) : s.Inv :=
  run_invariant (fun _ _ _ (_ : True) hs hstep => (hs.step hstep).1) (fun _ _ => trivial) inv_init hrun

/-- What an iterator holds has not been removed. -/
theorem not_removed (hs : s.Inv) {a : Nat} (ha : a ∈ s.owners ++ s.iterators) :
    a < s.heap.refs.allocated ∧ a ∉ s.heap.removed := by
  rw [hs.holds.removed]
  exact ⟨hs.holds.accounts.lt_allocated a ha, hs.holds.accounts.not_freed ha⟩

end Inv

theorem mem_iterators_of_opens {s : Lifetime} {act : LifeAction} {a : Nat}
    (h : s.opens act = some a) : a ∈ s.iterators := by
  cases act with
  | mergeOpen j => exact List.mem_append_left _ (List.mem_of_getElem? h)
  | readerOpen i j =>
    obtain ⟨its, hi, hj⟩ := Option.bind_eq_some_iff.mp h
    apply List.mem_append_right
    exact List.mem_flatten.mpr ⟨its, List.mem_of_getElem? hi, List.mem_of_getElem? hj⟩
  | _ => cases h

end Lifetime

/-! ## The runs of the store -/

/-- What a step shows of the store alone. -/
def LifeAction.ofStore : LifeAction → Option Action
  | .store a => some a
  | _ => none

/-- A merge has its iterators here. -/
def CompactPc.Merging : CompactPc → Prop
  | .mergeWait _ _ => True
  | .merging _ _ => True
  | .adding _ _ _ => True
  | _ => False

namespace Lifetime

variable {s : Lifetime}

/-- There is no query, and no iterator outside a merge. -/
structure Unread (s : Lifetime) : Prop where
  creating : s.creating = []
  readers : s.readers = []
  mergeIts : ¬ s.world.compactPc.Merging → s.mergeIts = []

/-- The compaction has done to single records what comes before its next step. -/
structure Ready (s : Lifetime) : Prop where
  mergeWait : ∀ pass inputs, s.world.compactPc = .mergeWait pass inputs → s.mergeTodo = []
  adding : ∀ pass inputs newSst, s.world.compactPc = .adding pass inputs newSst → s.mergeIts = []
  deleting : ∀ sstToDelete, s.world.compactPc = .deleting sstToDelete → s.sstToDelete = []

/-- Steps of the merge of one kind, of which each takes one record from a list, empty the list. -/
theorem Unread.exists_drained (hs : s.Unread) (act : LifeAction) (left : Lifetime → Nat)
    (hact : act.ofStore = none)
    (hstep : ∀ t : Lifetime, (t.world = s.world ∧ t.Unread) → left t ≠ 0 →
      ∃ t', t.step act = some t' ∧ (t'.world = s.world ∧ t'.Unread) ∧ left t' + 1 = left t) :
    ∃ as t, run Lifetime.step s as = some t ∧ (t.world = s.world ∧ t.Unread) ∧ left t = 0 ∧
      as.filterMap LifeAction.ofStore = [] := by
  obtain ⟨t, hrun, ht, hzero⟩ := Lib.StepMachine.exists_drained act left hstep ⟨rfl, hs⟩
  exact ⟨_, t, hrun, ht, hzero, List.filterMap_replicate_of_none hact⟩

/-- The compaction creates the iterators of a merge, frees them and releases the inputs. -/
theorem Unread.exists_ready (hs : s.Unread) (hrunning : s.world.status = .running) :
    ∃ as t, run Lifetime.step s as = some t ∧ t.Unread ∧ t.Ready ∧ t.world = s.world ∧
      as.filterMap LifeAction.ofStore = [] := by
  cases hpc : s.world.compactPc with
  | mergeWait pass inputs =>
    obtain ⟨as, t, hrun, ⟨hworld, ht⟩, hzero, hnone⟩ :=
      hs.exists_drained .mergeCreate (fun t => t.mergeTodo.length) rfl fun t ⟨hworld, ht⟩ hne => by
        obtain ⟨a, rest, htodo⟩ := List.exists_cons_of_length_pos (Nat.pos_of_ne_zero hne)
        refine ⟨{ t with heap := t.heap.retain a, mergeTodo := rest, mergeIts := t.mergeIts ++ [a] },
          ?_, ⟨hworld, ht.creating, ht.readers, fun hnot => absurd ?_ hnot⟩, ?_⟩
        · simp [Lifetime.step, enabled, hworld, hrunning, hpc, htodo]
        · simp only [hworld, hpc, CompactPc.Merging]
        · rw [htodo]
          rfl
    refine ⟨as, t, hrun, ht, ⟨fun _ _ _ => List.length_eq_zero_iff.mp hzero, ?_, ?_⟩, hworld, hnone⟩
    all_goals
      rw [hworld, hpc]
      exact nofun
  | adding pass inputs newSst =>
    obtain ⟨as, t, hrun, ⟨hworld, ht⟩, hzero, hnone⟩ :=
      hs.exists_drained (.mergeFree 0) (fun t => t.mergeIts.length) rfl fun t ⟨hworld, ht⟩ hne => by
        obtain ⟨a, rest, hits⟩ := List.exists_cons_of_length_pos (Nat.pos_of_ne_zero hne)
        refine ⟨{ t with heap := t.heap.release a, mergeIts := rest }, ?_,
          ⟨hworld, ht.creating, ht.readers, fun hnot => absurd ?_ hnot⟩, ?_⟩
        · simp [Lifetime.step, enabled, hworld, hrunning, hpc, hits]
        · simp only [hworld, hpc, CompactPc.Merging]
        · rw [hits]
          rfl
    refine ⟨as, t, hrun, ht, ⟨?_, fun _ _ _ _ => List.length_eq_zero_iff.mp hzero, ?_⟩, hworld, hnone⟩
    all_goals
      rw [hworld, hpc]
      exact nofun
  | deleting sstToDelete =>
    obtain ⟨as, t, hrun, ⟨hworld, ht⟩, hzero, hnone⟩ :=
      hs.exists_drained .deleteInput (fun t => t.sstToDelete.length) rfl fun t ⟨hworld, ht⟩ hne => by
        obtain ⟨n, rest, hdelete⟩ := List.exists_cons_of_length_pos (Nat.pos_of_ne_zero hne)
        refine ⟨{ t with heap := t.heap.delete n.addr, sstToDelete := rest }, ?_,
          ⟨hworld, ht.creating, ht.readers, ht.mergeIts⟩, ?_⟩
        · simp [Lifetime.step, enabled, hworld, hrunning, hpc, hdelete]
        · rw [hdelete]
          rfl
    refine ⟨as, t, hrun, ht, ⟨?_, ?_, fun _ _ => List.length_eq_zero_iff.mp hzero⟩, hworld, hnone⟩
    all_goals
      rw [hworld, hpc]
      exact nofun
  | _ =>
    refine ⟨[], s, rfl, hs, ⟨?_, ?_, ?_⟩, rfl, rfl⟩
    all_goals
      rw [hpc]
      exact nofun

/-- A merge ends where its output is registered. -/
theorem merging_of_compactStep {w w' : World} {faults : List IoFaults} (hw : w.CompactStep faults w')
    (hmerging : w.compactPc.Merging) :
    w'.compactPc.Merging ∨ ∃ pass inputs newSst, w.compactPc = .adding pass inputs newSst := by
  cases hw with
  | merge pass inputs hpc hflush => exact Or.inl trivial
  | mergeStops pass inputs hpc hlen hmerge => exact Or.inl hmerging
  | merged pass inputs newSst hpc hlen hmerge => exact Or.inl trivial
  | refused pass inputs newSst hpc hadd => exact Or.inl hmerging
  | add pass inputs newSst metadata hpc hadd => exact Or.inr ⟨pass, inputs, newSst, hpc⟩
  | wake hpc | start hpc | scan pass _ hpc hscan | copyList sstToDelete hpc
    | writeFile generation snapshot sstToDelete hpc | release sstToDelete hpc | quit inputs hpc =>
    rw [hpc] at hmerging
    cases hmerging

/-- A compaction that is ready for it takes the step of the store. -/
theorem Unread.afterCompact (hs : s.Unread) (hready : s.Ready) {faults : List IoFaults} {w : World}
    (hw : s.world.CompactStep faults w) :
    ∃ t, s.afterCompact w = some t ∧ t.world = w ∧ t.Unread := by
  have hits : ¬ w.compactPc.Merging → s.mergeIts = [] := by
    intro hnot
    by_cases hmerging : s.world.compactPc.Merging
    · rcases merging_of_compactStep hw hmerging with hmerging' | ⟨pass, inputs, newSst, hpc⟩
      · exact absurd hmerging' hnot
      · exact hready.adding pass inputs newSst hpc
    · exact hs.mergeIts hmerging
  unfold Lifetime.afterCompact
  cases hpc : s.world.compactPc with
  | mergeWait pass inputs =>
    simp only [hready.mergeWait pass inputs hpc, ne_eq, not_true_eq_false, if_false]
    exact ⟨_, rfl, rfl, hs.creating, hs.readers, hits⟩
  | adding pass inputs newSst =>
    simp only [hready.adding pass inputs newSst hpc, ne_eq, not_true_eq_false, if_false]
    split
    · exact ⟨_, rfl, rfl, hs.creating, hs.readers, fun _ => rfl⟩
    · exact ⟨_, rfl, rfl, hs.creating, hs.readers, fun _ => rfl⟩
  | deleting sstToDelete =>
    simp only [hready.deleting sstToDelete hpc, ne_eq, not_true_eq_false, if_false]
    exact ⟨_, rfl, rfl, hs.creating, hs.readers, hits⟩
  | _ => exact ⟨_, rfl, rfl, hs.creating, hs.readers, hits⟩

theorem Unread.storeStep (hs : s.Unread) (hready : s.Ready) {a : Action} {w : World}
    (hw : s.world.step a = some w) :
    ∃ t, s.step (.store a) = some t ∧ t.world = w ∧ t.Unread := by
  have hgo : ¬ (s.world.status ≠ .running ∨ s.enabled (.store a) = false) :=
    not_or.mpr ⟨not_not.mpr (World.step_cases hw).1, Bool.true_eq_false_eq_False⟩
  have hfree : ¬ (s.creating ≠ [] ∧ s.world.locksMetadata a = true) := fun h => h.1 hs.creating
  unfold Lifetime.step Lifetime.storeStep
  simp only [if_neg hgo, if_neg hfree, hw]
  by_cases hcompact : ∃ faults, a = .compact faults
  · obtain ⟨faults, rfl⟩ := hcompact
    exact hs.afterCompact hready (World.compactStep_of_step hw)
  · -- the other threads leave the compaction where it is
    have ha : ∀ faults, a ≠ .compact faults := fun faults heq => hcompact ⟨faults, heq⟩
    have hits : ¬ w.compactPc.Merging → s.mergeIts = [] := by
      rw [(World.step_sameCompaction ha hw).compactPc]
      exact hs.mergeIts
    cases a with
    | flushDaemon =>
      refine ⟨_, rfl, ?_⟩
      unfold Lifetime.afterFlush
      split
      · split
        · exact ⟨rfl, hs.creating, hs.readers, hits⟩
        · exact ⟨rfl, hs.creating, hs.readers, hits⟩
      · exact ⟨rfl, hs.creating, hs.readers, hits⟩
    | compact faults => exact absurd rfl (ha faults)
    | _ => exact ⟨_, rfl, rfl, hs.creating, hs.readers, hits⟩

/-- Every run of the store is what a run with iterators shows of it. -/
theorem exists_run_store {as : List Action} {w : World}
    (hrun : run World.step (World.init lsmtInit) as = some w) :
    ∃ lifes s, run Lifetime.step init lifes = some s ∧ s.Unread ∧ s.world = w ∧
      lifes.filterMap LifeAction.ofStore = as := by
  refine exists_run_covering Lifetime.world LifeAction.ofStore (fun s a w' hs hw => ?_)
    ⟨rfl, rfl, fun _ => rfl⟩ hrun
  obtain ⟨bs, m, hbefore, hm, hready, hworld, hnone⟩ := hs.exists_ready (World.step_cases hw).1
  obtain ⟨t, hstep, ht, hunread⟩ := hm.storeStep hready (hworld.symm ▸ hw)
  refine ⟨bs ++ [.store a], t, ?_, hunread, ht, ?_⟩
  · exact run_append_eq_some.mpr ⟨m, hbefore, run_cons_eq_some.mpr ⟨t, hstep, rfl⟩⟩
  · rw [List.filterMap_append, hnone]
    rfl

/-- With fewer tables listed than were ever registered, one of them is gone. -/
theorem Inv.exists_removed (hs : s.Inv) (hunread : s.Unread) (hrest : s.world.AtRest)
    (hfewer : s.world.lsmt.metadata.list.length < s.world.lsmt.metadata.nextAddr) :
    ∃ a, a ∈ s.heap.removed := by
  have hcompaction := hs.compaction
  rw [hrest.compactPc] at hcompaction
  have hits : s.mergeIts = [] := hunread.mergeIts (by rw [hrest.compactPc]; exact id)
  have howners : s.owners ++ s.iterators = s.world.lsmt.metadata.addrs := by
    simp [owners, iterators, hcompaction.1, hcompaction.2, hits, hunread.readers]
  by_contra hnone
  -- otherwise every record that was registered is on the list
  have hsub : List.range s.heap.refs.allocated ⊆ s.world.lsmt.metadata.addrs := by
    intro a ha
    by_contra hnot
    apply hnone
    refine ⟨a, ?_⟩
    rw [hs.holds.removed, hs.holds.accounts.mem_freed, howners]
    exact ⟨List.mem_range.mp ha, hnot⟩
  have hle := (List.subperm_of_subset List.nodup_range hsub).length_le
  rw [List.length_range, hs.allocated] at hle
  unfold SstMetadata.addrs at hle
  rw [List.length_map] at hle
  omega

end Lifetime

/-- In every run of the daemons and of any number of query threads:
the count of a record is one if it is on the list or held by the compaction, plus the number of open
iterators that hold it;
a record is freed exactly when its count is zero, and once;
the files of a record are removed once, after its merged record was registered, when neither the
list nor the compaction nor an iterator has it;
and the files an iterator opens have not been removed. -/
theorem sst_lifetime {as : List LifeAction} {s : Lifetime}
    (hrun : run Lifetime.step Lifetime.init as = some s) :
    (∀ a, a < s.heap.refs.allocated →
      s.heap.refs.count a = (if a ∈ s.owners then 1 else 0) + s.iterators.count a) ∧
    (s.heap.refs.freed.Nodup ∧
      ∀ a, a ∈ s.heap.refs.freed ↔ a < s.heap.refs.allocated ∧ s.heap.refs.count a = 0) ∧
    (s.heap.removed.Nodup ∧
      ∀ a ∈ s.heap.removed, a ∈ s.replaced ∧ a ∉ s.owners ∧ a ∉ s.iterators) ∧
    ∀ act s' a, s.step act = some s' → s.opens act = some a →
      a < s.heap.refs.allocated ∧ a ∉ s.heap.removed := by
  have hs : s.Inv := Lifetime.Inv.of_run hrun
  have haccounts := hs.holds.accounts
  refine ⟨fun a ha => ?_, ⟨haccounts.freed_nodup, fun a => ?_⟩,
    ⟨hs.holds.removed ▸ haccounts.freed_nodup, fun a ha => ?_⟩, fun act s' a _ hopen => ?_⟩
  · rw [haccounts.count_eq a ha, List.count_append, hs.holds.nodup.count]
  · rw [haccounts.mem_freed]
    constructor
    · rintro ⟨hlt, hnot⟩
      refine ⟨hlt, ?_⟩
      rw [haccounts.count_eq a hlt]
      exact List.count_eq_zero_of_not_mem hnot
    · rintro ⟨hlt, hzero⟩
      rw [haccounts.count_eq a hlt] at hzero
      exact ⟨hlt, List.count_eq_zero.mp hzero⟩
  · rw [hs.holds.removed, haccounts.mem_freed, List.mem_append, not_or] at ha
    obtain ⟨hlt, howner, hits⟩ := ha
    refine ⟨?_, howner, hits⟩
    apply hs.replaced a hlt
    · exact fun hlisted => howner (List.mem_append_left _ hlisted)
    · intro hinput
      apply howner
      rw [Lifetime.owners, List.map_append]
      exact List.mem_append_right _ (List.mem_append_left _ hinput)
  · exact hs.not_removed (List.mem_append_right _ (Lifetime.mem_iterators_of_opens hopen))

/-- A query creates its first iterator. -/
theorem Lifetime.Unread.reads {s : Lifetime} (hs : s.Unread) (hrunning : s.world.status = .running)
    {n : SstNode} {rest : List SstNode} (hlist : s.world.lsmt.metadata.list = n :: rest) :
    run Lifetime.step s [.readerCreate, .readerRetain] =
      some { s with
        heap := s.heap.retain n.addr
        creating := rest.map SstNode.addr
        readers := [[n.addr]] } := by
  simp [run, Lifetime.step, Lifetime.enabled, hrunning, hs.creating, hs.readers, SstMetadata.addrs,
    hlist]

/-- Tables are merged and their files removed, and then an iterator of a query holds a table. -/
theorem sst_lifetime_one :
    ∃ as s, run Lifetime.step Lifetime.init as = some s ∧
      (∃ a ∈ s.heap.removed, a ∈ s.replaced ∧ a ∉ s.owners ∧ a ∉ s.iterators) ∧
      (∃ sst ∈ s.world.lsmt.metadata.records, sst.level = 1) ∧
      ∃ a, a ∈ s.owners ∧ s.iterators = [a] ∧ s.heap.refs.count a = 2 := by
  obtain ⟨stores, w, hstores, hrunning, hrest, houtput, hfewer, -⟩ := exists_merged
  obtain ⟨as, s, hrun, hunread, rfl, -⟩ := Lifetime.exists_run_store hstores
  obtain ⟨a, ha⟩ := (Lifetime.Inv.of_run hrun).exists_removed hunread hrest hfewer
  obtain ⟨n, rest, hlist⟩ : ∃ n rest, s.world.lsmt.metadata.list = n :: rest := by
    obtain ⟨sst, hsst, -⟩ := houtput
    obtain ⟨n, hn, -⟩ := List.mem_map.mp hsst
    exact List.exists_cons_of_ne_nil (List.ne_nil_of_mem hn)
  have hits : s.mergeIts = [] := hunread.mergeIts (by rw [hrest.compactPc]; exact id)
  have hwhole := run_append_eq_some.mpr ⟨s, hrun, hunread.reads hrunning hlist⟩
  have hlifetime := sst_lifetime hwhole
  have hown : n.addr ∈ s.owners := by
    apply List.mem_append_left
    show n.addr ∈ s.world.lsmt.metadata.list.map SstNode.addr
    rw [hlist]
    exact List.mem_cons_self
  have hone : s.mergeIts ++ [[n.addr]].flatten = [n.addr] := by
    rw [hits]
    rfl
  have hcount := hlifetime.1 n.addr
    ((Lifetime.Inv.of_run hwhole).holds.accounts.lt_allocated _ (List.mem_append_left _ hown))
  refine ⟨_, _, hwhole, ⟨a, ha, hlifetime.2.2.1.2 a ha⟩, houtput, n.addr, hown, hone, ?_⟩
  show (s.heap.retain n.addr).refs.count n.addr = 2
  rw [hcount]
  show (if n.addr ∈ s.owners then 1 else 0) + (s.mergeIts ++ [[n.addr]].flatten).count n.addr = 2
  rw [if_pos hown, hone, List.count_singleton_self]

end RaftLsmt.Lsmt
