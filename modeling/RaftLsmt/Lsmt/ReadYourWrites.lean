import RaftLsmt.Lsmt.StoreReader

/-!
# Reading back what has been inserted

`lsmt_iterator_create` looks at the active memtable and at the registered SSTs, and not at
`immutables`. A record that a rotation has moved there is missing from every iterator until the
flush daemon has registered its SST. `lsmt_iterator_seek` walks the memtable without its lock, and a
walk that ends at a node whose successor is not set yet takes it for the last one.

`World.ReadBy` says that a reader got every acknowledged record of its range. Of the readers that have
come to their end these are the ones at whose creation none of the records was hidden, and whose seek
did not miss one (`readBy_iff`).
-/

set_option autoImplicit false

namespace RaftLsmt.Lsmt

open RaftLsmt.Lib.StepMachine
open RaftLsmt.Lib.SortedMerge

/-! ## Runs of insertions and flushes -/

/-- Insertions under keys that are not reserved, in the store's format, and the flush daemon. -/
def Action.InsertOrFlush : Action → Prop
  | .insert key content => key.id ≠ 0 ∧ SelfConsistent content
  | .insertCall _ => True
  | .flushDaemon => True
  | _ => False

theorem Action.InsertOrFlush.sound {a : Action} (h : a.InsertOrFlush) : a.Sound := by
  cases a with
  | insert key content => exact h.2
  | insertCall i => trivial
  | flush => trivial
  | flushCall i => trivial
  | flushDaemon => trivial
  | compact faults => cases h

namespace World

/-- The key has been given to `lsmt_insert`. -/
def Known (w : World) (key : SlUint128) : Prop := ∃ call ∈ w.inserted, call.key = key

/-- The records whose insertion has returned 0. -/
def acknowledged (w : World) : List (SlUint128 × Bytes) :=
  (w.returned.filter fun call => call.rv = 0).map InsertCall.node

end World

/-- What such a run says about the records of the store. -/
structure DistinctStore (w : World) : Prop where
  inv : w.Inv []
  calls : w.CallsOk
  consistent : ∀ call ∈ w.inserted, SelfConsistent call.content
  nodup : ((w.lsmt.memtable.records ++ (w.unflushed.flatMap Sl.records ++
    sstRecords w.lsmt.metadata.records)).map KvRawRecord.key).Nodup
  accounted : (w.accepted.map rawOf).Perm (w.lsmt.memtable.records ++
    (w.unflushed.flatMap Sl.records ++ sstRecords w.lsmt.metadata.records))

/-- Every file of such a store can be scanned from any key. -/
theorem DistinctStore.scannable {w : World} (h : DistinctStore w) (startKey : SlUint128) :
    Scannable w.lsmt.metadata.records startKey := by
  apply scannable_of_nodup h.inv.ssts
  have hall : (sstRecords w.lsmt.metadata.records).Sublist (w.lsmt.memtable.records ++
      (w.unflushed.flatMap Sl.records ++ sstRecords w.lsmt.metadata.records)) :=
    (List.sublist_append_right _ _).trans (List.sublist_append_right _ _)
  exact h.nodup.sublist (hall.map _)

namespace DistinctStore

variable {w : World} {startKey endKey : SlUint128} {shared : Skip.Shared} {bs : List ReaderAction}
  {r : Reader}

/-- The keys of the SSTs have been inserted, and the memtable has others. -/
theorem readable (h : DistinctStore w) : SstsReadable w.Known w.lsmt where
  ok := h.inv.ssts
  scannable := h.scannable
  known b hb := by
    have hmem := h.accounted.symm.subset (List.mem_append_right _ (List.mem_append_right _ hb))
    obtain ⟨n, hn, rfl⟩ := List.mem_map.mp hmem
    obtain ⟨call, hcall, rfl⟩ := List.mem_map.mp hn
    exact ⟨call, (List.mem_filter.mp hcall).1, rfl⟩
  apart n hn b hb := by
    have hnodup := h.nodup
    rw [List.map_append, List.nodup_append] at hnodup
    exact hnodup.2.2 _ (List.mem_map_of_mem (List.mem_map_of_mem hn)) _
      (List.mem_map_of_mem (List.mem_append_right _ hb))

/-- The invariant of a reader created now, before it has missed anything. -/
theorem inv_of_run (h : DistinctStore w) (hshared : MemtableAt shared w.lsmt.memtable)
    (hfresh : ∀ b ∈ bs, b.Fresh w.Known)
    (hrun : run Reader.step (Reader.create w.lsmt shared) bs = some r) : r.Inv w.Known w.lsmt [] :=
  (Reader.inv_create h.inv.memtable hshared (List.nil_subset _)).of_run h.readable hfresh
    (Reader.eachStep_nil_acknowledged _ _) hrun

end DistinctStore

end RaftLsmt.Lsmt
