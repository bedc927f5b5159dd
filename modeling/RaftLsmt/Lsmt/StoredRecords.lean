import RaftLsmt.Lsmt.StoreInvariant

/-!
# Where a stored record is

A record that `lsmt_insert` has taken lies in the active memtable, moves with it to `immutables`, is
written to an SST and goes from merge to merge. `World.Stores` says that it is in one of these places
with exactly the bytes of its content.

An insertion stores its record exactly when the memtable takes it or the store has it already
(`stores_insert_iff`). Every other step keeps what is stored, but for one: the flush writes of a
content only what its length word covers, so the record of a longer one is gone when the flush daemon
drops the last memtable that holds it (`World.KeepsCopy`).
-/

set_option autoImplicit false

namespace RaftLsmt.Lsmt

open RaftLsmt.Lib.StepMachine

namespace World

/-- An SST that is registered or being merged holds the key with this content. -/
def OnDisk (w : World) (node : SlUint128 × Bytes) : Prop :=
  (⟨node.1, keyBytes node.1 ++ node.2⟩ : KvRawRecord) ∈
    sstRecords w.lsmt.metadata.records ++ sstRecords w.compactPc.held

/-- The store holds the key with exactly this content. -/
def Stores (w : World) (node : SlUint128 × Bytes) : Prop := w.lsmt.InMemory node ∨ w.OnDisk node

/-- The step does not drop the last copy of the record in memory, unless the copy on disk is
complete. -/
def KeepsCopy (w : World) (node : SlUint128 × Bytes) (a : Action) : Prop :=
  ∀ memtable registered, a = .flushDaemon → w.flushPc = .unregistering memtable registered →
    node ∈ memtable.bottomLevel → SelfConsistent node.2 ∨
      ∃ m ∈ w.lsmt.memtable :: w.lsmt.immutables.tail, node ∈ m.bottomLevel

/-- The memtable the flush daemon has written is on disk. -/
def HeadFlushed (w : World) : Prop :=
  w.flushPc.registered = true → ∀ m, w.lsmt.immutables.head? = some m →
    m.records ⊆ sstRecords w.flushed

end World

section Step

variable {base : List KvRawRecord} {w w' : World} {a : Action}

/-- What the flush daemon registers stays registered, and it is the memtable it works on. -/
theorem World.Accounts.headFlushed_flushDaemon (h : w.Accounts base) (hhead : w.HeadFlushed)
    (hwhole : w.RegistersWhole .flushDaemon) (hstep : w.FlushDaemonStep w') : w'.HeadFlushed ∧ w.flushed <+: w'.flushed := by
  have hok := h.flushPc
  have hquiet : w'.flushPc.registered = false → w'.HeadFlushed := by
    intro hfalse htrue
    rw [hfalse] at htrue
    cases htrue
  cases hstep with
  | overrun memtable hpc => exact ⟨hquiet (by rw [hpc]; rfl), List.prefix_refl _⟩
  | refused memtable sst hpc => exact ⟨hquiet (by rw [hpc]; rfl), List.prefix_refl _⟩
  | register memtable sst metadata hpc hadd =>
    rw [hpc] at hok
    obtain ⟨hfirst, hdisk⟩ := hok
    have hholds : SstHolds sst memtable.records := sstHolds_of_written
      (h.immutables memtable (List.mem_of_head? hfirst)) (hwhole _ _ rfl hpc) hdisk
    refine ⟨fun _ m hm => ?_, List.prefix_append _ _⟩
    cases hfirst.symm.trans hm
    show memtable.records ⊆ sstRecords (w.flushed ++ [{ sst with id := w.lsmt.sstableId }])
    rw [sstRecords_append, sstRecords_cons, (hholds.withId _).records_eq]
    exact fun r hr => List.mem_append_right _ (List.mem_append_left _ hr)
  | writeFile memtable generation snapshot hpc =>
    obtain ⟨-, himm, -⟩ := writeMetadata_same w.lsmt generation snapshot
    refine ⟨fun _ m hm => ?_, List.prefix_refl _⟩
    apply hhead
    · rw [hpc]
      rfl
    · rw [← himm]
      exact hm
  | unregister memtable registered hpc =>
    refine ⟨hquiet ?_, List.prefix_refl _⟩
    show (if registered then FlushPc.signalling else FlushPc.draining).registered = false
    split <;> rfl
  | _ => exact ⟨hquiet rfl, List.prefix_refl _⟩

theorem World.Accounts.headFlushed_step (h : w.Accounts base) (hhead : w.HeadFlushed)
    (hwhole : w.RegistersWhole a) (hstep : w.step a = some w') : w'.HeadFlushed ∧ w.flushed <+: w'.flushed := by
  by_cases ha : a = .flushDaemon
  · subst ha
    exact h.headFlushed_flushDaemon hhead hwhole (World.flushDaemonStep_of_step hstep)
  · obtain ⟨hpc, hflushed⟩ := World.step_sameFlushPc ha hstep
    refine ⟨fun hreg m hm => ?_, by rw [hflushed]⟩
    rw [hpc] at hreg
    rw [hflushed]
    apply hhead hreg
    -- the first of the array stays the first
    have hne := h.flushPc.ne_nil hreg
    rw [← hm]
    rcases World.step_memtables hstep with ⟨key, content, -, -, himm⟩ | ⟨-, -, himm⟩ |
      ⟨-, -, himm⟩ | ⟨memtable, registered, hdaemon, -⟩
    · rw [himm]
      rcases lsmtRotate_cases w.lsmt with hrot | ⟨threads, needSpawn, -, hrot⟩
      · rw [hrot]
      · rw [hrot]
        exact (List.head?_append_of_ne_nil _ hne).symm
    · rw [himm]
    · rw [himm]
      exact (List.head?_append_of_ne_nil _ hne).symm
    · exact absurd hdaemon ha

/-! ## What is stored -/

variable {node : SlUint128 × Bytes}

/-- Merges read everything, so what has been flushed is what the SSTs hold. -/
theorem World.Accounts.onDisk_iff (h : w.Accounts base) :
    w.OnDisk node ↔ (⟨node.1, keyBytes node.1 ++ node.2⟩ : KvRawRecord) ∈
      base ++ sstRecords w.flushed := h.registered.mem_iff

theorem World.Accounts.onDisk_step (h : w.Accounts base) (hhead : w.HeadFlushed)
    (h' : w'.Accounts base) (hwhole : w.RegistersWhole a) (hstep : w.step a = some w') (hdisk : w.OnDisk node) :
    w'.OnDisk node := by
  obtain ⟨-, more, hmore⟩ := h.headFlushed_step hhead hwhole hstep
  rw [h.onDisk_iff] at hdisk
  rw [h'.onDisk_iff, ← hmore, sstRecords_append, ← List.append_assoc]
  exact List.mem_append_left _ hdisk

/-- A node leaves the memtables only with the one that the flush daemon drops. -/
theorem World.Accounts.inMemory_step (h : w.Accounts base) (hstep : w.step a = some w')
    (hmem : w.lsmt.InMemory node) :
    w'.lsmt.InMemory node ∨ ∃ memtable registered, a = .flushDaemon ∧
      w.flushPc = .unregistering memtable registered ∧ node ∈ memtable.bottomLevel := by
  rcases World.step_memtables hstep with ⟨key, content, -, hsl, himm⟩ | ⟨-, hsl, himm⟩ |
    ⟨-, ⟨addr, hsl⟩, himm⟩ | ⟨memtable, registered, hdaemon, hpc, hsl, himm⟩
  · obtain ⟨m, hm, hnode⟩ := (lsmtRotate_inMemory w.lsmt node).mpr hmem
    left
    rcases List.mem_cons.mp hm with rfl | hm
    · refine ⟨w'.lsmt.memtable, List.mem_cons_self, ?_⟩
      rw [hsl]
      rcases slInsert_cases h.rotated_wf key content with
        ⟨hins, -⟩ | ⟨sl', hins, -, -, -, hperm⟩ <;> rw [hins]
      · exact hnode
      · exact hperm.symm.subset (List.mem_cons_of_mem _ hnode)
    · exact ⟨m, List.mem_cons_of_mem _ (himm ▸ hm), hnode⟩
  · obtain ⟨m, hm, hnode⟩ := hmem
    left
    refine ⟨m, ?_, hnode⟩
    rw [hsl, himm]
    exact hm
  · obtain ⟨m, hm, hnode⟩ := hmem
    left
    refine ⟨m, List.mem_cons_of_mem _ ?_, hnode⟩
    rw [himm]
    rcases List.mem_cons.mp hm with rfl | hm
    · exact List.mem_append_right _ (List.mem_singleton.mpr rfl)
    · exact List.mem_append_left _ hm
  · obtain ⟨m, hm, hnode⟩ := hmem
    have hflush := h.flushPc
    rw [hpc] at hflush
    obtain ⟨tail, htail⟩ := List.head?_eq_some_iff.mp hflush.1
    rw [htail] at hm
    rw [htail, List.eraseP_cons_of_pos (by simp)] at himm
    rcases List.mem_cons.mp hm with rfl | hm
    · exact Or.inl ⟨_, List.mem_cons_self, hsl ▸ hnode⟩
    · rcases List.mem_cons.mp hm with rfl | hm
      · exact Or.inr ⟨m, registered, hdaemon, hpc, hnode⟩
      · exact Or.inl ⟨m, List.mem_cons_of_mem _ (himm ▸ hm), hnode⟩

/-- A step that keeps a copy keeps the record. -/
theorem World.Accounts.stores_step (h : w.Accounts base) (hhead : w.HeadFlushed)
    (h' : w'.Accounts base) (hwhole : w.RegistersWhole a) (hstep : w.step a = some w')
    (hstores : w.Stores node) (hkeeps : w.KeepsCopy node a) : w'.Stores node := by
  rcases hstores with hmem | hdisk
  · -- only the end of a flush takes the last copy out of the memtables
    rcases h.inMemory_step hstep hmem with hmem' | ⟨memtable, registered, rfl, hpc, hnode⟩
    · exact Or.inl hmem'
    · have hflush := h.flushPc
      rw [hpc] at hflush
      obtain ⟨hfirst, hempty⟩ := hflush
      obtain ⟨tail, htail⟩ := List.head?_eq_some_iff.mp hfirst
      rcases hkeeps memtable registered rfl hpc hnode with hconsistent | ⟨m, hm, hother⟩
      · -- the content ends where its length word says, so all of it has been written
        right
        have hrecord : rawOf node ∈ memtable.records := List.mem_map_of_mem hnode
        have hreg : registered = true := by
          cases registered with
          | true => rfl
          | false =>
            rw [hempty rfl] at hrecord
            cases hrecord
        apply h.onDisk_step hhead h' hwhole hstep
        rw [h.onDisk_iff]
        apply List.mem_append_right
        have hraw : rawOf node = ⟨node.1, keyBytes node.1 ++ node.2⟩ :=
          KvRawRecord.ext rfl (rawOf_rawData_of_selfConsistent hconsistent)
        rw [← hraw]
        apply hhead _ memtable hfirst hrecord
        rw [hpc]
        exact hreg
      · -- another memtable has the record as well
        left
        rcases World.step_memtables hstep with ⟨_, _, hins, -⟩ | ⟨-, hsl, himm⟩ | ⟨hfl, -⟩ |
          ⟨memtable', registered', -, hpc', hsl, himm⟩
        · cases hins
        · refine ⟨m, ?_, hother⟩
          rw [hsl, himm]
          exact ((List.tail_sublist _).cons_cons _).subset hm
        · cases hfl
        · refine ⟨m, ?_, hother⟩
          rw [hpc] at hpc'
          cases hpc'
          rw [hsl, himm, htail, List.eraseP_cons_of_pos (by simp)]
          rw [htail] at hm
          exact hm
  · exact Or.inr (h.onDisk_step hhead h' hwhole hstep hdisk)

/-- An insertion stores its record exactly when the memtable takes it or the store has it already. -/
theorem World.Accounts.stores_insert_iff (h : w.Accounts base) (hhead : w.HeadFlushed)
    (h' : w'.Accounts base) (hstep : w.step (.insert node.1 node.2) = some w') :
    w'.Stores node ↔ ¬ w.lsmt.Refuses node.1 ∨ w.Stores node := by
  constructor
  · rintro (hmem | hdisk)
    · rcases h.inMemory_of_step hstep hmem with hold | ⟨-, haccepts⟩
      · exact Or.inr (Or.inl hold)
      · exact Or.inl haccepts
    · have hflushed := (World.step_sameFlushPc Action.noConfusion hstep).2
      rw [h'.onDisk_iff, hflushed, ← h.onDisk_iff] at hdisk
      exact Or.inr (Or.inr hdisk)
  · rintro (haccepts | hstores)
    · rcases World.step_memtables hstep with ⟨key, content, heq, hsl, -⟩ | ⟨hnone, -⟩ | ⟨hfl, -⟩ |
        ⟨_, _, hdaemon, -⟩
      · cases heq
        rcases slInsert_cases h.rotated_wf node.1 node.2 with
          ⟨-, hrefuses⟩ | ⟨sl', hins, -, -, -, hperm⟩
        · exact absurd hrefuses haccepts
        · refine Or.inl ⟨w'.lsmt.memtable, List.mem_cons_self, ?_⟩
          rw [hsl, hins]
          exact hperm.symm.subset List.mem_cons_self
      · cases hnone
      · cases hfl
      · cases hdaemon
    · apply h.stores_step hhead h' (fun _ _ hdaemon => Action.noConfusion hdaemon) hstep hstores
      intro memtable registered hdaemon
      cases hdaemon

end Step

end RaftLsmt.Lsmt
