import RaftLsmt.Lsmt.FlushTransparency
import RaftLsmt.Server.RecordSafety

/-!
# Replicas of one log

Every server hands the committed entries to `FsmApply` in their order. Its store flushes and compacts
when it likes, its process may end at any moment and start again with an empty tree, and in place of
entries it may get a snapshot. `FsmSnapshot` writes none of the records and `FsmRestore` looks at the
size of what it gets only, so the records of the entries in front of a snapshot are then missing.

`replica_scans_iff` says that a replica at rest scans as its part of the log says exactly when no
record was passed over in this way, and that this takes a log of `snapshotThreshold` entries.
`replicas_agree` compares two replicas.
-/

set_option autoImplicit false

namespace RaftLsmt.Lsmt

open RaftLsmt.Lib.SortedMerge

/-! ## What a list of records determines -/

theorem FreshKeys.perm {nodes nodes' : List (SlUint128 × Bytes)} (h : FreshKeys nodes)
    (hperm : nodes.Perm nodes') : FreshKeys nodes' :=
  ((hperm.filter _).map Prod.fst).nodup_iff.mp h

theorem FreshKeys.sublist {nodes nodes' : List (SlUint128 × Bytes)} (h : FreshKeys nodes)
    (hsub : nodes'.Sublist nodes) : FreshKeys nodes' :=
  List.Nodup.sublist ((hsub.filter _).map Prod.fst) h

theorem recordsOf_perm_range (nodes : List (SlUint128 × Bytes)) (startKey endKey : SlUint128) :
    (recordsOf nodes startKey endKey).Perm
      (rangeFilter KvRawRecord.key startKey endKey ((unreserved nodes).map rawOf)) :=
  List.mergeSort_perm _ _

theorem strictBy_recordsOf {nodes : List (SlUint128 × Bytes)} (h : FreshKeys nodes)
    (startKey endKey : SlUint128) : StrictBy KvRawRecord.key (recordsOf nodes startKey endKey) := by
  have hsorted : SortedBy KvRawRecord.key (recordsOf nodes startKey endKey) := by
    have hpair := @List.pairwise_mergeSort _ (fun a b : KvRawRecord => decide (a.key ≤ b.key))
      (by simpa using fun a b c hab hbc => le_trans hab hbc)
      (by simpa using fun a b => le_total _ _)
      (rangeFilter KvRawRecord.key startKey endKey ((unreserved nodes).map rawOf))
    exact hpair.imp fun hab => by simpa using hab
  have hkeys : ((unreserved nodes).map rawOf).map KvRawRecord.key =
      (unreserved nodes).map Prod.fst := by
    rw [List.map_map]
    rfl
  have hnodup : (((unreserved nodes).map rawOf).map KvRawRecord.key).Nodup := by
    rw [hkeys]
    exact h
  refine hsorted.strictBy_iff_nodup.mpr ?_
  rw [((recordsOf_perm_range nodes startKey endKey).map KvRawRecord.key).nodup_iff]
  exact hnodup.sublist ((rangeFilter_sublist _ _ _).map _)

/-- The order of the insertions does not matter. -/
theorem recordsOf_perm {nodes nodes' : List (SlUint128 × Bytes)} (h : FreshKeys nodes)
    (hperm : nodes.Perm nodes') (startKey endKey : SlUint128) :
    recordsOf nodes startKey endKey = recordsOf nodes' startKey endKey := by
  refine (strictBy_recordsOf h _ _).eq_of_perm (strictBy_recordsOf (h.perm hperm) _ _) ?_
  have hrange : (rangeFilter KvRawRecord.key startKey endKey ((unreserved nodes).map rawOf)).Perm
      (rangeFilter KvRawRecord.key startKey endKey ((unreserved nodes').map rawOf)) :=
    rangeFilter_perm ((hperm.filter _).map _)
  exact (recordsOf_perm_range _ _ _).trans (hrange.trans (recordsOf_perm_range _ _ _).symm)

/-- Over the whole range there is one record for each insertion. -/
theorem length_recordsOf (nodes : List (SlUint128 × Bytes)) :
    (recordsOf nodes SlUint128.zero SlUint128.max).length = (unreserved nodes).length := by
  rw [(recordsOf_perm_range _ _ _).length_eq, rangeFilter_eq_self, List.length_map]
  intro r _
  exact ⟨SlUint128.zero_le _, SlUint128.le_max _⟩

theorem recordsOf_sublist {nodes nodes' : List (SlUint128 × Bytes)} (h : FreshKeys nodes')
    (hsub : nodes.Sublist nodes') (startKey endKey : SlUint128) :
    (recordsOf nodes startKey endKey).Sublist (recordsOf nodes' startKey endKey) := by
  have hsubset : recordsOf nodes startKey endKey ⊆ recordsOf nodes' startKey endKey := by
    intro r hr
    rw [(recordsOf_perm_range _ _ _).mem_iff] at hr ⊢
    exact (((hsub.filter _).map _).filter _).subset hr
  have hstrict := strictBy_recordsOf (h.sublist hsub) startKey endKey
  have hsorted : (recordsOf nodes startKey endKey).Pairwise fun a b => a.key < b.key := hstrict
  have hsorted' : (recordsOf nodes' startKey endKey).Pairwise fun a b => a.key < b.key :=
    strictBy_recordsOf h startKey endKey
  have hnodup : (recordsOf nodes startKey endKey).Nodup := hsorted.imp fun hlt heq =>
    absurd (heq ▸ hlt) (lt_irrefl _)
  exact List.sublist_of_subperm_of_pairwise (hnodup.subperm hsubset) hsorted hsorted'

end RaftLsmt.Lsmt

namespace RaftLsmt.Server

open RaftLsmt.Lib.SortedMerge
open RaftLsmt.Lib.StepMachine
open RaftLsmt.Lsmt

/-! ## Snapshots -/

/-- `sizeof(insert_cmd_t)`: the size word and its padding, the key, the value and its padding. -/
def sizeofInsertCmd : Nat := 4 + 4 + 16 + contentMaxSize + 1

/-- The threshold of `raft_set_snapshot_threshold`: `UINT32_MAX` entries. -/
def snapshotThreshold : Nat := 2 ^ 32 - 1

/-- `FsmSnapshot`: a buffer of the size of one command, with what `raft_malloc` finds there. -/
def fsmSnapshot (garbage : Nat → UInt8) : Bytes := (List.range sizeofInsertCmd).map garbage

/-- `FsmRestore`. -/
def fsmRestore (store : World) (buf : Bytes) : World × FsmStatus :=
  if buf.length ≠ sizeofInsertCmd then (store, .malformed) else (store, .ok)

/-- A snapshot, with the number of entries it stands for. -/
structure Snapshot where
  index : Nat
  data : Bytes

/-! ## The machine -/

/-- A server. `fsm` is the rest of the entry while `FsmApply` is at work. `applied` and `skipped` are
history: the entries handed to `FsmApply` and those a snapshot stood for, since the process began. -/
structure Replica where
  store : World
  fsm : Option Bytes
  lastApplied : Nat
  snapshot : Option Snapshot
  applied : List Bytes
  skipped : List Bytes

namespace Replica

/-- A process with an empty tree; snapshots are on disk. -/
def start (snapshot : Option Snapshot) : Replica where
  store := World.init lsmtInit
  fsm := none
  lastApplied := 0
  snapshot := snapshot
  applied := []
  skipped := []

/-- The raft library hands the next committed entry to `FsmApply`. -/
def apply (log : List Bytes) (r : Replica) : Option Replica :=
  if r.fsm.isNone ∧ r.store.status = .running then
    (log[r.lastApplied]?).map fun entry => { r with
      fsm := some entry
      lastApplied := r.lastApplied + 1
      applied := r.applied ++ [entry] }
  else none

/-- The loop of `FsmApply` comes to its test when the call of `lsmt_insert` has returned. `none` for
the return of `RAFT_MALFORMED`: what the raft library does with it is not under src. -/
def fsmTurn (r : Replica) : Option Replica :=
  match r.fsm with
  | none => none
  | some rest =>
    if r.store.inserting.isEmpty then
      match checkMsg rest with
      | .finished => some { r with fsm := none }
      | .malformed => none
      | .msg size =>
        let msg := rest.take size
        (r.store.step (.insert (recordKey msg) (recordValue msg))).map fun store => { r with
          store := store
          fsm := some (rest.drop size) }
    else none

/-- The raft library takes a snapshot when there are enough entries behind the last one. -/
def takeSnapshot (r : Replica) (garbage : Nat → UInt8) : Option Replica :=
  if r.fsm.isNone ∧
      snapshotThreshold ≤ r.lastApplied - (r.snapshot.map Snapshot.index).getD 0 then
    some { r with snapshot := some ⟨r.lastApplied, fsmSnapshot garbage⟩ }
  else none

/-- The raft library restores a snapshot of entries that have not been applied. -/
def install (log : List Bytes) (r : Replica) (s : Snapshot) : Option Replica :=
  if r.fsm.isNone ∧ r.lastApplied < s.index then
    match fsmRestore r.store s.data with
    | (_, .malformed) => none
    | (store, .ok) => some { r with
        store := store
        lastApplied := s.index
        snapshot := some s
        skipped := r.skipped ++ (log.take s.index).drop r.lastApplied }
  else none

/-- The process begins again, with the snapshot it has on disk. -/
def restart (log : List Bytes) (r : Replica) : Option Replica :=
  match r.snapshot with
  | none => some (start none)
  | some s => (start r.snapshot).install log s

end Replica

/-- The committed entries and the servers. -/
structure Cluster where
  log : List Bytes
  replicas : Nat → Replica

/-- An entry is committed, or something happens at the `i`-th server: the raft library calls
`FsmApply`, its loop goes on, another thread of the tree takes a step, a snapshot is taken, the
snapshot of the `j`-th server is restored, the process ends and begins again. -/
inductive ClusterEvent where
  | commit (entry : Bytes)
  | apply (i : Nat)
  | fsmTurn (i : Nat)
  | thread (i : Nat) (a : Action)
  | takeSnapshot (i : Nat) (garbage : Nat → UInt8)
  | install (i j : Nat)
  | restart (i : Nat)

namespace Cluster

/-- No entry is committed, and every server has just begun. -/
def init : Cluster := ⟨[], fun _ => Replica.start none⟩

/-- The `i`-th server has moved. -/
def setReplica (c : Cluster) (i : Nat) (r : Replica) : Cluster :=
  { c with replicas := Function.update c.replicas i r }

def step (c : Cluster) : ClusterEvent → Option Cluster
  | .commit entry => some { c with log := c.log ++ [entry] }
  | .apply i => ((c.replicas i).apply c.log).map (c.setReplica i)
  | .fsmTurn i => (c.replicas i).fsmTurn.map (c.setReplica i)
  | .thread i a =>
    if a.insertedNode.isNone then
      ((c.replicas i).store.step a).map fun store =>
        c.setReplica i { c.replicas i with store := store }
    else none
  | .takeSnapshot i garbage => ((c.replicas i).takeSnapshot garbage).map (c.setReplica i)
  | .install i j =>
    match (c.replicas j).snapshot with
    | none => none
    | some s => ((c.replicas i).install c.log s).map (c.setReplica i)
  | .restart i => ((c.replicas i).restart c.log).map (c.setReplica i)

end Cluster

/-- The lengths in the messages of the entry agree, and merges read their inputs. -/
def ClusterEvent.Sound : ClusterEvent → Prop
  | .commit entry => ∀ msg ∈ entryMsgs entry, LengthsAgree msg
  | .thread _ a => Action.MergesRead a
  | _ => True

/-! ## The invariant -/

namespace Replica

/-- The calls of `lsmt_insert` that the `FsmApply` at work is going to make. -/
def pending (r : Replica) : List (SlUint128 × Bytes) := (r.fsm.map entryCalls).getD []

/-- The store is what some run of the tree makes of the records handed to it, and the entries up to
`lastApplied` have been applied or passed over. -/
structure Inv (log : List Bytes) (r : Replica) : Prop where
  reached : ∃ as : List Action, run World.step (World.init lsmtInit) as = some r.store ∧
    (∀ a ∈ as, a.Sound) ∧ insertedNodes as ++ r.pending = r.applied.flatMap entryCalls
  rest_ok : ∀ rest, r.fsm = some rest → ∀ msg ∈ entryMsgs rest, LengthsAgree msg
  lastApplied_le : r.lastApplied ≤ log.length
  entries : (log.take r.lastApplied).Perm (r.applied ++ r.skipped)
  snapshot_ok : ∀ s, r.snapshot = some s → snapshotThreshold ≤ s.index ∧ s.index ≤ log.length
  skipped_ok : r.skipped ≠ [] → snapshotThreshold ≤ log.length

theorem inv_start {log : List Bytes} {snapshot : Option Snapshot}
    (h : ∀ s, snapshot = some s → snapshotThreshold ≤ s.index ∧ s.index ≤ log.length) :
    (start snapshot).Inv log where
  reached := ⟨[], rfl, nofun, rfl⟩
  rest_ok := nofun
  lastApplied_le := Nat.zero_le _
  entries := List.Perm.refl _
  snapshot_ok := h
  skipped_ok h := absurd rfl h

namespace Inv

variable {log : List Bytes} {r r' : Replica}

/-- The log grows. -/
theorem commit (h : r.Inv log) (entry : Bytes) : r.Inv (log ++ [entry]) where
  reached := h.reached
  rest_ok := h.rest_ok
  lastApplied_le := by
    rw [List.length_append]
    exact Nat.le_add_right_of_le h.lastApplied_le
  entries := by
    rw [List.take_append_of_le_length h.lastApplied_le]
    exact h.entries
  snapshot_ok s hs := by
    obtain ⟨hthreshold, hle⟩ := h.snapshot_ok s hs
    rw [List.length_append]
    exact ⟨hthreshold, Nat.le_add_right_of_le hle⟩
  skipped_ok hs := by
    rw [List.length_append]
    exact Nat.le_add_right_of_le (h.skipped_ok hs)

theorem apply (h : r.Inv log) (hlog : ∀ entry ∈ log, ∀ msg ∈ entryMsgs entry, LengthsAgree msg)
    (hstep : r.apply log = some r') : r'.Inv log := by
  unfold Replica.apply at hstep
  split at hstep
  · rename_i hidle
    obtain ⟨entry, hentry, rfl⟩ := Option.map_eq_some_iff.mp hstep
    have hlt := (List.getElem?_eq_some_iff.mp hentry).1
    obtain ⟨as, hrun, hsound, hcalls⟩ := h.reached
    have hpending : r.pending = [] := by
      unfold pending
      rw [Option.isNone_iff_eq_none.mp hidle.1]
      rfl
    refine ⟨⟨as, hrun, hsound, ?_⟩, ?_, hlt, ?_, h.snapshot_ok, h.skipped_ok⟩
    · show insertedNodes as ++ entryCalls entry = (r.applied ++ [entry]).flatMap entryCalls
      rw [List.flatMap_append, List.flatMap_singleton, ← hcalls, hpending, List.append_nil]
    · intro rest hrest
      cases hrest
      exact hlog entry (List.mem_of_getElem? hentry)
    · show (log.take (r.lastApplied + 1)).Perm (r.applied ++ [entry] ++ r.skipped)
      rw [List.take_add_one, hentry, Option.toList_some, List.append_assoc]
      have hmiddle : (r.applied ++ ([entry] ++ r.skipped)).Perm (r.applied ++ r.skipped ++ [entry]) := by
        rw [List.append_assoc]
        exact List.perm_append_comm.append_left r.applied
      exact (h.entries.append_right [entry]).trans hmiddle.symm
  · cases hstep

theorem fsmTurn (h : r.Inv log) (hstep : r.fsmTurn = some r') : r'.Inv log := by
  unfold Replica.fsmTurn at hstep
  cases hfsm : r.fsm with
  | none =>
    simp only [hfsm] at hstep
    cases hstep
  | some rest =>
    simp only [hfsm] at hstep
    obtain ⟨as, hrun, hsound, hcalls⟩ := h.reached
    have hpending : r.pending = entryCalls rest := by
      unfold pending
      rw [hfsm]
      rfl
    by_cases hidle : r.store.inserting.isEmpty
    · rw [if_pos hidle] at hstep
      cases hcheck : checkMsg rest with
      | finished =>
        -- the buffer is done
        simp only [hcheck] at hstep
        cases hstep
        have hend : entryMsgs rest = [] := by
          apply entryMsgs_of_not_msg
          simp [hcheck]
        refine ⟨⟨as, hrun, hsound, ?_⟩, (fun _ hnone => by cases hnone), h.lastApplied_le, h.entries, h.snapshot_ok,
          h.skipped_ok⟩
        show insertedNodes as ++ [] = r.applied.flatMap entryCalls
        rw [← hcalls, hpending, entryCalls, hend, List.map_nil]
      | malformed =>
        simp only [hcheck] at hstep
        cases hstep
      | msg size =>
        simp only [hcheck] at hstep
        obtain ⟨store, hstore, rfl⟩ := Option.map_eq_some_iff.mp hstep
        have hmsgs := entryMsgs_of_msg hcheck
        have hok : MsgOk (rest.take size) := mem_entryMsgs (by
          rw [hmsgs]
          exact List.mem_cons_self)
        have hrest := h.rest_ok rest hfsm
        rw [hmsgs] at hrest
        refine ⟨⟨as ++ [.insert (recordKey (rest.take size)) (recordValue (rest.take size))],
          ?_, ?_, ?_⟩, ?_, h.lastApplied_le, h.entries, h.snapshot_ok, h.skipped_ok⟩
        · exact run_append_eq_some.mpr ⟨r.store, hrun, run_cons_eq_some.mpr ⟨store, hstore, rfl⟩⟩
        · intro a ha
          rcases List.mem_append.mp ha with ha | ha
          · exact hsound a ha
          · rw [List.mem_singleton.mp ha]
            exact (selfConsistent_recordValue_iff hok).mpr (hrest _ List.mem_cons_self)
        · show insertedNodes (as ++ [_]) ++ entryCalls (rest.drop size) = _
          rw [← hcalls, hpending, entryCalls, entryCalls, hmsgs, insertedNodes,
            List.filterMap_append, List.append_assoc]
          rfl
        · intro rest' hrest'
          cases hrest'
          exact fun msg hmsg => hrest msg (List.mem_cons_of_mem _ hmsg)
    · rw [if_neg hidle] at hstep
      cases hstep

theorem thread (h : r.Inv log) {a : Action} (ha : a.insertedNode.isNone) (hread : Action.MergesRead a)
    {store : World} (hstore : r.store.step a = some store) : Inv log { r with store := store } := by
  obtain ⟨as, hrun, hsound, hcalls⟩ := h.reached
  refine ⟨⟨as ++ [a], ?_, ?_, ?_⟩, h.rest_ok, h.lastApplied_le, h.entries, h.snapshot_ok,
    h.skipped_ok⟩
  · exact run_append_eq_some.mpr ⟨r.store, hrun, run_cons_eq_some.mpr ⟨store, hstore, rfl⟩⟩
  · intro b hb
    rcases List.mem_append.mp hb with hb | hb
    · exact hsound b hb
    · rw [List.mem_singleton.mp hb]
      cases a with
      | insert key content => cases ha
      | compact faults => exact hread
      | _ => exact trivial
  · show insertedNodes (as ++ [a]) ++ r.pending = r.applied.flatMap entryCalls
    rw [insertedNodes, List.filterMap_append, List.filterMap_cons_none (Option.isNone_iff_eq_none.mp ha),
      List.filterMap_nil, List.append_nil]
    exact hcalls

theorem takeSnapshot (h : r.Inv log) {garbage : Nat → UInt8}
    (hstep : r.takeSnapshot garbage = some r') : r'.Inv log := by
  unfold Replica.takeSnapshot at hstep
  split at hstep
  · rename_i hdue
    cases hstep
    refine ⟨h.reached, h.rest_ok, h.lastApplied_le, h.entries, ?_, h.skipped_ok⟩
    intro s hs
    cases hs
    exact ⟨hdue.2.trans (Nat.sub_le _ _), h.lastApplied_le⟩
  · cases hstep

theorem install (h : r.Inv log) {s : Snapshot}
    (hs : snapshotThreshold ≤ s.index ∧ s.index ≤ log.length) (hstep : r.install log s = some r') :
    r'.Inv log := by
  unfold Replica.install at hstep
  split at hstep
  · rename_i hdue
    unfold fsmRestore at hstep
    split at hstep
    · cases hstep
    · rename_i store hrestore
      split at hrestore <;> cases hrestore
      cases hstep
      refine ⟨h.reached, h.rest_ok, hs.2, ?_, ?_, fun _ => hs.1.trans hs.2⟩
      · show (log.take s.index).Perm
          (r.applied ++ (r.skipped ++ (log.take s.index).drop r.lastApplied))
        have hsplit : log.take s.index =
            log.take r.lastApplied ++ (log.take s.index).drop r.lastApplied := by
          conv_lhs => rw [← List.take_append_drop r.lastApplied (log.take s.index)]
          rw [List.take_take, Nat.min_eq_left (Nat.le_of_lt hdue.2)]
        conv_lhs => rw [hsplit]
        rw [← List.append_assoc]
        exact h.entries.append_right _
      · intro s' hs'
        cases hs'
        exact hs
  · cases hstep

theorem restart (h : r.Inv log) (hstep : r.restart log = some r') : r'.Inv log := by
  unfold Replica.restart at hstep
  split at hstep
  · cases hstep
    exact inv_start nofun
  · rename_i s hs
    exact (inv_start h.snapshot_ok).install (h.snapshot_ok s hs) hstep

end Inv

/-- `FsmApply` is not at work, and the tree is at rest. -/
structure AtRest (r : Replica) : Prop where
  fsm : r.fsm = none
  store : r.store.Quiescent

/-- A scan of a replica at rest is a function of the entries it has applied. -/
theorem Inv.scan_eq {log : List Bytes} {r : Replica} (h : r.Inv log) (hrest : r.AtRest)
    (hfresh : FreshKeys (r.applied.flatMap entryCalls)) (startKey endKey : SlUint128) :
    lsmtScan r.store.lsmt startKey endKey =
      some (recordsOf (r.applied.flatMap entryCalls) startKey endKey) := by
  obtain ⟨as, hrun, hsound, hcalls⟩ := h.reached
  have hpending : r.pending = [] := by
    unfold pending
    rw [hrest.fsm]
    rfl
  have hinserted : r.store.inserted.map InsertCall.node = r.applied.flatMap entryCalls := by
    rw [World.run_inserted hrun, ← hcalls, hpending, List.append_nil]
    rfl
  have hinit : (World.init lsmtInit).Inv [] := @World.inv_of_run [] nofun _ rfl
  rw [← hinserted] at hfresh ⊢
  have hcodes := World.CodesOk.run hinit nofun hsound hrun hfresh
  exact hrest.store.scan_eq_recordsOf (World.inv_of_run hsound hrun) hcodes hfresh startKey endKey

/-- The records handed to the tree and those passed over are the records of the log. -/
theorem Inv.calls_perm {log : List Bytes} {r : Replica} (h : r.Inv log) :
    ((log.take r.lastApplied).flatMap entryCalls).Perm
      (r.applied.flatMap entryCalls ++ r.skipped.flatMap entryCalls) := by
  rw [← List.flatMap_append]
  exact h.entries.flatMap_right _

end Replica

namespace Cluster

/-- The messages of the log have lengths that agree, and every replica is right about it. -/
structure Inv (c : Cluster) : Prop where
  lengths : ∀ entry ∈ c.log, ∀ msg ∈ entryMsgs entry, LengthsAgree msg
  replicas : ∀ i, (c.replicas i).Inv c.log

theorem inv_init : init.Inv where
  lengths := nofun
  replicas _ := Replica.inv_start nofun

namespace Inv

variable {c c' : Cluster}

theorem setReplica (h : c.Inv) (i : Nat) {r : Replica} (hr : r.Inv c.log) :
    (c.setReplica i r).Inv where
  lengths := h.lengths
  replicas j := by
    show (Function.update c.replicas i r j).Inv c.log
    by_cases hj : j = i
    · rw [hj, Function.update_self]
      exact hr
    · rw [Function.update_of_ne hj]
      exact h.replicas j

theorem step (h : c.Inv) {e : ClusterEvent} (he : e.Sound) (hstep : c.step e = some c') : c'.Inv := by
  cases e with
  | commit entry =>
    cases hstep
    refine ⟨fun entry' hentry => ?_, fun i => (h.replicas i).commit entry⟩
    rcases List.mem_append.mp hentry with hold | hnew
    · exact h.lengths entry' hold
    · rw [List.mem_singleton.mp hnew]
      exact he
  | apply i =>
    obtain ⟨r, hr, rfl⟩ := Option.map_eq_some_iff.mp hstep
    exact h.setReplica i ((h.replicas i).apply h.lengths hr)
  | fsmTurn i =>
    obtain ⟨r, hr, rfl⟩ := Option.map_eq_some_iff.mp hstep
    exact h.setReplica i ((h.replicas i).fsmTurn hr)
  | thread i a =>
    simp only [Cluster.step] at hstep
    split at hstep
    · rename_i ha
      obtain ⟨store, hstore, rfl⟩ := Option.map_eq_some_iff.mp hstep
      exact h.setReplica i ((h.replicas i).thread ha he hstore)
    · cases hstep
  | takeSnapshot i garbage =>
    obtain ⟨r, hr, rfl⟩ := Option.map_eq_some_iff.mp hstep
    exact h.setReplica i ((h.replicas i).takeSnapshot hr)
  | install i j =>
    simp only [Cluster.step] at hstep
    split at hstep
    · cases hstep
    · rename_i s hs
      obtain ⟨r, hr, rfl⟩ := Option.map_eq_some_iff.mp hstep
      exact h.setReplica i ((h.replicas i).install ((h.replicas j).snapshot_ok s hs) hr)
  | restart i =>
    obtain ⟨r, hr, rfl⟩ := Option.map_eq_some_iff.mp hstep
    exact h.setReplica i ((h.replicas i).restart hr)

theorem of_run {es : List ClusterEvent} (hes : ∀ e ∈ es, e.Sound)
    (hrun : run Cluster.step Cluster.init es = some c) : c.Inv :=
  run_invariant (fun _ _ _ he hc hstep => hc.step he hstep) hes inv_init hrun

end Inv

end Cluster

/-! ## One entry -/

/-- The entry of one record. -/
def oneEntry : Bytes := message ⟨1, 0⟩ (encodeData 1 [7])

/-- A replica applies the next entry, of one record. -/
def applyOne (i : Nat) : List ClusterEvent :=
  [.apply i, .fsmTurn i, .thread i (.insertCall 0), .fsmTurn i]

/-- An entry is applied by two replicas; the process of the second one ends in the middle of it and
begins again. -/
def twoReplicas : List ClusterEvent :=
  .commit oneEntry :: (applyOne 0 ++ ([.apply 1, .fsmTurn 1, .restart 1] ++ applyOne 1))

theorem entryMsgs_oneEntry : entryMsgs oneEntry = [oneEntry] := by
  have hall : ∀ msg ∈ [oneEntry], MsgOk msg := by
    intro msg hmsg
    rw [List.mem_singleton.mp hmsg]
    exact msgOk_message ⟨1, 0⟩ _ (by decide)
  have hmsgs := entryMsgs_flatten hall 0
  rwa [List.flatten_singleton, List.replicate_zero, List.append_nil] at hmsgs

theorem sound_twoReplicas : ∀ e ∈ twoReplicas, e.Sound := by
  have hentry : ∀ msg ∈ entryMsgs oneEntry, LengthsAgree msg := by
    rw [entryMsgs_oneEntry]
    intro msg hmsg
    rw [List.mem_singleton.mp hmsg]
    exact ⟨by decide, by decide⟩
  simpa [twoReplicas, applyOne, ClusterEvent.Sound, Action.MergesRead] using hentry

/-- Where the run of the two replicas ends. -/
theorem run_twoReplicas : ∃ c, run Cluster.step Cluster.init twoReplicas = some c ∧
    c.log = [oneEntry] ∧ (c.replicas 0).AtRest ∧ (c.replicas 1).AtRest ∧
    (c.replicas 0).lastApplied = 1 ∧ (c.replicas 1).lastApplied = 1 :=
  ⟨_, rfl, rfl, ⟨rfl, ⟨rfl, rfl, rfl⟩⟩, ⟨rfl, ⟨rfl, rfl, rfl⟩⟩, rfl, rfl⟩

theorem freshKeys_oneEntry : FreshKeys ([oneEntry].flatMap entryCalls) := by
  rw [List.flatMap_singleton, entryCalls, entryMsgs_oneEntry]
  show ([⟨1, 0⟩] : List SlUint128).Nodup
  exact List.nodup_singleton _

/-! ## The replicas -/

/-- The records that the entries up to `lastApplied` hand to a replica. -/
def Cluster.prefixRecords (c : Cluster) (i : Nat) : List (SlUint128 × Bytes) :=
  (c.log.take (c.replicas i).lastApplied).flatMap entryCalls

theorem Cluster.freshKeys_prefixRecords {c : Cluster} (h : FreshKeys (c.log.flatMap entryCalls))
    (i : Nat) : FreshKeys (c.prefixRecords i) :=
  h.sublist ((List.take_sublist _ _).flatMap _)

/-- In every run of the servers, with every timing of flushes, compactions, ends of processes and
snapshots, and with no key twice in the log: the scans of a replica at rest are those of the entries
up to `lastApplied` exactly when none of the entries that a snapshot stood for has a record that the
tree takes; and no entry is passed over before the log has `snapshotThreshold` entries. -/
theorem replica_scans_iff {es : List ClusterEvent} (hes : ∀ e ∈ es, e.Sound) {c : Cluster}
    (hrun : run Cluster.step Cluster.init es = some c)
    (hfresh : FreshKeys (c.log.flatMap entryCalls)) (i : Nat) (hrest : (c.replicas i).AtRest) :
    ((∀ startKey endKey, lsmtScan (c.replicas i).store.lsmt startKey endKey =
        some (recordsOf (c.prefixRecords i) startKey endKey)) ↔
      unreserved ((c.replicas i).skipped.flatMap entryCalls) = []) ∧
    (c.log.length < snapshotThreshold → (c.replicas i).skipped = []) := by
  have hinv := (Cluster.Inv.of_run hes hrun).replicas i
  have hperm := hinv.calls_perm
  have hfront := Cluster.freshKeys_prefixRecords hfresh i
  have hboth := hfront.perm hperm
  have happlied := hboth.of_append
  have hunreserved : (unreserved (c.prefixRecords i)).length =
      (unreserved ((c.replicas i).applied.flatMap entryCalls)).length +
        (unreserved ((c.replicas i).skipped.flatMap entryCalls)).length := by
    rw [← List.length_append, unreserved, unreserved, unreserved, ← List.filter_append]
    exact (hperm.filter _).length_eq
  refine ⟨⟨fun hscans => ?_, fun hskipped startKey endKey => ?_⟩, fun hshort => ?_⟩
  · have hscan := hscans SlUint128.zero SlUint128.max
    rw [hinv.scan_eq hrest happlied, Option.some.injEq] at hscan
    have hlength := congrArg List.length hscan
    rw [length_recordsOf, length_recordsOf] at hlength
    exact List.length_eq_zero_iff.mp (by omega)
  · rw [hinv.scan_eq hrest happlied, recordsOf_perm hfront hperm, recordsOf, recordsOf, unreserved,
      unreserved, List.filter_append]
    have hskipped : ((c.replicas i).skipped.flatMap entryCalls).filter (fun node => node.1.id ≠ 0) =
        [] := hskipped
    rw [hskipped, List.append_nil]
  · by_contra hskipped
    exact absurd (hinv.skipped_ok hskipped) (Nat.not_le.mpr hshort)

/-- A replica that has begun again has passed over nothing, and it scans as the log says. -/
theorem replica_scans_iff_two : ∃ c, run Cluster.step Cluster.init twoReplicas = some c ∧
    (c.replicas 1).skipped = [] ∧
    ∀ startKey endKey, lsmtScan (c.replicas 1).store.lsmt startKey endKey =
      some (recordsOf (c.prefixRecords 1) startKey endKey) := by
  obtain ⟨c, hrun, hlog, -, hrest, -⟩ := run_twoReplicas
  have hfresh : FreshKeys (c.log.flatMap entryCalls) := hlog ▸ freshKeys_oneEntry
  obtain ⟨hiff, hskipped⟩ := replica_scans_iff sound_twoReplicas hrun hfresh 1 hrest
  have hnone : (c.replicas 1).skipped = [] := hskipped (by
    rw [hlog]
    decide)
  refine ⟨c, hrun, hnone, hiff.mpr ?_⟩
  rw [hnone]
  rfl

/-- While the log is shorter than `snapshotThreshold`, the scans of a replica at rest that has applied
no more entries than another one are part of the other's, in the same order; with the same number of
entries both scan alike; and a record of an entry that a replica has applied is in its scans. -/
theorem replicas_agree {es : List ClusterEvent} (hes : ∀ e ∈ es, e.Sound) {c : Cluster}
    (hrun : run Cluster.step Cluster.init es = some c)
    (hfresh : FreshKeys (c.log.flatMap entryCalls)) (hshort : c.log.length < snapshotThreshold)
    {i j : Nat} (hi : (c.replicas i).AtRest) (hj : (c.replicas j).AtRest)
    (hle : (c.replicas i).lastApplied ≤ (c.replicas j).lastApplied)
    (startKey endKey : SlUint128) :
    ∃ rs rs', lsmtScan (c.replicas i).store.lsmt startKey endKey = some rs ∧
      lsmtScan (c.replicas j).store.lsmt startKey endKey = some rs' ∧ rs.Sublist rs' ∧
      ((c.replicas i).lastApplied = (c.replicas j).lastApplied → rs = rs') ∧
      ∀ (k : Nat) (entry : Bytes), k < (c.replicas i).lastApplied → c.log[k]? = some entry →
        ∀ node ∈ entryCalls entry, node.1.id ≠ 0 → startKey ≤ node.1 → node.1 ≤ endKey →
          rawOf node ∈ rs := by
  have hscan : ∀ k, (c.replicas k).AtRest →
      lsmtScan (c.replicas k).store.lsmt startKey endKey =
        some (recordsOf (c.prefixRecords k) startKey endKey) := by
    intro k hk
    have hinv := (Cluster.Inv.of_run hes hrun).replicas k
    have hskipped : (c.replicas k).skipped = [] := by
      by_contra hskipped
      exact absurd (hinv.skipped_ok hskipped) (Nat.not_le.mpr hshort)
    have hperm := hinv.calls_perm
    rw [hskipped, List.flatMap_nil, List.append_nil] at hperm
    have hfront := Cluster.freshKeys_prefixRecords hfresh k
    rw [hinv.scan_eq hk (hfront.perm hperm), ← recordsOf_perm hfront hperm]
  refine ⟨_, _, hscan i hi, hscan j hj, ?_, ?_, ?_⟩
  · apply recordsOf_sublist (Cluster.freshKeys_prefixRecords hfresh j)
    exact (List.take_sublist_take_left hle).flatMap _
  · intro heq
    rw [Cluster.prefixRecords, Cluster.prefixRecords, heq]
  · intro k entry hk hentry node hnode hid hstart hend
    rw [(recordsOf_perm_range _ _ _).mem_iff, mem_rangeFilter]
    refine ⟨List.mem_map_of_mem (List.mem_filter.mpr ⟨?_, by simpa using hid⟩), hstart, hend⟩
    have htake : entry ∈ c.log.take (c.replicas i).lastApplied := by
      apply List.mem_of_getElem? (i := k)
      rw [List.getElem?_take_of_lt hk]
      exact hentry
    exact List.mem_flatMap.mpr ⟨entry, htake, hnode⟩

/-- Two replicas that have applied one entry. -/
theorem replicas_agree_two : ∃ c rs, run Cluster.step Cluster.init twoReplicas = some c ∧
    lsmtScan (c.replicas 0).store.lsmt SlUint128.zero SlUint128.max = some rs ∧
    lsmtScan (c.replicas 1).store.lsmt SlUint128.zero SlUint128.max = some rs ∧
    rawOf (recordOf oneEntry) ∈ rs := by
  obtain ⟨c, hrun, hlog, hrest, hrest', happlied, happlied'⟩ := run_twoReplicas
  have hfresh : FreshKeys (c.log.flatMap entryCalls) := hlog ▸ freshKeys_oneEntry
  have hshort : c.log.length < snapshotThreshold := by
    rw [hlog]
    decide
  obtain ⟨rs, rs', hscan, hscan', -, hsame, hrecord⟩ := replicas_agree sound_twoReplicas hrun hfresh
    hshort hrest hrest' (happlied.trans happlied'.symm).le SlUint128.zero SlUint128.max
  rw [← hsame (happlied.trans happlied'.symm)] at hscan'
  refine ⟨c, rs, hrun, hscan, hscan', hrecord 0 oneEntry ?_ ?_ (recordOf oneEntry) ?_ (by decide)
    (SlUint128.zero_le _) (SlUint128.le_max _)⟩
  · rw [happlied]
    exact Nat.one_pos
  · rw [hlog]
    rfl
  · rw [entryCalls, entryMsgs_oneEntry]
    exact List.mem_singleton_self _

end RaftLsmt.Server
