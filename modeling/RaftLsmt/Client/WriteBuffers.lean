import RaftLsmt.Client.Response
import RaftLsmt.Client.RoutingStrategies
import RaftLsmt.Lib.StepMachine

/-!
# The write buffers

`write` routes its records, adds them under the lock to the buffers of the nodes that were chosen, cuts
the full batches off, and hands them to `_flush_batch` when it has given the lock back. `flush` hands
what is left in the buffers over while it holds the lock. `step` lets one thread make its next move, or
changes the known leaders.

`write_buffers_conserve` says where the records are in every state of every run. Between the update and
the hand-over a batch is in the hands of its `write` only.
-/

set_option autoImplicit false

namespace RaftLsmt.Client

open RaftLsmt.Lib.OrderedDict
open RaftLsmt.Lib.StepMachine

/-- The strategy behind a `get_node_insert`. -/
def RoutingStrategy.next (topology : Topology) : RoutingStrategy → RoutingStrategy
  | .roundRobin counter =>
    if topology.clusterNames = [] then .roundRobin counter else .roundRobin (counter + 1)
  | strategy => strategy

/-- A batch with its node; `byWrite` when `write` has cut it off. -/
structure Batch where
  node : Option Node
  records : List Record
  byWrite : Bool

/-- What a thread is at: routing the records of a `write`, with `node_records` and as history its
choices, handing over its `batches_to_send`, or in the loop of `flush`. -/
inductive WriterThread where
  | idle
  | routing (todo : List Record) (nodeRecords : Dict (Option Node) (List Record))
    (chosen : List (Option Node × Record))
  | handing (batches : List Batch)
  | flushing (items : List (Option Node × List Record))

/-- The client with its threads. As history, `written` are the records with their nodes in the order in
which they were added to the buffers, `made` the batches in the order in which they were taken off
them, and `handed` the calls of `_flush_batch`. -/
structure WriteSystem where
  registry : LeaderRegistry
  strategy : RoutingStrategy
  writeBuffer : Dict (Option Node) (List Record)
  bufferLock : Option Nat
  threads : List WriterThread
  written : List (Option Node × Record)
  made : List Batch
  handed : List Batch

/-- What the threads do, and what becomes known of the leaders. -/
inductive WriteAction where
  | setLeader (node : Node)
  | clearClusterLeader (clusterName : String)
  | write (t : Nat) (records : List Record)
  | route (t : Nat)
  | update (t : Nat)
  | hand (t : Nat)
  | flush (t : Nat)
  | flushNext (t : Nat)

/-- `self._write_buffer[node]`. -/
def bufferOf (writeBuffer : Dict (Option Node) (List Record)) (node : Option Node) : List Record :=
  (writeBuffer.get node).getD []

/-- `while len(buffer) >= batch_size`: the batches cut off, and what is left; `fuel` bounds the turns. -/
def cutBatches (batchSize : Nat) : Nat → List Record → List (List Record) × List Record
  | 0, buffer => ([], buffer)
  | fuel + 1, buffer =>
    if batchSize ≤ buffer.length then
      (buffer.take batchSize :: (cutBatches batchSize fuel (buffer.drop batchSize)).1,
        (cutBatches batchSize fuel (buffer.drop batchSize)).2)
    else ([], buffer)

/-- One turn of the loop of `write` over `node_records`, with the batches so far. -/
def extendBuffer (batchSize : Nat) (s : Dict (Option Node) (List Record) × List Batch)
    (entry : Option Node × List Record) : Dict (Option Node) (List Record) × List Batch :=
  let buffer := bufferOf s.1 entry.1 ++ entry.2
  let cut := cutBatches batchSize buffer.length buffer
  (s.1.set entry.1 cut.2, s.2 ++ cut.1.map fun records => ⟨entry.1, records, true⟩)

namespace WriteSystem

/-- Idle threads and empty buffers. -/
def init (registry : LeaderRegistry) (strategy : RoutingStrategy) (numThreads : Nat) : WriteSystem where
  registry := registry
  strategy := strategy
  writeBuffer := Dict.empty
  bufferLock := none
  threads := List.replicate numThreads .idle
  written := []
  made := []
  handed := []

/-- A `write` whose routing raises an error has not touched the buffers. -/
def routeStep (md5 : Lsmt.Bytes → Lsmt.Bytes) (topology : Topology) (s : WriteSystem) (t : Nat)
    (record : Record) (todo : List Record) (nodeRecords : Dict (Option Node) (List Record))
    (chosen : List (Option Node × Record)) : WriteSystem :=
  let routed := s.strategy.getNodeInsert md5 topology s.registry record.keyId.toNat
    record.timestamp.toNat
  let s := { s with strategy := s.strategy.next topology }
  match routed with
  | .error _ => { s with threads := s.threads.set t .idle }
  | .ok node =>
    { s with
      threads := s.threads.set t
        (.routing todo (nodeRecords.set node (bufferOf nodeRecords node ++ [record]))
          (chosen ++ [(node, record)])) }

/-- One move. -/
def step (md5 : Lsmt.Bytes → Lsmt.Bytes) (topology : Topology) (batchSize : Nat) (s : WriteSystem) :
    WriteAction → Option WriteSystem
  | .setLeader node => some { s with registry := s.registry.setLeader node }
  | .clearClusterLeader clusterName =>
    some { s with registry := s.registry.clearClusterLeader clusterName }
  | .write t records =>
    match s.threads[t]? with
    | some .idle => some { s with threads := s.threads.set t (.routing records Dict.empty []) }
    | _ => none
  | .route t =>
    match s.threads[t]? with
    | some (.routing (record :: todo) nodeRecords chosen) =>
      some (s.routeStep md5 topology t record todo nodeRecords chosen)
    | _ => none
  | .update t =>
    match s.threads[t]?, s.bufferLock with
    | some (.routing [] nodeRecords chosen), none =>
      let updated := nodeRecords.entries.foldl (extendBuffer batchSize) (s.writeBuffer, [])
      some { s with
        writeBuffer := updated.1
        threads := s.threads.set t (.handing updated.2)
        written := s.written ++ chosen
        made := s.made ++ updated.2 }
    | _, _ => none
  | .hand t =>
    match s.threads[t]? with
    | some (.handing []) => some { s with threads := s.threads.set t .idle }
    | some (.handing (batch :: batches)) =>
      some { s with
        threads := s.threads.set t (.handing batches)
        handed := s.handed ++ [batch] }
    | _ => none
  | .flush t =>
    match s.threads[t]?, s.bufferLock with
    | some .idle, none =>
      some { s with
        bufferLock := some t
        threads := s.threads.set t (.flushing s.writeBuffer.entries) }
    | _, _ => none
  | .flushNext t =>
    match s.threads[t]? with
    | some (.flushing []) => some { s with bufferLock := none, threads := s.threads.set t .idle }
    | some (.flushing ((node, batch) :: items)) =>
      if batch = [] then some { s with threads := s.threads.set t (.flushing items) }
      else
        some { s with
          writeBuffer := s.writeBuffer.set node []
          threads := s.threads.set t (.flushing items)
          made := s.made ++ [⟨node, batch, false⟩]
          handed := s.handed ++ [⟨node, batch, false⟩] }
    | _ => none

/-- What a move does. -/
inductive Step (md5 : Lsmt.Bytes → Lsmt.Bytes) (topology : Topology) (batchSize : Nat)
    (s : WriteSystem) : WriteAction → WriteSystem → Prop where
  | setLeader (node : Node) :
    Step md5 topology batchSize s (.setLeader node) { s with registry := s.registry.setLeader node }
  | clearClusterLeader (clusterName : String) :
    Step md5 topology batchSize s (.clearClusterLeader clusterName)
      { s with registry := s.registry.clearClusterLeader clusterName }
  | write (t : Nat) (records : List Record) (ht : s.threads[t]? = some .idle) :
    Step md5 topology batchSize s (.write t records)
      { s with threads := s.threads.set t (.routing records Dict.empty []) }
  | route (t : Nat) (record : Record) (todo : List Record)
    (nodeRecords : Dict (Option Node) (List Record)) (chosen : List (Option Node × Record))
    (ht : s.threads[t]? = some (.routing (record :: todo) nodeRecords chosen)) :
    Step md5 topology batchSize s (.route t)
      (s.routeStep md5 topology t record todo nodeRecords chosen)
  | update (t : Nat) (nodeRecords : Dict (Option Node) (List Record))
    (chosen : List (Option Node × Record))
    (ht : s.threads[t]? = some (.routing [] nodeRecords chosen)) (hlock : s.bufferLock = none)
    (updated : Dict (Option Node) (List Record) × List Batch)
    (hupdated : nodeRecords.entries.foldl (extendBuffer batchSize) (s.writeBuffer, []) = updated) :
    Step md5 topology batchSize s (.update t)
      { s with
        writeBuffer := updated.1
        threads := s.threads.set t (.handing updated.2)
        written := s.written ++ chosen
        made := s.made ++ updated.2 }
  | handed (t : Nat) (ht : s.threads[t]? = some (.handing [])) :
    Step md5 topology batchSize s (.hand t) { s with threads := s.threads.set t .idle }
  | hand (t : Nat) (batch : Batch) (batches : List Batch)
    (ht : s.threads[t]? = some (.handing (batch :: batches))) :
    Step md5 topology batchSize s (.hand t)
      { s with
        threads := s.threads.set t (.handing batches)
        handed := s.handed ++ [batch] }
  | flush (t : Nat) (ht : s.threads[t]? = some .idle) (hlock : s.bufferLock = none) :
    Step md5 topology batchSize s (.flush t)
      { s with
        bufferLock := some t
        threads := s.threads.set t (.flushing s.writeBuffer.entries) }
  | flushed (t : Nat) (ht : s.threads[t]? = some (.flushing [])) :
    Step md5 topology batchSize s (.flushNext t)
      { s with bufferLock := none, threads := s.threads.set t .idle }
  | flushEmpty (t : Nat) (node : Option Node) (items : List (Option Node × List Record))
    (ht : s.threads[t]? = some (.flushing ((node, []) :: items))) :
    Step md5 topology batchSize s (.flushNext t)
      { s with threads := s.threads.set t (.flushing items) }
  | flushBuffer (t : Nat) (node : Option Node) (batch : List Record)
    (items : List (Option Node × List Record))
    (ht : s.threads[t]? = some (.flushing ((node, batch) :: items))) (hne : batch ≠ []) :
    Step md5 topology batchSize s (.flushNext t)
      { s with
        writeBuffer := s.writeBuffer.set node []
        threads := s.threads.set t (.flushing items)
        made := s.made ++ [⟨node, batch, false⟩]
        handed := s.handed ++ [⟨node, batch, false⟩] }

theorem step_cases {md5 : Lsmt.Bytes → Lsmt.Bytes} {topology : Topology} {batchSize : Nat}
    {s s' : WriteSystem} {a : WriteAction} (h : s.step md5 topology batchSize a = some s') :
    s.Step md5 topology batchSize a s' := by
  cases a with
  | setLeader node =>
    cases h
    exact .setLeader node
  | clearClusterLeader clusterName =>
    cases h
    exact .clearClusterLeader clusterName
  | write t records =>
    simp only [step] at h
    split at h <;> cases h
    rename_i ht
    exact .write t records ht
  | route t =>
    simp only [step] at h
    split at h <;> cases h
    rename_i record todo nodeRecords chosen ht
    exact .route t record todo nodeRecords chosen ht
  | update t =>
    simp only [step] at h
    split at h <;> cases h
    rename_i nodeRecords chosen ht hlock
    exact .update t nodeRecords chosen ht hlock _ rfl
  | hand t =>
    simp only [step] at h
    split at h <;> cases h
    · rename_i ht
      exact .handed t ht
    · rename_i batch batches ht
      exact .hand t batch batches ht
  | flush t =>
    simp only [step] at h
    split at h <;> cases h
    rename_i ht hlock
    exact .flush t ht hlock
  | flushNext t =>
    simp only [step] at h
    split at h
    · rename_i ht
      cases h
      exact .flushed t ht
    · rename_i node batch items ht
      split at h <;> cases h
      · rename_i hempty
        exact .flushEmpty t node items (hempty ▸ ht)
      · rename_i hne
        exact .flushBuffer t node batch items ht hne
    · cases h

end WriteSystem

/-! ## Cutting batches -/

theorem cutBatches_append (batchSize fuel : Nat) (buffer : List Record) :
    (cutBatches batchSize fuel buffer).1.flatten ++ (cutBatches batchSize fuel buffer).2 = buffer := by
  induction fuel generalizing buffer with
  | zero => rfl
  | succ fuel ih =>
    unfold cutBatches
    split
    · dsimp only
      rw [List.flatten_cons, List.append_assoc, ih, List.take_append_drop]
    · rfl

theorem length_of_mem_cutBatches {batchSize fuel : Nat} {buffer batch : List Record}
    (h : batch ∈ (cutBatches batchSize fuel buffer).1) : batch.length = batchSize := by
  induction fuel generalizing buffer with
  | zero => cases h
  | succ fuel ih =>
    unfold cutBatches at h
    split at h
    · rename_i hle
      rcases List.mem_cons.mp h with rfl | h
      · exact List.length_take_of_le hle
      · exact ih h
    · cases h

/-- The loop ends with less than a batch left. -/
theorem length_cutBatches_lt {batchSize fuel : Nat} (hsize : 1 ≤ batchSize) {buffer : List Record}
    (hfuel : buffer.length ≤ fuel) : (cutBatches batchSize fuel buffer).2.length < batchSize := by
  induction fuel generalizing buffer with
  | zero =>
    unfold cutBatches
    dsimp only
    omega
  | succ fuel ih =>
    unfold cutBatches
    split
    · apply ih
      rw [List.length_drop]
      omega
    · dsimp only
      omega

/-- The records of the batches for a node. -/
def recordsFor (batches : List Batch) (node : Option Node) : List Record :=
  (batches.filter fun b => b.node = node).flatMap Batch.records

@[simp]
theorem recordsFor_append (as bs : List Batch) (node : Option Node) :
    recordsFor (as ++ bs) node = recordsFor as node ++ recordsFor bs node := by
  unfold recordsFor
  rw [List.filter_append, List.flatMap_append]

theorem recordsFor_map (node other : Option Node) (batches : List (List Record)) :
    recordsFor (batches.map fun records => ⟨node, records, true⟩) other =
      if node = other then batches.flatten else [] := by
  induction batches with
  | nil => simp [recordsFor]
  | cons batch batches ih =>
    unfold recordsFor at ih ⊢
    rw [List.map_cons, List.filter_cons]
    by_cases h : node = other
    · simp only [h, decide_true, if_true] at ih ⊢
      rw [List.flatMap_cons, ih, List.flatten_cons]
    · simp only [h, decide_false, if_false] at ih ⊢
      exact ih

theorem bufferOf_set (writeBuffer : Dict (Option Node) (List Record)) (node other : Option Node)
    (records : List Record) :
    bufferOf (writeBuffer.set node records) other =
      if other = node then records else bufferOf writeBuffer other := by
  unfold bufferOf
  rw [Dict.get_set]
  split <;> rfl

/-- What a turn adds to a buffer goes to the batches or stays in the buffer, behind what was there. -/
theorem extendBuffer_spec {batchSize : Nat} (hsize : 1 ≤ batchSize)
    (s : Dict (Option Node) (List Record) × List Batch) (entry : Option Node × List Record) :
    (∀ node, recordsFor (extendBuffer batchSize s entry).2 node ++
        bufferOf (extendBuffer batchSize s entry).1 node =
      recordsFor s.2 node ++ bufferOf s.1 node ++ if entry.1 = node then entry.2 else []) ∧
    (∀ b ∈ (extendBuffer batchSize s entry).2, b ∈ s.2 ∨ b.byWrite = true ∧ b.records.length = batchSize) ∧
    ∀ node, (bufferOf s.1 node).length < batchSize →
      (bufferOf (extendBuffer batchSize s entry).1 node).length < batchSize := by
  obtain ⟨name, records⟩ := entry
  have hcut := cutBatches_append batchSize (bufferOf s.1 name ++ records).length
    (bufferOf s.1 name ++ records)
  refine ⟨?_, ?_, ?_⟩
  · intro node
    unfold extendBuffer
    dsimp only
    rw [recordsFor_append, recordsFor_map, bufferOf_set]
    by_cases h : name = node
    · subst h
      simp only [if_true]
      rw [List.append_assoc, hcut, List.append_assoc]
    · rw [if_neg h, if_neg (Ne.symm h), if_neg h, List.append_nil, List.append_nil]
  · intro b hb
    rcases List.mem_append.mp hb with hb | hb
    · exact Or.inl hb
    · obtain ⟨batch, hbatch, rfl⟩ := List.mem_map.mp hb
      exact Or.inr ⟨rfl, length_of_mem_cutBatches hbatch⟩
  · intro node hlt
    unfold extendBuffer
    dsimp only
    rw [bufferOf_set]
    split
    · exact length_cutBatches_lt hsize (Nat.le_refl _)
    · exact hlt

/-- The loop of `write` over `node_records`. -/
theorem foldl_extendBuffer_spec {batchSize : Nat} (hsize : 1 ≤ batchSize)
    (entries : List (Option Node × List Record)) (s : Dict (Option Node) (List Record) × List Batch) :
    (∀ node, recordsFor (entries.foldl (extendBuffer batchSize) s).2 node ++
        bufferOf (entries.foldl (extendBuffer batchSize) s).1 node =
      recordsFor s.2 node ++ bufferOf s.1 node ++
        (entries.filter fun p => p.1 = node).flatMap Prod.snd) ∧
    (∀ b ∈ (entries.foldl (extendBuffer batchSize) s).2,
      b ∈ s.2 ∨ b.byWrite = true ∧ b.records.length = batchSize) ∧
    ∀ node, (bufferOf s.1 node).length < batchSize →
      (bufferOf (entries.foldl (extendBuffer batchSize) s).1 node).length < batchSize := by
  induction entries generalizing s with
  | nil => exact ⟨fun node => (List.append_nil _).symm, fun b hb => Or.inl hb, fun node h => h⟩
  | cons entry entries ih =>
    obtain ⟨hrecords, hbatches, hlength⟩ := extendBuffer_spec hsize s entry
    obtain ⟨ihrecords, ihbatches, ihlength⟩ := ih (extendBuffer batchSize s entry)
    rw [List.foldl_cons]
    refine ⟨?_, ?_, fun node h => ihlength node (hlength node h)⟩
    · intro node
      rw [ihrecords node, hrecords node, List.filter_cons]
      by_cases h : entry.1 = node
      · simp only [h, decide_true, if_true, List.flatMap_cons, List.append_assoc]
      · simp only [h, decide_false, if_false, List.append_nil]
        rfl
    · intro b hb
      rcases ihbatches b hb with hb | hb
      · exact hbatches b hb
      · exact Or.inr hb

/-! ## Where the records are -/

/-- The records for a node, in their order. -/
def recordsTo (ps : List (Option Node × Record)) (node : Option Node) : List Record :=
  (ps.filter fun p => p.1 = node).map Prod.snd

@[simp]
theorem recordsTo_append (ps qs : List (Option Node × Record)) (node : Option Node) :
    recordsTo (ps ++ qs) node = recordsTo ps node ++ recordsTo qs node := by
  unfold recordsTo
  rw [List.filter_append, List.map_append]

theorem recordsTo_singleton (node other : Option Node) (record : Record) :
    recordsTo [(node, record)] other = if node = other then [record] else [] := by
  unfold recordsTo
  by_cases h : node = other
  · simp [h]
  · simp [h]

/-- The batches that a thread has cut off and not handed over yet. -/
def WriterThread.toHand : WriterThread → List Batch
  | .handing batches => batches
  | _ => []

/-- What a thread holds is exchanged. -/
theorem flatMap_set_perm {threads : List WriterThread} {t : Nat} {x : WriterThread}
    (h : threads[t]? = some x) (y : WriterThread) :
    (x.toHand ++ (threads.set t y).flatMap WriterThread.toHand).Perm
      (y.toHand ++ threads.flatMap WriterThread.toHand) := by
  obtain ⟨hlt, rfl⟩ := List.getElem?_eq_some_iff.mp h
  have hset := (List.set_perm_cons_eraseIdx hlt y).flatMap_right WriterThread.toHand
  have hold := (List.getElem_cons_eraseIdx_perm hlt).flatMap_right WriterThread.toHand
  rw [List.flatMap_cons] at hset hold
  refine (hset.append_left _).trans (List.Perm.trans ?_ (hold.append_left _))
  rw [← List.append_assoc, ← List.append_assoc]
  exact List.perm_append_comm.append_right _

theorem of_getElem?_set {threads : List WriterThread} {t t' : Nat} {x y : WriterThread}
    (h : (threads.set t x)[t']? = some y) : t' = t ∧ y = x ∨ t' ≠ t ∧ threads[t']? = some y := by
  by_cases ht : t' = t
  · subst ht
    rw [List.getElem?_set_self'] at h
    obtain ⟨_, -, hy⟩ := Option.map_eq_some_iff.mp h
    exact Or.inl ⟨rfl, hy.symm⟩
  · rw [List.getElem?_set_ne (Ne.symm ht)] at h
    exact Or.inr ⟨ht, h⟩

/-- The router has chosen the node for the record, with the leaders known at some time. -/
def Routed (md5 : Lsmt.Bytes → Lsmt.Bytes) (topology : Topology) (strategy : RoutingStrategy)
    (p : Option Node × Record) : Prop :=
  ∃ (registry : LeaderRegistry) (k : Nat),
    ((RoutingStrategy.next topology)^[k] strategy).getNodeInsert md5 topology registry
      p.2.keyId.toNat p.2.timestamp.toNat = .ok p.1

namespace WriteSystem

/-- The batches that are in the hands of a `write`. -/
def pending (s : WriteSystem) : List Batch := s.threads.flatMap WriterThread.toHand

/-- What holds of the records in every state of a run. -/
structure Conserves (md5 : Lsmt.Bytes → Lsmt.Bytes) (topology : Topology) (strategy : RoutingStrategy)
    (batchSize : Nat) (s : WriteSystem) : Prop where
  strategy_eq : ∃ k, s.strategy = (RoutingStrategy.next topology)^[k] strategy
  routing : ∀ (t : Nat) todo nodeRecords chosen,
    s.threads[t]? = some (WriterThread.routing todo nodeRecords chosen) →
    (∀ node, bufferOf nodeRecords node = recordsTo chosen node) ∧
      ∀ p ∈ chosen, Routed md5 topology strategy p
  flushing : ∀ (t : Nat) items, s.threads[t]? = some (WriterThread.flushing items) →
    s.bufferLock = some t ∧ (items.map Prod.fst).Nodup ∧
      ∀ p ∈ items, s.writeBuffer.get p.1 = some p.2
  partition : ∀ node, recordsFor s.made node ++ bufferOf s.writeBuffer node = recordsTo s.written node
  made_perm : s.made.Perm (s.handed ++ s.pending)
  full : ∀ b ∈ s.made, b.byWrite = true → b.records.length = batchSize
  short : ∀ node, (bufferOf s.writeBuffer node).length < batchSize
  routed : ∀ p ∈ s.written, Routed md5 topology strategy p

variable {md5 : Lsmt.Bytes → Lsmt.Bytes} {topology : Topology} {strategy : RoutingStrategy}
  {batchSize : Nat} {s s' : WriteSystem} {t : Nat}

theorem toHand_replicate (n : Nat) :
    (List.replicate n WriterThread.idle).flatMap WriterThread.toHand = [] := by
  rw [List.flatMap_eq_nil_iff]
  intro thread hthread
  rw [List.eq_of_mem_replicate hthread]
  rfl

theorem conserves_init (hsize : 1 ≤ batchSize) (registry : LeaderRegistry) (numThreads : Nat) :
    Conserves md5 topology strategy batchSize (init registry strategy numThreads) := by
  have hidle : ∀ {t : Nat} {thread : WriterThread},
      (List.replicate numThreads WriterThread.idle)[t]? = some thread → thread = .idle := fun h =>
    List.eq_of_mem_replicate (List.mem_of_getElem? h)
  refine ⟨⟨0, rfl⟩, ?_, ?_, fun _ => rfl, ?_, ?_, fun _ => hsize, ?_⟩
  · intro t todo nodeRecords chosen h
    cases hidle h
  · intro t items h
    cases hidle h
  · show List.Perm [] ([] ++ (List.replicate numThreads WriterThread.idle).flatMap WriterThread.toHand)
    rw [toHand_replicate]
    exact List.Perm.refl _
  · intro b hb
    cases hb
  · intro p hp
    cases hp

/-- What becomes known of the leaders does not matter. -/
theorem Conserves.setRegistry (h : Conserves md5 topology strategy batchSize s)
    (registry : LeaderRegistry) :
    Conserves md5 topology strategy batchSize { s with registry := registry } :=
  ⟨h.strategy_eq, h.routing, h.flushing, h.partition, h.made_perm, h.full, h.short, h.routed⟩

theorem pending_perm {x y : WriterThread} (hx : s.threads[t]? = some x) (hhand : y.toHand = x.toHand) :
    s.pending.Perm ((s.threads.set t y).flatMap WriterThread.toHand) := by
  have hperm := flatMap_set_perm hx y
  rw [hhand, List.perm_append_left_iff] at hperm
  exact hperm.symm

/-- A thread moves on and holds the same batches as before. -/
theorem Conserves.setThread (h : Conserves md5 topology strategy batchSize s) {x y : WriterThread}
    (hx : s.threads[t]? = some x) (hhand : y.toHand = x.toHand)
    (hrouting : ∀ todo nodeRecords chosen, y = .routing todo nodeRecords chosen →
      (∀ node, bufferOf nodeRecords node = recordsTo chosen node) ∧
        ∀ p ∈ chosen, Routed md5 topology strategy p)
    (hflushing : ∀ items, y = .flushing items →
      s.bufferLock = some t ∧ (items.map Prod.fst).Nodup ∧ ∀ p ∈ items, s.writeBuffer.get p.1 = some p.2) :
    Conserves md5 topology strategy batchSize { s with threads := s.threads.set t y } := by
  refine ⟨h.strategy_eq, ?_, ?_, h.partition, ?_, h.full, h.short, h.routed⟩
  · intro t' todo nodeRecords chosen hget
    rcases of_getElem?_set hget with ⟨rfl, heq⟩ | ⟨-, hold⟩
    · exact hrouting todo nodeRecords chosen heq.symm
    · exact h.routing t' todo nodeRecords chosen hold
  · intro t' items hget
    rcases of_getElem?_set hget with ⟨rfl, heq⟩ | ⟨-, hold⟩
    · exact hflushing items heq.symm
    · exact h.flushing t' items hold
  · exact h.made_perm.trans ((pending_perm hx hhand).append_left s.handed)

theorem Conserves.route (h : Conserves md5 topology strategy batchSize s) {record : Record}
    {todo : List Record} {nodeRecords : Dict (Option Node) (List Record)}
    {chosen : List (Option Node × Record)}
    (ht : s.threads[t]? = some (.routing (record :: todo) nodeRecords chosen)) :
    Conserves md5 topology strategy batchSize
      (s.routeStep md5 topology t record todo nodeRecords chosen) := by
  obtain ⟨k, hk⟩ := h.strategy_eq
  obtain ⟨hbuffer, hrouted⟩ := h.routing t _ _ _ ht
  have hnext : Conserves md5 topology strategy batchSize
      { s with strategy := s.strategy.next topology } := by
    refine ⟨⟨k + 1, ?_⟩, h.routing, h.flushing, h.partition, h.made_perm, h.full, h.short, h.routed⟩
    rw [Function.iterate_succ_apply', ← hk]
  unfold routeStep
  dsimp only
  split
  · -- the error leaves `write`, and the records chosen so far go nowhere
    refine hnext.setThread ht rfl ?_ ?_
    · rintro _ _ _ ⟨⟩
    · rintro _ ⟨⟩
  · rename_i node hnode
    refine hnext.setThread ht rfl ?_ ?_
    · rintro _ _ _ ⟨⟩
      constructor
      · intro other
        rw [bufferOf_set, recordsTo_append, recordsTo_singleton, hbuffer node, hbuffer other]
        by_cases heq : other = node
        · rw [if_pos heq, if_pos heq.symm, heq]
        · rw [if_neg heq, if_neg (Ne.symm heq), List.append_nil]
      · intro p hp
        rcases List.mem_append.mp hp with hp | hp
        · exact hrouted p hp
        · rw [List.mem_singleton.mp hp]
          exact ⟨s.registry, k, hk ▸ hnode⟩
    · rintro _ ⟨⟩

/-- Under the lock of nobody, `write` updates the buffers. -/
theorem Conserves.update (hsize : 1 ≤ batchSize) (h : Conserves md5 topology strategy batchSize s)
    {nodeRecords : Dict (Option Node) (List Record)} {chosen : List (Option Node × Record)}
    (ht : s.threads[t]? = some (.routing [] nodeRecords chosen)) (hlock : s.bufferLock = none)
    {updated : Dict (Option Node) (List Record) × List Batch}
    (hupdated : nodeRecords.entries.foldl (extendBuffer batchSize) (s.writeBuffer, []) = updated) :
    Conserves md5 topology strategy batchSize
      { s with
        writeBuffer := updated.1
        threads := s.threads.set t (.handing updated.2)
        written := s.written ++ chosen
        made := s.made ++ updated.2 } := by
  obtain ⟨hbuffer, hrouted⟩ := h.routing t _ _ _ ht
  -- what the buffers and the full batches hold is what they held and what comes in
  obtain ⟨hrecords, hbatches, hlength⟩ :=
    foldl_extendBuffer_spec hsize nodeRecords.entries (s.writeBuffer, [])
  rw [hupdated] at hrecords hbatches hlength
  refine ⟨h.strategy_eq, ?_, ?_, ?_, ?_, ?_, fun node => hlength node (h.short node), ?_⟩
  · -- the other threads are where they were
    intro t' todo nodeRecords' chosen' hget
    rcases of_getElem?_set hget with ⟨-, ⟨⟩⟩ | ⟨-, hold⟩
    exact h.routing t' todo nodeRecords' chosen' hold
  · intro t' items hget
    rcases of_getElem?_set hget with ⟨-, ⟨⟩⟩ | ⟨-, hold⟩
    -- nobody flushes while the lock is free
    have hheld := (h.flushing t' items hold).1
    rw [hlock] at hheld
    cases hheld
  · -- the records of a node: buffered, in batches, or chosen by a thread
    intro node
    have hnode := hrecords node
    rw [Dict.flatMap_filter_entries] at hnode
    have hnil : recordsFor [] node = [] := rfl
    have hchosen : (nodeRecords.get node).getD [] = recordsTo chosen node := hbuffer node
    dsimp only
    rw [recordsFor_append, recordsTo_append, List.append_assoc, hnode, hchosen, ← h.partition node,
      hnil, List.nil_append, List.append_assoc]
  · -- the new batches are the ones this thread is going to hand over
    have hperm : (s.threads.set t (.handing updated.2)).flatMap WriterThread.toHand |>.Perm
        (updated.2 ++ s.pending) := flatMap_set_perm ht (.handing updated.2)
    refine (h.made_perm.append_right updated.2).trans ?_
    rw [List.append_assoc]
    exact (List.perm_append_comm.trans hperm.symm).append_left s.handed
  · -- a batch that was made while writing is full
    intro b hb
    rcases List.mem_append.mp hb with hb | hb
    · exact h.full b hb
    · rcases hbatches b hb with hnil | ⟨-, hlen⟩
      · cases hnil
      · exact fun _ => hlen
  · intro p hp
    rcases List.mem_append.mp hp with hp | hp
    · exact h.routed p hp
    · exact hrouted p hp

/-- A `write` hands its next batch over. -/
theorem Conserves.hand (h : Conserves md5 topology strategy batchSize s) {batch : Batch}
    {batches : List Batch} (ht : s.threads[t]? = some (.handing (batch :: batches))) :
    Conserves md5 topology strategy batchSize
      { s with
        threads := s.threads.set t (.handing batches)
        handed := s.handed ++ [batch] } := by
  refine ⟨h.strategy_eq, ?_, ?_, h.partition, ?_, h.full, h.short, h.routed⟩
  · intro t' todo nodeRecords chosen hget
    rcases of_getElem?_set hget with ⟨-, ⟨⟩⟩ | ⟨-, hold⟩
    exact h.routing t' todo nodeRecords chosen hold
  · intro t' items hget
    rcases of_getElem?_set hget with ⟨-, ⟨⟩⟩ | ⟨-, hold⟩
    exact h.flushing t' items hold
  · have hperm := flatMap_set_perm ht (.handing batches)
    have hmiddle : (batch :: (s.threads.set t (.handing batches)).flatMap WriterThread.toHand).Perm
        s.pending := (List.perm_append_left_iff batches).mp (List.perm_middle.trans hperm)
    refine h.made_perm.trans ((hmiddle.symm.append_left s.handed).trans ?_)
    show (s.handed ++ batch :: _).Perm (s.handed ++ [batch] ++ _)
    rw [List.append_assoc]
    exact List.Perm.refl _

/-- `flush` takes the lock and the items of the buffers. -/
theorem Conserves.flush (h : Conserves md5 topology strategy batchSize s)
    (ht : s.threads[t]? = some .idle) (hlock : s.bufferLock = none) :
    Conserves md5 topology strategy batchSize
      { s with
        bufferLock := some t
        threads := s.threads.set t (.flushing s.writeBuffer.entries) } := by
  refine ⟨h.strategy_eq, ?_, ?_, h.partition, ?_, h.full, h.short, h.routed⟩
  · intro t' todo nodeRecords chosen hget
    rcases of_getElem?_set hget with ⟨-, ⟨⟩⟩ | ⟨-, hold⟩
    exact h.routing t' todo nodeRecords chosen hold
  · intro t' items hget
    rcases of_getElem?_set hget with ⟨rfl, ⟨⟩⟩ | ⟨-, hold⟩
    · exact ⟨rfl, s.writeBuffer.nodup, fun p hp => Dict.mem_entries_iff.mp hp⟩
    · have hheld := (h.flushing t' items hold).1
      rw [hlock] at hheld
      cases hheld
  · have hpending := @pending_perm s t _ (.flushing s.writeBuffer.entries) ht rfl
    exact h.made_perm.trans (hpending.append_left s.handed)

/-- The loop of `flush` ends and gives the lock back. -/
theorem Conserves.unlock (h : Conserves md5 topology strategy batchSize s)
    (ht : s.threads[t]? = some (.flushing [])) :
    Conserves md5 topology strategy batchSize
      { s with bufferLock := none, threads := s.threads.set t .idle } := by
  have hlock := (h.flushing t [] ht).1
  refine ⟨h.strategy_eq, ?_, ?_, h.partition, ?_, h.full, h.short, h.routed⟩
  · intro t' todo nodeRecords chosen hget
    rcases of_getElem?_set hget with ⟨-, ⟨⟩⟩ | ⟨-, hold⟩
    exact h.routing t' todo nodeRecords chosen hold
  · intro t' items hget
    rcases of_getElem?_set hget with ⟨-, ⟨⟩⟩ | ⟨hne, hold⟩
    have hheld := (h.flushing t' items hold).1
    rw [hlock] at hheld
    exact absurd (Option.some.inj hheld).symm hne
  · have hpending := @pending_perm s t _ .idle ht rfl
    exact h.made_perm.trans (hpending.append_left s.handed)

/-- `flush` hands a buffer over and replaces it by an empty one. -/
theorem Conserves.flushBuffer (h : Conserves md5 topology strategy batchSize s) {node : Option Node}
    {batch : List Record} {items : List (Option Node × List Record)}
    (ht : s.threads[t]? = some (.flushing ((node, batch) :: items))) :
    Conserves md5 topology strategy batchSize
      { s with
        writeBuffer := s.writeBuffer.set node []
        threads := s.threads.set t (.flushing items)
        made := s.made ++ [⟨node, batch, false⟩]
        handed := s.handed ++ [⟨node, batch, false⟩] } := by
  obtain ⟨hlock, hnodup, hitems⟩ := h.flushing t _ ht
  rw [List.map_cons, List.nodup_cons] at hnodup
  -- the buffers cannot have changed since the flush took the lock
  have hbatch : bufferOf s.writeBuffer node = batch := by
    unfold bufferOf
    rw [hitems _ List.mem_cons_self]
    rfl
  refine ⟨h.strategy_eq, ?_, ?_, ?_, ?_, ?_, ?_, h.routed⟩
  · intro t' todo nodeRecords chosen hget
    rcases of_getElem?_set hget with ⟨-, ⟨⟩⟩ | ⟨-, hold⟩
    exact h.routing t' todo nodeRecords chosen hold
  · -- the buffers of the nodes that are left are as they were
    intro t' items' hget
    rcases of_getElem?_set hget with ⟨rfl, ⟨⟩⟩ | ⟨hne, hold⟩
    · refine ⟨hlock, hnodup.2, ?_⟩
      intro p hp
      have hother : p.1 ≠ node := by
        intro heq
        exact hnodup.1 (List.mem_map.mpr ⟨p, hp, heq⟩)
      rw [Dict.get_set_of_ne hother]
      exact hitems p (List.mem_cons_of_mem _ hp)
    · have hheld := (h.flushing t' items' hold).1
      rw [hlock] at hheld
      exact absurd (Option.some.inj hheld).symm hne
  · -- the records go from the buffer to the batch
    intro other
    have hold := h.partition other
    dsimp only
    rw [recordsFor_append, bufferOf_set, ← hold]
    by_cases heq : other = node
    · subst heq
      rw [if_pos rfl, List.append_nil, hbatch]
      simp [recordsFor]
    · rw [if_neg heq]
      simp [recordsFor, Ne.symm heq]
  · have hpending := @pending_perm s t _ (.flushing items) ht rfl
    refine (h.made_perm.append_right _).trans ?_
    rw [List.append_assoc, List.append_assoc]
    exact (List.perm_append_comm.trans (hpending.append_left _)).append_left s.handed
  · -- a batch of a flush need not be full
    intro b hb hwrite
    rcases List.mem_append.mp hb with hb | hb
    · exact h.full b hb hwrite
    · rw [List.mem_singleton.mp hb] at hwrite
      cases hwrite
  · intro other
    rw [bufferOf_set]
    split
    · exact Nat.lt_of_le_of_lt (Nat.zero_le _) (h.short node)
    · exact h.short other

theorem Conserves.step {a : WriteAction} (hsize : 1 ≤ batchSize)
    (h : Conserves md5 topology strategy batchSize s)
    (hstep : s.step md5 topology batchSize a = some s') :
    Conserves md5 topology strategy batchSize s' := by
  cases step_cases hstep with
  | setLeader node => exact h.setRegistry _
  | clearClusterLeader clusterName => exact h.setRegistry _
  | write t records ht =>
    refine h.setThread ht rfl ?_ ?_
    · -- nothing is routed yet
      rintro _ _ _ ⟨⟩
      refine ⟨fun _ => rfl, ?_⟩
      intro p hp
      cases hp
    · rintro _ ⟨⟩
  | route t record todo nodeRecords chosen ht => exact h.route ht
  | update t nodeRecords chosen ht hlock updated hupdated => exact h.update hsize ht hlock hupdated
  | handed t ht =>
    refine h.setThread ht rfl ?_ ?_
    · rintro _ _ _ ⟨⟩
    · rintro _ ⟨⟩
  | hand t batch batches ht => exact h.hand ht
  | flush t ht hlock => exact h.flush ht hlock
  | flushed t ht => exact h.unlock ht
  | flushEmpty t node items ht =>
    -- an empty buffer is passed over
    obtain ⟨hlock, hnodup, hitems⟩ := h.flushing t _ ht
    refine h.setThread ht rfl ?_ ?_
    · rintro _ _ _ ⟨⟩
    · rintro _ ⟨⟩
      rw [List.map_cons, List.nodup_cons] at hnodup
      exact ⟨hlock, hnodup.2, fun p hp => hitems p (List.mem_cons_of_mem _ hp)⟩
  | flushBuffer t node batch items ht => exact h.flushBuffer ht

theorem conserves_of_run (hsize : 1 ≤ batchSize) {registry : LeaderRegistry} {numThreads : Nat}
    {actions : List WriteAction}
    (h : run (WriteSystem.step md5 topology batchSize) (init registry strategy numThreads) actions = some s) :
    Conserves md5 topology strategy batchSize s := by
  have hstep : ∀ (s : WriteSystem) (a : WriteAction) (s' : WriteSystem), True →
      Conserves md5 topology strategy batchSize s → s.step md5 topology batchSize a = some s' →
      Conserves md5 topology strategy batchSize s' := fun _ _ _ _ hs ha => hs.step hsize ha
  exact run_invariant hstep (fun _ _ => trivial) (conserves_init hsize registry numThreads) h

/-- One thread: it hands the batches over in the order in which they were made. -/
def Ordered (s : WriteSystem) : Prop :=
  ∃ thread, s.threads = [thread] ∧ s.made = s.handed ++ thread.toHand

theorem eq_of_getElem?_singleton {x y : WriterThread} (h : [x][t]? = some y) : t = 0 ∧ x = y := by
  cases t with
  | zero => exact ⟨rfl, Option.some.inj h⟩
  | succ t => cases h

/-- The thread moves on and holds the same batches as before. -/
theorem Ordered.setThread (h : s.Ordered) {x y : WriterThread} (hx : s.threads[t]? = some x)
    (hthreads : s'.threads = s.threads.set t y) (hhand : y.toHand = x.toHand)
    (hmade : s'.made = s.made) (hhanded : s'.handed = s.handed) : s'.Ordered := by
  obtain ⟨thread, hthread, heq⟩ := h
  rw [hthread] at hx hthreads
  obtain ⟨rfl, rfl⟩ := eq_of_getElem?_singleton hx
  refine ⟨y, hthreads, ?_⟩
  rw [hmade, hhanded, hhand, heq]

theorem Ordered.step {a : WriteAction} (h : s.Ordered)
    (hstep : s.step md5 topology batchSize a = some s') : s'.Ordered := by
  cases step_cases hstep with
  -- the registry is no part of the order
  | setLeader node => exact h
  | clearClusterLeader clusterName => exact h
  | write t records ht => exact h.setThread ht rfl rfl rfl rfl
  | route t record todo nodeRecords chosen ht =>
    unfold routeStep
    dsimp only
    split
    · exact h.setThread ht rfl rfl rfl rfl
    · exact h.setThread ht rfl rfl rfl rfl
  -- the batches made are appended to those made before
  | update t nodeRecords chosen ht =>
    obtain ⟨thread, hthread, heq⟩ := h
    rw [hthread] at ht
    obtain ⟨rfl, rfl⟩ := eq_of_getElem?_singleton ht
    refine ⟨_, congrArg (fun threads => List.set threads 0 _) hthread, ?_⟩
    dsimp only
    rw [heq]
    exact congrArg (· ++ _) (List.append_nil _)
  -- the first batch goes from the thread to the ones handed over
  | handed t ht => exact h.setThread ht rfl rfl rfl rfl
  | hand t batch batches ht =>
    obtain ⟨thread, hthread, heq⟩ := h
    rw [hthread] at ht
    obtain ⟨rfl, rfl⟩ := eq_of_getElem?_singleton ht
    refine ⟨_, congrArg (fun threads => List.set threads 0 _) hthread, ?_⟩
    dsimp only
    rw [heq, List.append_assoc]
    rfl
  | flush t ht => exact h.setThread ht rfl rfl rfl rfl
  -- a flush makes a batch and hands it over at once
  | flushed t ht => exact h.setThread ht rfl rfl rfl rfl
  | flushEmpty t node items ht => exact h.setThread ht rfl rfl rfl rfl
  | flushBuffer t node batch items ht =>
    obtain ⟨thread, hthread, heq⟩ := h
    rw [hthread] at ht
    obtain ⟨rfl, rfl⟩ := eq_of_getElem?_singleton ht
    refine ⟨_, congrArg (fun threads => List.set threads 0 _) hthread, ?_⟩
    dsimp only
    rw [heq]
    exact (congrArg (· ++ _) (List.append_nil _)).trans (List.append_nil _).symm

theorem ordered_of_run {registry : LeaderRegistry} {actions : List WriteAction}
    (h : run (WriteSystem.step md5 topology batchSize) (init registry strategy 1) actions = some s) :
    s.made = s.handed ++ s.pending := by
  have hstep : ∀ (s : WriteSystem) (a : WriteAction) (s' : WriteSystem), True → s.Ordered →
      s.step md5 topology batchSize a = some s' → s'.Ordered := fun _ _ _ _ hs ha => hs.step ha
  obtain ⟨thread, hthread, hmade⟩ := run_invariant hstep (fun _ _ => trivial) ⟨.idle, rfl, rfl⟩ h
  unfold pending
  rw [hmade, hthread, List.flatMap_singleton]

/-- In every state of every run, with changes of the known leaders and of the threads in any order:
of each node, the batches in the order in which they were made and then the buffer are the records
written to it, in their order;
the batches are those handed to `_flush_batch` and those that a `write` has cut off and not handed over
yet, so the records written are exactly in the ones, the others, or the buffers;
when one thread uses the client, the batches are handed over in the order in which they were made;
a batch that `write` made has `batch_size` records, and each buffer has fewer;
and a record is in a batch, or in the buffer, of a node that the router has chosen for it, which is a node
of a cluster of the topology. -/
theorem write_buffers_conserve (md5 : Lsmt.Bytes → Lsmt.Bytes) (topology : Topology)
    (strategy : RoutingStrategy) (registry : LeaderRegistry) (numThreads : Nat) {batchSize : Nat}
    (hsize : 1 ≤ batchSize) {actions : List WriteAction} {s : WriteSystem}
    (h : run (WriteSystem.step md5 topology batchSize) (init registry strategy numThreads) actions = some s) :
    (∀ node, recordsFor s.made node ++ bufferOf s.writeBuffer node = recordsTo s.written node) ∧
      s.made.Perm (s.handed ++ s.pending) ∧
      (∀ node, (recordsFor s.handed node ++ recordsFor s.pending node ++
        bufferOf s.writeBuffer node).Perm (recordsTo s.written node)) ∧
      (numThreads = 1 → s.made = s.handed ++ s.pending) ∧
      (∀ b ∈ s.made, b.byWrite = true → b.records.length = batchSize) ∧
      (∀ node, (bufferOf s.writeBuffer node).length < batchSize) ∧
      ∀ p ∈ s.written, Routed md5 topology strategy p ∧
        ∀ n, p.1 = some n → n.clusterName ∈ topology.clusterNames := by
  have hs := conserves_of_run hsize h
  refine ⟨hs.partition, hs.made_perm, ?_, ?_, hs.full, hs.short, ?_⟩
  · intro node
    rw [← hs.partition node, ← recordsFor_append]
    exact ((hs.made_perm.symm.filter _).flatMap_right _).append_right _
  · rintro rfl
    exact ordered_of_run h
  · intro p hp
    refine ⟨hs.routed p hp, ?_⟩
    intro n hn
    obtain ⟨registry, k, hchosen⟩ := hs.routed p hp
    rw [hn] at hchosen
    exact RoutingStrategy.mem_clusterNames_of_getNodeInsert hchosen

/-- One cluster of one node. -/
def oneCluster : Topology where
  clusters := ⟨[("A", [⟨"A", 1, "a", 9001⟩])], by decide⟩
  nodes_ne_nil := by decide
  clusterName_eq := by decide
  length_lt := by decide

/-- Three records in batches of two: a batch is handed over and a record stays in the buffer. -/
theorem write_buffers_conserve_three :
    ∃ s, run (WriteSystem.step id oneCluster 2) (init .init .leader 1)
        [.write 0 [⟨1, 1, .int 1⟩, ⟨2, 2, .int 2⟩, ⟨3, 3, .int 3⟩], .route 0, .route 0, .route 0,
          .update 0, .hand 0] = some s ∧
      bufferOf s.writeBuffer (some ⟨"A", 1, "a", 9001⟩) = [⟨3, 3, .int 3⟩] ∧
      s.made = s.handed ++ s.pending ∧
      ∀ node, recordsFor s.made node ++ bufferOf s.writeBuffer node = recordsTo s.written node := by
  obtain ⟨s, hs, hbuffer⟩ : ∃ s, run (WriteSystem.step id oneCluster 2) (init .init .leader 1)
      [.write 0 [⟨1, 1, .int 1⟩, ⟨2, 2, .int 2⟩, ⟨3, 3, .int 3⟩], .route 0, .route 0, .route 0,
        .update 0, .hand 0] = some s ∧
      bufferOf s.writeBuffer (some ⟨"A", 1, "a", 9001⟩) = [⟨3, 3, .int 3⟩] :=
    ⟨_, rfl, by decide⟩
  obtain ⟨hpartition, -, -, hordered, -⟩ :=
    write_buffers_conserve id oneCluster .leader .init 1 (by decide) hs
  exact ⟨s, hs, hbuffer, hordered rfl, hpartition⟩

/-- Between the update and the hand-over a record is neither in a batch handed over nor in a buffer,
and in between another thread may overtake: the batches of a node are then handed over in another order
than that in which their records were written. -/
theorem not_write_buffers_conserve :
    (¬ ∀ (md5 : Lsmt.Bytes → Lsmt.Bytes) (topology : Topology) (strategy : RoutingStrategy)
      (registry : LeaderRegistry) (numThreads batchSize : Nat) (actions : List WriteAction)
      (s : WriteSystem), 1 ≤ batchSize →
        run (WriteSystem.step md5 topology batchSize) (init registry strategy numThreads) actions = some s →
        ∀ node, (recordsFor s.handed node ++ bufferOf s.writeBuffer node).Perm
          (recordsTo s.written node)) ∧
    ¬ ∀ (md5 : Lsmt.Bytes → Lsmt.Bytes) (topology : Topology) (strategy : RoutingStrategy)
      (registry : LeaderRegistry) (numThreads batchSize : Nat) (actions : List WriteAction)
      (s : WriteSystem), 1 ≤ batchSize →
        run (WriteSystem.step md5 topology batchSize) (init registry strategy numThreads) actions = some s →
        s.pending = [] →
        ∀ node, recordsFor s.handed node ++ bufferOf s.writeBuffer node = recordsTo s.written node := by
  refine ⟨?_, ?_⟩
  · intro hall
    obtain ⟨s, hs, hlost, hwritten⟩ : ∃ s,
        run (WriteSystem.step id oneCluster 1) (init .init .leader 1)
          [.write 0 [⟨1, 1, .int 1⟩], .route 0, .update 0] = some s ∧
        recordsFor s.handed (some ⟨"A", 1, "a", 9001⟩) ++
          bufferOf s.writeBuffer (some ⟨"A", 1, "a", 9001⟩) = [] ∧
        recordsTo s.written (some ⟨"A", 1, "a", 9001⟩) = [⟨1, 1, .int 1⟩] :=
      ⟨_, rfl, by decide, by decide⟩
    have hperm := hall id oneCluster .leader .init 1 1 _ s (by decide) hs (some ⟨"A", 1, "a", 9001⟩)
    rw [hlost, hwritten] at hperm
    exact absurd hperm.length_eq (by decide)
  · intro hall
    -- the second thread updates the buffers last and hands its batch over first
    obtain ⟨s, hs, hpending, hhanded, hwritten⟩ : ∃ s,
        run (WriteSystem.step id oneCluster 1) (init .init .leader 2)
          [.write 0 [⟨1, 1, .int 1⟩], .route 0, .update 0, .write 1 [⟨2, 2, .int 2⟩], .route 1,
            .update 1, .hand 1, .hand 0] = some s ∧
        s.pending = [] ∧
        recordsFor s.handed (some ⟨"A", 1, "a", 9001⟩) ++
          bufferOf s.writeBuffer (some ⟨"A", 1, "a", 9001⟩) = [⟨2, 2, .int 2⟩, ⟨1, 1, .int 1⟩] ∧
        recordsTo s.written (some ⟨"A", 1, "a", 9001⟩) = [⟨1, 1, .int 1⟩, ⟨2, 2, .int 2⟩] :=
      ⟨_, rfl, by decide, by decide, by decide⟩
    have horder := hall id oneCluster .leader .init 2 1 _ s (by decide) hs hpending
      (some ⟨"A", 1, "a", 9001⟩)
    rw [hhanded, hwritten] at horder
    exact absurd horder (by decide)

end WriteSystem

end RaftLsmt.Client
