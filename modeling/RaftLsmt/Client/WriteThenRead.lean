import RaftLsmt.Client.PageHeaders
import RaftLsmt.Client.PipelinedQueries
import RaftLsmt.Client.WritePath
import RaftLsmt.Server.Replication

/-!
# Writing records and reading them back

The whole way of a record: `_serialize_batch` writes it as a message, the insert port of a leader
receives the stream in whatever pieces and groups the messages into entries, the entries are
committed, each server applies them to its tree, `background_query_cb` puts the records of a range
into pages, and `read` puts the pages together again.

A `Site` is a cluster of servers that has got its records so, and the server of it that is asked.
`write_then_read_iff` says that `read` returns the records written, each once and in key order,
exactly when no page ends inside an id.
-/

set_option autoImplicit false

namespace RaftLsmt.Client

open RaftLsmt.Lib.ByteCodec
open RaftLsmt.Lib.OrderedDict
open RaftLsmt.Lib.SortedMerge
open RaftLsmt.Lib.StepMachine
open RaftLsmt.Lsmt
open RaftLsmt.Server

/-! ## Records with integer content -/

/-- The data bytes of a record, which `_serialize_batch` packs as a number of 8 bytes. -/
def Content.data : Content → Bytes
  | .int value => leBytes 8 value.toNat
  | .raw _ => []

theorem Content.length_data_le (content : Content) : content.data.length ≤ 8 := by
  cases content with
  | int value => exact (length_leBytes 8 value.toNat).le
  | raw bytes => exact Nat.zero_le 8

/-- A record with integer content as it is stored. -/
def Record.toStored (r : Record) : StoredRecord where
  key := r.key
  type := lsmtTypeInt
  data := r.content.data
  fits := lt_of_le_of_lt r.content.length_data_le (by decide)

/-- `_serialize_batch` takes the record. -/
def Record.IsInt (r : Record) : Prop := ∃ value, r.content = .int value

theorem Record.IsInt.selfConsistent {r : Record} (h : r.IsInt) :
    SelfConsistent (recordCall r).2 := by
  obtain ⟨value, hvalue⟩ := h
  show SelfConsistent r.content.stored
  rw [hvalue]
  apply selfConsistent_encodeData
  rw [length_leBytes]
  decide

/-- The iterator delivers the record as it is stored. -/
theorem Record.IsInt.raw_toStored {r : Record} (h : r.IsInt) :
    r.toStored.raw = rawOf (recordCall r) := by
  have hself := h.selfConsistent.1.2
  have hlength : (recordCall r).2.length ≤ 5 + contentLen (recordCall r).2 := hself.le
  unfold rawOf
  rw [List.take_of_length_le hlength]
  obtain ⟨value, hvalue⟩ := h
  show (⟨r.key, keyBytes r.key ++ encodeData lsmtTypeInt r.content.data⟩ : KvRawRecord) =
    ⟨r.key, keyBytes r.key ++ r.content.stored⟩
  rw [hvalue]
  rfl

/-- The client reads it back. -/
theorem Record.IsInt.decoded_toStored {r : Record} (h : r.IsInt) : r.toStored.decoded = r := by
  obtain ⟨keyId, timestamp, content⟩ := r
  obtain ⟨value, hvalue⟩ := h
  cases hvalue
  have hlt := value.toNat_lt
  show (⟨keyId, timestamp, parseContent lsmtTypeInt (leBytes 8 value.toNat)⟩ : Record) = _
  rw [parseContent, if_pos ⟨rfl, length_leBytes 8 value.toNat⟩, leNat_leBytes (by omega),
    UInt64.ofNat_toNat]

theorem isInt_of_serializeBatch {batch : List Record} {payload : Bytes}
    (h : serializeBatch batch = some payload) : ∀ r ∈ batch, r.IsInt := by
  induction batch generalizing payload with
  | nil => nofun
  | cons record batch ih =>
    unfold serializeBatch at h
    split at h
    · rename_i msg rest hmsg hrest
      refine List.forall_mem_cons.mpr ⟨?_, ih hrest⟩
      unfold serializeRecord at hmsg
      split at hmsg
      · rename_i value hvalue
        exact ⟨value, hvalue⟩
      · cases hmsg
    · cases h

theorem isInt_of_serializeBatches {batches : List (List Record)} {stream : Bytes}
    (h : serializeBatches batches = some stream) : ∀ r ∈ batches.flatten, r.IsInt := by
  induction batches generalizing stream with
  | nil => nofun
  | cons batch batches ih =>
    unfold serializeBatches at h
    split at h
    · rename_i payload rest hpayload hrest
      rw [List.flatten_cons]
      exact List.forall_mem_append.mpr ⟨isInt_of_serializeBatch hpayload, ih hrest⟩
    · cases h

/-! ## A connection -/

/-- A connection to the insert port of a steady leader over which a client has sent these batches and
that has received all of them. -/
structure WriteConnection where
  batches : List (List Record)
  stream : Bytes
  view : ServerView
  events : List ClientEvent
  client : InsertClient
  serialized : serializeBatches batches = some stream
  leads : view.Leads
  steady : ∀ e ∈ events, e.Steady
  received : receivedBytes events = stream
  reached : run InsertClient.step (onInsertConnection view) events = some client
  resumed : client.isPaused = false

namespace WriteConnection

/-- The records written. -/
def written (c : WriteConnection) : List Record := c.batches.flatten

/-- The entries handed to `raft_apply`. -/
def entries (c : WriteConnection) : List Bytes := c.client.applies.map ApplyReq.entry

theorem isInt (c : WriteConnection) : ∀ r ∈ c.written, r.IsInt :=
  isInt_of_serializeBatches c.serialized

/-- The entries make the calls of `lsmt_insert` of the records written. -/
theorem calls (c : WriteConnection) : c.entries.flatMap entryCalls = c.written.map recordCall := by
  obtain ⟨hframes, hok⟩ := serializeBatches_spec c.serialized
  have hmsgs : ∀ msg ∈ c.written.map frame, MsgOk msg := by
    intro msg hmsg
    obtain ⟨record, hrecord, rfl⟩ := List.mem_map.mp hmsg
    exact hok record hrecord
  have hall : receivedBytes c.events = (c.written.map frame).flatten := c.received.trans hframes
  have hkeeps := ((InsertClient.keeps_onInsertConnection c.leads).run hmsgs c.steady
    (by rw [List.nil_append, hall]) c.reached).1
  rw [List.nil_append, hall] at hkeeps
  obtain ⟨parts, batch, htook, hreceived⟩ := hkeeps.took
  obtain ⟨later, hlater, -⟩ := exists_append_of_flatten htook.isMsg
    (fun msg hmsg => (hmsgs msg hmsg).toIsMsg) (by rw [hreceived])
  -- neither the buffer nor the batch has anything left
  obtain ⟨-, hincomplete, hempty⟩ := hkeeps.drained c.resumed
  have hbuffer : c.client.buffer = later.flatten := by
    have hcut : (parts.flatten ++ batch).flatten ++ c.client.buffer =
        (parts.flatten ++ batch).flatten ++ later.flatten := by
      rw [hreceived, hlater, List.flatten_append]
    exact List.append_cancel_left hcut
  have hlaterNil : later = [] := by
    apply Incomplete.eq_nil _ (hbuffer ▸ hincomplete)
    intro msg hmsg
    exact (hmsgs msg (hlater ▸ List.mem_append_right _ hmsg)).toIsMsg
  have hcount : c.client.batchedReqCount = 0 := by
    apply hempty
    rw [hbuffer, hlaterNil]
    rfl
  have hbatch : batch = [] := List.length_eq_zero_iff.mp (htook.count ▸ hcount)
  rw [hlaterNil, hbatch, List.append_nil, List.append_nil] at hlater
  have htaken : ∀ msg ∈ parts.flatten, MsgOk msg := fun msg hmsg => hmsgs msg (hlater ▸ hmsg)
  have hcalls := (InsertClient.entries_of_holds htook.applies htaken).2
  rw [← hlater, map_recordOf_frame] at hcalls
  exact hcalls

/-- The lengths in their messages agree. -/
theorem lengthsAgree (c : WriteConnection) :
    ∀ entry ∈ c.entries, ∀ msg ∈ entryMsgs entry, LengthsAgree msg := by
  intro entry hentry msg hmsg
  have hcall : recordOf msg ∈ c.written.map recordCall := by
    rw [← c.calls]
    exact List.mem_flatMap.mpr ⟨entry, hentry, List.mem_map_of_mem hmsg⟩
  obtain ⟨r, hr, hrecord⟩ := List.mem_map.mp hcall
  have hvalue : recordValue msg = (recordCall r).2 := (congrArg Prod.snd hrecord).symm
  rw [← selfConsistent_recordValue_iff (mem_entryMsgs hmsg), hvalue]
  exact (c.isInt r hr).selfConsistent

end WriteConnection

/-! ## A cluster -/

/-- Merges read their inputs. -/
def MergesRead : ClusterEvent → Prop
  | .thread _ a => Action.MergesRead a
  | _ => True

/-- The entries committed in a run are in the log. -/
theorem mem_log_of_commit {es : List ClusterEvent} {c c' : Cluster}
    (hrun : run Cluster.step c es = some c') {entry : Bytes} (h : .commit entry ∈ es) :
    entry ∈ c'.log := by
  have hgrows : ∀ (d d' : Cluster) (e : ClusterEvent), d.step e = some d' → d.log <+: d'.log := by
    intro d d' e hstep
    cases e with
    | commit entry =>
      cases hstep
      exact List.prefix_append _ _
    | thread i a =>
      simp only [Cluster.step] at hstep
      split at hstep
      · obtain ⟨store, -, rfl⟩ := Option.map_eq_some_iff.mp hstep
        exact List.prefix_rfl
      · cases hstep
    | install i j =>
      simp only [Cluster.step] at hstep
      split at hstep
      · cases hstep
      · obtain ⟨r, -, rfl⟩ := Option.map_eq_some_iff.mp hstep
        exact List.prefix_rfl
    | _ =>
      obtain ⟨r, -, rfl⟩ := Option.map_eq_some_iff.mp hstep
      exact List.prefix_rfl
  have hlater : ∀ {es : List ClusterEvent} {d d' : Cluster},
      run Cluster.step d es = some d' → d.log <+: d'.log := by
    intro es d d' hrun
    have hkept := run_invariant (P := fun b : Cluster => d.log <+: b.log)
      (fun b e b' (_ : True) (hb : d.log <+: b.log) hstep => hb.trans (hgrows b b' e hstep))
      (fun _ _ => trivial) List.prefix_rfl hrun
    exact hkept
  induction es generalizing c with
  | nil => cases h
  | cons e es ih =>
    obtain ⟨d, hstep, hrest⟩ := run_cons_eq_some.mp hrun
    rcases List.mem_cons.mp h with heq | hmem
    · rw [← heq] at hstep
      cases hstep
      exact (hlater hrest).subset (List.mem_append_right _ (List.mem_singleton_self entry))
    · exact ih hrest hmem

/-- A cluster whose log consists of the entries of these connections, in any order and with any
timing of its servers, and the server that is asked: it is at rest and has applied the whole log. No
key has been written twice. -/
structure Site where
  connections : List WriteConnection
  events : List ClusterEvent
  cluster : Cluster
  server : Nat
  reached : run Cluster.step Cluster.init events = some cluster
  reads : ∀ e ∈ events, MergesRead e
  committed : cluster.log.Perm (connections.flatMap WriteConnection.entries)
  fresh : ((connections.flatMap WriteConnection.written).map Record.key).Nodup
  short : cluster.log.length < snapshotThreshold
  rest : (cluster.replicas server).AtRest
  caughtUp : (cluster.replicas server).lastApplied = cluster.log.length

/-- The records that `lsmt_insert` takes, in key order. -/
def sortedRecords (records : List Record) : List Record :=
  (records.filter fun r => r.keyId ≠ 0).mergeSort fun a b => a.key ≤ b.key

theorem mem_sortedRecords {records : List Record} {r : Record} :
    r ∈ sortedRecords records ↔ r ∈ records ∧ r.keyId ≠ 0 := by
  rw [sortedRecords, List.mem_mergeSort, List.mem_filter, decide_eq_true_eq]

theorem strictBy_sortedRecords {records : List Record} (h : (records.map Record.key).Nodup) :
    StrictBy Record.key (sortedRecords records) := by
  have hsorted : SortedBy Record.key (sortedRecords records) := by
    have hpair := @List.pairwise_mergeSort _ (fun a b : Record => decide (a.key ≤ b.key))
      (by simpa using fun a b c hab hbc => le_trans hab hbc)
      (by simpa using fun a b => le_total _ _) (records.filter fun r => r.keyId ≠ 0)
    exact hpair.imp fun hab => by simpa using hab
  refine hsorted.strictBy_iff_nodup.mpr ?_
  rw [sortedRecords, ((List.mergeSort_perm _ _).map Record.key).nodup_iff]
  exact h.sublist (List.filter_sublist.map _)

/-- Records and their calls are taken alike. -/
theorem unreserved_map_recordCall (records : List Record) :
    unreserved (records.map recordCall) =
      (records.filter fun r => r.keyId ≠ 0).map recordCall := by
  rw [unreserved, List.filter_map]
  rfl

/-- What the tree scans, in terms of the records written. -/
theorem recordsOf_map_recordCall {records : List Record} (h : (records.map Record.key).Nodup)
    (startKey endKey : SlUint128) : recordsOf (records.map recordCall) startKey endKey =
      (rangeFilter Record.key startKey endKey (sortedRecords records)).map
        fun r => rawOf (recordCall r) := by
  have hfresh : FreshKeys (records.map recordCall) := by
    unfold FreshKeys
    rw [unreserved_map_recordCall, List.map_map]
    exact h.sublist (List.filter_sublist.map _)
  have hstrict : StrictBy KvRawRecord.key
      ((rangeFilter Record.key startKey endKey (sortedRecords records)).map
        fun r => rawOf (recordCall r)) := by
    refine List.pairwise_map.mpr ?_
    have hsorted := (strictBy_sortedRecords h).sublist
      (rangeFilter_sublist (f := Record.key) startKey endKey _)
    exact hsorted
  refine (strictBy_recordsOf hfresh startKey endKey).eq_of_perm hstrict ?_
  have hrange : rangeFilter KvRawRecord.key startKey endKey
      ((unreserved (records.map recordCall)).map rawOf) =
      (rangeFilter Record.key startKey endKey (records.filter fun r => r.keyId ≠ 0)).map
        fun r => rawOf (recordCall r) := by
    rw [unreserved_map_recordCall, List.map_map, rangeFilter, List.filter_map]
    rfl
  refine (recordsOf_perm_range _ _ _).trans ?_
  rw [hrange]
  exact (rangeFilter_perm (List.mergeSort_perm _ _).symm).map _

namespace Site

/-- The records written to the cluster. -/
def written (site : Site) : List Record := site.connections.flatMap WriteConnection.written

/-- The tree of the server that is asked. -/
def lsmt (site : Site) : LsmtState := (site.cluster.replicas site.server).store.lsmt

theorem isInt (site : Site) : ∀ r ∈ site.written, r.IsInt := by
  intro r hr
  obtain ⟨c, -, hr⟩ := List.mem_flatMap.mp hr
  exact c.isInt r hr

/-- The log makes the calls of the records written. -/
theorem calls_perm (site : Site) :
    (site.cluster.log.flatMap entryCalls).Perm (site.written.map recordCall) := by
  have hcalls : (site.connections.flatMap WriteConnection.entries).flatMap entryCalls =
      site.written.map recordCall := by
    rw [List.flatMap_assoc, written, List.map_flatMap]
    exact List.flatMap_congr fun c _ => c.calls
  rw [← hcalls]
  exact site.committed.flatMap_right _

theorem sound (site : Site) : ∀ e ∈ site.events, e.Sound := by
  intro e he
  cases e with
  | commit entry =>
    have hlog := mem_log_of_commit site.reached he
    obtain ⟨c, -, hentry⟩ := List.mem_flatMap.mp (site.committed.subset hlog)
    exact c.lengthsAgree entry hentry
  | thread i a => exact site.reads _ he
  | _ => exact trivial

/-- A scan of the server that is asked. -/
theorem scan_eq (site : Site) (startKey endKey : SlUint128) :
    lsmtScan site.lsmt startKey endKey =
      some ((rangeFilter Record.key startKey endKey (sortedRecords site.written)).map
        fun r => rawOf (recordCall r)) := by
  have hinv := (Cluster.Inv.of_run site.sound site.reached).replicas site.server
  have hskipped : (site.cluster.replicas site.server).skipped = [] := by
    by_contra hskipped
    exact absurd (hinv.skipped_ok hskipped) (Nat.not_le.mpr site.short)
  have happlied := hinv.calls_perm
  rw [hskipped, List.flatMap_nil, List.append_nil, site.caughtUp, List.take_length] at happlied
  have hperm := happlied.symm.trans site.calls_perm
  have hfresh : FreshKeys (site.written.map recordCall) := by
    unfold FreshKeys
    rw [unreserved_map_recordCall, List.map_map]
    exact site.fresh.sublist (List.filter_sublist.map _)
  have hscan := hinv.scan_eq site.rest (hfresh.perm hperm.symm) startKey endKey
  have hrecords : recordsOf (site.written.map recordCall) startKey endKey = _ :=
    recordsOf_map_recordCall site.fresh startKey endKey
  rw [recordsOf_perm (hfresh.perm hperm.symm) hperm, hrecords] at hscan
  exact hscan

end Site

/-! ## The pages -/

/-- An iterator next to no writers. -/
theorem drain_liveNext {memtable : Sl} {fuel : Nat} {it : LsmtIterator} {L : List KvRawRecord}
    (h : drain (lsmtIteratorNext memtable) fuel it = some L) (k : Nat) :
    drain (liveNext fun _ => memtable) fuel (k, it) = some L := by
  induction fuel generalizing it L k with
  | zero => cases h
  | succ fuel ih =>
    rw [drain] at h ⊢
    unfold liveNext
    cases hnext : lsmtIteratorNext memtable it with
    | none =>
      rw [hnext] at h
      cases h
    | some answer =>
      obtain ⟨rec, it'⟩ := answer
      rw [hnext] at h
      cases rec with
      | none => exact h
      | some record =>
        obtain ⟨tail, htail, rfl⟩ := Option.map_eq_some_iff.mp h
        show (drain (liveNext fun _ => memtable) fuel (k + 1, it')).map (record :: ·) = _
        rw [ih htail]
        rfl

/-- The records of a range, written to the cluster. -/
def Site.inRange (site : Site) (startKey endKey : SlUint128) : List Record :=
  rangeFilter Record.key startKey endKey (sortedRecords site.written)

theorem Site.isInt_of_inRange {site : Site} {startKey endKey : SlUint128} :
    ∀ r ∈ site.inRange startKey endKey, r.IsInt :=
  fun r hr => site.isInt r (mem_sortedRecords.mp (mem_rangeFilter.mp hr).1).1

/-- The page that the server makes for a task has the first `k` records of the range. -/
theorem Site.page (site : Site) (task : QueryTask) (clock : Nat → Nat) :
    ∃ (k : Nat) (page : QueryPage),
      backgroundQueryCb site.lsmt (fun _ => site.lsmt.memtable) clock task =
        some (setQueryResponseHeader (page.response task.reqId) ++ page.payload) ∧
      page.Holds ((((site.inRange task.startKey task.endKey).take k).map Record.toStored).map
        StoredRecord.raw) ∧
      page.Fits ∧
      (page.limitReached = false → (site.inRange task.startKey task.endKey).take k =
        site.inRange task.startKey task.endKey) ∧
      (page.limitReached = true →
        (site.inRange task.startKey task.endKey).take k ≠ [] ∨ task.WaitedLong clock) := by
  -- the iterator delivers the records as they are stored
  have hscan := site.scan_eq task.startKey task.endKey
  have hraw : ((site.inRange task.startKey task.endKey).map fun r => rawOf (recordCall r)) =
      ((site.inRange task.startKey task.endKey).map Record.toStored).map StoredRecord.raw := by
    rw [List.map_map]
    exact List.map_congr_left fun r hr => (isInt_of_inRange r hr).raw_toStored.symm
  have hscan : lsmtScan site.lsmt task.startKey task.endKey = some
      (((site.inRange task.startKey task.endKey).map Record.toStored).map StoredRecord.raw) :=
    hscan.trans (congrArg some hraw)
  generalize site.inRange task.startKey task.endKey = L at hscan
  have hsmall : ∀ r ∈ (L.map Record.toStored).map StoredRecord.raw, r.totalSize ≤ 276 := by
    intro r hr
    obtain ⟨stored, hstored, rfl⟩ := List.mem_map.mp hr
    obtain ⟨record, -, rfl⟩ := List.mem_map.mp hstored
    have hdata := record.content.length_data_le
    show (Record.toStored record).bytes.length ≤ 276
    rw [StoredRecord.length_bytes]
    show 21 + record.content.data.length ≤ 276
    omega
  obtain ⟨P, page, hpage, hholds, hfits, hfront, hcomplete, hnonempty⟩ :=
    backgroundQueryCb_page (drain_liveNext hscan 0) hsmall clock
  have hP : ((L.take P.length).map Record.toStored).map StoredRecord.raw = P := by
    rw [List.map_take, List.map_take]
    exact (List.prefix_iff_eq_take.mp hfront).symm
  refine ⟨P.length, page, hpage, hP.symm ▸ hholds, hfits, fun hlimit => ?_, fun hlimit => ?_⟩
  · have hlength := congrArg List.length (hcomplete hlimit)
    rw [List.length_map, List.length_map] at hlength
    rw [hlength, List.take_length]
  · refine (hnonempty hlimit).imp_left fun hne hnil => hne ?_
    rw [← hP, hnil]
    rfl

/-- The response that the server sends for a request, as the client reads it. The worker takes the
request up in time. -/
def Site.Sends (site : Site) (request : QueryRequest) (reqId : Nat) (response : ReadResult) : Prop :=
  ∃ task clock msg, packRequest reqId request = some (EventLoop.requestOf task) ∧
    ¬ task.WaitedLong clock ∧
    backgroundQueryCb site.lsmt (fun _ => site.lsmt.memtable) clock task = some msg ∧
    receiveResponse reqId false msg = some (response, [])

/-- It always sends one. -/
theorem Site.exists_sends (site : Site) {request : QueryRequest} {reqId : Nat}
    {packed : EventLoop.QueryRequest} (hpack : packRequest reqId request = some packed) :
    ∃ response, site.Sends request reqId response := by
  let task : QueryTask := ⟨packed.reqId, packed.startKey, packed.endKey, 0⟩
  obtain ⟨k, page, hpage, hholds, hfits, -⟩ := site.page task fun _ => 0
  have hread := receiveResponse_page hholds hfits false task.reqId
  rw [reqId_packRequest hpack] at hread
  have htime : ¬ (0 + 2 ^ 64 - 0) % 2 ^ 64 > queryIdleNs := by decide
  exact ⟨_, task, fun _ => 0, _, hpack, htime, hpage, hread⟩

/-- It is a page of the records written. -/
theorem Site.isAnswer {site : Site} {request : QueryRequest} {reqId : Nat} {response : ReadResult}
    (h : site.Sends request reqId response) {db : Node → List Record} {n : Node}
    (hdb : db n = sortedRecords site.written) : IsAnswer (recordsIn db n request) reqId response := by
  obtain ⟨task, clock, msg, hpack, hwaited, hmsg, hreceive⟩ := h
  have hreqId : task.reqId.toNat = reqId := reqId_packRequest hpack
  have hrange : request.range = some (task.startKey, task.endKey) := by
    unfold packRequest at hpack
    split at hpack
    · rename_i startKey endKey hrange
      split at hpack
      · have heq := Option.some.inj hpack
        have hstart : startKey = task.startKey := congrArg EventLoop.QueryRequest.startKey heq
        have hend : endKey = task.endKey := congrArg EventLoop.QueryRequest.endKey heq
        rw [hrange, hstart, hend]
      · cases hpack
    · cases hpack
  have hrecords : recordsIn db n request = site.inRange task.startKey task.endKey := by
    unfold recordsIn
    rw [hrange, hdb]
    rfl
  obtain ⟨k, page, hpage, hholds, hfits, hcomplete, hnonempty⟩ := site.page task clock
  have hint : ∀ r ∈ site.inRange task.startKey task.endKey, r.IsInt := isInt_of_inRange
  rw [hrecords]
  generalize site.inRange task.startKey task.endKey = L at *
  rw [hmsg, Option.some.injEq] at hpage
  have hread := receiveResponse_page hholds hfits false task.reqId
  rw [hreqId, ← hpage, hreceive, Option.some.injEq, Prod.mk.injEq] at hread
  obtain ⟨rfl, -⟩ := hread
  have hdecoded : ((L.take k).map Record.toStored).map StoredRecord.decoded = L.take k := by
    rw [List.map_map]
    conv_rhs => rw [← List.map_id (L.take k)]
    exact List.map_congr_left fun r hr => (hint r (List.mem_of_mem_take hr)).decoded_toStored
  have hself := isPageOf_self hholds hfits task.reqId
  refine ⟨hreqId, ?_, ?_, ?_, ?_, ?_⟩
  · show ((L.take k).map Record.toStored).map StoredRecord.decoded <+: L
    rw [hdecoded]
    exact List.take_prefix _ _
  · have hcount := hself.recordsCount_eq
    show (page.response task.reqId).recordsCount.toNat =
      (((L.take k).map Record.toStored).map StoredRecord.decoded).length
    rw [hcount]
    simp only [List.length_map]
  · intro r hr
    have hr : r ∈ (((L.take k).map Record.toStored).map StoredRecord.decoded).getLast? := hr
    rw [hdecoded] at hr
    have hlast : r.toStored.raw ∈
        (((L.take k).map Record.toStored).map StoredRecord.raw).getLast? := by
      rw [List.getLast?_map, List.getLast?_map]
      exact Option.mem_map_of_mem _ (Option.mem_map_of_mem _ hr)
    exact congrArg SlUint128.id (hself.maxKey_eq _ hlast)
  · intro hlimit
    show ((L.take k).map Record.toStored).map StoredRecord.decoded = L
    rw [hdecoded]
    exact hcomplete hlimit
  · intro hlimit hnil
    have hnil : ((L.take k).map Record.toStored).map StoredRecord.decoded = [] := hnil
    rw [hdecoded] at hnil
    rcases hnonempty hlimit with hne | hlong
    · exact hne hnil
    · exact hwaited hlong

/-! ## The result -/

/-- The future at `k` gets a response of the server at its node. -/
def PagedRead.Asks (site : Node → Site) (input : ReadInput) (s : PagedRead) (e : Nat × ReadResult) :
    Prop :=
  ∀ fut, s.activeFutures[e.1]? = some fut →
    (site fut.node).Sends (fut.request input) (fut.reqId input) e.2

/-- The records written to the cluster of a node, as `read` is to return them. -/
def Site.records (site : Node → Site) (n : Node) : List Record := sortedRecords (site n).written

theorem PagedRead.Asks.serves {site : Node → Site} {input : ReadInput} {s : PagedRead}
    {e : Nat × ReadResult} (h : s.Asks site input e) : s.Serves (Site.records site) input e :=
  fun fut hfut => Site.isAnswer (h fut hfut) rfl

/-- When `read` has come to its end it has accumulated all records in range exactly when none were
lost. -/
theorem PagedRead.Inv.exact_iff {db : Node → List Record} {input : ReadInput} {s : PagedRead}
    (h : s.Inv db input) (hquery : input.query.range.isSome) (hdone : s.activeFutures = []) :
    (∀ n ∈ input.nodes, ∃ resp, s.nodeToAccumulated.get n = some resp ∧
      resp.records = (db n).filter fun r => input.query.Wants r) ↔ s.Lossless db input := by
  have hcollected : ∀ n, s.collected n ++ s.outstanding db input n = s.collected n := by
    intro n
    rw [PagedRead.outstanding, hdone]
    exact List.append_nil _
  constructor
  · intro hexact n hn
    obtain ⟨resp, hget, hrecords⟩ := hexact n hn
    rw [hcollected, PagedRead.collected, hget, recordsIn_eq_filter hquery, ← hrecords]
    rfl
  · intro hlossless n hn
    have hsome : ∃ resp, s.nodeToAccumulated.get n = some resp := by
      rcases h.answered n hn with ⟨fut, hfut, -⟩ | hsome
      · rw [hdone] at hfut
        cases hfut
      · exact Option.isSome_iff_exists.mp hsome
    obtain ⟨resp, hget⟩ := hsome
    refine ⟨resp, hget, ?_⟩
    have hfull := hlossless n hn
    rw [hcollected, PagedRead.collected, hget, recordsIn_eq_filter hquery] at hfull
    exact hfull

/-- Whatever has been written in batches to each cluster, in whatever pieces the streams were
received, and however the servers committed and applied the entries, flushed, compacted and began
again: a `read` that asks one server of each cluster and has come to its end has for each of them
exactly the records in range that were written to its cluster and have an id, each once and in key
order, if and only if no page was cut inside an id; and then it has not raised an error. -/
theorem write_then_read_iff (site : Node → Site) {input : ReadInput}
    (hquery : input.query.range.isSome) (hnodes : input.nodes.Nodup) (nextReqId : Nat)
    (es : List (Nat × ReadResult)) {s : PagedRead}
    (hrun : run (PagedRead.step input) (PagedRead.init input nextReqId) es = some s)
    (hasks : EachStep (PagedRead.step input) (PagedRead.Asks site input)
      (PagedRead.init input nextReqId) es)
    (hend : s.raised = true ∨ s.activeFutures = []) :
    (s.raised = false ∧ ∀ n ∈ input.nodes, ∃ resp, s.nodeToAccumulated.get n = some resp ∧
      resp.records = (sortedRecords (site n).written).filter fun r => input.query.Wants r) ↔
    EachStep (PagedRead.step input) (PagedRead.CutsBetweenIds (Site.records site) input)
      (PagedRead.init input nextReqId) es := by
  have hdb : ∀ n, StrictBy Record.key (Site.records site n) :=
    fun n => strictBy_sortedRecords (site n).fresh
  have hserves : EachStep (PagedRead.step input) (PagedRead.Serves (Site.records site) input)
      (PagedRead.init input nextReqId) es := by
    intro pre e post t hsplit ht
    exact (hasks pre e post t hsplit ht).serves
  obtain ⟨hinit, hlossless⟩ := PagedRead.inv_init (Site.records site) hnodes nextReqId
  obtain ⟨hinv, hiff⟩ := run_iff_eachStep (I := PagedRead.Inv (Site.records site) input)
    (P := PagedRead.Lossless (Site.records site) input)
    (fun t e t' ht hR hstep => ht.step hdb hquery hR hstep) hinit hserves hrun
  have hdone : s.activeFutures = [] := by
    rcases hend with hraised | hdone
    · rw [hinv.raised] at hraised
      cases hraised
    · exact hdone
  have hexact := hinv.exact_iff hquery hdone
  constructor
  · rintro ⟨-, hrecords⟩
    exact (hiff.mp (hexact.mp hrecords)).2
  · intro hcuts
    exact ⟨hinv.raised, hexact.mpr (hiff.mpr ⟨hlossless, hcuts⟩)⟩

/-! ## One record -/

/-- A record, and a query for its id. -/
def oneRecord : Record := ⟨1, 2, .int 7⟩

def oneRecordRead : ReadInput := ⟨⟨1, 0, 1, 9, 7⟩, [⟨"c", 1, "h", 1⟩], 0⟩

/-- The connection of the record, received byte by byte. -/
def oneConnection : WriteConnection where
  batches := [[oneRecord]]
  stream := frame oneRecord
  view := leaderView
  events := (frame oneRecord).map fun b => .read leaderView [b]
  client := InsertClient.idle [InsertClient.singleReq (frame oneRecord)]
  serialized := by decide
  leads := ⟨rfl, fun _ => rfl⟩
  steady := by
    intro e he
    obtain ⟨b, -, rfl⟩ := List.mem_map.mp he
    exact ⟨⟨rfl, fun _ => rfl⟩, by simp [uvSuggestedSize]⟩
  received := receivedBytes_bytes leaderView (frame oneRecord)
  reached := by
    have hstream : serializeBatches [[oneRecord]] = some (frame oneRecord) := by decide
    have hok := (serializeBatches_spec hstream).2 oneRecord (by decide)
    exact @InsertClient.run_readMsg [] (frame oneRecord) hok.toIsMsg
      (Nat.le_of_lt (lt_trans hok.length_lt (by decide)))
  resumed := rfl

/-- Its entry is committed and applied by one server. -/
def oneCommitted : List ClusterEvent := .commit (alignedEntry (frame oneRecord)) :: applyOne 0

theorem exists_oneSite : ∃ site : Site, site.written = [oneRecord] := by
  obtain ⟨c, hrun, hlog, hrest, hcaughtUp⟩ : ∃ c, run Cluster.step Cluster.init oneCommitted = some c ∧
      c.log = [alignedEntry (frame oneRecord)] ∧ (c.replicas 0).AtRest ∧
      (c.replicas 0).lastApplied = c.log.length :=
    ⟨_, rfl, rfl, ⟨rfl, ⟨rfl, rfl, rfl⟩⟩, rfl⟩
  refine ⟨{
    connections := [oneConnection]
    events := oneCommitted
    cluster := c
    server := 0
    reached := hrun
    reads := by simp [oneCommitted, applyOne, MergesRead, Action.MergesRead]
    committed := hlog ▸ List.Perm.refl _
    fresh := List.nodup_singleton _
    short := by
      rw [hlog]
      decide
    rest := hrest
    caughtUp := hcaughtUp }, rfl⟩

/-- The record is written and read back. -/
theorem write_then_read_iff_one : ∃ (site : Site) (response : ReadResult) (s : PagedRead),
    run (PagedRead.step oneRecordRead) (PagedRead.init oneRecordRead 1) [(0, response)] = some s ∧
    s.raised = false ∧ ∀ n ∈ oneRecordRead.nodes, ∃ resp, s.nodeToAccumulated.get n = some resp ∧
      resp.records = (sortedRecords site.written).filter fun r => oneRecordRead.query.Wants r := by
  obtain ⟨site, hwritten⟩ := exists_oneSite
  have hpack : packRequest 0 oneRecordRead.query = some ⟨0, ⟨1, 0⟩, ⟨1, 9⟩⟩ := rfl
  obtain ⟨response, hsends⟩ := site.exists_sends hpack
  -- the page has the record, or it is complete
  have hanswer := Site.isAnswer hsends (show Site.records (fun _ => site) ⟨"c", 1, "h", 1⟩ = _ from rfl)
  have hrecords : recordsIn (Site.records fun _ => site) ⟨"c", 1, "h", 1⟩ oneRecordRead.query =
      [oneRecord] := by
    show rangeFilter Record.key ⟨1, 0⟩ ⟨1, 9⟩ (sortedRecords site.written) = [oneRecord]
    have hsorted : sortedRecords [oneRecord] = [oneRecord] := List.mergeSort_singleton oneRecord
    rw [hwritten, hsorted]
    decide
  have hcut : response.limitReached = true → response.records = [oneRecord] := by
    intro hlimit
    have hfront := hanswer.isPrefix
    rw [hrecords] at hfront
    rcases List.prefix_cons_iff.mp hfront with hnil | ⟨rest, hcons, hrest⟩
    · exact absurd hnil (hanswer.nonempty hlimit)
    · rw [hcons, List.prefix_nil.mp hrest]
  have hmax : response.limitReached = true → response.maxId = 1 := by
    intro hlimit
    exact hanswer.maxId_eq oneRecord (by rw [hcut hlimit]; rfl)
  let s := (PagedRead.init oneRecordRead 1).firstDone oneRecordRead 0 ⟨"c", 1, "h", 1⟩ response
  have hend : s.raised = true ∨ s.activeFutures = [] := by
    show PagedRead.raised (PagedRead.firstDone _ _ _ _ _) = true ∨
      PagedRead.activeFutures (PagedRead.firstDone _ _ _ _ _) = []
    unfold PagedRead.firstDone PagedRead.file
    split
    · exact Or.inl rfl
    · split
      · exact Or.inl rfl
      · split
        · rename_i hunfinished
          have hless : response.maxId.toNat < 1 := hunfinished.2
          rw [hmax hunfinished.1] at hless
          exact absurd hless (by decide)
        · exact Or.inr rfl
  have hasks : EachStep (PagedRead.step oneRecordRead) (PagedRead.Asks (fun _ => site) oneRecordRead)
      (PagedRead.init oneRecordRead 1) [(0, response)] := by
    refine eachStep_cons.mpr ⟨fun fut hfut => ?_, fun t _ => eachStep_nil _ _ _⟩
    cases hfut
    exact hsends
  have hcuts : EachStep (PagedRead.step oneRecordRead)
      (PagedRead.CutsBetweenIds (Site.records fun _ => site) oneRecordRead)
      (PagedRead.init oneRecordRead 1) [(0, response)] := by
    refine eachStep_cons.mpr ⟨fun fut hfut hlimit r hr => ?_, fun t _ => eachStep_nil _ _ _⟩
    cases hfut
    have hr : (recordsIn (Site.records fun _ => site) ⟨"c", 1, "h", 1⟩
      oneRecordRead.query)[response.records.length]? = some r := hr
    rw [hrecords, hcut hlimit] at hr
    cases hr
  obtain ⟨hraised, hexact⟩ := (write_then_read_iff (fun _ => site) rfl (by decide) 1 [(0, response)]
    rfl hasks hend).mpr hcuts
  exact ⟨site, response, s, rfl, hraised, hexact⟩

end RaftLsmt.Client
