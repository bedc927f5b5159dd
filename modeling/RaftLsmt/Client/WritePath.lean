import RaftLsmt.Client.Response
import RaftLsmt.Server.PoisonedLog
import RaftLsmt.Server.SteadyStream

/-!
# The write path

`_serialize_batch` writes each record as one message of 33 bytes, and a connection carries one batch
after the other. `write_path_round_trip` follows the records from there through the reads, the batches
and the log entries of the server to the calls of `lsmt_insert` that `FsmApply` makes.
-/

set_option autoImplicit false

namespace RaftLsmt.Client

open RaftLsmt.Lib.ByteCodec
open RaftLsmt.Lib.StepMachine
open RaftLsmt.Lsmt
open RaftLsmt.Server

universe u

/-- The bytes of one record in `_serialize_batch`; `struct.pack` raises an error on content that is
not an integer. -/
def serializeRecord (record : Record) : Option Bytes :=
  match record.content with
  | .int value =>
    some (leBytes 4 33 ++ leBytes 8 record.keyId.toNat ++ leBytes 8 record.timestamp.toNat ++
      [lsmtTypeInt] ++ leBytes 4 8 ++ leBytes 8 value.toNat)
  | .raw _ => none

/-- `_serialize_batch`. -/
def serializeBatch : List Record → Option Bytes
  | [] => some []
  | record :: batch =>
    match serializeRecord record, serializeBatch batch with
    | some msg, some payload => some (msg ++ payload)
    | _, _ => none

/-- The bytes of one batch after the other. -/
def serializeBatches : List (List Record) → Option Bytes
  | [] => some []
  | batch :: batches =>
    match serializeBatch batch, serializeBatches batches with
    | some payload, some stream => some (payload ++ stream)
    | _, _ => none

/-- The content of a record as it is stored. -/
def Content.stored : Content → Bytes
  | .int value => encodeData lsmtTypeInt (leBytes 8 value.toNat)
  | .raw bytes => bytes

/-- The key and the value of a record in the store. -/
def recordCall (record : Record) : SlUint128 × Bytes :=
  (⟨record.keyId, record.timestamp⟩, record.content.stored)

/-- The message of a record. -/
def frame (record : Record) : Bytes := message (recordCall record).1 (recordCall record).2

/-- A record that is serialised becomes its message, which `FsmApply` accepts. -/
theorem serializeRecord_spec {record : Record} {msg : Bytes}
    (h : serializeRecord record = some msg) : msg = frame record ∧ MsgOk (frame record) := by
  unfold serializeRecord at h
  split at h
  · rename_i value hvalue
    cases h
    have hstored : record.content.stored = encodeData lsmtTypeInt (leBytes 8 value.toNat) := by
      rw [hvalue]
      rfl
    have hlength : record.content.stored.length = 13 := by
      rw [hstored]
      simp [encodeData]
    constructor
    · unfold frame recordCall message
      simp only [hlength, msgHeaderSize, Nat.reduceAdd]
      simp only [hstored, keyBytes, encodeData, length_leBytes, List.append_assoc,
        List.cons_append, List.nil_append]
    · apply msgOk_message
      show record.content.stored.length ≤ contentMaxSize
      rw [hlength]
      decide
  · cases h

theorem serializeBatch_spec {batch : List Record} {payload : Bytes}
    (h : serializeBatch batch = some payload) :
    payload = (batch.map frame).flatten ∧ ∀ record ∈ batch, MsgOk (frame record) := by
  induction batch generalizing payload with
  | nil =>
    cases h
    refine ⟨rfl, ?_⟩
    intro record hrecord
    cases hrecord
  | cons record batch ih =>
    unfold serializeBatch at h
    split at h
    · rename_i msg rest hmsg hrest
      cases h
      obtain ⟨rfl, hok⟩ := serializeRecord_spec hmsg
      obtain ⟨rfl, hall⟩ := ih hrest
      exact ⟨rfl, List.forall_mem_cons.mpr ⟨hok, hall⟩⟩
    · cases h

/-- The stream of a connection is the messages of its records. -/
theorem serializeBatches_spec {batches : List (List Record)} {stream : Bytes}
    (h : serializeBatches batches = some stream) :
    stream = (batches.flatten.map frame).flatten ∧
      ∀ record ∈ batches.flatten, MsgOk (frame record) := by
  induction batches generalizing stream with
  | nil =>
    cases h
    refine ⟨rfl, ?_⟩
    intro record hrecord
    cases hrecord
  | cons batch batches ih =>
    unfold serializeBatches at h
    split at h
    · rename_i payload rest hpayload hrest
      cases h
      obtain ⟨rfl, hok⟩ := serializeBatch_spec hpayload
      obtain ⟨rfl, hall⟩ := ih hrest
      constructor
      · rw [List.flatten_cons, List.map_append, List.flatten_append]
      · rw [List.flatten_cons]
        exact List.forall_mem_append.mpr ⟨hok, hall⟩
    · cases h

theorem map_recordOf_frame (records : List Record) :
    (records.map frame).map recordOf = records.map recordCall := by
  rw [List.map_map]
  apply List.map_congr_left
  intro record _
  exact recordOf_message _ _

/-- Whatever a client sends in batches of records with integer content, under a steady leader and
however the stream is split into reads, ticks and pauses:
no message is refused: a connection that neither the client nor a failing write ends stays open and
is read from, or paused until the timer resumes it;
every entry is accepted by `FsmApply`;
and the entries in their order make the calls of `lsmt_insert` of the first records sent, of all of
them once everything has been received and no pause is pending. -/
theorem write_path_round_trip {batches : List (List Record)} {stream : Bytes}
    (hstream : serializeBatches batches = some stream) {v : ServerView} (hv : v.Leads)
    {es : List ClientEvent} (hes : ∀ e ∈ es, e.Steady) (hsent : receivedBytes es <+: stream)
    {c : InsertClient} (hrun : run InsertClient.step (onInsertConnection v) es = some c) :
    ((∀ e ∈ es, ¬ e.EndsConnection) →
      c.closing = false ∧ (c.reading = true ∨ c.isPaused = true ∧ c.listed = true)) ∧
    (∀ req ∈ c.applies, ∀ (σ : Type u) (lsmtInsert : σ → SlUint128 → Bytes → σ × Int)
      (s : FsmState σ), (fsmApply lsmtInsert s req.entry).2 = .ok) ∧
    ∃ sent, sent <+: batches.flatten ∧
      (receivedBytes es = stream → c.isPaused = false → sent = batches.flatten) ∧
      ∀ (σ : Type u) (lsmtInsert : σ → SlUint128 → Bytes → σ × Int) (s : FsmState σ),
        (fsmApplyAll lsmtInsert s (c.applies.map ApplyReq.entry)).db =
          (sent.map recordCall).foldl (fun db call => (lsmtInsert db call.1 call.2).1) s.db := by
  -- the stream is the frames of the records one behind the other
  obtain ⟨hframes, hok⟩ := serializeBatches_spec hstream
  have hmsgs : ∀ msg ∈ batches.flatten.map frame, MsgOk msg := by
    intro msg hmsg
    obtain ⟨record, hrecord, rfl⟩ := List.mem_map.mp hmsg
    exact hok record hrecord
  rw [hframes] at hsent ⊢
  obtain ⟨hkeeps, hopen⟩ :=
    (InsertClient.keeps_onInsertConnection hv).run hmsgs hes (by simpa using hsent) hrun
  rw [List.nil_append] at hkeeps
  obtain ⟨parts, batch, htook, hreceived⟩ := hkeeps.took
  obtain ⟨later, hlater, hrest⟩ := exists_append_of_flatten htook.isMsg
    (fun msg hmsg => (hmsgs msg hmsg).toIsMsg) (hreceived.symm ▸ hsent)
  have htaken : ∀ msg ∈ parts.flatten, MsgOk msg := by
    intro msg hmsg
    apply hmsgs msg
    rw [hlater]
    exact List.mem_append_left later (List.mem_append_left batch hmsg)
  -- an entry of whole messages is accepted, with their calls
  obtain ⟨hstatus, hcalls⟩ := InsertClient.entries_of_holds htook.applies htaken
  refine ⟨fun hends => ?_, fun req hreq σ lsmtInsert s => ?_, ?_⟩
  · have hclosing : c.closing = false := by
      apply hopen hends
      unfold onInsertConnection
      rw [if_pos hv.isLeader]
      rfl
    obtain ⟨hlisted, hreading⟩ := hkeeps.live hclosing
    refine ⟨hclosing, ?_⟩
    cases hpaused : c.isPaused with
    | false => exact Or.inl (hreading hpaused)
    | true => exact Or.inr ⟨rfl, hlisted⟩
  · rw [fsmApply_status]
    exact hstatus req hreq
  · -- the messages taken are those of the first records
    obtain ⟨sent, unsent, hsplit, hsentframes, hunsent⟩ := List.map_eq_append_iff.mp
      (hlater.trans (List.append_assoc _ _ _))
    refine ⟨sent, ⟨unsent, hsplit.symm⟩, fun hall hpaused => ?_, fun σ lsmtInsert s => ?_⟩
    · -- with everything received, what is left over is neither in the buffer nor in the batch
      obtain ⟨-, hincomplete, hempty⟩ := hkeeps.drained hpaused
      have hbuffer : c.buffer = later.flatten := by
        have hcut : (parts.flatten ++ batch).flatten ++ c.buffer =
            (parts.flatten ++ batch).flatten ++ later.flatten := by
          rw [hreceived, hall, hlater, List.flatten_append]
        exact List.append_cancel_left hcut
      have hlaterNil : later = [] := by
        apply Incomplete.eq_nil _ (hbuffer ▸ hincomplete)
        intro msg hmsg
        exact (hmsgs msg (hlater ▸ List.mem_append_right _ hmsg)).toIsMsg
      have hcount : c.batchedReqCount = 0 := by
        apply hempty
        rw [hbuffer, hlaterNil]
        rfl
      have hbatch : batch = [] := List.length_eq_zero_iff.mp (htook.count ▸ hcount)
      rw [hlaterNil, hbatch, List.append_nil, List.map_eq_nil_iff] at hunsent
      rw [hsplit, hunsent, List.append_nil]
    · rw [fsmApplyAll_db, hcalls, ← hsentframes, map_recordOf_frame]

/-- Two batches with three records. -/
def threeRecords : List (List Record) :=
  [[⟨1, 2, .int 7⟩, ⟨3, 4, .int 8⟩], [⟨5, 6, .int 9⟩]]

/-- A server that leads and has too many immutable memtables. -/
def busyView : ServerView := { leaderView with immutableCount := 24 }

/-- The first read ends inside the second record, the timer flushes the first one, the next read pauses
the connection until the timer resumes it, and the last read has the rest. -/
def threeReads : List ClientEvent :=
  let stream := (threeRecords.flatten.map frame).flatten
  [.read leaderView (stream.take 40), .statsTimer leaderView,
    .read busyView ((stream.drop 40).take 30), .statsTimer leaderView, .applied 0 true true,
    .read leaderView (stream.drop 70)]

theorem steady_threeReads : ∀ e ∈ threeReads, e.Steady ∧ ¬ e.EndsConnection := by
  have hleads : leaderView.Leads := ⟨rfl, fun _ => rfl⟩
  have hbusy : busyView.Leads := ⟨rfl, fun _ => rfl⟩
  unfold threeReads
  simp only [List.forall_mem_cons]
  refine ⟨⟨⟨hleads, by decide⟩, id⟩, ⟨hleads, id⟩, ⟨⟨hbusy, by decide⟩, id⟩, ⟨hleads, id⟩,
    ⟨trivial, ?_⟩, ⟨⟨hleads, by decide⟩, id⟩, List.forall_mem_nil _⟩
  intro hfails
  cases hfails

/-- The three records come to the store in two entries. -/
theorem write_path_round_trip_one :
    ∃ c, run InsertClient.step (onInsertConnection leaderView) threeReads = some c ∧
      c.closing = false ∧ c.applies.map ApplyReq.reqCount = [1, 2] ∧
      ∀ (σ : Type) (lsmtInsert : σ → SlUint128 → Bytes → σ × Int) (s : FsmState σ),
        (fsmApplyAll lsmtInsert s (c.applies.map ApplyReq.entry)).db =
          (threeRecords.flatten.map recordCall).foldl (fun db call => (lsmtInsert db call.1 call.2).1)
            s.db := by
  have hend : ((run InsertClient.step (onInsertConnection leaderView) threeReads).map fun c =>
      (c.isPaused, c.applies.map ApplyReq.reqCount)) = some (false, [1, 2]) := by decide +kernel
  obtain ⟨c, hrun, hc⟩ := Option.map_eq_some_iff.mp hend
  obtain ⟨hpaused, hcounts⟩ := Prod.mk.inj hc
  have hstream : serializeBatches threeRecords = some (threeRecords.flatten.map frame).flatten := by
    decide
  have hreceived : receivedBytes threeReads = (threeRecords.flatten.map frame).flatten := by decide
  obtain ⟨hopen, -, sent, -, hall, hcalls⟩ := write_path_round_trip hstream ⟨rfl, fun _ => rfl⟩
    (fun e he => (steady_threeReads e he).1) (by rw [hreceived]) hrun
  refine ⟨c, hrun, (hopen fun e he => (steady_threeReads e he).2).1, hcounts, ?_⟩
  rw [← hall hreceived hpaused]
  exact hcalls

end RaftLsmt.Client
