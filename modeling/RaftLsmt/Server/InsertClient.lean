import RaftLsmt.Lib.StepMachine
import RaftLsmt.Server.FsmApply

/-!
# One connection on the insert port

`InsertClient` is what the server keeps for a client that inserts: the bytes received and not yet
taken apart, the batch being collected, the calls of `raft_apply` made for it and the bytes written
to it. `InsertClient.step` takes it through the callbacks of the event loop, in any order: a read of
any length, the end of the stream, a tick of the statistics timer, the completion of an entry, and
the completion or failure of a write.

What a callback finds in the rest of the server is its `ServerView`. The history of a connection is
kept in two lists that only grow: `applies`, the entries handed to `raft_apply`, and `written`, the
bytes handed to `uv_write`; the client reads some initial part of these.
-/

set_option autoImplicit false

namespace RaftLsmt.Server

open RaftLsmt.Lib.ByteCodec
open RaftLsmt.Lib.StepMachine
open RaftLsmt.Lsmt

/-- `BATCH_SIZE`. -/
def batchSize : Nat := 8192

/-- `sizeof(insert_cmd_t)`. -/
def insertCmdSize : Nat := 280

/-- `buffer_capacity`. -/
def bufferCapacity : Nat := batchSize * insertCmdSize

/-- `MAX_CLIENT_BUF_SIZE`. -/
def maxClientBufSize : Nat := 16 * 1024 * 1024

/-- What a callback reads from the rest of the server: whether it is the leader, `immutable_count`,
whether `raft_apply` takes the `n`-th entry of the connection, the leader `raft_leader` names, and
whether `uv_write` queues its buffer. -/
structure ServerView where
  isLeader : Bool
  immutableCount : Nat
  raftApplyOk : Nat → Bool
  leaderId : Nat
  leaderAddr : Option String
  uvWriteOk : Bool

/-- What has become of an entry: `raft_apply` refused it, its callback has not run yet, or it has
run with a status that was 0 or not. -/
inductive ApplyOutcome where
  | refused
  | pending
  | completed (ok : Bool)
  deriving DecidableEq

/-- `apply_ctx_t` with the buffer handed to `raft_apply`. -/
structure ApplyReq where
  entry : Bytes
  reqCount : Nat
  outcome : ApplyOutcome

/-- `client_t` with its `client_insert_ctx_t`. `batchBuffer` is the filled part of `batch_buffer`,
`reading` is set between `uv_read_start` and `uv_read_stop`, `listed` while the client is in
`insert_clients_head`, and `redirecting` while the write of the redirect line is in progress. -/
structure InsertClient where
  buffer : Bytes
  reading : Bool
  isPaused : Bool
  closing : Bool
  listed : Bool
  redirecting : Bool
  batchBuffer : Bytes
  batchedReqCount : Nat
  applies : List ApplyReq
  written : Bytes

/-- A client that has just been accepted. -/
def InsertClient.accepted : InsertClient where
  buffer := []
  reading := false
  isPaused := false
  closing := false
  listed := false
  redirecting := false
  batchBuffer := []
  batchedReqCount := 0
  applies := []
  written := []

/-- `close_and_free_client`. -/
def closeAndFreeClient (c : InsertClient) : InsertClient :=
  { c with closing := true, listed := false }

/-- The bytes of a text. -/
def textBytes (text : String) : Bytes := text.toList.map fun c => UInt8.ofNat c.toNat

/-- The line `REDIRECT <id> <address>`. -/
def redirectMsg (leaderId : Nat) (leaderAddr : Option String) : Bytes :=
  textBytes "REDIRECT " ++ textBytes (toString leaderId) ++ textBytes " " ++
    textBytes (leaderAddr.getD "UNKNOWN") ++ textBytes "\n"

/-- `redirect_to_leader_and_close`. -/
def redirectToLeaderAndClose (v : ServerView) (c : InsertClient) : InsertClient :=
  if v.uvWriteOk then
    { c with
      reading := false
      redirecting := true
      written := c.written ++ redirectMsg v.leaderId v.leaderAddr }
  else closeAndFreeClient { c with reading := false }

/-- The batch filled up with zero bytes to a multiple of eight. -/
def alignedEntry (payload : Bytes) : Bytes :=
  payload ++ List.replicate ((payload.length + 7) / 8 * 8 - payload.length) 0

/-- `batch_buffer_flush`. -/
def batchBufferFlush (v : ServerView) (c : InsertClient) : InsertClient :=
  if c.batchedReqCount = 0 then c
  else
    let ok := v.raftApplyOk c.applies.length
    let req : ApplyReq :=
      ⟨alignedEntry c.batchBuffer, c.batchedReqCount, if ok then .pending else .refused⟩
    let c := { c with applies := c.applies ++ [req], batchBuffer := [], batchedReqCount := 0 }
    if ok then c else closeAndFreeClient c

/-- Add a message to the batch and flush a full batch. -/
def addToBatch (v : ServerView) (c : InsertClient) (msg : Bytes) : InsertClient :=
  let c := { c with
    batchBuffer := c.batchBuffer ++ msg
    batchedReqCount := c.batchedReqCount + 1 }
  if c.batchedReqCount ≥ batchSize ∨ c.batchBuffer.length ≥ bufferCapacity then
    batchBufferFlush v c
  else c

/-- The loop of `process_insert_buffer` on the rest of the buffer; `none` when it returns `false`,
otherwise what is left of the buffer. -/
def processLoop (v : ServerView) (c : InsertClient) (rest : Bytes) :
    InsertClient × Option Bytes :=
  if rest.length < 4 then (c, some rest)
  else if msgSize rest < 4 then (closeAndFreeClient c, none)
  else if msgSize rest > rest.length then (c, some rest)
  else if v.isLeader = false then (redirectToLeaderAndClose v c, none)
  else if c.batchBuffer.length + msgSize rest ≤ bufferCapacity then
    processLoop v (addToBatch v c (rest.take (msgSize rest))) (rest.drop (msgSize rest))
  else (closeAndFreeClient c, none)
termination_by rest.length
decreasing_by
  rw [List.length_drop]
  omega

/-- `process_insert_buffer`. -/
def processInsertBuffer (v : ServerView) (c : InsertClient) : InsertClient :=
  if v.immutableCount ≥ 24 then
    if c.isPaused then c else { c with reading := false, isPaused := true }
  else
    match processLoop v c c.buffer with
    | (c, none) => c
    | (c, some rest) =>
      let c := { c with buffer := rest }
      if c.buffer = [] ∧ c.batchedReqCount > 0 then batchBufferFlush v c else c

/-- `on_insert_connection`. -/
def onInsertConnection (v : ServerView) : InsertClient :=
  if v.isLeader then { InsertClient.accepted with reading := true, listed := true }
  else redirectToLeaderAndClose v InsertClient.accepted

/-- `on_client_read` with `nread > 0`. -/
def onClientRead (v : ServerView) (c : InsertClient) (chunk : Bytes) : InsertClient :=
  let c := { c with buffer := c.buffer ++ chunk }
  if c.buffer.length > maxClientBufSize then closeAndFreeClient c else processInsertBuffer v c

/-- `on_client_read` with `nread < 0`. -/
def onClientEnd (v : ServerView) (c : InsertClient) : InsertClient :=
  let c := if c.buffer.length > 0 then processInsertBuffer v c else c
  closeAndFreeClient (batchBufferFlush v c)

/-- The turn of `statsTimerCb` for this client. -/
def statsTimerTurn (v : ServerView) (c : InsertClient) : InsertClient :=
  let c := batchBufferFlush v c
  if v.immutableCount < 12 ∧ c.isPaused then
    processInsertBuffer v { c with isPaused := false, reading := true }
  else c

/-- `serverApplyCb` for the `i`-th entry of the connection. -/
def serverApplyCb (c : InsertClient) (i : Nat) (req : ApplyReq) (ok uvWriteOk : Bool) :
    InsertClient :=
  let c := { c with applies := c.applies.set i { req with outcome := .completed ok } }
  if ok ∧ c.closing = false then
    if uvWriteOk then
      { c with written := c.written ++ List.replicate (min req.reqCount batchSize) 1 }
    else closeAndFreeClient c
  else c

/-- The callbacks that concern a client. -/
inductive ClientEvent where
  | read (v : ServerView) (chunk : Bytes)
  | readEnd (v : ServerView)
  | statsTimer (v : ServerView)
  | applied (i : Nat) (ok uvWriteOk : Bool)
  | redirectWritten
  | writeFailed

/-- One callback. Reads reach a client that is being read from, the timer those in the list, and a
completion an entry that is pending. -/
def InsertClient.step (c : InsertClient) : ClientEvent → Option InsertClient
  | .read v chunk =>
    if c.reading ∧ c.closing = false ∧ chunk ≠ [] then some (onClientRead v c chunk) else none
  | .readEnd v => if c.reading ∧ c.closing = false then some (onClientEnd v c) else none
  | .statsTimer v => if c.listed then some (statsTimerTurn v c) else none
  | .applied i ok uvWriteOk =>
    match c.applies[i]? with
    | some req => if req.outcome = .pending then some (serverApplyCb c i req ok uvWriteOk) else none
    | none => none
  | .redirectWritten =>
    if c.redirecting then some { closeAndFreeClient c with redirecting := false } else none
  | .writeFailed => some (closeAndFreeClient c)

/-- What a callback does to the client. -/
inductive InsertClient.Step (c : InsertClient) : ClientEvent → InsertClient → Prop where
  | read (v : ServerView) (chunk : Bytes) (hreading : c.reading = true) (hopen : c.closing = false)
    (hchunk : chunk ≠ []) :
    Step c (.read v chunk) (onClientRead v c chunk)
  | readEnd (v : ServerView) (hreading : c.reading = true) (hopen : c.closing = false) :
    Step c (.readEnd v) (onClientEnd v c)
  | statsTimer (v : ServerView) (hlisted : c.listed = true) :
    Step c (.statsTimer v) (statsTimerTurn v c)
  | applied (i : Nat) (ok uvWriteOk : Bool) (req : ApplyReq) (hreq : c.applies[i]? = some req)
    (hpending : req.outcome = .pending) :
    Step c (.applied i ok uvWriteOk) (serverApplyCb c i req ok uvWriteOk)
  | redirectWritten (hredirecting : c.redirecting = true) :
    Step c .redirectWritten { closeAndFreeClient c with redirecting := false }
  | writeFailed : Step c .writeFailed (closeAndFreeClient c)

theorem InsertClient.step_cases {c c' : InsertClient} {e : ClientEvent} (h : c.step e = some c') :
    c.Step e c' := by
  cases e with
  | read v chunk =>
    obtain ⟨⟨hreading, hopen, hchunk⟩, h⟩ := Option.ite_none_right_eq_some.mp h
    cases h
    exact .read v chunk hreading hopen hchunk
  | readEnd v =>
    obtain ⟨⟨hreading, hopen⟩, h⟩ := Option.ite_none_right_eq_some.mp h
    cases h
    exact .readEnd v hreading hopen
  | statsTimer v =>
    obtain ⟨hlisted, h⟩ := Option.ite_none_right_eq_some.mp h
    cases h
    exact .statsTimer v hlisted
  | applied i ok uvWriteOk =>
    simp only [InsertClient.step] at h
    split at h
    · rename_i req hreq
      obtain ⟨hpending, h⟩ := Option.ite_none_right_eq_some.mp h
      cases h
      exact .applied i ok uvWriteOk req hreq hpending
    · cases h
  | redirectWritten =>
    obtain ⟨hredirecting, h⟩ := Option.ite_none_right_eq_some.mp h
    cases h
    exact .redirectWritten hredirecting
  | writeFailed =>
    cases h
    exact .writeFailed

/-- The bytes a callback receives. -/
def ClientEvent.received : ClientEvent → Bytes
  | .read _ chunk => chunk
  | _ => []

/-- The bytes received in the course of these callbacks. -/
def receivedBytes (es : List ClientEvent) : Bytes := es.flatMap ClientEvent.received

end RaftLsmt.Server
