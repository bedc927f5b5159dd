import RaftLsmt.Lib.RefCount
import RaftLsmt.Lib.StepMachine
import RaftLsmt.Server.InsertClient
import RaftLsmt.Server.Query

/-!
# The clients of a server

`EventLoop` is what the callbacks of one server share: the clients of both ports with their counts of
references, the two lists of clients, and what is in flight on their behalf, be it an entry handed to
`raft_apply`, a write handed to `uv_write` or a query handed to `uv_queue_work`. `EventLoop.step` runs
one callback; which of those that are registered is next is up to the world.

A client is freed with its last reference. Each function looks at its client through `touch`, which
notes in `stale` when the client has been freed before.
-/

set_option autoImplicit false

namespace RaftLsmt.Server

open RaftLsmt.Lib.ByteCodec
open RaftLsmt.Lib.RefCount
open RaftLsmt.Lsmt

/-- `GLOBAL_MAX_QUERIES`. -/
def globalMaxQueries : Int := 256

/-- `QUERY_REQ_SIZE`. -/
def queryReqSize : Nat := 40

/-- `client_type_t`. -/
inductive ClientType where
  | insert
  | query
  deriving DecidableEq

/-- `client_t` but for its count of references. `reading` is set between `uv_read_start` and
`uv_read_stop`, `batchBuffer` is the filled part of `batch_buffer`, and `isPaused` belongs to either
member of `ctx`. -/
structure Client where
  type : ClientType
  buffer : Bytes
  closing : Bool
  reading : Bool
  isPaused : Bool
  batchBuffer : Bytes
  batchedReqCount : Nat

/-- A client as `calloc` leaves it. -/
def Client.new (type : ClientType) : Client where
  type := type
  buffer := []
  closing := false
  reading := false
  isPaused := false
  batchBuffer := []
  batchedReqCount := 0

/-- `apply_ctx_t` with the entry. -/
structure ApplyCtx where
  client : Nat
  reqCount : Nat
  entry : Bytes

/-- The callback of a write: `on_redirect_write_complete`, `on_ack_write_complete`, or
`on_query_resp_complete`. -/
inductive WriteCb where
  | redirect
  | ack
  | response
  deriving DecidableEq

/-- `ack_write_t`. -/
structure AckWrite where
  client : Nat
  buf : Bytes
  cb : WriteCb

/-- A task in the thread pool, with its client. -/
structure ClientQuery where
  client : Nat
  task : QueryTask

/-- What a callback finds around the event loop. The answers of other components are numbered by the
calls made to them so far. `immutableCount a` is what is read in the turn of client `a`. -/
structure LoopView where
  isLeader : Nat → Bool
  raftApplyOk : Nat → Bool
  uvWriteOk : Nat → Bool
  uvQueueWorkOk : Nat → Bool
  uvHrtime : Nat → Nat
  immutableCount : Nat → Nat
  leaderId : Nat
  leaderAddr : Option String

/-- `struct Server` with its clients, which are numbered in the order of their allocation. `handles`
are those whose `on_client_close` has not run. `received` and `dispatched` are history: the bytes read
from each query client, and all tasks. -/
structure EventLoop where
  clients : Nat → Client
  heap : RefHeap
  handles : List Nat
  clientsHead : ClientType → List Nat
  activeQueriesCount : Int
  applies : List ApplyCtx
  writes : List AckWrite
  queries : List ClientQuery
  calls : Nat
  stale : Bool
  received : Nat → Bytes
  dispatched : List ClientQuery

namespace EventLoop

/-- A server without clients. -/
def init : EventLoop where
  clients := fun _ => Client.new .insert
  heap := RefHeap.empty
  handles := []
  clientsHead := fun _ => []
  activeQueriesCount := 0
  applies := []
  writes := []
  queries := []
  calls := 0
  stale := false
  received := fun _ => []
  dispatched := []

/-- Look at a client. -/
def touch (s : EventLoop) (a : Nat) : EventLoop :=
  { s with stale := s.stale || decide (a ∈ s.heap.freed) }

/-- Write to a client. -/
def update (s : EventLoop) (a : Nat) (f : Client → Client) : EventLoop :=
  { s.touch a with clients := Function.update s.clients a (f (s.clients a)) }

/-- `client_retain`. -/
def clientRetain (s : EventLoop) (a : Nat) : EventLoop :=
  { s.touch a with heap := s.heap.retain a }

/-- `client_release`. -/
def clientRelease (s : EventLoop) (a : Nat) : EventLoop :=
  { s.touch a with heap := s.heap.release a }

/-- `add_client`. -/
def addClient (s : EventLoop) (a : Nat) (type : ClientType) : EventLoop :=
  let s := s.update a fun c => { c with type := type }
  { s with clientsHead := Function.update s.clientsHead type (a :: s.clientsHead type) }

/-- `remove_client`. -/
def removeClient (s : EventLoop) (a : Nat) : EventLoop :=
  let s := s.touch a
  let type := (s.clients a).type
  { s with clientsHead := Function.update s.clientsHead type ((s.clientsHead type).erase a) }

/-- `close_and_free_client`. -/
def closeAndFreeClient (s : EventLoop) (a : Nat) : EventLoop :=
  let s := s.touch a
  if (s.clients a).closing then s
  else (s.update a fun c => { c with closing := true }).removeClient a

/-- `uv_write`. The client has been retained for it; otherwise the reference is given back. -/
def uvWrite (s : EventLoop) (v : LoopView) (wr : AckWrite) : EventLoop :=
  let ok := v.uvWriteOk s.calls
  let s := { s with calls := s.calls + 1 }
  if ok then { s with writes := s.writes ++ [wr] }
  else (s.clientRelease wr.client).closeAndFreeClient wr.client

/-- `redirect_to_leader_and_close`. -/
def redirectToLeaderAndClose (s : EventLoop) (v : LoopView) (a : Nat) : EventLoop :=
  let s := s.update a fun c => { c with reading := false }
  (s.clientRetain a).uvWrite v ⟨a, redirectMsg v.leaderId v.leaderAddr, .redirect⟩

/-! ## The insert port -/

/-- `raft_apply`, as `batch_buffer_flush` calls it. -/
def raftApply (s : EventLoop) (v : LoopView) (ctx : ApplyCtx) : EventLoop :=
  let ok := v.raftApplyOk s.calls
  let s := { s with calls := s.calls + 1 }
  if ok then { s with applies := s.applies ++ [ctx] }
  else (s.clientRelease ctx.client).closeAndFreeClient ctx.client

/-- `batch_buffer_flush`. -/
def batchBufferFlush (s : EventLoop) (v : LoopView) (a : Nat) : EventLoop :=
  let s := s.touch a
  let c := s.clients a
  if c.batchedReqCount = 0 then s
  else
    let s := (s.clientRetain a).raftApply v ⟨a, c.batchedReqCount, alignedEntry c.batchBuffer⟩
    s.update a fun c => { c with batchBuffer := [], batchedReqCount := 0 }

/-- Add a message to the batch and flush a full batch. -/
def addToBatch (s : EventLoop) (v : LoopView) (a : Nat) (msg : Bytes) : EventLoop :=
  let s := s.update a fun c => { c with
    batchBuffer := c.batchBuffer ++ msg
    batchedReqCount := c.batchedReqCount + 1 }
  let c := s.clients a
  if c.batchedReqCount ≥ batchSize ∨ c.batchBuffer.length ≥ bufferCapacity then
    s.batchBufferFlush v a
  else s

/-- The loop of `process_insert_buffer` on the rest of the buffer; `none` when it returns `false`,
otherwise what is left of the buffer. -/
def processLoop (v : LoopView) (a : Nat) (s : EventLoop) (rest : Bytes) :
    EventLoop × Option Bytes :=
  if rest.length < 4 then (s, some rest)
  else if msgSize rest < 4 then (s.closeAndFreeClient a, none)
  else if msgSize rest > rest.length then (s, some rest)
  else if v.isLeader s.calls = false then (s.redirectToLeaderAndClose v a, none)
  else if (s.clients a).batchBuffer.length + msgSize rest ≤ bufferCapacity then
    processLoop v a (s.addToBatch v a (rest.take (msgSize rest))) (rest.drop (msgSize rest))
  else (s.closeAndFreeClient a, none)
termination_by rest.length
decreasing_by
  rw [List.length_drop]
  omega

/-- `process_insert_buffer`. -/
def processInsertBuffer (s : EventLoop) (v : LoopView) (a : Nat) : EventLoop :=
  let s := s.touch a
  if v.immutableCount a ≥ 24 then
    if (s.clients a).isPaused then s
    else s.update a fun c => { c with reading := false, isPaused := true }
  else
    match processLoop v a s (s.clients a).buffer with
    | (s, none) => s
    | (s, some rest) =>
      let s := s.update a fun c => { c with buffer := rest }
      if rest = [] ∧ (s.clients a).batchedReqCount > 0 then s.batchBufferFlush v a else s

/-- `on_client_read`; no bytes where `nread < 0`. -/
def onClientRead (s : EventLoop) (v : LoopView) (a : Nat) : Option Bytes → EventLoop
  | some [] => s
  | some chunk =>
    let s := s.update a fun c => { c with buffer := c.buffer ++ chunk }
    if (s.clients a).buffer.length > maxClientBufSize then s.closeAndFreeClient a
    else s.processInsertBuffer v a
  | none =>
    let s := s.touch a
    let s := if (s.clients a).buffer.length > 0 then s.processInsertBuffer v a else s
    (s.batchBufferFlush v a).closeAndFreeClient a

/-- The turn of `statsTimerCb` for one client. -/
def statsTimerTurn (v : LoopView) (s : EventLoop) (a : Nat) : EventLoop :=
  let s := s.batchBufferFlush v a
  if v.immutableCount a < 12 ∧ (s.clients a).isPaused then
    (s.update a fun c => { c with isPaused := false, reading := true }).processInsertBuffer v a
  else s

/-- `statsTimerCb`. A turn takes no other client off the list, and the next one is read before it. -/
def statsTimerCb (s : EventLoop) (v : LoopView) : EventLoop :=
  (s.clientsHead .insert).foldl (statsTimerTurn v) s

/-- `serverApplyCb`. -/
def serverApplyCb (s : EventLoop) (v : LoopView) (ctx : ApplyCtx) (ok : Bool) : EventLoop :=
  let s := s.touch ctx.client
  let s :=
    if ok ∧ (s.clients ctx.client).closing = false then
      (s.clientRetain ctx.client).uvWrite v
        ⟨ctx.client, List.replicate (min ctx.reqCount batchSize) 1, .ack⟩
    else s
  s.clientRelease ctx.client

/-! ## The query port -/

/-- The request at the start of the bytes. -/
def queryTask (bytes : Bytes) (tStartNs : Nat) : QueryTask where
  reqId := UInt64.ofNat (leNat (bytes.take 8))
  startKey := keyOfBytes (bytes.drop 8)
  endKey := keyOfBytes (bytes.drop 24)
  tStartNs := tStartNs

/-- `uv_queue_work` as `dispatch_queries` calls it. -/
def uvQueueWork (s : EventLoop) (v : LoopView) (query : ClientQuery) : EventLoop :=
  let ok := v.uvQueueWorkOk s.calls
  let s := { s with calls := s.calls + 1 }
  if ok then
    { s with queries := s.queries ++ [query], dispatched := s.dispatched ++ [query] }
  else
    { s with activeQueriesCount := s.activeQueriesCount - 1 }.clientRelease query.client

/-- The loop of `dispatch_queries` on the rest of the buffer, with what is left of it. -/
def dispatchLoop (v : LoopView) (a : Nat) (s : EventLoop) (rest : Bytes) : EventLoop × Bytes :=
  if rest.length < queryReqSize then (s, rest)
  else if s.activeQueriesCount ≥ globalMaxQueries then
    if (s.clients a).isPaused then (s, rest)
    else (s.update a fun c => { c with reading := false, isPaused := true }, rest)
  else
    let s := s.clientRetain a
    let s := { s with activeQueriesCount := s.activeQueriesCount + 1 }
    dispatchLoop v a (s.uvQueueWork v ⟨a, queryTask rest (v.uvHrtime s.calls)⟩)
      (rest.drop queryReqSize)
termination_by rest.length
decreasing_by
  rw [List.length_drop]
  unfold queryReqSize at *
  omega

/-- `dispatch_queries`. -/
def dispatchQueries (s : EventLoop) (v : LoopView) (a : Nat) : EventLoop :=
  let s := s.touch a
  let (s, rest) := dispatchLoop v a s (s.clients a).buffer
  s.update a fun c => { c with buffer := rest }

/-- `on_client_query`; no bytes where `nread < 0`. -/
def onClientQuery (s : EventLoop) (v : LoopView) (a : Nat) : Option Bytes → EventLoop
  | some [] => s
  | some chunk =>
    let s := { s with received := Function.update s.received a (s.received a ++ chunk) }
    (s.update a fun c => { c with buffer := c.buffer ++ chunk }).dispatchQueries v a
  | none => s.closeAndFreeClient a

/-- `send_response`. -/
def sendResponse (s : EventLoop) (v : LoopView) (a : Nat) (data : Bytes) : EventLoop :=
  (s.clientRetain a).uvWrite v ⟨a, data, .response⟩

/-- The loop of `after_query_cb` over the query clients. -/
def resumeLoop (v : LoopView) : List Nat → EventLoop → EventLoop
  | [], s => s
  | a :: as, s =>
    let s := s.touch a
    let c := s.clients a
    if c.isPaused ∧ c.closing = false then
      let s := (s.update a fun c => { c with isPaused := false, reading := true }).dispatchQueries v a
      if s.activeQueriesCount ≥ globalMaxQueries then s else resumeLoop v as s
    else resumeLoop v as s

/-- The answer of `after_query_cb` to an open client. -/
def answerQuery (s : EventLoop) (v : LoopView) (a : Nat) (ok : Bool) : Option Bytes → EventLoop
  | some data => if ok ∧ (s.clients a).closing = false then s.sendResponse v a data else s
  | none => s

/-- The place of a finished query goes to the clients that wait. -/
def resumeQueries (s : EventLoop) (v : LoopView) : EventLoop :=
  if s.activeQueriesCount < globalMaxQueries then resumeLoop v (s.clientsHead .query) s else s

/-- `after_query_cb`. -/
def afterQueryCb (s : EventLoop) (v : LoopView) (query : ClientQuery) (ok : Bool)
    (response : Option Bytes) : EventLoop :=
  let s := (s.touch query.client).answerQuery v query.client ok response
  let s := { s with activeQueriesCount := s.activeQueriesCount - 1 }
  (s.resumeQueries v).clientRelease query.client

/-! ## Both ports -/

/-- What becomes of a connection: an error status, `uv_accept` refuses, or a client. -/
inductive Accept where
  | error
  | refused
  | accepted

/-- The new client of a connection callback; both branches retain it. -/
def newClient (s : EventLoop) (type : ClientType) : EventLoop :=
  { s with
    clients := Function.update s.clients s.heap.allocated (Client.new type)
    heap := s.heap.alloc
    handles := s.heap.allocated :: s.handles }

/-- `on_insert_connection`. -/
def onInsertConnection (s : EventLoop) (v : LoopView) : Accept → EventLoop
  | .error => s
  | .refused => (s.newClient .insert).closeAndFreeClient s.heap.allocated
  | .accepted =>
    let a := s.heap.allocated
    let s := s.newClient .insert
    if v.isLeader s.calls = false then s.redirectToLeaderAndClose v a
    else (s.addClient a .insert).update a fun c => { c with reading := true }

/-- `on_read_connection`. -/
def onReadConnection (s : EventLoop) (v : LoopView) : Accept → EventLoop
  | .error => s
  | .refused => (s.newClient .query).closeAndFreeClient s.heap.allocated
  | .accepted =>
    let a := s.heap.allocated
    let s := s.newClient .query
    if v.isLeader s.calls then s.closeAndFreeClient a
    else (s.addClient a .query).update a fun c => { c with reading := true }

/-- The callback of a write. -/
def onWriteComplete (s : EventLoop) (wr : AckWrite) (ok : Bool) : EventLoop :=
  let s := if wr.cb = .redirect ∨ ok = false then s.closeAndFreeClient wr.client else s
  s.clientRelease wr.client

/-- `on_client_close`. -/
def onClientClose (s : EventLoop) (a : Nat) : EventLoop :=
  { s with handles := s.handles.erase a }.clientRelease a

/-- The two loops of `ServerClose` over the clients. Each turn takes its client off the list. -/
def serverClose (s : EventLoop) : EventLoop :=
  let s := (s.clientsHead .insert).foldl closeAndFreeClient s
  (s.clientsHead .query).foldl closeAndFreeClient s

/-- The callbacks, those of an entry, a write or a query with its place in the list. -/
inductive Event where
  | insertConnection (v : LoopView) (accept : Accept)
  | readConnection (v : LoopView) (accept : Accept)
  | read (v : LoopView) (a : Nat) (chunk : Option Bytes)
  | statsTimer (v : LoopView)
  | applied (v : LoopView) (i : Nat) (ok : Bool)
  | written (i : Nat) (ok : Bool)
  | queryDone (v : LoopView) (i : Nat) (ok : Bool) (response : Option Bytes)
  | closed (a : Nat)
  | shutdown

/-- One callback. Reads reach an open handle that is being read from, completions what is in flight,
and the close callback a handle that is closing. -/
def step (s : EventLoop) : Event → Option EventLoop
  | .insertConnection v accept => some (s.onInsertConnection v accept)
  | .readConnection v accept => some (s.onReadConnection v accept)
  | .read v a chunk =>
    let c := s.clients a
    if a ∈ s.handles ∧ c.closing = false ∧ c.reading = true then
      match c.type with
      | .insert => some (s.onClientRead v a chunk)
      | .query => some (s.onClientQuery v a chunk)
    else none
  | .statsTimer v => some (s.statsTimerCb v)
  | .applied v i ok =>
    s.applies[i]?.map fun ctx => { s with applies := s.applies.eraseIdx i }.serverApplyCb v ctx ok
  | .written i ok =>
    s.writes[i]?.map fun wr => { s with writes := s.writes.eraseIdx i }.onWriteComplete wr ok
  | .queryDone v i ok response =>
    s.queries[i]?.map fun query =>
      { s with queries := s.queries.eraseIdx i }.afterQueryCb v query ok response
  | .closed a =>
    if a ∈ s.handles ∧ (s.clients a).closing = true then some (s.onClientClose a) else none
  | .shutdown => some s.serverClose

/-- What a callback does. -/
inductive Step (s : EventLoop) : Event → EventLoop → Prop where
  | insertConnection (v : LoopView) (accept : Accept) :
    Step s (.insertConnection v accept) (s.onInsertConnection v accept)
  | readConnection (v : LoopView) (accept : Accept) :
    Step s (.readConnection v accept) (s.onReadConnection v accept)
  | clientRead (v : LoopView) (a : Nat) (chunk : Option Bytes) (hhandle : a ∈ s.handles)
    (hopen : (s.clients a).closing = false) (hreading : (s.clients a).reading = true)
    (htype : (s.clients a).type = .insert) :
    Step s (.read v a chunk) (s.onClientRead v a chunk)
  | clientQuery (v : LoopView) (a : Nat) (chunk : Option Bytes) (hhandle : a ∈ s.handles)
    (hopen : (s.clients a).closing = false) (hreading : (s.clients a).reading = true)
    (htype : (s.clients a).type = .query) :
    Step s (.read v a chunk) (s.onClientQuery v a chunk)
  | statsTimer (v : LoopView) : Step s (.statsTimer v) (s.statsTimerCb v)
  | applied (v : LoopView) (i : Nat) (ok : Bool) (ctx : ApplyCtx) (hctx : s.applies[i]? = some ctx) :
    Step s (.applied v i ok)
      ({ s with applies := s.applies.eraseIdx i }.serverApplyCb v ctx ok)
  | written (i : Nat) (ok : Bool) (wr : AckWrite) (hwr : s.writes[i]? = some wr) :
    Step s (.written i ok) ({ s with writes := s.writes.eraseIdx i }.onWriteComplete wr ok)
  | queryDone (v : LoopView) (i : Nat) (ok : Bool) (response : Option Bytes) (query : ClientQuery)
    (hquery : s.queries[i]? = some query) :
    Step s (.queryDone v i ok response)
      ({ s with queries := s.queries.eraseIdx i }.afterQueryCb v query ok response)
  | closed (a : Nat) (hhandle : a ∈ s.handles) (hclosing : (s.clients a).closing = true) :
    Step s (.closed a) (s.onClientClose a)
  | shutdown : Step s .shutdown s.serverClose

theorem step_cases {s t : EventLoop} {e : Event} (h : s.step e = some t) : s.Step e t := by
  cases e with
  | insertConnection v accept =>
    cases h
    exact .insertConnection v accept
  | readConnection v accept =>
    cases h
    exact .readConnection v accept
  | read v a chunk =>
    obtain ⟨⟨hhandle, hopen, hreading⟩, h⟩ := Option.ite_none_right_eq_some.mp h
    split at h
    · rename_i htype
      cases h
      exact .clientRead v a chunk hhandle hopen hreading htype
    · rename_i htype
      cases h
      exact .clientQuery v a chunk hhandle hopen hreading htype
  | statsTimer v =>
    cases h
    exact .statsTimer v
  | applied v i ok =>
    obtain ⟨ctx, hctx, rfl⟩ := Option.map_eq_some_iff.mp h
    exact .applied v i ok ctx hctx
  | written i ok =>
    obtain ⟨wr, hwr, rfl⟩ := Option.map_eq_some_iff.mp h
    exact .written i ok wr hwr
  | queryDone v i ok response =>
    obtain ⟨query, hquery, rfl⟩ := Option.map_eq_some_iff.mp h
    exact .queryDone v i ok response query hquery
  | closed a =>
    obtain ⟨⟨hhandle, hclosing⟩, h⟩ := Option.ite_none_right_eq_some.mp h
    cases h
    exact .closed a hhandle hclosing
  | shutdown =>
    cases h
    exact .shutdown

end EventLoop

end RaftLsmt.Server
