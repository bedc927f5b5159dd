import RaftLsmt.Client.PageHeaders
import RaftLsmt.Server.QueryRequests

/-!
# Pipelined queries

`_query_batch_single_node` writes the requests for a node at once and reads as many responses. The
server's worker threads finish in any order and the bytes arrive in any pieces, so the client keeps to
the frames of the responses and files each one under the position of its request id.

`Socket` is what arrives on the connection. `query_batch_matched` says that the responses are read to
their last byte and come back in the order of the queries.
-/

set_option autoImplicit false

namespace RaftLsmt.Client

open RaftLsmt.Lib.ByteCodec
open RaftLsmt.Lib.OrderedDict
open RaftLsmt.Lib.StepMachine
open RaftLsmt.Lsmt
open RaftLsmt.Server

/-! ## The connection -/

/-- What arrives on a connection until it ends, in the pieces in which it arrives. -/
structure Socket where
  segments : List Bytes
  nonempty : ∀ segment ∈ segments, segment ≠ []

namespace Socket

/-- The bytes that have not been read. -/
def stream (sock : Socket) : Bytes := sock.segments.flatten

/-- `sock.recv(n)`: at most `n` bytes of the next piece, or none at the end. -/
def recv (n : Nat) : Socket → Bytes × Socket
  | ⟨[], h⟩ => ([], ⟨[], h⟩)
  | ⟨segment :: segments, h⟩ =>
    if hlt : n < segment.length then
      (segment.take n, ⟨segment.drop n :: segments, by
        intro other hother
        rcases List.mem_cons.mp hother with rfl | hother
        · exact List.ne_nil_of_length_pos (by rw [List.length_drop]; omega)
        · exact h other (List.mem_cons_of_mem _ hother)⟩)
    else (segment, ⟨segments, fun other hother => h other (List.mem_cons_of_mem _ hother)⟩)

theorem recv_append (n : Nat) (sock : Socket) :
    (sock.recv n).1 ++ (sock.recv n).2.stream = sock.stream := by
  unfold recv
  split
  · rfl
  · split
    · simp only [stream, List.flatten_cons]
      rw [← List.append_assoc, List.take_append_drop]
    · rfl

theorem length_recv_le (n : Nat) (sock : Socket) : (sock.recv n).1.length ≤ n := by
  unfold recv
  split
  · exact Nat.zero_le n
  · split
    · exact List.length_take_le _ _
    · rename_i hlt
      exact Nat.not_lt.mp hlt

/-- Only at the end there is nothing to receive. -/
theorem stream_eq_nil_of_recv {n : Nat} (hn : 0 < n) {sock : Socket} (h : (sock.recv n).1 = []) :
    sock.stream = [] := by
  unfold recv at h
  split at h
  · rfl
  · rename_i segment segments hne
    split at h
    · rename_i hlt
      have hlen := congrArg List.length h
      rw [List.length_take, List.length_nil] at hlen
      omega
    · exact absurd h (hne segment List.mem_cons_self)

/-- The loop of `_recv_exact`; `none` when it raises an error. -/
def recvLoop (n : Nat) (data : Bytes) (sock : Socket) : Option (Bytes × Socket) :=
  if data.length < n then
    if (sock.recv (n - data.length)).1 = [] then none
    else recvLoop n (data ++ (sock.recv (n - data.length)).1) (sock.recv (n - data.length)).2
  else some (data, sock)
termination_by n - data.length
decreasing_by
  rename_i hne
  have hpos := List.length_pos_iff.mpr hne
  rw [List.length_append]
  omega

/-- `_recv_exact`. -/
def recvExact (n : Nat) (sock : Socket) : Option (Bytes × Socket) := recvLoop n [] sock

/-- The loop takes bytes off the front of the stream. -/
theorem recvLoop_stream {n : Nat} {data : Bytes} (hdata : data.length ≤ n) (sock : Socket) :
    (recvLoop n data sock).map (fun p => (p.1, p.2.stream)) =
      (Client.recvExact (n - data.length) sock.stream).map fun p => (data ++ p.1, p.2) := by
  fun_induction recvLoop n data sock with
  | case1 data sock hlt hnil =>
    have hend := stream_eq_nil_of_recv (by omega) hnil
    rw [hend, Client.recvExact, if_neg (by rw [List.length_nil]; omega)]
    rfl
  | case2 data sock hlt hne ih =>
    have hle := length_recv_le (n - data.length) sock
    have happend := recv_append (n - data.length) sock
    have hlen := congrArg List.length happend
    rw [List.length_append] at hlen
    rw [ih (by rw [List.length_append]; omega), ← happend]
    generalize (sock.recv (n - data.length)).1 = chunk at *
    generalize (sock.recv (n - data.length)).2.stream = rest at *
    unfold Client.recvExact
    rw [List.length_append, List.length_append]
    by_cases henough : n - data.length ≤ chunk.length + rest.length
    · rw [if_pos henough, if_pos (by omega), Option.map_some, Option.map_some,
        List.take_append, List.take_of_length_le hle, List.drop_append, List.drop_eq_nil_of_le hle,
        List.append_assoc, Nat.sub_sub, List.nil_append]
    · rw [if_neg henough, if_neg (by omega)]
      rfl
  | case3 data sock hge =>
    have hzero : n - data.length = 0 := by omega
    rw [hzero, Client.recvExact, if_pos (Nat.zero_le _)]
    simp

/-- The pieces make no difference. -/
theorem recvExact_stream (n : Nat) (sock : Socket) :
    (sock.recvExact n).map (fun p => (p.1, p.2.stream)) = Client.recvExact n sock.stream := by
  rw [recvExact, recvLoop_stream (Nat.zero_le n), List.length_nil, Nat.sub_zero]
  simp

theorem exists_recvExact {n : Nat} {sock : Socket} {data rest : Bytes}
    (h : Client.recvExact n sock.stream = some (data, rest)) :
    ∃ sock', sock.recvExact n = some (data, sock') ∧ sock'.stream = rest := by
  rw [← recvExact_stream, Option.map_eq_some_iff] at h
  obtain ⟨⟨data', sock'⟩, hread, heq⟩ := h
  cases heq
  exact ⟨sock', hread, rfl⟩

end Socket

/-! ## What is sent -/

/-- `struct.pack(QUERY_REQ_FMT, req_id, start_key, end_key)`, as the server reads it; `none` when it
raises an error. -/
def packRequest (reqId : Nat) (query : QueryRequest) : Option EventLoop.QueryRequest :=
  match query.range with
  | some (startKey, endKey) =>
    if reqId < 2 ^ 64 then some ⟨UInt64.ofNat reqId, startKey, endKey⟩ else none
  | none => none

/-- The requests of a batch. -/
def packRequests : List Nat → List QueryRequest → Option (List EventLoop.QueryRequest)
  | reqId :: reqIds, query :: queries => do
    let request ← packRequest reqId query
    let requests ← packRequests reqIds queries
    some (request :: requests)
  | [], [] => some []
  | _, _ => none

/-- The payload: one request behind the other. -/
def batchPayload (reqIds : List Nat) (queries : List QueryRequest) : Option Bytes :=
  (packRequests reqIds queries).map fun requests => requests.flatMap EventLoop.requestBytes

theorem reqId_packRequest {reqId : Nat} {query : QueryRequest} {request : EventLoop.QueryRequest}
    (h : packRequest reqId query = some request) : request.reqId.toNat = reqId := by
  unfold packRequest at h
  split at h
  · split at h
    · rename_i hlt
      cases h
      exact UInt64.toNat_ofNat_of_lt' hlt
    · cases h
  · cases h

/-- The requests have the ids of the batch. -/
theorem reqIds_packRequests {reqIds : List Nat} {queries : List QueryRequest}
    {requests : List EventLoop.QueryRequest} (h : packRequests reqIds queries = some requests) :
    requests.map (fun r => r.reqId.toNat) = reqIds ∧ reqIds.length = queries.length := by
  induction reqIds generalizing queries requests with
  | nil =>
    cases queries with
    | nil =>
      cases h
      exact ⟨rfl, rfl⟩
    | cons query queries => cases h
  | cons reqId reqIds ih =>
    cases queries with
    | nil => cases h
    | cons query queries =>
      rw [packRequests] at h
      obtain ⟨request, hrequest, h⟩ := Option.bind_eq_some_iff.mp h
      obtain ⟨requests, hrequests, h⟩ := Option.bind_eq_some_iff.mp h
      cases h
      obtain ⟨hids, hlength⟩ := ih hrequests
      refine ⟨?_, ?_⟩
      · rw [List.map_cons, hids, reqId_packRequest hrequest]
      · rw [List.length_cons, List.length_cons, hlength]

/-- The server reads the requests from the payload. -/
theorem streamRequests_batchPayload {reqIds : List Nat} {queries : List QueryRequest}
    {payload : Bytes} (h : batchPayload reqIds queries = some payload) :
    packRequests reqIds queries = some (EventLoop.streamRequests payload) := by
  unfold batchPayload at h
  obtain ⟨requests, hrequests, rfl⟩ := Option.map_eq_some_iff.mp h
  have hread : EventLoop.streamRequests (requests.flatMap EventLoop.requestBytes ++ []) = requests :=
    EventLoop.streamRequests_requestBytes requests (by decide)
  rw [List.append_nil] at hread
  rw [hread, hrequests]

/-! ## What is received -/

/-- A response of the server: its header tells the size and the number of the records behind it. -/
structure SentResponse where
  response : QueryResponse
  records : List StoredRecord
  size_eq : response.totalMsgSize.toNat = qRespHeaderSize + (storedBytes records).length
  count_eq : response.recordsCount.toNat = records.length

namespace SentResponse

/-- The bytes of the message. -/
def bytes (r : SentResponse) : Bytes := setQueryResponseHeader r.response ++ storedBytes r.records

/-- The dictionary of the client. -/
def decoded (r : SentResponse) (skipRecords : Bool) : ReadResult :=
  resultOf r.response (keptRecords skipRecords (r.records.map StoredRecord.decoded))

end SentResponse

/-- What `background_query_cb` sends for a task is such a response, with the id of the request. -/
theorem backgroundQueryCb_sent {lsmt : LsmtState} {memtables : Nat → Sl} {task : QueryTask} {n : Nat}
    {delivered : List StoredRecord}
    (hdelivered : drain (liveNext memtables) n
      (0, lsmtIteratorSeek (memtables 0) (lsmtIteratorCreate lsmt) task.startKey task.endKey) =
        some (delivered.map StoredRecord.raw))
    (hsize : ∀ r ∈ delivered, r.data.length ≤ 255) (clock : Nat → Nat) :
    ∃ sent : SentResponse, backgroundQueryCb lsmt memtables clock task = some sent.bytes ∧
      sent.response.reqId = task.reqId ∧ sent.records <+: delivered := by
  obtain ⟨records, page, hmsg, hholds, hfits, hinto⟩ :=
    backgroundQueryCb_stored hdelivered hsize clock
  have hpage := isPageOf_self hholds hfits task.reqId
  have htotal := hpage.totalMsgSize_eq
  have hcount := hpage.recordsCount_eq
  rw [fileBytes_raw] at htotal
  rw [List.length_map] at hcount
  refine ⟨⟨page.response task.reqId, records, htotal, hcount⟩, ?_, rfl, hinto⟩
  rw [hmsg, SentResponse.bytes, ← fileBytes_raw, ← hholds.payload_eq]

/-- One turn of the loop that reads the responses; `none` when it raises an error. -/
def receiveNext (reqIdToIdx : Dict Nat Nat) (skipRecords : Bool) (sock : Socket) :
    Option (ReadResult × Socket) := do
  let (headerData, sock) ← sock.recvExact queryRespHeaderSize
  let header ← unpackRespHeader headerData
  if reqIdToIdx.get header.reqId = none then none
  else do
    let bodySize := header.totalSize - queryRespHeaderSize
    let (bodyData, sock) ← (if bodySize > 0 then sock.recvExact bodySize else some ([], sock))
    let result ← parseResponse header bodyData skipRecords
    some (result, sock)

/-- The loop that reads `n` responses. -/
def receiveResponses (reqIdToIdx : Dict Nat Nat) (skipRecords : Bool) :
    Nat → Socket → Option (List ReadResult × Socket)
  | 0, sock => some ([], sock)
  | n + 1, sock => do
    let (resp, sock) ← receiveNext reqIdToIdx skipRecords sock
    let (responses, sock) ← receiveResponses reqIdToIdx skipRecords n sock
    some (resp :: responses, sock)

/-- `ordered_responses[idx] = resp`. -/
def placeResponse (reqIdToIdx : Dict Nat Nat) (ordered : List (Option ReadResult))
    (resp : ReadResult) : List (Option ReadResult) :=
  match reqIdToIdx.get resp.reqId with
  | some idx => ordered.set idx (some resp)
  | none => ordered

/-- `ordered_responses`. -/
def orderedResponses (reqIdToIdx : Dict Nat Nat) (n : Nat) (responses : List ReadResult) :
    List (Option ReadResult) :=
  responses.foldl (placeResponse reqIdToIdx) (List.replicate n none)

/-- `_query_batch_single_node` on the connection to one node: the payload it writes, the responses it
returns and the socket it puts back into the pool; `none` when it gives this node up. -/
def queryBatchOn (queries : List QueryRequest) (reqIds : List Nat) (skipRecords : Bool)
    (sock : Socket) : Option (Bytes × List (Option ReadResult) × Socket) := do
  let reqIdToIdx := Dict.enumerate reqIds 0 Dict.empty
  let payload ← batchPayload reqIds queries
  let (responses, sock) ← receiveResponses reqIdToIdx skipRecords queries.length sock
  some (payload, orderedResponses reqIdToIdx queries.length responses, sock)

/-- A response to a request of the batch is read as if it were the only one expected. -/
theorem exists_receiveNext {reqIdToIdx : Dict Nat Nat} {skipRecords : Bool} {sock : Socket}
    {reqId : Nat} {result : ReadResult} {rest : Bytes} (hknown : reqIdToIdx.get reqId ≠ none)
    (h : receiveResponse reqId skipRecords sock.stream = some (result, rest)) :
    ∃ sock', receiveNext reqIdToIdx skipRecords sock = some (result, sock') ∧
      sock'.stream = rest := by
  unfold receiveResponse at h
  obtain ⟨⟨headerData, afterHeader⟩, hhead, h⟩ := Option.bind_eq_some_iff.mp h
  obtain ⟨header, hheader, h⟩ := Option.bind_eq_some_iff.mp h
  obtain ⟨sock₁, hread₁, rfl⟩ := Socket.exists_recvExact hhead
  simp only at h
  split at h
  · cases h
  rename_i hid
  rw [ne_eq, not_not] at hid
  obtain ⟨⟨bodyData, afterBody⟩, hbody, h⟩ := Option.bind_eq_some_iff.mp h
  obtain ⟨parsed, hparsed, h⟩ := Option.bind_eq_some_iff.mp h
  cases h
  obtain ⟨sock₂, hread₂, hrest⟩ : ∃ sock₂, (if header.totalSize - queryRespHeaderSize > 0 then
      sock₁.recvExact (header.totalSize - queryRespHeaderSize) else some ([], sock₁)) =
        some (bodyData, sock₂) ∧ sock₂.stream = afterBody := by
    split at hbody
    · rename_i hpos
      rw [if_pos hpos]
      exact Socket.exists_recvExact hbody
    · rename_i hpos
      cases hbody
      exact ⟨sock₁, if_neg hpos, rfl⟩
  refine ⟨sock₂, ?_, hrest⟩
  unfold receiveNext
  simp only [Option.bind_eq_bind, hread₁, Option.bind_some, hheader, hid, if_neg hknown, hread₂,
    hparsed]

/-- The responses are taken off the stream one after the other, to the last byte. -/
theorem exists_receiveResponses {reqIdToIdx : Dict Nat Nat} (skipRecords : Bool)
    (arrived : List SentResponse)
    (hknown : ∀ r ∈ arrived, reqIdToIdx.get r.response.reqId.toNat ≠ none) {sock : Socket}
    {rest : Bytes} (hstream : sock.stream = arrived.flatMap SentResponse.bytes ++ rest) :
    ∃ sock', receiveResponses reqIdToIdx skipRecords arrived.length sock =
      some (arrived.map fun r => r.decoded skipRecords, sock') ∧ sock'.stream = rest := by
  induction arrived generalizing sock with
  | nil => exact ⟨sock, rfl, hstream⟩
  | cons r arrived ih =>
    have hfront := receiveResponse_stored r.size_eq r.count_eq skipRecords
      (arrived.flatMap SentResponse.bytes ++ rest)
    rw [← List.append_assoc, ← SentResponse.bytes, ← List.append_assoc, ← List.flatMap_cons,
      ← hstream] at hfront
    obtain ⟨sock₁, hread, hrest⟩ := exists_receiveNext (hknown r List.mem_cons_self) hfront
    obtain ⟨sock₂, hall, hend⟩ :=
      ih (fun other hother => hknown other (List.mem_cons_of_mem r hother)) hrest
    refine ⟨sock₂, ?_, hend⟩
    simp only [List.length_cons, receiveResponses, Option.bind_eq_bind, hread, Option.bind_some,
      hall]
    rfl

/-- A position holds the last response filed under it. -/
theorem getElem?_orderedResponses (reqIdToIdx : Dict Nat Nat) (responses : List ReadResult)
    (ordered : List (Option ReadResult)) (i : Nat) :
    (responses.foldl (placeResponse reqIdToIdx) ordered)[i]? = ordered[i]?.map fun old =>
      (responses.reverse.find? fun resp => reqIdToIdx.get resp.reqId = some i).or old := by
  induction responses generalizing ordered with
  | nil => simp
  | cons resp responses ih =>
    rw [List.foldl_cons, ih, List.reverse_cons, List.find?_append]
    unfold placeResponse
    cases hidx : reqIdToIdx.get resp.reqId with
    | none => simp [hidx]
    | some idx =>
      by_cases hi : idx = i
      · subst hi
        cases hold : ordered[idx]? with
        | none => simp [hidx, List.getElem?_eq_none_iff.mp hold]
        | some old =>
          obtain ⟨hlt, -⟩ := List.getElem?_eq_some_iff.mp hold
          simp [hidx, hlt]
      · simp [hidx, hi]

/-- Of responses with distinct ids, in any order, each comes to the position of its request. -/
theorem orderedResponses_perm {reqIds : List Nat} (hnodup : reqIds.Nodup)
    {answers arrived : List ReadResult} (hids : answers.map ReadResult.reqId = reqIds)
    (hperm : arrived.Perm answers) :
    orderedResponses (Dict.enumerate reqIds 0 Dict.empty) reqIds.length arrived =
      answers.map some := by
  have hlength : reqIds.length = answers.length := by rw [← hids, List.length_map]
  apply List.ext_getElem?
  intro i
  rw [orderedResponses, getElem?_orderedResponses, List.getElem?_map, List.getElem?_replicate]
  by_cases hi : i < reqIds.length
  · have hanswer : answers[i]? = some answers[i] := List.getElem?_eq_getElem (hlength ▸ hi)
    have hid : answers[i].reqId = reqIds[i] := by
      simp only [← hids, List.getElem_map]
    rw [if_pos hi, hanswer, Option.map_some, Option.map_some]
    -- the last response filed under the position is the answer
    have hfiled (resp : ReadResult) (hresp : resp ∈ answers) :
        (Dict.enumerate reqIds 0 Dict.empty).get resp.reqId = some i ↔ resp = answers[i] := by
      have hmem : resp.reqId ∈ reqIds := hids ▸ List.mem_map_of_mem hresp
      rw [Dict.get_enumerate hnodup, if_pos hmem, Nat.zero_add, Option.some.injEq]
      constructor
      · intro hidx
        have hget : reqIds[i] = resp.reqId := by
          subst hidx
          exact List.getElem_idxOf hi
        refine List.inj_on_of_nodup_map (hids ▸ hnodup) hresp (List.getElem_mem _) ?_
        rw [hid, hget]
      · rintro rfl
        rw [hid, hnodup.idxOf_getElem]
    congr 1
    cases hfind : arrived.reverse.find? fun resp =>
        (Dict.enumerate reqIds 0 Dict.empty).get resp.reqId = some i with
    | none =>
      rw [List.find?_eq_none] at hfind
      have hin : answers[i] ∈ arrived.reverse :=
        List.mem_reverse.mpr (hperm.mem_iff.mpr (List.getElem_mem _))
      exact absurd (decide_eq_true ((hfiled _ (List.getElem_mem _)).mpr rfl)) (hfind _ hin)
    | some resp =>
      have hresp := hperm.mem_iff.mp (List.mem_reverse.mp (List.mem_of_find?_eq_some hfind))
      have hpos : (Dict.enumerate reqIds 0 Dict.empty).get resp.reqId = some i := by
        simpa using List.find?_some hfind
      rw [(hfiled resp hresp).mp hpos, Option.some_or]
  · rw [if_neg hi, List.getElem?_eq_none (by omega)]
    rfl

/-- For every batch of queries with distinct ids, written on one connection, and every order in which
the server sends its responses to the requests it reads there, in any pieces: the client takes exactly
the bytes of the responses off the connection, and the `i`-th response it returns is the decoded one
to the `i`-th query. -/
theorem query_batch_matched {queries : List QueryRequest} {reqIds : List Nat}
    (hnodup : reqIds.Nodup) {payload : Bytes} (hpayload : batchPayload reqIds queries = some payload)
    (skipRecords : Bool) {answers arrived : List SentResponse}
    (hanswers : answers.map (fun r => r.response.reqId) =
      (EventLoop.streamRequests payload).map fun r => r.reqId)
    (hperm : arrived.Perm answers) {sock : Socket} {rest : Bytes}
    (hstream : sock.stream = arrived.flatMap SentResponse.bytes ++ rest) :
    packRequests reqIds queries = some (EventLoop.streamRequests payload) ∧
      ∃ sock', queryBatchOn queries reqIds skipRecords sock =
        some (payload, answers.map (fun r => some (r.decoded skipRecords)), sock') ∧
        sock'.stream = rest := by
  have hrequests := streamRequests_batchPayload hpayload
  obtain ⟨hreqIds, hlength⟩ := reqIds_packRequests hrequests
  have hids : (answers.map fun r => r.decoded skipRecords).map ReadResult.reqId = reqIds := by
    have hnat := congrArg (List.map UInt64.toNat) hanswers
    rw [List.map_map, List.map_map] at hnat
    rw [List.map_map, ← hreqIds]
    exact hnat
  have hcount : arrived.length = queries.length := by
    rw [hperm.length_eq, ← hlength, ← hids, List.length_map, List.length_map]
  have hknown : ∀ r ∈ arrived,
      (Dict.enumerate reqIds 0 Dict.empty).get r.response.reqId.toNat ≠ none := by
    intro r hr
    have hmem : r.response.reqId.toNat ∈ reqIds := by
      rw [← hids, List.map_map]
      exact List.mem_map_of_mem (hperm.mem_iff.mp hr)
    rw [Dict.get_enumerate hnodup, if_pos hmem]
    exact Option.some_ne_none _
  obtain ⟨sock', hreceived, hrest⟩ := exists_receiveResponses skipRecords arrived hknown hstream
  have hordered := orderedResponses_perm hnodup hids (hperm.map fun r => r.decoded skipRecords)
  refine ⟨hrequests, sock', ?_, hrest⟩
  rw [hcount] at hreceived
  rw [hlength, List.map_map] at hordered
  unfold queryBatchOn
  simp only [Option.bind_eq_bind, hpayload, Option.bind_some, hreceived, hordered]
  rfl

/-- Two queries of one connection. -/
def twoQueries : List QueryRequest := [⟨1, 0, 9, 0, 7⟩, ⟨1, 0, 9, 0, 8⟩]

/-- The response to the request 3: one record. -/
def answerThree : SentResponse := ⟨(pageWith false [recordFive]).response 3, [recordFive], rfl, rfl⟩

/-- The response to the request 4: no record. -/
def answerFour : SentResponse := ⟨(pageWith false []).response 4, [], rfl, rfl⟩

/-- The second response comes first, and a piece ends inside of the other one. -/
def swappedAnswers : Socket where
  segments := [(answerFour.bytes ++ answerThree.bytes).take 70,
    (answerFour.bytes ++ answerThree.bytes).drop 70]
  nonempty := by decide

theorem query_batch_matched_two : ∃ payload sock',
    queryBatchOn twoQueries [3, 4] false swappedAnswers =
      some (payload, [some (answerThree.decoded false), some (answerFour.decoded false)], sock') ∧
      sock'.stream = [] := by
  obtain ⟨payload, hpayload⟩ : ∃ payload, batchPayload [3, 4] twoQueries = some payload := ⟨_, rfl⟩
  have hrequests := streamRequests_batchPayload hpayload
  have hids : [answerThree, answerFour].map (fun r => r.response.reqId) =
      (EventLoop.streamRequests payload).map fun r => r.reqId := by
    rw [← Option.some.inj hrequests]
    rfl
  have hstream : swappedAnswers.stream =
      [answerFour, answerThree].flatMap SentResponse.bytes ++ [] := by decide
  obtain ⟨-, sock', hbatch, hrest⟩ := query_batch_matched (by decide) hpayload false hids
    (List.Perm.swap answerThree answerFour []) hstream
  exact ⟨_, sock', hbatch, hrest⟩

end RaftLsmt.Client
