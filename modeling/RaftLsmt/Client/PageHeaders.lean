import RaftLsmt.Client.BatchFailover
import RaftLsmt.Client.Read
import RaftLsmt.Server.QueryPages

/-!
# The header of an aggregated response

`_aggregate` adds each page to the response of its node: the records and the two counters add up,
`min_id` and `min_ts` stay those of the first page, and `max_id` and `max_ts` become those of the
page. A page without records carries the sentinel keys of `background_query_cb`, and the response
takes its sentinel `max_key`.

`PageLog` is the loop of `read` next to the records the server has put into the pages. `header_iff`
says that the header describes these records exactly when no page without records follows other
pages, unless they end with the sentinel key itself.
-/

set_option autoImplicit false

namespace RaftLsmt.Client

open RaftLsmt.Lib.OrderedDict
open RaftLsmt.Lib.StepMachine
open RaftLsmt.Lsmt
open RaftLsmt.Server

/-- A page: the position of its future, the dictionary the client makes of it, and the records the
server has put into it. -/
structure SentPage where
  k : Nat
  answer : ReadResult
  records : List StoredRecord

/-- The key with which `background_query_cb` ends a page without records. -/
def sentinelKey : SlUint128 := QueryPage.empty.maxKey

/-- What `background_query_cb` may answer to a request, as the client reads it. -/
structure IsSentPage (skipRecords : Bool) (request : QueryRequest) (reqId : Nat)
    (page : SentPage) : Prop where
  reqId_eq : page.answer.reqId = reqId
  records_eq : page.answer.records =
    keptRecords skipRecords (page.records.map StoredRecord.decoded)
  inRange : ∀ r ∈ page.records, request.Wants r.decoded
  count_eq : page.answer.recordsCount = page.records.length
  bytes_eq : page.answer.recordsBytes = (storedBytes page.records).length
  min_eq : ∀ r ∈ page.records.head?,
    page.answer.minId = r.key.id ∧ page.answer.minTs = r.key.timestamp
  max_eq : ∀ r ∈ page.records.getLast?,
    page.answer.maxId = r.key.id ∧ page.answer.maxTs = r.key.timestamp
  sentinel : page.records = [] →
    page.answer.maxId = sentinelKey.id ∧ page.answer.maxTs = sentinelKey.timestamp

/-- The loop of `read` and the records sent by each node. -/
structure PageLog where
  read : PagedRead
  sent : Node → List StoredRecord

namespace PageLog

/-- Before the loop. -/
def init (input : ReadInput) (nextReqId : Nat) : PageLog where
  read := PagedRead.init input nextReqId
  sent := fun _ => []

/-- One turn of the loop. A page that makes it raise an error does not count as received. -/
def step (input : ReadInput) (s : PageLog) (page : SentPage) : Option PageLog :=
  match s.read.activeFutures[page.k]?, s.read.step input (page.k, page.answer) with
  | some fut, some read => some {
      read := read
      sent := fun n =>
        if read.raised = false ∧ n = fut.node then s.sent n ++ page.records else s.sent n }
  | _, _ => none

/-- The node that is asked answers as `background_query_cb` does. -/
def Served (skipRecords : Bool) (input : ReadInput) (s : PageLog) (page : SentPage) : Prop :=
  ∀ fut, s.read.activeFutures[page.k]? = some fut →
    IsSentPage skipRecords (fut.request input) (fut.reqId input) page

/-- A last page without records comes only behind a page that ends with the sentinel key. -/
def NotEmptied (s : PageLog) (page : SentPage) : Prop :=
  ∀ n reqId pageQuery, s.read.activeFutures[page.k]? = some (.page n reqId pageQuery) →
    page.answer.limitReached = false → page.records = [] →
      ∀ last ∈ (s.sent n).getLast?, last.key = sentinelKey

end PageLog

/-- The counters of a response and the begin of its range describe these records, and the response
has them unless they are to be left out. -/
structure Counts (skipRecords : Bool) (resp : ReadResult) (records : List StoredRecord) : Prop where
  records_eq : resp.records = keptRecords skipRecords (records.map StoredRecord.decoded)
  count_eq : resp.recordsCount = records.length
  bytes_eq : resp.recordsBytes = (storedBytes records).length
  min_eq : ∀ r ∈ records.head?, resp.minId = r.key.id ∧ resp.minTs = r.key.timestamp

/-- The end of the range of a response is the key of the last record. -/
def EndsAt (resp : ReadResult) (records : List StoredRecord) : Prop :=
  ∀ r ∈ records.getLast?, resp.maxId = r.key.id ∧ resp.maxTs = r.key.timestamp

/-- The header of a response describes these records. -/
structure HeaderMatches (skipRecords : Bool) (resp : ReadResult) (records : List StoredRecord) :
    Prop extends Counts skipRecords resp records where
  limit_eq : resp.limitReached = false
  ends : EndsAt resp records

section Page

variable {skipRecords : Bool} {resp : ReadResult} {records : List StoredRecord}
  {request : QueryRequest} {reqId : Nat} {page : SentPage}

theorem counts_of_sent (h : IsSentPage skipRecords request reqId page) :
    Counts skipRecords page.answer page.records :=
  ⟨h.records_eq, h.count_eq, h.bytes_eq, h.min_eq⟩

theorem keptRecords_append (skipRecords : Bool) (front behind : List Record) :
    keptRecords skipRecords (front ++ behind) =
      keptRecords skipRecords front ++ keptRecords skipRecords behind := by
  cases skipRecords <;> rfl

/-- A further page adds up. -/
theorem Counts.addPage (h : Counts skipRecords resp records) (hne : records ≠ [])
    (hpage : IsSentPage skipRecords request reqId page) :
    Counts skipRecords (addPage resp page.answer) (records ++ page.records) where
  records_eq := by
    rw [List.map_append, keptRecords_append, ← h.records_eq, ← hpage.records_eq]
    rfl
  count_eq := by
    rw [List.length_append, ← h.count_eq, ← hpage.count_eq]
    rfl
  bytes_eq := by
    rw [storedBytes, List.flatMap_append, List.length_append]
    exact congrArg₂ _ h.bytes_eq hpage.bytes_eq
  min_eq := by
    intro r hr
    refine h.min_eq r ?_
    cases records with
    | nil => exact absurd rfl hne
    | cons first records => exact hr

theorem Counts.settle (h : Counts skipRecords resp records) (query : QueryRequest) :
    Counts skipRecords (settle query resp) records := by
  unfold Client.settle
  split
  · exact h
  · exact ⟨h.records_eq, h.count_eq, h.bytes_eq, h.min_eq⟩

theorem endsAt_settle (query : QueryRequest) (resp : ReadResult) (records : List StoredRecord) :
    EndsAt (settle query resp) records ↔ EndsAt resp records := by
  unfold settle
  split <;> rfl

theorem settle_limitReached {query : QueryRequest} (h : (settle query resp).limitReached = true) :
    query.Unfinished resp := by
  by_contra hnot
  rw [settle_of_not hnot] at h
  cases h

end Page

/-! ## What the server sends -/

/-- The record as an iterator delivers it. -/
def StoredRecord.raw (r : StoredRecord) : KvRawRecord := ⟨r.key, r.bytes⟩

theorem fileBytes_raw (records : List StoredRecord) :
    fileBytes (records.map StoredRecord.raw) = storedBytes records := by
  rw [fileBytes, List.flatMap_map]
  rfl

section Server

variable {page : QueryPage} {records : List StoredRecord}
  (hholds : page.Holds (records.map StoredRecord.raw)) (hfits : page.Fits)

include hholds hfits

theorem isPageOf_self (reqId : UInt64) : IsPageOf (records.map StoredRecord.raw)
    (records.map StoredRecord.raw) True reqId (page.response reqId) :=
  isPageOf_response hholds hfits (List.prefix_refl _) (fun _ => rfl) fun _ => Or.inr trivial

/-- The dictionary for a page of the loop of `background_query_cb`. -/
theorem isSentPage_response {request : QueryRequest}
    (hrange : ∀ r ∈ records, request.Wants r.decoded) (skipRecords : Bool) (reqId : UInt64)
    (k : Nat) : IsSentPage skipRecords request reqId.toNat
      ⟨k, resultOf (page.response reqId)
        (keptRecords skipRecords (records.map StoredRecord.decoded)), records⟩ := by
  have hpage := isPageOf_self hholds hfits reqId
  refine ⟨rfl, rfl, hrange, ?_, ?_, ?_, ?_, ?_⟩
  · rw [← List.length_map StoredRecord.raw]
    exact hpage.recordsCount_eq
  · rw [← fileBytes_raw]
    exact hpage.recordsBytes_eq
  · intro r hr
    have hkey : (page.response reqId).minKey = r.key := hpage.minKey_eq r.raw (by
      rw [List.head?_map]
      exact Option.mem_map_of_mem _ hr)
    exact ⟨congrArg SlUint128.id hkey, congrArg SlUint128.timestamp hkey⟩
  · intro r hr
    have hkey : (page.response reqId).maxKey = r.key := hpage.maxKey_eq r.raw (by
      rw [List.getLast?_map]
      exact Option.mem_map_of_mem _ hr)
    exact ⟨congrArg SlUint128.id hkey, congrArg SlUint128.timestamp hkey⟩
  · intro hnil
    have hzero : page.recordsCount = 0 := by
      rw [hholds.count_eq, List.length_map, show records = [] from hnil]
      rfl
    have hkey : (page.response reqId).maxKey = sentinelKey := if_pos hzero
    exact ⟨congrArg SlUint128.id hkey, congrArg SlUint128.timestamp hkey⟩

/-- The client reads the response of a page as that dictionary. -/
theorem receiveResponse_page (skipRecords : Bool) (reqId : UInt64) :
    receiveResponse reqId.toNat skipRecords
        (setQueryResponseHeader (page.response reqId) ++ page.payload) =
      some (resultOf (page.response reqId)
        (keptRecords skipRecords (records.map StoredRecord.decoded)), []) := by
  have hpage := isPageOf_self hholds hfits reqId
  have hsize := hpage.totalMsgSize_eq
  have hcount := hpage.recordsCount_eq
  rw [fileBytes_raw] at hsize
  rw [List.length_map] at hcount
  have hreceived := receiveResponse_stored hsize hcount skipRecords []
  rwa [List.append_nil, ← fileBytes_raw, ← hholds.payload_eq] at hreceived

end Server

section Sent

variable {lsmt : LsmtState} {memtables : Nat → Sl} {task : QueryTask} {n : Nat}
  {delivered : List StoredRecord}
  (hdelivered : drain (liveNext memtables) n
    (0, lsmtIteratorSeek (memtables 0) (lsmtIteratorCreate lsmt) task.startKey task.endKey) =
      some (delivered.map StoredRecord.raw))
  (hsize : ∀ r ∈ delivered, r.data.length ≤ 255)

include hdelivered hsize

/-- The page that `background_query_cb` sends has the first of the records delivered. -/
theorem backgroundQueryCb_stored (clock : Nat → Nat) :
    ∃ (records : List StoredRecord) (page : QueryPage),
      backgroundQueryCb lsmt memtables clock task =
        some (setQueryResponseHeader (page.response task.reqId) ++ page.payload) ∧
      page.Holds (records.map StoredRecord.raw) ∧ page.Fits ∧ records <+: delivered := by
  have hsmall : ∀ r ∈ delivered.map StoredRecord.raw, r.totalSize ≤ 276 := by
    intro r hr
    obtain ⟨stored, hstored, rfl⟩ := List.mem_map.mp hr
    have hdata := hsize stored hstored
    show stored.bytes.length ≤ 276
    rw [StoredRecord.length_bytes]
    omega
  obtain ⟨P, page, hmsg, hholds, hfits, hinit, -, -⟩ := backgroundQueryCb_page hdelivered hsmall clock
  have hstored : (delivered.take P.length).map StoredRecord.raw = P := by
    rw [List.map_take]
    exact (List.prefix_iff_eq_take.mp hinit).symm
  exact ⟨delivered.take P.length, page, hmsg, hstored.symm ▸ hholds, hfits, List.take_prefix _ _⟩

/-- What `background_query_cb` answers to a query whose iterator delivers these records, next to any
writers and under any clock, is such a page. -/
theorem backgroundQueryCb_isSentPage {request : QueryRequest}
    (hrange : ∀ r ∈ delivered, request.Wants r.decoded) (skipRecords : Bool) (clock : Nat → Nat)
    (k : Nat) : ∃ msg page, backgroundQueryCb lsmt memtables clock task = some msg ∧
      receiveResponse task.reqId.toNat skipRecords msg = some (page.answer, []) ∧ page.k = k ∧
      IsSentPage skipRecords request task.reqId.toNat page := by
  obtain ⟨records, page, hmsg, hholds, hfits, hinto⟩ :=
    backgroundQueryCb_stored hdelivered hsize clock
  refine ⟨_, ⟨k, resultOf (page.response task.reqId)
      (keptRecords skipRecords (records.map StoredRecord.decoded)), records⟩, hmsg,
    receiveResponse_page hholds hfits skipRecords task.reqId, rfl, ?_⟩
  exact isSentPage_response hholds hfits (fun r hr => hrange r (hinto.subset hr)) skipRecords
    task.reqId k

end Sent

/-! ## The loop -/

theorem get_file (input : ReadInput) (s : PagedRead) (k : Nat) (n m : Node) (resp : ReadResult) :
    (s.file input k n resp).nodeToAccumulated.get m =
      if m = n then some (settle input.query resp) else s.nodeToAccumulated.get m := by
  unfold PagedRead.file settle
  split <;> exact Dict.get_set

namespace PageLog

variable {skipRecords : Bool} {input : ReadInput} {s s' : PageLog}

/-- Each node has one future until it is done. What is filed counts the records that were sent, and
while a page is asked for it ends with the last of them. -/
structure Inv (skipRecords : Bool) (s : PageLog) : Prop where
  nodup : (s.read.activeFutures.map ReadFuture.node).Nodup
  first : ∀ n, .first n ∈ s.read.activeFutures →
    s.read.nodeToAccumulated.get n = none ∧ s.sent n = []
  page : ∀ n reqId pageQuery, .page n reqId pageQuery ∈ s.read.activeFutures → ∃ resp,
    s.read.nodeToAccumulated.get n = some resp ∧ s.sent n ≠ [] ∧ EndsAt resp (s.sent n)
  counts : ∀ n resp, s.read.nodeToAccumulated.get n = some resp →
    Counts skipRecords resp (s.sent n)
  limit : ∀ n resp, s.read.nodeToAccumulated.get n = some resp → resp.limitReached = true →
    ∃ reqId pageQuery, .page n reqId pageQuery ∈ s.read.activeFutures

/-- Each response ends with the last record its node has sent. -/
def Ends (s : PageLog) : Prop :=
  ∀ n resp, s.read.nodeToAccumulated.get n = some resp → EndsAt resp (s.sent n)

theorem inv_init (hnodes : input.nodes.Nodup) (nextReqId : Nat) :
    (init input nextReqId).Inv skipRecords ∧ (init input nextReqId).Ends := by
  refine ⟨⟨?_, fun _ _ => ⟨rfl, rfl⟩, ?_, ?_, ?_⟩, ?_⟩
  · show ((input.nodes.map ReadFuture.first).map ReadFuture.node).Nodup
    rw [List.map_map]
    exact (List.map_id input.nodes).symm ▸ hnodes
  · intro n reqId pageQuery hmem
    obtain ⟨m, -, heq⟩ := List.mem_map.mp hmem
    cases heq
  · intro n resp hget
    cases hget
  · intro n resp hget
    cases hget
  · intro n resp hget
    cases hget

/-- Filing a response that counts what its node has sent. -/
theorem Inv.file (h : s.Inv skipRecords) {k : Nat} {fut : ReadFuture}
    (hk : s.read.activeFutures[k]? = some fut) {resp : ReadResult} {records : List StoredRecord}
    (hread : s'.read = s.read.file input k fut.node resp)
    (hsent : ∀ n, s'.sent n = if n = fut.node then records else s.sent n)
    (hcounts : Counts skipRecords resp records)
    (hcut : resp.limitReached = true → records ≠ [] ∧ EndsAt resp records) :
    s'.Inv skipRecords ∧ (s'.Ends ↔ EndsAt resp records ∧
      ∀ n, n ≠ fut.node → ∀ resp, s.read.nodeToAccumulated.get n = some resp →
        EndsAt resp (s.sent n)) := by
  have hget (n : Node) : s'.read.nodeToAccumulated.get n =
      if n = fut.node then some (settle input.query resp) else s.read.nodeToAccumulated.get n := by
    rw [hread, get_file]
  have hself : s'.sent fut.node = records := by rw [hsent, if_pos rfl]
  have hgetSelf : s'.read.nodeToAccumulated.get fut.node = some (settle input.query resp) := by
    rw [hget, if_pos rfl]
  refine ⟨⟨?_, ?_, ?_, ?_, ?_⟩, ?_⟩
  · rw [hread]
    exact PagedRead.nodup_file h.nodup hk resp
  · -- a first response that is due: its node is not the one that has answered
    intro n hmem
    rw [hread] at hmem
    rcases PagedRead.mem_activeFutures_file h.nodup hk hmem with ⟨hmem, hne⟩ | ⟨-, heq⟩
    · have hn : n ≠ fut.node := hne
      rw [hget, hsent, if_neg hn, if_neg hn]
      exact h.first n hmem
    · cases heq
  · -- a further page that is due: of another node, or the one this answer asks for
    intro n reqId pageQuery hmem
    rw [hread] at hmem
    rcases PagedRead.mem_activeFutures_file h.nodup hk hmem with ⟨hmem, hne⟩ | ⟨hunfinished, heq⟩
    · have hn : n ≠ fut.node := hne
      rw [hget, hsent, if_neg hn, if_neg hn]
      exact h.page n reqId pageQuery hmem
    · cases heq
      obtain ⟨hne, hends⟩ := hcut hunfinished.1
      refine ⟨_, hgetSelf, ?_, ?_⟩
      · rw [hself]
        exact hne
      · rw [hself, endsAt_settle]
        exact hends
  · -- the counts of this node are those of the filed response
    intro n other hother
    by_cases hn : n = fut.node
    · subst hn
      rw [hgetSelf] at hother
      cases hother
      rw [hself]
      exact hcounts.settle input.query
    · rw [hget, if_neg hn] at hother
      rw [hsent, if_neg hn]
      exact h.counts n other hother
  · -- a limit that is left stands for a page that has been asked for
    intro n other hother hlimit
    by_cases hn : n = fut.node
    · subst hn
      rw [hgetSelf] at hother
      cases hother
      have hunfinished := settle_limitReached hlimit
      refine ⟨s.read.nextReqId, input.query.next resp, ?_⟩
      rw [hread, PagedRead.activeFutures_file, if_pos hunfinished]
      exact List.mem_append_right _ (List.mem_singleton_self _)
    · rw [hget, if_neg hn] at hother
      obtain ⟨reqId, pageQuery, hmem⟩ := h.limit n other hother hlimit
      obtain ⟨before, behind, hsplit, herase, -⟩ := PagedRead.exists_split h.nodup hk
      refine ⟨reqId, pageQuery, ?_⟩
      rw [hread, PagedRead.activeFutures_file, herase]
      apply List.mem_append_left
      rw [hsplit] at hmem
      rcases List.mem_append.mp hmem with hmem | hmem
      · exact List.mem_append_left _ hmem
      · rcases List.mem_cons.mp hmem with heq | hmem
        · exact absurd (congrArg ReadFuture.node heq) hn
        · exact List.mem_append_right _ hmem
  · -- the last records: those of this node and those of the others are independent
    constructor
    · intro hends
      refine ⟨?_, fun n hn other hother => ?_⟩
      · have hself' := hends fut.node _ hgetSelf
        rwa [hself, endsAt_settle] at hself'
      · have hother' := hends n other (by rw [hget, if_neg hn]; exact hother)
        rwa [hsent, if_neg hn] at hother'
    · rintro ⟨hends, hothers⟩ n other hother
      by_cases hn : n = fut.node
      · subst hn
        rw [hgetSelf] at hother
        cases hother
        rw [hself, endsAt_settle]
        exact hends
      · rw [hget, if_neg hn] at hother
        rw [hsent, if_neg hn]
        exact hothers n hn other hother

/-- What one turn without an error does to the headers. -/
theorem Inv.step (h : s.Inv skipRecords) {page : SentPage}
    (hserved : s.Served skipRecords input page)
    (hraised : s'.read.raised = false) (hstep : s.step input page = some s') :
    s'.Inv skipRecords ∧ (s'.Ends ↔ s.Ends ∧ s.NotEmptied page) := by
  unfold PageLog.step at hstep
  cases hk : s.read.activeFutures[page.k]? with
  | none =>
    rw [hk] at hstep
    cases hstep
  | some fut =>
    have hpage := hserved fut hk
    have hmem := List.mem_of_getElem? hk
    -- an answer without records says so in its count
    have hempty (hzero : page.records = []) : page.answer.recordsCount = 0 := by
      rw [hpage.count_eq, hzero]
      rfl
    cases hread : s.read.step input (page.k, page.answer) with
    | none =>
      rw [hk, hread] at hstep
      cases hstep
    | some read =>
      rw [hk, hread] at hstep
      have heq := Option.some.inj hstep
      obtain rfl : read = s'.read := by rw [← heq]
      -- what the node has sent grows by the records of the page
      have hsent (n : Node) : s'.sent n =
          if n = fut.node then s.sent fut.node ++ page.records else s.sent n := by
        rw [← heq]
        by_cases hn : n = fut.node
        · rw [if_pos hn, hn]
          exact if_pos ⟨hraised, rfl⟩
        · rw [if_neg hn]
          exact if_neg fun hboth => hn hboth.2
      rcases PagedRead.step_of_not_raised hk hread hraised with
        ⟨n, rfl, hfile, hcut⟩ | ⟨n, reqId, pageQuery, resp, rfl, hget, hfile, hcut⟩
      · -- the first response
        obtain ⟨hnone, hnil⟩ := h.first n hmem
        have hrecords : s.sent n ++ page.records = page.records := by rw [hnil, List.nil_append]
        have hends : EndsAt page.answer (s.sent n ++ page.records) := by
          rw [hrecords]
          exact hpage.max_eq
        have hcounts : Counts skipRecords page.answer (s.sent n ++ page.records) := by
          rw [hrecords]
          exact counts_of_sent hpage
        obtain ⟨hinv, hiff⟩ := h.file hk hfile hsent hcounts fun hlimit =>
          ⟨fun hzero => hcut hlimit (hempty (List.append_eq_nil_iff.mp hzero).2), hends⟩
        refine ⟨hinv, hiff.trans ⟨fun hall => ⟨?_, ?_⟩, fun hall => ⟨hends, ?_⟩⟩⟩
        · intro m other hother
          by_cases hm : m = n
          · rw [hm, hnone] at hother
            cases hother
          · exact hall.2 m hm other hother
        · intro m reqId pageQuery hother
          rw [hk] at hother
          cases hother
        · exact fun m _ => hall.1 m
      · -- a further page
        obtain ⟨resp', hget', hne, hlast⟩ := h.page n reqId pageQuery hmem
        obtain rfl : resp = resp' := by simpa using hget.symm.trans hget'
        have hcounts := (h.counts n resp hget).addPage hne hpage
        have hends : EndsAt (addPage resp page.answer) (s.sent n ++ page.records) ↔
            s.NotEmptied page := by
          constructor
          · intro hends m reqId' pageQuery' hother hlimit hzero last hlastMem
            rw [hk] at hother
            cases hother
            rw [hzero, List.append_nil] at hends
            obtain ⟨hid, hts⟩ := hends last hlastMem
            obtain ⟨hid', hts'⟩ := hpage.sentinel hzero
            -- the last record is the one that the answer without records names
            exact SlUint128.ext (hid.symm.trans hid') (hts.symm.trans hts')
          · intro hkeeps r hr
            -- an empty page ends the node's answers, so what was last stays last
            by_cases hzero : page.records = []
            · have hlimit : page.answer.limitReached = false := by
                rw [← Bool.not_eq_true]
                exact fun hlimit => hcut hlimit (hempty hzero)
              rw [hzero, List.append_nil] at hr
              rw [hkeeps n reqId pageQuery hk hlimit hzero r hr]
              exact hpage.sentinel hzero
            · rw [List.getLast?_append_of_ne_nil _ hzero] at hr
              exact hpage.max_eq r hr
        obtain ⟨hinv, hiff⟩ := h.file hk hfile hsent hcounts fun hlimit => by
          -- a page behind which there is more has records of its own
          refine ⟨List.append_ne_nil_of_left_ne_nil hne _, hends.mpr ?_⟩
          intro _ _ _ _ hcomplete
          rw [show page.answer.limitReached = true from hlimit] at hcomplete
          cases hcomplete
        refine ⟨hinv, hiff.trans ⟨fun hall => ⟨?_, hends.mp hall.1⟩, fun hall =>
          ⟨hends.mpr hall.2, fun m _ => hall.1 m⟩⟩⟩
        intro m other hother
        by_cases hm : m = n
        · subst hm
          obtain rfl : resp = other := by simpa using hget.symm.trans hother
          exact hlast
        · exact hall.2 m hm other hother

/-- The loop goes on only behind a turn that has raised no error. -/
theorem not_raised_of_step {page : SentPage} (hstep : s.step input page = some s') :
    s.read.raised = false := by
  by_contra hraised
  rw [Bool.not_eq_false] at hraised
  unfold PageLog.step PagedRead.step at hstep
  rw [if_pos hraised] at hstep
  split at hstep
  · rename_i heq
    cases heq
  · cases hstep

end PageLog

/-- The response that `read` returns for a node describes the records the node has sent, in every
run and for all nodes, exactly when a page without records never follows another page that does not
end with the sentinel key. -/
theorem header_iff (skipRecords : Bool) {input : ReadInput} (hnodes : input.nodes.Nodup)
    (nextReqId : Nat) (pages : List SentPage) {s : PageLog}
    (hrun : run (PageLog.step input) (PageLog.init input nextReqId) pages = some s)
    (hserved : EachStep (PageLog.step input) (PageLog.Served skipRecords input)
      (PageLog.init input nextReqId) pages)
    (hraised : s.read.raised = false) (hdone : s.read.activeFutures = []) :
    (∀ n resp, s.read.nodeToAccumulated.get n = some resp →
      HeaderMatches skipRecords resp (s.sent n)) ↔
      EachStep (PageLog.step input) PageLog.NotEmptied (PageLog.init input nextReqId) pages := by
  obtain ⟨hinit, hends⟩ := PageLog.inv_init hnodes nextReqId
  have hgood := eachStep_of_final (P := fun t : PageLog => t.read.raised = false)
    (fun _ _ _ => PageLog.not_raised_of_step) hrun hraised
  obtain ⟨hinv, hiff⟩ := run_iff_eachStep (I := PageLog.Inv skipRecords) (P := PageLog.Ends)
    (R := fun s page => s.Served skipRecords input page ∧
      ∀ s', s.step input page = some s' → s'.read.raised = false)
    (fun t page t' ht hR hstep => ht.step hR.1 (hR.2 t' hstep) hstep) hinit
    (fun pre page post t hsplit hpre =>
      ⟨hserved pre page post t hsplit hpre, hgood pre page post t hsplit hpre⟩) hrun
  have hheader : (∀ n resp, s.read.nodeToAccumulated.get n = some resp →
      HeaderMatches skipRecords resp (s.sent n)) ↔ s.Ends := by
    refine ⟨fun hall n resp hget => (hall n resp hget).ends, fun hall n resp hget =>
      ⟨hinv.counts n resp hget, ?_, hall n resp hget⟩⟩
    rw [← Bool.not_eq_true]
    intro hlimit
    obtain ⟨reqId, pageQuery, hmem⟩ := hinv.limit n resp hget hlimit
    rw [hdone] at hmem
    cases hmem
  rw [hheader, hiff]
  exact ⟨And.right, fun h => ⟨hends, h⟩⟩

/-- A page with these records. -/
def pageWith (limitReached : Bool) (records : List StoredRecord) : QueryPage where
  payload := storedBytes records
  recordsCount := records.length
  limitReached := limitReached
  minKey := (records.head?.map StoredRecord.key).getD SlUint128.max
  maxKey := (records.getLast?.map StoredRecord.key).getD sentinelKey

/-- The answer to the request `reqId` of the only active future. -/
def sentPage (reqId : UInt64) (limitReached : Bool) (records : List StoredRecord) : SentPage :=
  ⟨0, resultOf ((pageWith limitReached records).response reqId)
    (keptRecords false (records.map StoredRecord.decoded)), records⟩

theorem isSentPage_one {request : QueryRequest} (reqId : UInt64) (limitReached : Bool)
    {r : StoredRecord} (hsize : r.bytes.length ≤ queryBytesLimit)
    (hrange : request.Wants r.decoded) :
    IsSentPage false request reqId.toNat (sentPage reqId limitReached [r]) := by
  refine isSentPage_response ⟨?_, rfl, ?_, ?_⟩ ⟨?_, ?_, ?_⟩ (List.forall_mem_singleton.mpr hrange)
    false reqId 0
  · rw [fileBytes_raw]
    rfl
  · intro _ hr
    cases hr
    rfl
  · intro _ hr
    cases hr
    rfl
  · simpa [pageWith, storedBytes] using hsize
  · simp [pageWith, storedBytes]
    omega
  · intro h
    cases h

theorem isSentPage_none (request : QueryRequest) (reqId : UInt64) :
    IsSentPage false request reqId.toNat (sentPage reqId false []) := by
  refine isSentPage_response ⟨rfl, rfl, ?_, ?_⟩ ⟨Nat.zero_le _, le_refl _, fun _ => rfl⟩
    (List.forall_mem_nil _) false reqId 0
  · rintro _ hr
    cases hr
  · rintro _ hr
    cases hr

/-- A record of the id 5. -/
def recordFive : StoredRecord := ⟨⟨5, 6⟩, 2, [3], by decide⟩

/-- A record of the id 7. -/
def recordSeven : StoredRecord := ⟨⟨7, 0⟩, 2, [4], by decide⟩

/-- The first page is cut behind its record and the second one is complete. -/
def cutThen (records : List StoredRecord) : List SentPage :=
  [sentPage 0 true [recordFive], sentPage 1 false records]

theorem served_cutThen {records : List StoredRecord}
    (h : IsSentPage false ⟨6, 0, 9, 0, 7⟩ 1 (sentPage 1 false records)) :
    EachStep (PageLog.step oneNodeRead) (PageLog.Served false oneNodeRead)
      (PageLog.init oneNodeRead 1) (cutThen records) := by
  refine eachStep_cons.mpr ⟨?_, fun t ht => ?_⟩
  · intro fut hfut
    cases hfut
    exact isSentPage_one 0 true (by decide) (by decide)
  cases ht
  refine eachStep_cons.mpr ⟨?_, fun t _ => eachStep_nil _ _ _⟩
  intro fut hfut
  cases hfut
  exact h

/-- Two pages with one record each: the header is that of the records collected. -/
theorem header_iff_two : ∃ s, run (PageLog.step oneNodeRead) (PageLog.init oneNodeRead 1)
      (cutThen [recordSeven]) = some s ∧
    ∀ n resp, s.read.nodeToAccumulated.get n = some resp →
      HeaderMatches false resp (s.sent n) := by
  have hserved := @served_cutThen [recordSeven]
    (isSentPage_one 1 false (by decide) (by decide))
  refine ⟨_, rfl, (header_iff false (by decide) 1 (cutThen [recordSeven]) rfl hserved rfl rfl).mpr ?_⟩
  -- neither of the two pages is without records
  refine eachStep_cons.mpr ⟨?_, fun t _ => eachStep_cons.mpr ⟨?_, fun t _ => eachStep_nil _ _ _⟩⟩
  · intro n reqId pageQuery hfuture
    cases hfuture
  · intro n reqId pageQuery _ _ hnone
    cases hnone

/-- The second page has no record: the response takes its sentinel `max_key`. -/
theorem not_header : ¬ ∀ (skipRecords : Bool) (input : ReadInput) (nextReqId : Nat)
    (pages : List SentPage) (s : PageLog), input.nodes.Nodup →
    run (PageLog.step input) (PageLog.init input nextReqId) pages = some s →
    EachStep (PageLog.step input) (PageLog.Served skipRecords input) (PageLog.init input nextReqId)
      pages →
    s.read.raised = false → s.read.activeFutures = [] →
    ∀ n resp, s.read.nodeToAccumulated.get n = some resp →
      HeaderMatches skipRecords resp (s.sent n) := by
  intro hclaim
  have hmatches := hclaim false oneNodeRead 1 (cutThen []) _ (by decide) rfl
    (served_cutThen (isSentPage_none _ 1)) rfl rfl ⟨"c", 1, "h", 1⟩ _ rfl
  have hmax := (hmatches.ends recordFive rfl).1
  revert hmax
  decide

end RaftLsmt.Client
