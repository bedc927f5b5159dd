import RaftLsmt.Lsmt.Scan

/-!
# Answering a range query

`background_query_cb` drains an iterator over the range of a request into a response buffer of fixed
size. It stops at a byte limit, at a time limit, or when the range is exhausted. Other threads may
insert into the memtable that the iterator reads while it runs: the call with number `k` of
`lsmt_iterator_next` sees the memtable `memtables k`.

The copy of a record into the buffer is not checked against its capacity. `queryLoop_spec` says when
it cannot leave the buffer: no record of the range is larger than the byte limit.
-/

set_option autoImplicit false

namespace RaftLsmt.Server

open RaftLsmt.Lib.ByteCodec
open RaftLsmt.Lsmt

universe u

/-- `QUERY_BYTES_LIMIT`. -/
def queryBytesLimit : Nat := 512 * 1024

/-- `QUERY_BUDGET_NS`. -/
def queryBudgetNs : Nat := 30 * 1000 * 1000

/-- A request that has waited longer is answered without a search. -/
def queryIdleNs : Nat := 32000000000

/-- `Q_RESP_HEADER_SIZE`. -/
def qRespHeaderSize : Nat := 8 + 8 + 1 + 16 + 16 + 8 + 4

/-- `max_buffer_cap`. -/
def maxBufferCap : Nat := qRespHeaderSize + queryBytesLimit + 4096

/-- `query_task_t`. -/
structure QueryTask where
  reqId : UInt64
  startKey : SlUint128
  endKey : SlUint128
  tStartNs : Nat

/-- `query_response_t`. -/
structure QueryResponse where
  limitReached : Bool
  recordsCount : UInt32
  reqId : UInt64
  totalMsgSize : UInt64
  recordsBytes : UInt64
  minKey : SlUint128
  maxKey : SlUint128

/-- `set_query_response_header`. -/
def setQueryResponseHeader (response : QueryResponse) : Bytes :=
  leBytes 8 response.totalMsgSize.toNat ++ (leBytes 8 response.reqId.toNat ++
    ((if response.limitReached then 1 else 0) :: (keyBytes response.minKey ++
      (keyBytes response.maxKey ++
        (leBytes 8 response.recordsBytes.toNat ++ leBytes 4 response.recordsCount.toNat)))))

@[simp]
theorem length_setQueryResponseHeader (response : QueryResponse) :
    (setQueryResponseHeader response).length = qRespHeaderSize := by
  simp [setQueryResponseHeader, qRespHeaderSize]

/-- The variables of the loop; `payload` is what has been copied behind the header, and
`records_bytes` is its length. -/
structure QueryPage where
  payload : Bytes
  recordsCount : Nat
  limitReached : Bool
  minKey : SlUint128
  maxKey : SlUint128

/-- The variables before the first turn. -/
def QueryPage.empty : QueryPage where
  payload := []
  recordsCount := 0
  limitReached := false
  minKey := SlUint128.max
  maxKey := ⟨1, 0⟩

/-- One record more. -/
def QueryPage.add (page : QueryPage) (record : KvRawRecord) : QueryPage where
  payload := page.payload ++ record.rawData
  recordsCount := page.recordsCount + 1
  limitReached := page.limitReached ||
    decide (page.payload.length + record.totalSize > queryBytesLimit)
  minKey := if page.recordsCount = 0 then record.key else page.minKey
  maxKey := record.key

section Loop

variable {σ : Type u} (next : σ → Option (Option KvRawRecord × σ)) (clock : Nat → Nat)

/-- The loop of `background_query_cb`, with `fuel` more turns. `clock n` is what `uv_hrtime` returns
in the turn that has `n` records. `none` when the process stops or a copy leaves a buffer. -/
def queryLoop (deadline : Nat) : Nat → σ → QueryPage → Option QueryPage
  | 0, _, _ => none
  | fuel + 1, it, page =>
    if page.recordsCount > 0 ∧ clock page.recordsCount > deadline then
      some { page with limitReached := true }
    else
      match next it with
      | none => none
      | some (none, _) => some page
      | some (some record, it) =>
        if page.payload.length + record.totalSize > queryBytesLimit ∧ page.recordsCount > 0 then
          some { page with limitReached := true }
        else if qRespHeaderSize + page.payload.length + record.totalSize > maxBufferCap then none
        else queryLoop deadline fuel it (page.add record)

end Loop

/-- The header for a page. A page without records has the sentinel keys. -/
def QueryPage.response (page : QueryPage) (reqId : UInt64) : QueryResponse where
  limitReached := page.limitReached
  recordsCount := UInt32.ofNat page.recordsCount
  reqId := reqId
  totalMsgSize := UInt64.ofNat (qRespHeaderSize + page.payload.length)
  recordsBytes := UInt64.ofNat page.payload.length
  minKey := if page.recordsCount = 0 then QueryPage.empty.minKey else page.minKey
  maxKey := if page.recordsCount = 0 then QueryPage.empty.maxKey else page.maxKey

/-- `lsmt_iterator_next` on the iterator of a query, next to the writers. -/
def liveNext (memtables : Nat → Sl) (it : Nat × LsmtIterator) :
    Option (Option KvRawRecord × Nat × LsmtIterator) :=
  (lsmtIteratorNext (memtables it.1) it.2).map fun answer => (answer.1, it.1 + 1, answer.2)

/-- More turns than records of one byte fit below the limit. -/
def queryFuel : Nat := queryBytesLimit + 3

/-- `background_query_cb`: the bytes of the response message. `clock 0` is the time at its start. -/
def backgroundQueryCb (lsmt : LsmtState) (memtables : Nat → Sl) (clock : Nat → Nat)
    (task : QueryTask) : Option Bytes :=
  let it := lsmtIteratorCreate lsmt
  let page :=
    if (clock 0 + 2 ^ 64 - task.tStartNs) % 2 ^ 64 > queryIdleNs then
      some { QueryPage.empty with limitReached := true }
    else
      queryLoop (liveNext memtables) clock ((clock 0 + queryBudgetNs) % 2 ^ 64) queryFuel
        (0, lsmtIteratorSeek (memtables 0) it task.startKey task.endKey) QueryPage.empty
  page.map fun page => setQueryResponseHeader (page.response task.reqId) ++ page.payload

/-! ## The response buffer -/

/-- The copied bytes stay below the limit, and there are at least as many as records. -/
structure QueryPage.Fits (page : QueryPage) : Prop where
  payload_le : page.payload.length ≤ queryBytesLimit
  count_le : page.recordsCount ≤ page.payload.length
  nil_of_zero : page.recordsCount = 0 → page.payload = []

@[simp]
theorem QueryPage.recordsCount_add (page : QueryPage) (record : KvRawRecord) :
    (page.add record).recordsCount = page.recordsCount + 1 := rfl

@[simp]
theorem QueryPage.length_payload_add (page : QueryPage) (record : KvRawRecord) :
    (page.add record).payload.length = page.payload.length + record.totalSize :=
  List.length_append

theorem QueryPage.fits_empty : QueryPage.empty.Fits where
  payload_le := Nat.zero_le _
  count_le := le_refl _
  nil_of_zero _ := rfl

/-- A record that is not refused fits below the limit: the first one by itself, a later one because
it has been checked. -/
theorem QueryPage.Fits.room {page : QueryPage} (h : page.Fits) {record : KvRawRecord}
    (hle : record.totalSize ≤ queryBytesLimit)
    (hfull : ¬ (page.payload.length + record.totalSize > queryBytesLimit ∧
      page.recordsCount > 0)) : page.payload.length + record.totalSize ≤ queryBytesLimit := by
  by_cases hzero : page.recordsCount = 0
  · rw [h.nil_of_zero hzero, List.length_nil]
    omega
  · by_contra hover
    exact hfull ⟨by omega, by omega⟩

/-- Below the limit there is room in the buffer. -/
theorem capacity_of_room {used size : Nat} (h : used + size ≤ queryBytesLimit) :
    qRespHeaderSize + used + size ≤ maxBufferCap := by
  unfold maxBufferCap
  omega

theorem QueryPage.Fits.add {page : QueryPage} (h : page.Fits) {record : KvRawRecord}
    (hpos : 0 < record.totalSize)
    (hroom : page.payload.length + record.totalSize ≤ queryBytesLimit) :
    (page.add record).Fits := by
  have hcount := h.count_le
  refine ⟨?_, ?_, fun hzero => ?_⟩
  · rw [QueryPage.length_payload_add]
    exact hroom
  · rw [QueryPage.length_payload_add, QueryPage.recordsCount_add]
    omega
  · rw [QueryPage.recordsCount_add] at hzero
    omega

/-- A source all of whose records have at least one byte and at most `queryBytesLimit` never makes
the loop leave the buffer, and the loop ends. -/
theorem queryLoop_spec {σ : Type u} {next : σ → Option (Option KvRawRecord × σ)} {I : σ → Prop}
    (hnext : ∀ it, I it → ∃ answer, next it = some answer ∧
      ∀ record ∈ answer.1, 0 < record.totalSize ∧ record.totalSize ≤ queryBytesLimit ∧ I answer.2)
    (clock : Nat → Nat) (deadline fuel : Nat) {it : σ} (hit : I it) {page : QueryPage}
    (hpage : page.Fits) (hfuel : queryBytesLimit + 1 < page.recordsCount + fuel) :
    ∃ page', queryLoop next clock deadline fuel it page = some page' ∧ page'.Fits := by
  induction fuel generalizing it page with
  | zero =>
    have := hpage.payload_le
    have := hpage.count_le
    omega
  | succ fuel ih =>
    have hlimited : QueryPage.Fits { page with limitReached := true } :=
      ⟨hpage.payload_le, hpage.count_le, hpage.nil_of_zero⟩
    rw [queryLoop]
    by_cases hlate : page.recordsCount > 0 ∧ clock page.recordsCount > deadline
    · rw [if_pos hlate]
      exact ⟨_, rfl, hlimited⟩
    · rw [if_neg hlate]
      obtain ⟨⟨rec, it'⟩, hanswer, hsmall⟩ := hnext it hit
      rw [hanswer]
      cases rec with
      | none => exact ⟨page, rfl, hpage⟩
      | some record =>
        obtain ⟨hpos, hle, hit'⟩ := hsmall record rfl
        simp only
        by_cases hfull : page.payload.length + record.totalSize > queryBytesLimit ∧
            page.recordsCount > 0
        · rw [if_pos hfull]
          exact ⟨_, rfl, hlimited⟩
        · have hroom := hpage.room hle hfull
          rw [if_neg hfull, if_neg (not_lt.mpr (capacity_of_room hroom))]
          refine ih hit' (hpage.add hpos hroom) ?_
          rw [QueryPage.recordsCount_add]
          omega

end RaftLsmt.Server
