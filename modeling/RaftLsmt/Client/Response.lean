import RaftLsmt.Server.Query

/-!
# Reading a query response

The client's half of the query protocol: `_query_single_node` reads 61 bytes and unpacks them as the
response header, reads the body whose size the header gives, and `_parse_response` takes the body
apart into records. `struct.unpack` and `struct.unpack_from` raise an error on a buffer of the wrong
size, here `none`; a slice never does.

`response_round_trip` says that the client gets back what `set_query_response_header` and the copied
records encode, and that a truncated body gives a prefix of the records without any read behind its
end.
-/

set_option autoImplicit false

namespace RaftLsmt.Client

open RaftLsmt.Lib.ByteCodec
open RaftLsmt.Lsmt
open RaftLsmt.Server

/-- The content of a `Record`: an integer or bytes. -/
inductive Content where
  | int (value : UInt64)
  | raw (bytes : Bytes)
  deriving DecidableEq

/-- `Record`. -/
structure Record where
  keyId : UInt64
  timestamp : UInt64
  content : Content
  deriving DecidableEq

/-- `LSMT_TYPE_INT`. -/
def lsmtTypeInt : UInt8 := 1

/-- `QUERY_RESP_HEADER_SIZE`. -/
def queryRespHeaderSize : Nat := 61

/-- What `struct.unpack(QUERY_RESP_HEADER_FMT, ..)` returns. -/
structure RespHeader where
  totalSize : Nat
  reqId : Nat
  limitReached : UInt8
  minKeyRaw : Bytes
  maxKeyRaw : Bytes
  recordsBytes : Nat
  recordsCount : Nat

/-- `struct.unpack(QUERY_RESP_HEADER_FMT, header_data)`. -/
def unpackRespHeader (headerData : Bytes) : Option RespHeader :=
  if headerData.length = queryRespHeaderSize then
    some {
      totalSize := leNat (headerData.take 8)
      reqId := leNat ((headerData.drop 8).take 8)
      limitReached := (headerData.drop 16).headD 0
      minKeyRaw := (headerData.drop 17).take 16
      maxKeyRaw := (headerData.drop 33).take 16
      recordsBytes := leNat ((headerData.drop 49).take 8)
      recordsCount := leNat ((headerData.drop 57).take 4) }
  else none

/-- `struct.unpack_from` of a field of `n` bytes. -/
def unpackFrom (n : Nat) (buffer : Bytes) (offset : Nat) : Option Bytes :=
  if offset + n ≤ buffer.length then some ((buffer.drop offset).take n) else none

/-- The content of a record. -/
def parseContent (recType : UInt8) (contentRaw : Bytes) : Content :=
  if recType = lsmtTypeInt ∧ contentRaw.length = 8 then .int (UInt64.ofNat (leNat contentRaw))
  else .raw contentRaw

/-- The loop of `_parse_response`. -/
def parseLoop (bodyData : Bytes) : Nat → Nat → Option (List Record)
  | 0, _ => some []
  | n + 1, offset =>
    if offset + 21 > bodyData.length then some []
    else do
      let keyId ← unpackFrom 8 bodyData offset
      let timestamp ← unpackFrom 8 bodyData (offset + 8)
      let recType ← unpackFrom 1 bodyData (offset + 16)
      let contentSize ← unpackFrom 4 bodyData (offset + 17)
      let size := leNat contentSize
      if offset + 21 + size > bodyData.length then some []
      else do
        let contentRaw := (bodyData.drop (offset + 21)).take size
        let records ← parseLoop bodyData n (offset + 21 + size)
        some (⟨UInt64.ofNat (leNat keyId), UInt64.ofNat (leNat timestamp),
          parseContent (recType.headD 0) contentRaw⟩ :: records)

/-- The dictionary `_parse_response` returns. -/
structure ReadResult where
  reqId : Nat
  limitReached : Bool
  minId : UInt64
  minTs : UInt64
  maxId : UInt64
  maxTs : UInt64
  recordsBytes : Nat
  recordsCount : Nat
  records : List Record

/-- `result["records"]`. -/
def parseRecords (recordsCount : Nat) (bodyData : Bytes) (skipRecords : Bool) :
    Option (List Record) :=
  if skipRecords = false ∧ bodyData ≠ [] ∧ recordsCount > 0 then parseLoop bodyData recordsCount 0
  else some []

/-- `_parse_response` on an unpacked header. -/
def parseResponse (header : RespHeader) (bodyData : Bytes) (skipRecords : Bool) :
    Option ReadResult :=
  let minKey := keyOfBytes header.minKeyRaw
  let maxKey := keyOfBytes header.maxKeyRaw
  (parseRecords header.recordsCount bodyData skipRecords).map fun records => {
    reqId := header.reqId
    limitReached := header.limitReached ≠ 0
    minId := minKey.id
    minTs := minKey.timestamp
    maxId := maxKey.id
    maxTs := maxKey.timestamp
    recordsBytes := header.recordsBytes
    recordsCount := header.recordsCount
    records := records }

/-- `_recv_exact` on the bytes that arrive before the connection ends. -/
def recvExact (n : Nat) (stream : Bytes) : Option (Bytes × Bytes) :=
  if n ≤ stream.length then some (stream.take n, stream.drop n) else none

/-- What `_query_single_node` does with the bytes that arrive; `none` when it gives this node up. -/
def receiveResponse (actualReqId : Nat) (skipRecords : Bool) (stream : Bytes) :
    Option (ReadResult × Bytes) := do
  let (headerData, stream) ← recvExact queryRespHeaderSize stream
  let header ← unpackRespHeader headerData
  if header.reqId ≠ actualReqId then none
  else do
    let bodySize := header.totalSize - queryRespHeaderSize
    let (bodyData, stream) ←
      (if bodySize > 0 then recvExact bodySize stream else some ([], stream))
    let result ← parseResponse header bodyData skipRecords
    some (result, stream)

/-! ## The header -/

section Header

variable (response : QueryResponse)

/-- What the client unpacks from the header of a response. -/
def headerOf : RespHeader where
  totalSize := response.totalMsgSize.toNat
  reqId := response.reqId.toNat
  limitReached := if response.limitReached then 1 else 0
  minKeyRaw := keyBytes response.minKey
  maxKeyRaw := keyBytes response.maxKey
  recordsBytes := response.recordsBytes.toNat
  recordsCount := response.recordsCount.toNat

/-- The client unpacks from the header of a response what the server put there. -/
theorem unpackRespHeader_setQueryResponseHeader :
    unpackRespHeader (setQueryResponseHeader response) = some (headerOf response) := by
  have htotal := response.totalMsgSize.toNat_lt
  have hreq := response.reqId.toNat_lt
  have hbytes := response.recordsBytes.toNat_lt
  have hcount := response.recordsCount.toNat_lt
  have hlength : (setQueryResponseHeader response).length = queryRespHeaderSize :=
    length_setQueryResponseHeader response
  unfold unpackRespHeader
  rw [if_pos hlength]
  -- each field of 61 bytes is cut out at its offset; the numbers are then read back
  have hfields : (setQueryResponseHeader response).take 8 = leBytes 8 response.totalMsgSize.toNat ∧
      ((setQueryResponseHeader response).drop 8).take 8 = leBytes 8 response.reqId.toNat ∧
      ((setQueryResponseHeader response).drop 16).headD 0 =
        (if response.limitReached then 1 else 0) ∧
      ((setQueryResponseHeader response).drop 17).take 16 = keyBytes response.minKey ∧
      ((setQueryResponseHeader response).drop 33).take 16 = keyBytes response.maxKey ∧
      ((setQueryResponseHeader response).drop 49).take 8 =
        leBytes 8 response.recordsBytes.toNat ∧
      ((setQueryResponseHeader response).drop 57).take 4 =
        leBytes 4 response.recordsCount.toNat := by
    simp [setQueryResponseHeader, List.drop_append, List.drop_eq_nil_of_le,
      List.take_of_length_le]
  obtain ⟨h1, h2, h3, h4, h5, h6, h7⟩ := hfields
  rw [h1, h2, h3, h4, h5, h6, h7, leNat_leBytes (by omega), leNat_leBytes (by omega),
    leNat_leBytes (by omega), leNat_leBytes (by omega)]
  rfl

end Header

/-! ## The records -/

/-- A stored record `[key 16 | type 1 | length 4 | data]`. -/
structure StoredRecord where
  key : SlUint128
  type : UInt8
  data : Bytes
  /-- The length word holds the number of data bytes. -/
  fits : data.length < 2 ^ 32

namespace StoredRecord

/-- The bytes of a record. -/
def bytes (r : StoredRecord) : Bytes := keyBytes r.key ++ encodeData r.type r.data

/-- The record that a client makes of it. -/
def decoded (r : StoredRecord) : Record := ⟨r.key.id, r.key.timestamp, parseContent r.type r.data⟩

@[simp]
theorem length_bytes (r : StoredRecord) : r.bytes.length = 21 + r.data.length := by
  simp only [bytes, encodeData, List.cons_append, List.length_append, List.length_cons,
    length_keyBytes, length_leBytes]
  omega

end StoredRecord

/-- The body of a response. -/
def storedBytes (rs : List StoredRecord) : Bytes := rs.flatMap StoredRecord.bytes

theorem storedBytes_cons (r : StoredRecord) (rs : List StoredRecord) :
    storedBytes (r :: rs) = r.bytes ++ storedBytes rs := rfl

theorem unpackFrom_front (n : Nat) (front body : Bytes) (offset : Nat) :
    unpackFrom n (front ++ body) (front.length + offset) = unpackFrom n body offset := by
  have hlen : front.length + offset + n ≤ (front ++ body).length ↔ offset + n ≤ body.length := by
    rw [List.length_append]
    omega
  simp only [unpackFrom, hlen, List.drop_append]
  rw [List.drop_eq_nil_of_le (by omega), List.nil_append]
  simp

/-- The loop reads only what stands behind its offset. -/
theorem parseLoop_front (front body : Bytes) (n offset : Nat) :
    parseLoop (front ++ body) n (front.length + offset) = parseLoop body n offset := by
  induction n generalizing offset with
  | zero => rfl
  | succ n ih =>
    have hlen (k : Nat) : front.length + k > (front ++ body).length ↔ k > body.length := by
      rw [List.length_append]
      omega
    have hdrop (k : Nat) : (front ++ body).drop (front.length + k) = body.drop k := by
      rw [List.drop_append, List.drop_eq_nil_of_le (by omega), List.nil_append]
      congr 1
      omega
    simp only [parseLoop, Nat.add_assoc, hlen, hdrop, unpackFrom_front, ih]

/-- A body that is cut inside its first record gives no record. -/
theorem parseLoop_cut (r : StoredRecord) {body : Bytes} (hbody : body <+: r.bytes)
    (hcut : body.length < r.bytes.length) (n : Nat) : parseLoop body n 0 = some [] := by
  cases n with
  | zero => rfl
  | succ n =>
    unfold parseLoop
    by_cases hheader : 0 + 21 > body.length
    · rw [if_pos hheader]
    · -- the header is complete: its length word asks for more than there is
      rw [if_neg hheader]
      have htake (a b : Nat) (hab : a + b ≤ 21) :
          (body.drop a).take b = (r.bytes.drop a).take b := by
        obtain ⟨rest, hrest⟩ := hbody
        rw [← hrest, List.drop_append_of_le_length (by omega), List.take_append_of_le_length]
        rw [List.length_drop]
        omega
      have hsize : leNat ((body.drop 17).take 4) = r.data.length := by
        rw [htake 17 4 (by omega), StoredRecord.bytes, drop_seventeen_keyBytes_append]
        exact contentLen_encodeData r.type r.fits
      have hlong : 0 + 21 + r.data.length > body.length := by
        rw [StoredRecord.length_bytes] at hcut
        omega
      have hunpack (n offset : Nat) (h : offset + n ≤ 21) :
          unpackFrom n body offset = some ((body.drop offset).take n) :=
        if_pos (by omega)
      rw [hunpack 8 0 (by omega), hunpack 8 (0 + 8) (by omega), hunpack 1 (0 + 16) (by omega),
        hunpack 4 (0 + 17) (by omega)]
      simp only [Option.bind_eq_bind, Option.bind_some, Nat.zero_add, hsize] at hlong ⊢
      rw [if_pos hlong]

/-- A complete record in front of the body is decoded, and the loop goes on behind it. -/
theorem parseLoop_record (r : StoredRecord) (body : Bytes) (n : Nat) :
    parseLoop (r.bytes ++ body) (n + 1) 0 =
      (parseLoop body n 0).map fun records => r.decoded :: records := by
  have hid := r.key.id.toNat_lt
  have hts := r.key.timestamp.toNat_lt
  have hlen : (r.bytes ++ body).length = 21 + r.data.length + body.length := by
    rw [List.length_append, StoredRecord.length_bytes]
  have hunpack (n offset : Nat) (h : offset + n ≤ 21) :
      unpackFrom n (r.bytes ++ body) offset = some ((r.bytes.drop offset).take n) := by
    unfold unpackFrom
    rw [if_pos (by omega), List.drop_append_of_le_length (by simp; omega),
      List.take_append_of_le_length (by simp; omega)]
  have hkey : r.bytes.take 8 = leBytes 8 r.key.id.toNat := by
    simp [StoredRecord.bytes, keyBytes]
  have htimestamp : (r.bytes.drop 8).take 8 = leBytes 8 r.key.timestamp.toNat := by
    simp [StoredRecord.bytes, keyBytes]
  have htype : (r.bytes.drop 16).take 1 = [r.type] := by
    simp [StoredRecord.bytes, encodeData]
  have hsize : leNat ((r.bytes.drop 17).take 4) = r.data.length := by
    rw [StoredRecord.bytes, drop_seventeen_keyBytes_append]
    exact contentLen_encodeData r.type r.fits
  have hdata : (r.bytes ++ body).drop 21 = r.data ++ body := by
    simp [StoredRecord.bytes, encodeData, List.drop_append]
  have hnext : parseLoop (r.bytes ++ body) n (21 + r.data.length) = parseLoop body n 0 := by
    rw [← StoredRecord.length_bytes r]
    exact parseLoop_front r.bytes body n 0
  rw [parseLoop, if_neg (by omega), hunpack 8 0 (by omega), hunpack 8 (0 + 8) (by omega),
    hunpack 1 (0 + 16) (by omega), hunpack 4 (0 + 17) (by omega)]
  simp only [Option.bind_eq_bind, Option.bind_some, Nat.zero_add, hsize, hkey, htimestamp, htype,
    hdata, hnext, List.drop_zero]
  rw [if_neg (by omega), leNat_leBytes (by omega), leNat_leBytes (by omega)]
  simp only [List.headD_cons, List.take_left, UInt64.ofNat_toNat]
  cases parseLoop body n 0 with
  | none => rfl
  | some records => rfl

/-- A truncated body gives the records in front of the cut. -/
theorem parseLoop_take (rs : List StoredRecord) (k n : Nat) :
    ∃ records, parseLoop ((storedBytes rs).take k) n 0 = some records ∧
      records <+: rs.map StoredRecord.decoded := by
  induction rs generalizing k n with
  | nil =>
    refine ⟨[], ?_, List.nil_prefix⟩
    cases n with
    | zero => rfl
    | succ n => simp [storedBytes, parseLoop]
  | cons r rs ih =>
    rw [storedBytes_cons]
    by_cases hcut : k < r.bytes.length
    · refine ⟨[], ?_, List.nil_prefix⟩
      rw [List.take_append_of_le_length (by omega)]
      exact parseLoop_cut r (List.take_prefix _ _) (by rw [List.length_take]; omega) n
    · cases n with
      | zero => exact ⟨[], rfl, List.nil_prefix⟩
      | succ n =>
        obtain ⟨records, hrecords, hinit⟩ := ih (k - r.bytes.length) n
        refine ⟨r.decoded :: records, ?_, ?_⟩
        · rw [List.take_append, List.take_of_length_le (by omega), parseLoop_record, hrecords]
          rfl
        · rw [List.map_cons]
          exact List.prefix_cons_inj _ |>.mpr hinit

/-- A complete body gives all records. -/
theorem parseLoop_storedBytes (rs : List StoredRecord) :
    parseLoop (storedBytes rs) rs.length 0 = some (rs.map StoredRecord.decoded) := by
  induction rs with
  | nil => rfl
  | cons r rs ih =>
    rw [storedBytes_cons, List.length_cons, parseLoop_record, ih]
    rfl

/-! ## The round trip -/

/-- The dictionary for a header and the records decoded from its body. -/
def resultOf (response : QueryResponse) (records : List Record) : ReadResult where
  reqId := response.reqId.toNat
  limitReached := response.limitReached
  minId := response.minKey.id
  minTs := response.minKey.timestamp
  maxId := response.maxKey.id
  maxTs := response.maxKey.timestamp
  recordsBytes := response.recordsBytes.toNat
  recordsCount := response.recordsCount.toNat
  records := records

/-- The records of the dictionary, with the flag to leave them out. -/
def keptRecords (skipRecords : Bool) (records : List Record) : List Record :=
  if skipRecords then [] else records

theorem parseRecords_eq {recordsCount : Nat} {bodyData : Bytes} {records : List Record}
    (hrecords : parseLoop bodyData recordsCount 0 = some records)
    (hempty : bodyData = [] → records = []) (skipRecords : Bool) :
    parseRecords recordsCount bodyData skipRecords = some (keptRecords skipRecords records) := by
  unfold parseRecords
  cases skipRecords with
  | true => exact if_neg fun h => Bool.noConfusion h.1
  | false =>
    by_cases hbody : bodyData = []
    · rw [if_neg (fun h => h.2.1 hbody), hempty hbody]
      rfl
    · by_cases hcount : recordsCount > 0
      · rw [if_pos ⟨rfl, hbody, hcount⟩]
        exact hrecords
      · rw [if_neg (fun h => hcount h.2.2)]
        rw [Nat.eq_zero_of_not_pos hcount] at hrecords
        exact hrecords

/-- The dictionary has the fields of the header, whatever the body. -/
theorem parseResponse_headerOf (response : QueryResponse) {bodyData : Bytes} {records : List Record}
    (hrecords : parseLoop bodyData response.recordsCount.toNat 0 = some records)
    (hempty : bodyData = [] → records = []) (skipRecords : Bool) :
    parseResponse (headerOf response) bodyData skipRecords =
      some (resultOf response (keptRecords skipRecords records)) := by
  have hrows := parseRecords_eq hrecords hempty skipRecords
  cases hlimit : response.limitReached with
  | true => simp [parseResponse, hrows, headerOf, resultOf, hlimit]
  | false => simp [parseResponse, hrows, headerOf, resultOf, hlimit]

theorem recvExact_append {n : Nat} {bytes rest : Bytes} (h : bytes.length = n) :
    recvExact n (bytes ++ rest) = some (bytes, rest) := by
  unfold recvExact
  rw [if_pos (by rw [List.length_append]; omega), List.take_left' h, List.drop_left' h]

/-- A response with a body of the announced size is taken off the stream as a whole. -/
theorem receiveResponse_append (response : QueryResponse) {body : Bytes} (rest : Bytes)
    {records : List Record}
    (hsize : response.totalMsgSize.toNat = qRespHeaderSize + body.length)
    (hrecords : parseLoop body response.recordsCount.toNat 0 = some records)
    (hempty : body = [] → records = []) (skipRecords : Bool) :
    receiveResponse response.reqId.toNat skipRecords
        (setQueryResponseHeader response ++ (body ++ rest)) =
      some (resultOf response (keptRecords skipRecords records), rest) := by
  have hheader : recvExact queryRespHeaderSize (setQueryResponseHeader response ++ (body ++ rest)) =
      some (setQueryResponseHeader response, body ++ rest) :=
    recvExact_append (length_setQueryResponseHeader response)
  have hbodySize : (headerOf response).totalSize - queryRespHeaderSize = body.length := by
    change response.totalMsgSize.toNat - qRespHeaderSize = body.length
    omega
  have hbody : (if body.length > 0 then recvExact body.length (body ++ rest)
      else some ([], body ++ rest)) = some (body, rest) := by
    by_cases hpos : body.length > 0
    · rw [if_pos hpos, recvExact_append rfl]
    · have hnil : body = [] := List.length_eq_zero_iff.mp (by omega)
      rw [if_neg hpos, hnil, List.nil_append]
  have hid : ¬ (headerOf response).reqId ≠ response.reqId.toNat := fun h => h rfl
  unfold receiveResponse
  simp only [Option.bind_eq_bind, hheader, Option.bind_some,
    unpackRespHeader_setQueryResponseHeader, if_neg hid, hbodySize, hbody,
    parseResponse_headerOf response hrecords hempty]

/-- A record has at least its header. -/
theorem storedBytes_eq_nil {rs : List StoredRecord} (h : storedBytes rs = []) : rs = [] := by
  cases rs with
  | nil => rfl
  | cons r rs =>
    have hlen := congrArg List.length h
    rw [storedBytes_cons, List.length_append, StoredRecord.length_bytes] at hlen
    simp at hlen

/-- A response whose header tells the size and the number of the records behind it is taken off the
stream as a whole. -/
theorem receiveResponse_stored {response : QueryResponse} {rs : List StoredRecord}
    (hsize : response.totalMsgSize.toNat = qRespHeaderSize + (storedBytes rs).length)
    (hcount : response.recordsCount.toNat = rs.length) (skipRecords : Bool) (rest : Bytes) :
    receiveResponse response.reqId.toNat skipRecords
        (setQueryResponseHeader response ++ (storedBytes rs ++ rest)) =
      some (resultOf response (keptRecords skipRecords (rs.map StoredRecord.decoded)), rest) := by
  apply receiveResponse_append response rest hsize
  · rw [hcount]
    exact parseLoop_storedBytes rs
  · intro hnil
    rw [storedBytes_eq_nil hnil]
    rfl

/-- The header of every response comes back field by field. A response whose header tells the size
and the number of the records behind it gives exactly these records and leaves what follows on the
stream. A body that is cut anywhere gives a prefix of the records, and nothing is read behind the
cut. -/
theorem response_round_trip (response : QueryResponse) (rs : List StoredRecord) :
    unpackRespHeader (setQueryResponseHeader response) = some (headerOf response) ∧
    (response.totalMsgSize.toNat = qRespHeaderSize + (storedBytes rs).length →
      response.recordsCount.toNat = rs.length → ∀ rest,
        receiveResponse response.reqId.toNat false
            (setQueryResponseHeader response ++ (storedBytes rs ++ rest)) =
          some (resultOf response (rs.map StoredRecord.decoded), rest)) ∧
    ∀ k, ∃ records, records <+: rs.map StoredRecord.decoded ∧
      parseResponse (headerOf response) ((storedBytes rs).take k) false =
        some (resultOf response records) := by
  refine ⟨unpackRespHeader_setQueryResponseHeader response, ?_, ?_⟩
  · intro hsize hcount rest
    exact receiveResponse_stored hsize hcount false rest
  · intro k
    obtain ⟨records, hrecords, hinit⟩ := parseLoop_take rs k response.recordsCount.toNat
    refine ⟨records, hinit, parseResponse_headerOf response hrecords ?_ false⟩
    intro hnil
    rw [hnil] at hrecords
    cases hcount : response.recordsCount.toNat with
    | zero =>
      rw [hcount] at hrecords
      exact (Option.some.inj hrecords).symm
    | succ n =>
      rw [hcount] at hrecords
      exact (Option.some.inj hrecords).symm

/-- One integer record, one of raw bytes and one without data. -/
theorem response_round_trip_three :
    let rs : List StoredRecord := [⟨⟨1, 2⟩, 1, [7, 0, 0, 0, 0, 0, 0, 0], by decide⟩,
      ⟨⟨1, 3⟩, 2, [9], by decide⟩, ⟨⟨2, 0⟩, 1, [], by decide⟩]
    rs.map StoredRecord.decoded = [⟨1, 2, .int 7⟩, ⟨1, 3, .raw [9]⟩, ⟨2, 0, .raw []⟩] ∧
    receiveResponse 5 false
        (setQueryResponseHeader ⟨true, 3, 5, 133, 72, ⟨1, 2⟩, ⟨2, 0⟩⟩ ++ (storedBytes rs ++ [4])) =
      some (resultOf ⟨true, 3, 5, 133, 72, ⟨1, 2⟩, ⟨2, 0⟩⟩ (rs.map StoredRecord.decoded), [4]) := by
  intro rs
  exact ⟨by decide, (response_round_trip ⟨true, 3, 5, 133, 72, ⟨1, 2⟩, ⟨2, 0⟩⟩ rs).2.1
    (by decide) (by decide) [4]⟩

end RaftLsmt.Client
