import RaftLsmt.Server.EventLoop

/-!
# The stream of query requests

The bytes of a query client are a stream of requests of 40 bytes; `streamRequests` reads the complete
ones. What a client has written with `requestBytes` is read back.
-/

set_option autoImplicit false

namespace RaftLsmt.Server.EventLoop

open RaftLsmt.Lib.ByteCodec
open RaftLsmt.Lib.RefCount
open RaftLsmt.Lib.StepMachine
open RaftLsmt.Lsmt

/-! ## The stream of requests -/

/-- What a request of 40 bytes asks for. -/
structure QueryRequest where
  reqId : UInt64
  startKey : SlUint128
  endKey : SlUint128

/-- `[REQ_ID (8 Bytes) | START_KEY (16 Bytes) | END_KEY (16 bytes)]`. -/
def requestBytes (r : QueryRequest) : Bytes :=
  leBytes 8 r.reqId.toNat ++ (keyBytes r.startKey ++ keyBytes r.endKey)

/-- The request of a task. -/
def requestOf (task : QueryTask) : QueryRequest := ⟨task.reqId, task.startKey, task.endKey⟩

/-- The complete requests of a stream. -/
def streamRequests (bytes : Bytes) : List QueryRequest :=
  if bytes.length < queryReqSize then []
  else requestOf (queryTask bytes 0) :: streamRequests (bytes.drop queryReqSize)
termination_by bytes.length
decreasing_by
  rw [List.length_drop]
  unfold queryReqSize at *
  omega

theorem streamRequests_of_short {bytes : Bytes} (h : bytes.length < queryReqSize) :
    streamRequests bytes = [] := by
  rw [streamRequests, if_pos h]

theorem streamRequests_of_long {bytes : Bytes} (h : ¬ bytes.length < queryReqSize) :
    streamRequests bytes =
      requestOf (queryTask bytes 0) :: streamRequests (bytes.drop queryReqSize) := by
  rw [streamRequests, if_neg h]

/-- A key is read from 16 bytes. -/
theorem keyOfBytes_append {bytes : Bytes} (h : 16 ≤ bytes.length) (rest : Bytes) :
    keyOfBytes (bytes ++ rest) = keyOfBytes bytes := by
  have h8 : 8 ≤ bytes.length := by omega
  have hdrop : 8 ≤ (bytes.drop 8).length := by
    rw [List.length_drop]
    omega
  unfold keyOfBytes
  rw [List.take_append_of_le_length h8, List.drop_append_of_le_length h8,
    List.take_append_of_le_length hdrop]

/-- A request is read from 40 bytes. -/
theorem queryTask_append {bytes : Bytes} (h : ¬ bytes.length < queryReqSize) (rest : Bytes)
    (now : Nat) : queryTask (bytes ++ rest) now = queryTask bytes now := by
  have hlong : 40 ≤ bytes.length := Nat.not_lt.mp h
  have hstart : 16 ≤ (bytes.drop 8).length := by
    rw [List.length_drop]
    omega
  have hend : 16 ≤ (bytes.drop 24).length := by
    rw [List.length_drop]
    omega
  unfold queryTask
  rw [List.take_append_of_le_length (by omega), List.drop_append_of_le_length (by omega),
    List.drop_append_of_le_length (by omega), keyOfBytes_append hstart, keyOfBytes_append hend]

/-- Whole requests in front of a stream. -/
theorem streamRequests_append {bytes : Bytes} {n : Nat} (h : bytes.length = queryReqSize * n)
    (rest : Bytes) : streamRequests (bytes ++ rest) = streamRequests bytes ++ streamRequests rest := by
  induction n generalizing bytes with
  | zero =>
    have hnil : bytes = [] := List.length_eq_zero_iff.mp h
    have hempty : streamRequests [] = [] := streamRequests_of_short (by decide)
    rw [hnil, hempty]
    rfl
  | succ n ih =>
    have hlong : ¬ bytes.length < queryReqSize := by
      rw [h, Nat.mul_succ]
      omega
    have hlong' : ¬ (bytes ++ rest).length < queryReqSize := by
      rw [List.length_append]
      omega
    have hdrop : (bytes.drop queryReqSize).length = queryReqSize * n := by
      rw [List.length_drop, h, Nat.mul_succ]
      omega
    rw [streamRequests_of_long hlong, streamRequests_of_long hlong', queryTask_append hlong,
      List.drop_append_of_le_length (Nat.not_lt.mp hlong), ih hdrop]
    rfl

theorem length_requestBytes (r : QueryRequest) : (requestBytes r).length = queryReqSize := by
  simp [requestBytes, queryReqSize]

/-- A request is read as it was written. -/
theorem requestOf_requestBytes (r : QueryRequest) (rest : Bytes) (now : Nat) :
    requestOf (queryTask (requestBytes r ++ rest) now) = r := by
  have hid := r.reqId.toNat_lt
  have htake : (requestBytes r ++ rest).take 8 = leBytes 8 r.reqId.toNat := by
    rw [requestBytes, List.append_assoc, List.take_left' (by simp)]
  have hstart : (requestBytes r ++ rest).drop 8 =
      keyBytes r.startKey ++ (keyBytes r.endKey ++ rest) := by
    rw [requestBytes, List.append_assoc, List.drop_left' (by simp), List.append_assoc]
  have hend : (requestBytes r ++ rest).drop 24 = keyBytes r.endKey ++ rest := by
    rw [show 24 = 8 + 16 from rfl, ← List.drop_drop, hstart, List.drop_left' (by simp)]
  unfold requestOf queryTask
  rw [htake, hstart, hend, keyOfBytes_keyBytes_append, keyOfBytes_keyBytes_append,
    leNat_leBytes (by omega), UInt64.ofNat_toNat]

/-- What a client has sent is read back. -/
theorem streamRequests_requestBytes (rs : List QueryRequest) {rest : Bytes}
    (hrest : rest.length < queryReqSize) :
    streamRequests (rs.flatMap requestBytes ++ rest) = rs := by
  induction rs with
  | nil => exact streamRequests_of_short hrest
  | cons r rs ih =>
    have hone : (requestBytes r).length = queryReqSize * 1 := length_requestBytes r
    have hlong : ¬ (requestBytes r).length < queryReqSize := by
      rw [length_requestBytes]
      exact Nat.lt_irrefl _
    have hnone : streamRequests ((requestBytes r).drop queryReqSize) = [] := by
      refine streamRequests_of_short ?_
      rw [List.length_drop, length_requestBytes]
      decide
    have hread := requestOf_requestBytes r [] 0
    rw [List.append_nil] at hread
    rw [List.flatMap_cons, List.append_assoc, streamRequests_append hone, ih,
      streamRequests_of_long hlong, hread, hnone]
    rfl

/-! ## Clients and their tasks -/

/-- The client is a query client. -/
def IsQuery (s : EventLoop) (a : Nat) : Prop :=
  a < s.heap.allocated ∧ (s.clients a).type = .query

/-- The requests of the tasks of a client. -/
def dispatchedTo (s : EventLoop) (a : Nat) : List QueryRequest :=
  (s.dispatched.filter fun query => query.client = a).map fun query => requestOf query.task

end RaftLsmt.Server.EventLoop
