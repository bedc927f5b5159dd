import RaftLsmt.Lsmt.Record

/-!
# Applying a log entry

A log entry is a batch of messages `| size (4) | key (16) | value |`, filled up with zero bytes to a
multiple of eight. `FsmApply` walks over the messages, passes each one to `lsmt_insert` and stops at
the first size word it does not accept.

What it accepts depends on the entry alone: `fsmApplyLoop_eq` splits the loop into the messages it
passes on, `entryMsgs`, and its answer, `entryStatus`. An entry that is built of messages is accepted
exactly when each of them passes the checks (`entryStatus_flatten_eq_ok_iff`), and then all of them are
passed on (`entryMsgs_flatten`).
-/

set_option autoImplicit false

namespace RaftLsmt.Server

open RaftLsmt.Lib.ByteCodec
open RaftLsmt.Lsmt

universe u

/-- `CONTENT_MAX_SIZE`. -/
def contentMaxSize : Nat := 255

/-- `sizeof(uint32_t) + sizeof(sl_uint128_t)`. -/
def msgHeaderSize : Nat := 20

/-- The size word at the start of these bytes. -/
def msgSize (bytes : Bytes) : Nat := leNat (bytes.take 4)

/-- The key of a message. -/
def recordKey (msg : Bytes) : SlUint128 := keyOfBytes (msg.drop 4)

/-- The value of a message. -/
def recordValue (msg : Bytes) : Bytes := msg.drop msgHeaderSize

/-- The answer of `FsmApply`. -/
inductive FsmStatus where
  | ok
  | malformed
  deriving DecidableEq

/-- The checks at the head of the loop: the entry ends here, its next size word is refused, or a
message of that size follows. -/
inductive MsgCheck where
  | finished
  | malformed
  | msg (size : Nat)
  deriving DecidableEq

/-- The loop test and the checks of `FsmApply` on the rest of the buffer. -/
def checkMsg (rest : Bytes) : MsgCheck :=
  if rest.length < 4 then .finished
  else if msgSize rest = 0 then .finished
  else if msgSize rest > rest.length then .malformed
  else if msgSize rest < msgHeaderSize then .malformed
  else if msgSize rest - msgHeaderSize > contentMaxSize then .malformed
  else .msg (msgSize rest)

theorem checkMsg_eq_msg {rest : Bytes} {size : Nat} (h : checkMsg rest = .msg size) :
    size = msgSize rest ∧ msgHeaderSize ≤ size ∧ size ≤ msgHeaderSize + contentMaxSize ∧
      size ≤ rest.length := by
  rw [checkMsg] at h
  split at h
  · cases h
  · split at h
    · cases h
    · split at h
      · cases h
      · split at h
        · cases h
        · split at h
          · cases h
          · cases h
            exact ⟨rfl, by omega, by omega, by omega⟩

/-- The data `FsmApply` works on: the store and the counters `total_requests` and `total_bytes`. -/
structure FsmState (σ : Type u) where
  db : σ
  totalRequests : Nat
  totalBytes : Nat

section Apply

variable {σ : Type u} (lsmtInsert : σ → SlUint128 → Bytes → σ × Int)

/-- The loop of `FsmApply` on the rest of the buffer. The return value of `lsmt_insert` is only
logged. -/
def fsmApplyLoop (db : σ) (requestsCount : Nat) (rest : Bytes) : σ × Nat × FsmStatus :=
  match _h : checkMsg rest with
  | .finished => (db, requestsCount, .ok)
  | .malformed => (db, requestsCount, .malformed)
  | .msg size =>
    let msg := rest.take size
    fsmApplyLoop (lsmtInsert db (recordKey msg) (recordValue msg)).1 (requestsCount + 1)
      (rest.drop size)
termination_by rest.length
decreasing_by
  have := checkMsg_eq_msg _h
  rw [msgHeaderSize] at this
  rw [List.length_drop]
  omega

/-- `FsmApply`. -/
def fsmApply (s : FsmState σ) (buf : Bytes) : FsmState σ × FsmStatus :=
  match fsmApplyLoop lsmtInsert s.db 0 buf with
  | (db, _, .malformed) => ({ s with db := db }, .malformed)
  | (db, requestsCount, .ok) =>
    ({ db := db
       totalRequests := s.totalRequests + requestsCount
       totalBytes := s.totalBytes + buf.length }, .ok)

end Apply

/-! ## What the loop passes on -/

/-- The messages the loop passes to `lsmt_insert`. -/
def entryMsgs (rest : Bytes) : List Bytes :=
  match _h : checkMsg rest with
  | .finished => []
  | .malformed => []
  | .msg size => rest.take size :: entryMsgs (rest.drop size)
termination_by rest.length
decreasing_by
  have := checkMsg_eq_msg _h
  rw [msgHeaderSize] at this
  rw [List.length_drop]
  omega

/-- How the loop ends. -/
def entryStatus (rest : Bytes) : FsmStatus :=
  match _h : checkMsg rest with
  | .finished => .ok
  | .malformed => .malformed
  | .msg size => entryStatus (rest.drop size)
termination_by rest.length
decreasing_by
  have := checkMsg_eq_msg _h
  rw [msgHeaderSize] at this
  rw [List.length_drop]
  omega

/-- The key and the value of a message, the arguments of its `lsmt_insert`. -/
def recordOf (msg : Bytes) : SlUint128 × Bytes := (recordKey msg, recordValue msg)

/-- The calls of `lsmt_insert` made for an entry. -/
def entryCalls (buf : Bytes) : List (SlUint128 × Bytes) := (entryMsgs buf).map recordOf

theorem entryMsgs_of_msg {rest : Bytes} {size : Nat} (h : checkMsg rest = .msg size) :
    entryMsgs rest = rest.take size :: entryMsgs (rest.drop size) := by
  rw [entryMsgs]
  split <;> rename_i h' <;> rw [h] at h' <;> cases h'
  rfl

theorem entryMsgs_of_not_msg {rest : Bytes} (h : ∀ size, checkMsg rest ≠ .msg size) :
    entryMsgs rest = [] := by
  rw [entryMsgs]
  split
  · rfl
  · rfl
  · rename_i size h'
    exact absurd h' (h size)

theorem entryStatus_of_msg {rest : Bytes} {size : Nat} (h : checkMsg rest = .msg size) :
    entryStatus rest = entryStatus (rest.drop size) := by
  rw [entryStatus]
  split <;> rename_i h' <;> rw [h] at h' <;> cases h'
  rfl

theorem entryStatus_of_finished {rest : Bytes} (h : checkMsg rest = .finished) :
    entryStatus rest = .ok := by
  rw [entryStatus]
  split <;> rename_i h' <;> rw [h] at h' <;> cases h'

theorem entryStatus_of_malformed {rest : Bytes} (h : checkMsg rest = .malformed) :
    entryStatus rest = .malformed := by
  rw [entryStatus]
  split <;> rename_i h' <;> rw [h] at h' <;> cases h'

/-- The loop runs `lsmt_insert` on the messages of the entry and answers with its status. -/
theorem fsmApplyLoop_eq {σ : Type u} (lsmtInsert : σ → SlUint128 → Bytes → σ × Int) (db : σ)
    (requestsCount : Nat) (rest : Bytes) :
    fsmApplyLoop lsmtInsert db requestsCount rest =
      ((entryCalls rest).foldl (fun db call => (lsmtInsert db call.1 call.2).1) db,
        requestsCount + (entryMsgs rest).length, entryStatus rest) := by
  fun_induction fsmApplyLoop lsmtInsert db requestsCount rest with
  | case1 db requestsCount rest h =>
    rw [entryCalls, entryMsgs_of_not_msg (by simp [h]), entryStatus_of_finished h]
    rfl
  | case2 db requestsCount rest h =>
    rw [entryCalls, entryMsgs_of_not_msg (by simp [h]), entryStatus_of_malformed h]
    rfl
  | case3 db requestsCount rest size h msg ih =>
    rw [ih, entryCalls, entryCalls, entryMsgs_of_msg h, entryStatus_of_msg h, List.map_cons,
      List.foldl_cons, List.length_cons, Nat.add_assoc, Nat.add_comm 1]
    rfl

/-- `FsmApply` answers with the status of the entry, whatever the store does. -/
theorem fsmApply_status {σ : Type u} (lsmtInsert : σ → SlUint128 → Bytes → σ × Int)
    (s : FsmState σ) (buf : Bytes) : (fsmApply lsmtInsert s buf).2 = entryStatus buf := by
  rw [fsmApply, fsmApplyLoop_eq]
  cases entryStatus buf <;> rfl

/-- `FsmApply` leaves the store as the calls of `lsmt_insert` for the entry do. -/
theorem fsmApply_db {σ : Type u} (lsmtInsert : σ → SlUint128 → Bytes → σ × Int)
    (s : FsmState σ) (buf : Bytes) :
    (fsmApply lsmtInsert s buf).1.db =
      (entryCalls buf).foldl (fun db call => (lsmtInsert db call.1 call.2).1) s.db := by
  rw [fsmApply, fsmApplyLoop_eq]
  cases entryStatus buf <;> rfl

/-! ## Entries built of messages -/

/-- A message as it is sent: its size word gives its length. -/
structure IsMsg (msg : Bytes) : Prop where
  four_le : 4 ≤ msg.length
  size_eq : msgSize msg = msg.length

/-- A message that `FsmApply` accepts. -/
structure MsgOk (msg : Bytes) : Prop extends IsMsg msg where
  header_le : msgHeaderSize ≤ msg.length
  value_le : msg.length ≤ msgHeaderSize + contentMaxSize

/-- The message for a record. -/
def message (key : SlUint128) (value : Bytes) : Bytes :=
  leBytes 4 (msgHeaderSize + value.length) ++ (keyBytes key ++ value)

section Message

variable (key : SlUint128) (value : Bytes)

@[simp]
theorem length_message : (message key value).length = msgHeaderSize + value.length := by
  simp only [message, msgHeaderSize, List.length_append, length_leBytes, length_keyBytes]
  omega

@[simp]
theorem recordOf_message : recordOf (message key value) = (key, value) := by
  have hkey : (message key value).drop 4 = keyBytes key ++ value :=
    List.drop_left' (length_leBytes 4 _)
  have hvalue : (message key value).drop msgHeaderSize = value := by
    rw [show msgHeaderSize = 4 + 16 from rfl, ← List.drop_drop, hkey,
      List.drop_left' (length_keyBytes key)]
  rw [recordOf, recordKey, recordValue, hkey, hvalue, keyOfBytes_keyBytes_append]

theorem msgOk_message (h : value.length ≤ contentMaxSize) : MsgOk (message key value) := by
  have hlen := length_message key value
  rw [contentMaxSize] at h
  rw [msgHeaderSize] at hlen
  refine ⟨⟨by omega, ?_⟩, ?_, ?_⟩
  · rw [msgSize, message, List.take_left' (length_leBytes 4 _), leNat_leBytes, msgHeaderSize, ← hlen]
    · rfl
    · rw [msgHeaderSize]
      omega
  · rw [msgHeaderSize]
    omega
  · rw [msgHeaderSize, contentMaxSize]
    omega

end Message

theorem msgSize_append {bytes : Bytes} (h : 4 ≤ bytes.length) (rest : Bytes) :
    msgSize (bytes ++ rest) = msgSize bytes := by
  rw [msgSize, msgSize, List.take_append_of_le_length h]

theorem checkMsg_append_of_ok {msg : Bytes} (h : MsgOk msg) (rest : Bytes) :
    checkMsg (msg ++ rest) = .msg msg.length := by
  have h4 := h.four_le
  have hlo := h.header_le
  have hhi := h.value_le
  rw [msgHeaderSize] at hlo hhi
  rw [checkMsg, msgSize_append h4, h.size_eq, List.length_append, if_neg (by omega),
    if_neg (by omega), if_neg (by omega), if_neg (by rw [msgHeaderSize]; omega),
    if_neg (by rw [msgHeaderSize]; omega)]

theorem checkMsg_append_of_not_ok {msg : Bytes} (h : IsMsg msg) (hnot : ¬ MsgOk msg)
    (rest : Bytes) : checkMsg (msg ++ rest) = .malformed := by
  have h4 := h.four_le
  have hbounds : msg.length < msgHeaderSize ∨ msgHeaderSize + contentMaxSize < msg.length := by
    by_contra hin
    exact hnot ⟨h, by omega, by omega⟩
  rw [msgHeaderSize] at hbounds
  rw [checkMsg, msgSize_append h4, h.size_eq, List.length_append, if_neg (by omega),
    if_neg (by omega), if_neg (by omega)]
  rcases hbounds with hlo | hhi
  · rw [if_pos (by rw [msgHeaderSize]; omega)]
  · rw [if_neg (by rw [msgHeaderSize]; omega), if_pos (by rw [msgHeaderSize]; omega)]

/-- The fill bytes of an entry end the loop. -/
theorem checkMsg_replicate_zero (n : Nat) : checkMsg (List.replicate n 0) = .finished := by
  rw [checkMsg]
  by_cases hn : (List.replicate n (0 : UInt8)).length < 4
  · rw [if_pos hn]
  · have hzero : ∀ m : Nat, leNat (List.replicate m 0) = 0 := by
      intro m
      induction m with
      | zero => rfl
      | succ m ih => simp [List.replicate_succ, leNat, ih]
    rw [if_neg hn, if_pos]
    rw [msgSize, List.take_replicate, hzero]

/-- A message that is accepted is passed on as it is. -/
theorem mem_entryMsgs {buf msg : Bytes} (h : msg ∈ entryMsgs buf) : MsgOk msg := by
  fun_induction entryMsgs buf with
  | case1 rest hc => cases h
  | case2 rest hc => cases h
  | case3 rest size hc ih =>
    obtain ⟨hsize, hlo, hhi, hle⟩ := checkMsg_eq_msg hc
    have hlen : (rest.take size).length = size := by simpa using hle
    rcases List.mem_cons.mp h with rfl | h
    · have hfour : 4 ≤ (rest.take size).length := by
        rw [hlen]
        exact le_trans (by decide) hlo
      refine ⟨⟨hfour, ?_⟩, by rw [hlen]; exact hlo, by rw [hlen]; exact hhi⟩
      rw [← msgSize_append hfour (rest.drop size), List.take_append_drop, hlen, hsize]
    · exact ih h

/-- The messages that are passed on lie at the front of the entry, and the status is that of what
follows them. -/
theorem exists_entryMsgs_append (buf : Bytes) :
    ∃ rest, buf = (entryMsgs buf).flatten ++ rest ∧ (∀ size, checkMsg rest ≠ .msg size) ∧
      entryStatus buf = entryStatus rest := by
  fun_induction entryMsgs buf with
  | case1 rest hc => exact ⟨rest, rfl, by simp [hc], rfl⟩
  | case2 rest hc => exact ⟨rest, rfl, by simp [hc], rfl⟩
  | case3 rest size hc ih =>
    obtain ⟨tail, hsplit, hend, hstatus⟩ := ih
    refine ⟨tail, ?_, hend, ?_⟩
    · rw [List.flatten_cons, List.append_assoc, ← hsplit, List.take_append_drop]
    · rw [entryStatus_of_msg hc, hstatus]

section Flatten

variable {msgs : List Bytes}

/-- Accepted messages are passed on, whatever follows them. -/
theorem entryMsgs_flatten_append (h : ∀ msg ∈ msgs, MsgOk msg) (rest : Bytes) :
    entryMsgs (msgs.flatten ++ rest) = msgs ++ entryMsgs rest := by
  induction msgs with
  | nil => rfl
  | cons msg msgs ih =>
    have hmsg := checkMsg_append_of_ok (h msg List.mem_cons_self) (msgs.flatten ++ rest)
    rw [List.flatten_cons, List.append_assoc, entryMsgs_of_msg hmsg, List.take_left' rfl,
      List.drop_left' rfl, ih fun m hm => h m (List.mem_cons_of_mem msg hm), List.cons_append]

/-- Accepted messages leave the status to what follows them. -/
theorem entryStatus_flatten_append (h : ∀ msg ∈ msgs, MsgOk msg) (rest : Bytes) :
    entryStatus (msgs.flatten ++ rest) = entryStatus rest := by
  induction msgs with
  | nil => rfl
  | cons msg msgs ih =>
    have hmsg := checkMsg_append_of_ok (h msg List.mem_cons_self) (msgs.flatten ++ rest)
    rw [List.flatten_cons, List.append_assoc, entryStatus_of_msg hmsg, List.drop_left' rfl,
      ih fun m hm => h m (List.mem_cons_of_mem msg hm)]

/-- Accepted messages and fill bytes: the loop passes on exactly these messages. -/
theorem entryMsgs_flatten (h : ∀ msg ∈ msgs, MsgOk msg) (n : Nat) :
    entryMsgs (msgs.flatten ++ List.replicate n 0) = msgs := by
  rw [entryMsgs_flatten_append h, entryMsgs_of_not_msg, List.append_nil]
  simp [checkMsg_replicate_zero]

/-- An entry of messages and fill bytes is accepted exactly when each message is. -/
theorem entryStatus_flatten_eq_ok_iff (h : ∀ msg ∈ msgs, IsMsg msg) (n : Nat) :
    entryStatus (msgs.flatten ++ List.replicate n 0) = .ok ↔ ∀ msg ∈ msgs, MsgOk msg := by
  induction msgs with
  | nil =>
    rw [List.flatten_nil, List.nil_append, entryStatus_of_finished (checkMsg_replicate_zero n)]
    simp
  | cons msg msgs ih =>
    have hrest := ih fun m hm => h m (List.mem_cons_of_mem msg hm)
    rw [List.flatten_cons, List.append_assoc, List.forall_mem_cons]
    by_cases hok : MsgOk msg
    · rw [entryStatus_of_msg (checkMsg_append_of_ok hok _), List.drop_left' rfl, hrest]
      exact ⟨fun hall => ⟨hok, hall⟩, And.right⟩
    · rw [entryStatus_of_malformed
        (checkMsg_append_of_not_ok (h msg List.mem_cons_self) hok _)]
      simp [hok]

end Flatten

end RaftLsmt.Server
