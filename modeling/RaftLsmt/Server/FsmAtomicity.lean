import RaftLsmt.Lsmt.StoreInvariant
import RaftLsmt.Server.FsmApply

/-!
# Whether a log entry is applied as a whole

`FsmApply` checks a message when it comes to it, and by then the messages in front of it are in the
store. `fsmTrace` is its loop with the offset it keeps and with the list of its reads and of its
calls of `lsmt_insert`. `fsmTrace_eq` says that it is the loop of `fsmApply`, and
`fsmTrace_inBounds` that no read leaves the entry.

`fsmApply_allOrNothing_iff` gives the entries that are applied as a whole or not at all, in every
state the store can reach: the ones that have no refused message behind accepted ones, and those
where `lsmt_insert` refuses each message in front of it.
-/

set_option autoImplicit false

namespace RaftLsmt.Server

open RaftLsmt.Lib.ByteCodec
open RaftLsmt.Lib.StepMachine
open RaftLsmt.Lsmt

universe u

/-- A call of `lsmt_insert` and its return value. -/
structure Insertion where
  key : SlUint128
  value : Bytes
  rv : Int

/-- A read of some bytes of the entry. -/
structure EntryRead where
  offset : Nat
  length : Nat

/-- A run of the loop of `FsmApply`. -/
structure FsmTrace (σ : Type u) where
  db : σ
  insertions : List Insertion
  reads : List EntryRead
  status : FsmStatus

/-- The bytes of the buffer that a read gets. -/
def EntryRead.bytes (read : EntryRead) (buf : Bytes) : Bytes :=
  (buf.drop read.offset).take read.length

/-- No byte of the read lies outside the buffer. -/
def EntryRead.InBounds (read : EntryRead) (buf : Bytes) : Prop :=
  read.offset + read.length ≤ buf.length

/-- The calls of `lsmt_insert` one behind the other. -/
def insertAll {σ : Type u} (lsmtInsert : σ → SlUint128 → Bytes → σ × Int) :
    σ → List (SlUint128 × Bytes) → List Insertion
  | _, [] => []
  | db, (key, value) :: calls =>
    ⟨key, value, (lsmtInsert db key value).2⟩ ::
      insertAll lsmtInsert (lsmtInsert db key value).1 calls

section Trace

variable {σ : Type u} (lsmtInsert : σ → SlUint128 → Bytes → σ × Int) (buf : Bytes)

/-- The loop of `FsmApply` from an offset on. The offsets lie inside the buffer, so `size_t` holds
them and their sum with a size word. -/
def fsmTrace (db : σ) (offset : Nat) : FsmTrace σ :=
  if offset + 4 ≤ buf.length then
    let sizeRead : EntryRead := ⟨offset, 4⟩
    let msgSize := leNat (sizeRead.bytes buf)
    if msgSize = 0 then ⟨db, [], [sizeRead], .ok⟩
    else if msgSize + offset > buf.length then ⟨db, [], [sizeRead], .malformed⟩
    else if msgSize < msgHeaderSize then ⟨db, [], [sizeRead], .malformed⟩
    else if msgSize - msgHeaderSize > contentMaxSize then ⟨db, [], [sizeRead], .malformed⟩
    else
      let keyRead : EntryRead := ⟨offset + 4, 16⟩
      let valueRead : EntryRead := ⟨offset + msgHeaderSize, msgSize - msgHeaderSize⟩
      let key := keyOfBytes (keyRead.bytes buf)
      let value := valueRead.bytes buf
      -- the return value is only logged
      let result := lsmtInsert db key value
      let next := fsmTrace result.1 (offset + msgSize)
      { next with
        insertions := ⟨key, value, result.2⟩ :: next.insertions
        reads := sizeRead :: keyRead :: valueRead :: next.reads }
  else ⟨db, [], [], .ok⟩
termination_by buf.length - offset
decreasing_by
  show buf.length - (offset + msgSize) < buf.length - offset
  omega

end Trace

/-! ## The loop with its offset -/

/-- Only the first sixteen bytes make up a key. -/
theorem keyOfBytes_take {bytes : Bytes} {n : Nat} (h : 16 ≤ n) :
    keyOfBytes (bytes.take n) = keyOfBytes bytes := by
  have hfirst : min 8 n = 8 := by omega
  have hsecond : min 8 (n - 8) = 8 := by omega
  rw [keyOfBytes, keyOfBytes, List.take_take, hfirst, List.drop_take, List.take_take, hsecond]

section Spec

variable {σ : Type u} {lsmtInsert : σ → SlUint128 → Bytes → σ × Int} {buf : Bytes}

/-- What a run of the loop does that starts with the bytes `rest`. -/
structure FsmTrace.Spec (lsmtInsert : σ → SlUint128 → Bytes → σ × Int) (buf : Bytes) (db : σ)
    (rest : Bytes) (trace : FsmTrace σ) : Prop where
  insertions : trace.insertions = insertAll lsmtInsert db (entryCalls rest)
  status : trace.status = entryStatus rest
  db : trace.db = (entryCalls rest).foldl (fun db call => (lsmtInsert db call.1 call.2).1) db
  inBounds : ∀ read ∈ trace.reads, read.InBounds buf

/-- The loop ends at a size word it does not pass on. -/
theorem FsmTrace.spec_of_stop {db : σ} {rest : Bytes} {reads : List EntryRead} {status : FsmStatus}
    (hstop : ∀ size, checkMsg rest ≠ .msg size) (hstatus : entryStatus rest = status)
    (hreads : ∀ read ∈ reads, read.InBounds buf) :
    FsmTrace.Spec lsmtInsert buf db rest ⟨db, [], reads, status⟩ := by
  have hcalls : entryCalls rest = [] := by rw [entryCalls, entryMsgs_of_not_msg hstop, List.map_nil]
  refine ⟨?_, hstatus.symm, ?_, hreads⟩
  · rw [hcalls, insertAll]
  · rw [hcalls, List.foldl_nil]

/-- The loop makes the checks of `checkMsg` on the bytes from the offset on. -/
theorem fsmTrace_spec (db : σ) (offset : Nat) :
    FsmTrace.Spec lsmtInsert buf db (buf.drop offset) (fsmTrace lsmtInsert buf db offset) := by
  have hlen (offset : Nat) : (buf.drop offset).length = buf.length - offset := List.length_drop
  have hsize (offset : Nat) :
      Server.msgSize (buf.drop offset) = leNat ((EntryRead.mk offset 4).bytes buf) := rfl
  fun_induction fsmTrace lsmtInsert buf db offset with
  -- a size of 0 is padding: the loop ends, with the four bytes of the size read
  | case1 db offset hroom sizeRead msgSize hzero =>
    have hcheck : checkMsg (buf.drop offset) = .finished := by
      rw [checkMsg, hlen, if_neg (by omega), hsize, if_pos hzero]
    exact FsmTrace.spec_of_stop (by simp [hcheck]) (entryStatus_of_finished hcheck)
      (List.forall_mem_singleton.mpr hroom)
  -- three sizes stop the loop with an error
  | case2 db offset hroom sizeRead msgSize hzero hlong =>
    have hbeyond : msgSize > buf.length - offset := by omega
    have hcheck : checkMsg (buf.drop offset) = .malformed := by
      rw [checkMsg, hlen, if_neg (by omega), hsize, if_neg hzero, if_pos hbeyond]
    exact FsmTrace.spec_of_stop (by simp [hcheck]) (entryStatus_of_malformed hcheck)
      (List.forall_mem_singleton.mpr hroom)
  | case3 db offset hroom sizeRead msgSize hzero hlong hshort =>
    have hinside : ¬ msgSize > buf.length - offset := by omega
    have hcheck : checkMsg (buf.drop offset) = .malformed := by
      rw [checkMsg, hlen, if_neg (by omega), hsize, if_neg hzero, if_neg hinside, if_pos hshort]
    exact FsmTrace.spec_of_stop (by simp [hcheck]) (entryStatus_of_malformed hcheck)
      (List.forall_mem_singleton.mpr hroom)
  | case4 db offset hroom sizeRead msgSize hzero hlong hshort hlarge =>
    have hinside : ¬ msgSize > buf.length - offset := by omega
    have hcheck : checkMsg (buf.drop offset) = .malformed := by
      rw [checkMsg, hlen, if_neg (by omega), hsize, if_neg hzero, if_neg hinside, if_neg hshort,
        if_pos hlarge]
    exact FsmTrace.spec_of_stop (by simp [hcheck]) (entryStatus_of_malformed hcheck)
      (List.forall_mem_singleton.mpr hroom)
  -- a message: its key and value lie inside of it
  | case5 db offset hroom sizeRead msgSize hzero hlong hshort hlarge keyRead valueRead key value
      result next ih =>
    have hheader : msgHeaderSize = 20 := rfl
    have hinside : ¬ msgSize > buf.length - offset := by omega
    have hcheck : checkMsg (buf.drop offset) = .msg msgSize := by
      rw [checkMsg, hlen, if_neg (by omega), hsize, if_neg hzero, if_neg hinside, if_neg hshort,
        if_neg hlarge]
    -- the key and the value are parts of the message
    have hkey : recordKey ((buf.drop offset).take msgSize) = key := by
      show _ = keyOfBytes ((buf.drop (offset + 4)).take 16)
      rw [recordKey, List.drop_take, List.drop_drop, keyOfBytes_take (by omega),
        keyOfBytes_take (le_refl 16)]
    have hvalue : recordValue ((buf.drop offset).take msgSize) = value := by
      show _ = (buf.drop (offset + msgHeaderSize)).take (msgSize - msgHeaderSize)
      rw [recordValue, List.drop_take, List.drop_drop]
    have hcalls : entryCalls (buf.drop offset) =
        (key, value) :: entryCalls (buf.drop (offset + msgSize)) := by
      rw [entryCalls, entryMsgs_of_msg hcheck, List.map_cons, recordOf, hkey, hvalue,
        List.drop_drop]
      rfl
    obtain ⟨hins, hstatus, hdb, hreads⟩ := ih
    refine ⟨?_, ?_, ?_, ?_⟩
    · rw [hcalls, insertAll, ← hins]
    · rw [entryStatus_of_msg hcheck, List.drop_drop, ← hstatus]
    · rw [hcalls, List.foldl_cons, ← hdb]
    · refine List.forall_mem_cons.mpr ⟨hroom, List.forall_mem_cons.mpr ⟨?_,
        List.forall_mem_cons.mpr ⟨?_, hreads⟩⟩⟩
      · show offset + 4 + 16 ≤ buf.length
        omega
      · show offset + msgHeaderSize + (msgSize - msgHeaderSize) ≤ buf.length
        omega
  -- fewer than four bytes are left
  | case6 db offset hend =>
    have hcheck : checkMsg (buf.drop offset) = .finished := by
      rw [checkMsg, hlen, if_pos (by omega)]
    exact FsmTrace.spec_of_stop (by simp [hcheck]) (entryStatus_of_finished hcheck)
      (List.forall_mem_nil _)

/-- `fsmTrace` is the loop of `FsmApply`. -/
theorem fsmApplyLoop_eq_fsmTrace (db : σ) (requestsCount : Nat) :
    fsmApplyLoop lsmtInsert db requestsCount buf =
      ((fsmTrace lsmtInsert buf db 0).db, requestsCount + (entryMsgs buf).length,
        (fsmTrace lsmtInsert buf db 0).status) := by
  have hspec := @fsmTrace_spec _ lsmtInsert buf db 0
  rw [fsmApplyLoop_eq, hspec.db, hspec.status, List.drop_zero]

end Spec

/-! ## The store -/

/-- `lsmt_insert` on the store, as its caller sees it. -/
def lsmtInsert (lsmt : LsmtState) (key : SlUint128) (value : Bytes) : LsmtState × Int :=
  let (rv, _, lsmt) := lsmtInsertLocked lsmt key value
  (lsmt, rv)

/-- No step makes the active memtable invalid. -/
theorem memtable_wf_step (w : World) (a : Action) (w' : World) (_ : True)
    (h : w.lsmt.memtable.Wf) (hstep : w.step a = some w') : w'.lsmt.memtable.Wf := by
  rcases World.step_memtables hstep with ⟨key, content, -, hmem, -⟩ | ⟨-, hmem, -⟩ |
    ⟨-, ⟨addr, hmem⟩, -⟩ | ⟨memtable, registered, -, -, hmem, -⟩ <;> rw [hmem]
  · rcases slInsert_cases (lsmtRotate_wf h) key content with ⟨hins, -⟩ | ⟨sl', hins, -, hwf, -⟩ <;>
      rw [hins]
    · exact lsmtRotate_wf h
    · exact hwf
  · exact h
  · exact Sl.wf_slInit addr
  · exact h

theorem memtable_wf_of_run {as : List Action} {w : World}
    (hrun : run World.step (World.init lsmtInit) as = some w) : w.lsmt.memtable.Wf :=
  run_invariant memtable_wf_step (fun _ _ => trivial) (Sl.wf_slInit 0) hrun

section Insert

variable {lsmt : LsmtState} {key : SlUint128}

/-- A refused insertion changes nothing that decides about the next one. -/
theorem lsmtInsert_of_refuses (h : lsmt.memtable.Wf) (hrefuses : lsmt.Refuses key)
    (value : Bytes) :
    (lsmtInsert lsmt key value).2 ≠ 0 ∧ (lsmtInsert lsmt key value).1.memtable.Wf ∧
      ∀ other, (lsmtInsert lsmt key value).1.Refuses other ↔ lsmt.Refuses other := by
  have hins : slInsert (lsmtRotate lsmt).1.memtable key value =
      ((lsmtRotate lsmt).1.memtable, -1) := by
    rcases slInsert_cases (lsmtRotate_wf h) key value with ⟨hins, -⟩ | ⟨sl', -, haccepts, -⟩
    · exact hins
    · exact absurd hrefuses haccepts
  have hresult : lsmtInsert lsmt key value = ((lsmtRotate lsmt).1, -1) := by
    rw [lsmtInsert, lsmtInsertLocked]
    simp only [hins]
  rw [hresult]
  refine ⟨(by decide : (-1 : Int) ≠ 0), lsmtRotate_wf h, fun other => ?_⟩
  -- a memtable that has just been put in place is not rotated again
  have htwice : (lsmtRotate (lsmtRotate lsmt).1).1.memtable = (lsmtRotate lsmt).1.memtable := by
    rcases lsmtRotate_cases lsmt with hsame | ⟨threads, needSpawn, -, hnew⟩
    · rw [hsame, hsame]
    · rw [hnew]
      rfl
  rw [LsmtState.Refuses, htwice, LsmtState.Refuses]

theorem lsmtInsert_of_not_refuses (h : lsmt.memtable.Wf) (haccepts : ¬ lsmt.Refuses key)
    (value : Bytes) : (lsmtInsert lsmt key value).2 = 0 := by
  rcases slInsert_cases (lsmtRotate_wf h) key value with ⟨-, hrefuses⟩ | ⟨sl', hins, -⟩
  · exact absurd hrefuses haccepts
  · rw [lsmtInsert, lsmtInsertLocked]
    simp only [hins]

/-- None of the calls inserts a record exactly when each of them would be refused as the first. -/
theorem insertAll_refused_iff (h : lsmt.memtable.Wf) (calls : List (SlUint128 × Bytes)) :
    (∀ i ∈ insertAll lsmtInsert lsmt calls, i.rv ≠ 0) ↔ ∀ call ∈ calls, lsmt.Refuses call.1 := by
  induction calls generalizing lsmt with
  | nil => simp [insertAll]
  | cons call calls ih =>
    obtain ⟨key, value⟩ := call
    rw [insertAll, List.forall_mem_cons, List.forall_mem_cons]
    by_cases hrefuses : lsmt.Refuses key
    · obtain ⟨hrv, hwf, hsame⟩ := lsmtInsert_of_refuses h hrefuses value
      simp only [ih hwf, hsame, hrv, hrefuses, ne_eq, not_false_eq_true, true_and]
    · have hrv := lsmtInsert_of_not_refuses h hrefuses value
      simp only [hrv, hrefuses, ne_eq, not_true_eq_false, false_and]

end Insert

/-! ## Entries as a whole -/

/-- The messages of the buffer in front of the first zero size word, or in front of an end that is
too short for a size word. -/
def FramesOf (buf : Bytes) (msgs : List Bytes) : Prop :=
  ∃ rest, buf = msgs.flatten ++ rest ∧ (∀ msg ∈ msgs, IsMsg msg) ∧
    (rest.length < 4 ∨ msgSize rest = 0)

/-- `FsmApply` applies the entry as a whole or not at all, and reads only the entry. -/
structure AllOrNothing (s : FsmState LsmtState) (buf : Bytes) : Prop where
  nothing : (fsmApply lsmtInsert s buf).2 = .malformed →
    (∀ i ∈ (fsmTrace lsmtInsert buf s.db 0).insertions, i.rv ≠ 0) ∧
      (fsmApply lsmtInsert s buf).1.totalRequests = s.totalRequests ∧
      (fsmApply lsmtInsert s buf).1.totalBytes = s.totalBytes
  all : (fsmApply lsmtInsert s buf).2 = .ok →
    (∃ msgs, FramesOf buf msgs ∧
      (fsmTrace lsmtInsert buf s.db 0).insertions.map (fun i => (i.key, i.value)) =
        msgs.map recordOf) ∧
      ∀ read ∈ (fsmTrace lsmtInsert buf s.db 0).reads, read.InBounds buf

/-- In front of each message of the entry that is refused, every record is one that `lsmt_insert`
refuses. -/
def RefusedInFront (lsmt : LsmtState) (buf : Bytes) : Prop :=
  ∀ (msgs : List Bytes) (rest : Bytes), buf = msgs.flatten ++ rest → (∀ msg ∈ msgs, MsgOk msg) →
    checkMsg rest = .malformed → ∀ msg ∈ msgs, lsmt.Refuses (recordKey msg)

theorem map_insertAll {σ : Type u} (lsmtInsert : σ → SlUint128 → Bytes → σ × Int) (db : σ)
    (calls : List (SlUint128 × Bytes)) :
    (insertAll lsmtInsert db calls).map (fun i => (i.key, i.value)) = calls := by
  induction calls generalizing db with
  | nil => rfl
  | cons call calls ih => rw [insertAll, List.map_cons, ih]

/-- The counters of a refused entry stay as they were. -/
theorem fsmApply_malformed {s : FsmState LsmtState} {buf : Bytes}
    (h : (fsmApply lsmtInsert s buf).2 = .malformed) :
    (fsmApply lsmtInsert s buf).1.totalRequests = s.totalRequests ∧
      (fsmApply lsmtInsert s buf).1.totalBytes = s.totalBytes := by
  rw [fsmApply_status] at h
  rw [fsmApply, fsmApplyLoop_eq, h]
  exact ⟨rfl, rfl⟩

theorem checkMsg_of_entryStatus {rest : Bytes} (hend : ∀ size, checkMsg rest ≠ .msg size) :
    (entryStatus rest = .ok → checkMsg rest = .finished) ∧
      (entryStatus rest = .malformed → checkMsg rest = .malformed) := by
  cases hcheck : checkMsg rest with
  | finished =>
    rw [entryStatus_of_finished hcheck]
    exact ⟨fun _ => rfl, FsmStatus.noConfusion⟩
  | malformed =>
    rw [entryStatus_of_malformed hcheck]
    exact ⟨FsmStatus.noConfusion, fun _ => rfl⟩
  | msg size => exact absurd hcheck (hend size)

theorem checkMsg_eq_finished {rest : Bytes} (h : checkMsg rest = .finished) :
    rest.length < 4 ∨ msgSize rest = 0 := by
  by_contra hnot
  obtain ⟨hlong, hsize⟩ := not_or.mp hnot
  rw [checkMsg, if_neg hlong, if_neg hsize] at h
  split at h
  · cases h
  · split at h
    · cases h
    · split at h <;> cases h

/-- An entry that is accepted consists of the messages that are passed on. -/
theorem framesOf_entryMsgs {buf : Bytes} (h : entryStatus buf = .ok) :
    FramesOf buf (entryMsgs buf) := by
  obtain ⟨rest, hsplit, hend, hstatus⟩ := exists_entryMsgs_append buf
  rw [hstatus] at h
  refine ⟨rest, hsplit, fun msg hmsg => (mem_entryMsgs hmsg).toIsMsg, ?_⟩
  exact checkMsg_eq_finished ((checkMsg_of_entryStatus hend).1 h)

/-- In every state that the store can reach, an entry is applied as a whole or not at all exactly
when no record that would be inserted stands in front of a refused message. -/
theorem fsmApply_allOrNothing_iff {as : List Action} {w : World}
    (hrun : run World.step (World.init lsmtInit) as = some w) (totalRequests totalBytes : Nat)
    (buf : Bytes) :
    AllOrNothing ⟨w.lsmt, totalRequests, totalBytes⟩ buf ↔ RefusedInFront w.lsmt buf := by
  have hwf := memtable_wf_of_run hrun
  have htrace := @fsmTrace_spec _ lsmtInsert buf w.lsmt 0
  rw [List.drop_zero] at htrace
  constructor
  · rintro ⟨hnothing, -⟩ msgs rest rfl hok hcheck msg hmsg
    have hstatus := entryStatus_flatten_append hok rest
    rw [entryStatus_of_malformed hcheck] at hstatus
    obtain ⟨hrefused, -⟩ := hnothing (by rw [fsmApply_status, hstatus])
    have hmsgs : entryMsgs (msgs.flatten ++ rest) = msgs := by
      rw [entryMsgs_flatten_append hok, entryMsgs_of_not_msg (by simp [hcheck]), List.append_nil]
    rw [htrace.insertions, insertAll_refused_iff hwf, entryCalls, hmsgs] at hrefused
    exact hrefused (recordOf msg) (List.mem_map_of_mem hmsg)
  · intro hfront
    refine ⟨fun hmalformed => ⟨?_, fsmApply_malformed hmalformed⟩, fun hok => ⟨?_, htrace.inBounds⟩⟩
    · rw [fsmApply_status] at hmalformed
      obtain ⟨rest, hsplit, hend, hstatus⟩ := exists_entryMsgs_append buf
      rw [hstatus] at hmalformed
      have hcheck := (checkMsg_of_entryStatus hend).2 hmalformed
      rw [htrace.insertions, insertAll_refused_iff hwf]
      intro call hcall
      obtain ⟨msg, hmsg, rfl⟩ := List.mem_map.mp hcall
      exact hfront (entryMsgs buf) rest hsplit (fun _ => mem_entryMsgs) hcheck msg hmsg
    · rw [fsmApply_status] at hok
      refine ⟨entryMsgs buf, framesOf_entryMsgs hok, ?_⟩
      rw [htrace.insertions, map_insertAll, entryCalls]

/-- Where the entry is split makes no difference: the messages in front of the refused one are those
that `FsmApply` hands to the store. -/
theorem refusedInFront_append {lsmt : LsmtState} {msgs : List Bytes} {rest : Bytes}
    (hok : ∀ msg ∈ msgs, MsgOk msg) (hcheck : checkMsg rest = .malformed) :
    RefusedInFront lsmt (msgs.flatten ++ rest) ↔ ∀ msg ∈ msgs, lsmt.Refuses (recordKey msg) := by
  have hmsgs : ∀ {msgs' : List Bytes} {rest' : Bytes}, (∀ msg ∈ msgs', MsgOk msg) →
      checkMsg rest' = .malformed → entryMsgs (msgs'.flatten ++ rest') = msgs' := by
    intro msgs' rest' hok' hcheck'
    rw [entryMsgs_flatten_append hok', entryMsgs_of_not_msg (by simp [hcheck']), List.append_nil]
  constructor
  · exact fun h => h msgs rest rfl hok hcheck
  · intro h msgs' rest' hsplit hok' hcheck'
    have hsame := congrArg entryMsgs hsplit
    rw [hmsgs hok hcheck, hmsgs hok' hcheck'] at hsame
    rw [← hsame]
    exact h

/-- A record of the reserved id and one whose key is taken, in front of a frame too short for a key. -/
def refusedEntry : Bytes := [message ⟨0, 5⟩ [], message ⟨1, 0⟩ [3]].flatten ++ [5, 0, 0, 0, 0]

/-- A record is put in the memtable. -/
def insertOne : List Action := [.insert ⟨1, 0⟩ [2, 1, 0, 0, 0, 7], .insertCall 0]

theorem fsmApply_allOrNothing_short : ∃ w, run World.step (World.init lsmtInit) insertOne = some w ∧
    AllOrNothing ⟨w.lsmt, 0, 0⟩ refusedEntry := by
  have hok : ∀ msg ∈ [message ⟨0, 5⟩ [], message ⟨1, 0⟩ [3]], MsgOk msg := by
    refine List.forall_mem_cons.mpr ⟨msgOk_message _ _ (by decide), ?_⟩
    exact List.forall_mem_singleton.mpr (msgOk_message _ _ (by decide))
  refine ⟨_, rfl, (@fsmApply_allOrNothing_iff insertOne _ rfl 0 0 refusedEntry).mpr ?_⟩
  refine (refusedInFront_append hok (by decide)).mpr ?_
  refine List.forall_mem_cons.mpr ⟨.inl ?_, List.forall_mem_singleton.mpr (.inr ?_)⟩
  · rw [show recordKey (message ⟨0, 5⟩ []) = ⟨0, 5⟩ from congrArg Prod.fst (recordOf_message _ _)]
  · rw [show recordKey (message ⟨1, 0⟩ [3]) = ⟨1, 0⟩ from congrArg Prod.fst (recordOf_message _ _)]
    exact ⟨_, List.mem_singleton_self _, rfl⟩

/-- A record for the sensor 1, and behind it a frame too short for a key. -/
def tornEntry : Bytes := [message ⟨1, 0⟩ []].flatten ++ [5, 0, 0, 0, 0]

theorem not_fsmApply_allOrNothing : ¬ AllOrNothing ⟨lsmtInit, 0, 0⟩ tornEntry := by
  intro h
  have hok : ∀ msg ∈ [message ⟨1, 0⟩ []], MsgOk msg :=
    List.forall_mem_singleton.mpr (msgOk_message _ _ (by decide))
  have hcheck : checkMsg [5, 0, 0, 0, 0] = .malformed := by decide
  have hstatus := entryStatus_flatten_append hok [5, 0, 0, 0, 0]
  rw [entryStatus_of_malformed hcheck] at hstatus
  have hmsgs : entryMsgs tornEntry = [message ⟨1, 0⟩ []] := by
    rw [tornEntry, entryMsgs_flatten_append hok, entryMsgs_of_not_msg (by simp [hcheck]),
      List.append_nil]
  have hins : (fsmTrace lsmtInsert tornEntry lsmtInit 0).insertions = [⟨⟨1, 0⟩, [], 0⟩] := by
    rw [(fsmTrace_spec lsmtInit 0).insertions, List.drop_zero, entryCalls, hmsgs, List.map_singleton,
      recordOf_message]
    rfl
  obtain ⟨hrefused, -⟩ := h.nothing (by rw [fsmApply_status]; exact hstatus)
  exact hrefused ⟨⟨1, 0⟩, [], 0⟩ (by rw [hins]; exact List.mem_singleton_self _) rfl

end RaftLsmt.Server
