import RaftLsmt.Server.InsertStream

/-!
# Which streams poison the log

The insert port checks of a message only that its size is at least four and that it fits into the
batch buffer; `FsmApply` refuses messages without a key and messages with more than 255 bytes of
value, when the entry is already committed. `unpoisoned_iff` says which streams produce only entries
that every replica accepts, however they are split into reads: those whose complete messages, as far
as the port takes them, all pass the checks of `FsmApply`.
-/

set_option autoImplicit false

namespace RaftLsmt.Server

open RaftLsmt.Lib.StepMachine
open RaftLsmt.Lsmt

universe u

/-- In every run on a connection that sends this stream, every entry handed to `raft_apply` is one
on which `FsmApply` returns 0, on every replica. -/
def Unpoisoned (stream : Bytes) : Prop :=
  ∀ (v : ServerView) (es : List ClientEvent) (c : InsertClient), receivedBytes es <+: stream →
    run InsertClient.step (onInsertConnection v) es = some c → ∀ req ∈ c.applies,
      ∀ (σ : Type u) (lsmtInsert : σ → SlUint128 → Bytes → σ × Int) (s : FsmState σ),
        (fsmApply lsmtInsert s req.entry).2 = .ok

/-- All messages at the front of the stream that the port may put into a batch pass the checks of
`FsmApply`. -/
def FrontAccepted (stream : Bytes) : Prop :=
  ∀ (msgs : List Bytes) (rest : Bytes), stream = msgs.flatten ++ rest → (∀ msg ∈ msgs, IsMsg msg) →
    (∀ msg ∈ msgs, msg.length ≤ bufferCapacity) → ∀ msg ∈ msgs, MsgOk msg

theorem unpoisoned_of_frontAccepted {stream : Bytes} (h : FrontAccepted stream) :
    Unpoisoned.{u} stream := by
  rintro v es c ⟨unsent, hsent⟩ hrun req hreq σ lsmtInsert s
  obtain ⟨parts, batch, htracks⟩ := InsertClient.tracks_of_run hrun
  obtain ⟨rest, hstream, -⟩ := htracks.stream
  have hok := h (parts.flatten ++ batch) (rest ++ unsent)
    (by rw [← List.append_assoc, hstream, hsent]) htracks.isMsg htracks.fits
  obtain ⟨msgs, hmsgs, hholds⟩ := htracks.exists_holds hreq
  rw [fsmApply_status, hholds.entry]
  refine (entryStatus_flatten_eq_ok_iff (fun msg hmsg => ?_) _).mpr fun msg hmsg => ?_
  · exact (hok msg (List.mem_append_left batch (List.mem_flatten.mpr ⟨msgs, hmsgs, hmsg⟩))).toIsMsg
  · exact hok msg (List.mem_append_left batch (List.mem_flatten.mpr ⟨msgs, hmsgs, hmsg⟩))

/-! ## A stream read byte by byte -/

/-- The view of a leader that keeps up and whose `raft_apply` succeeds. -/
def leaderView : ServerView where
  isLeader := true
  immutableCount := 0
  raftApplyOk := fun _ => true
  leaderId := 1
  leaderAddr := none
  uvWriteOk := true

namespace InsertClient

/-- A connection that is read from and has taken everything, with these entries. -/
def idle (applies : List ApplyReq) : InsertClient :=
  { accepted with reading := true, listed := true, applies := applies }

/-- The entry of a single message whose callback has not run. -/
def singleReq (msg : Bytes) : ApplyReq := ⟨alignedEntry msg, 1, .pending⟩

variable {applies : List ApplyReq} {msg : Bytes}

theorem flush_single (buffer : Bytes) :
    batchBufferFlush leaderView { idle applies with
      buffer := buffer, batchBuffer := msg, batchedReqCount := 1 } =
      { idle (applies ++ [singleReq msg]) with buffer := buffer } := by
  simp [batchBufferFlush, leaderView, idle, accepted, singleReq]

/-- A message that makes a full batch of its own is flushed at once. -/
theorem addToBatch_single (buffer : Bytes) :
    addToBatch leaderView { idle applies with buffer := buffer } msg =
        { idle applies with buffer := buffer, batchBuffer := msg, batchedReqCount := 1 } ∨
      addToBatch leaderView { idle applies with buffer := buffer } msg =
        { idle (applies ++ [singleReq msg]) with buffer := buffer } := by
  rw [addToBatch]
  simp only [idle, accepted, List.nil_append, Nat.zero_add]
  split
  · exact Or.inr (flush_single buffer)
  · exact Or.inl rfl

theorem processLoop_single (hmsg : IsMsg msg) (hfits : msg.length ≤ bufferCapacity)
    {c : InsertClient} (hbatch : c.batchBuffer = []) :
    processLoop leaderView c msg = (addToBatch leaderView c msg, some []) := by
  have hfour := hmsg.four_le
  rw [processLoop, if_neg (by omega), hmsg.size_eq, if_neg (by omega), if_neg (lt_irrefl _),
    if_neg (by simp [leaderView]), if_pos (by simpa [hbatch] using hfits), List.take_length,
    List.drop_length, processLoop, if_pos (by simp)]

/-- The bytes that complete a message make an entry of it. -/
theorem onClientRead_last (hmsg : IsMsg msg) (hfits : msg.length ≤ bufferCapacity)
    {got chunk : Bytes} (hsplit : got ++ chunk = msg) :
    onClientRead leaderView { idle applies with buffer := got } chunk =
      idle (applies ++ [singleReq msg]) := by
  have hsize : ¬ msg.length > maxClientBufSize :=
    not_lt.mpr (le_trans hfits (by decide))
  rw [onClientRead]
  simp only [hsplit, if_neg hsize]
  rw [processInsertBuffer, if_neg (by simp [leaderView]), processLoop_single hmsg hfits rfl]
  rcases @addToBatch_single applies msg msg with hadd | hadd
  · simp only [hadd]
    rw [if_pos (by simp), flush_single]
    rfl
  · simp only [hadd]
    rw [if_neg (by simp [idle, accepted])]
    rfl

/-- The bytes in front of the last one wait in the buffer. -/
theorem onClientRead_waits (hmsg : IsMsg msg) (hfits : msg.length ≤ bufferCapacity)
    {got chunk rest : Bytes} (hsplit : got ++ chunk ++ rest = msg) (hrest : rest ≠ []) :
    onClientRead leaderView { idle applies with buffer := got } chunk =
      { idle applies with buffer := got ++ chunk } := by
  have hlen : (got ++ chunk).length < msg.length := by
    rw [← hsplit, @List.length_append _ (got ++ chunk)]
    have := List.length_pos_of_ne_nil hrest
    omega
  have hsize : ¬ (got ++ chunk).length > maxClientBufSize := by
    have hcap : bufferCapacity ≤ maxClientBufSize := by decide
    omega
  have hloop : processLoop leaderView { idle applies with buffer := got ++ chunk }
      (got ++ chunk) = ({ idle applies with buffer := got ++ chunk }, some (got ++ chunk)) := by
    rw [processLoop]
    by_cases hshort : (got ++ chunk).length < 4
    · rw [if_pos hshort]
    · have hmsgSize : msgSize (got ++ chunk) = msg.length := by
        rw [← hmsg.size_eq, ← hsplit, msgSize_append (not_lt.mp hshort)]
      have hfour := hmsg.four_le
      rw [if_neg hshort, hmsgSize, if_neg (by omega), if_pos hlen]
  rw [onClientRead]
  simp only [if_neg hsize]
  rw [processInsertBuffer, if_neg (by simp [leaderView])]
  simp only [hloop]
  rw [if_neg (by simp [idle, accepted])]

/-- Reading a message byte by byte makes an entry of it. -/
theorem run_readBytes (hmsg : IsMsg msg) (hfits : msg.length ≤ bufferCapacity) (got rest : Bytes)
    (hsplit : got ++ rest = msg) (hrest : rest ≠ []) :
    run InsertClient.step { idle applies with buffer := got }
        (rest.map fun b => .read leaderView [b]) = some (idle (applies ++ [singleReq msg])) := by
  induction rest generalizing got with
  | nil => exact absurd rfl hrest
  | cons b rest ih =>
    rw [List.map_cons, run_cons_eq_some]
    by_cases hnil : rest = []
    · subst hnil
      refine ⟨idle (applies ++ [singleReq msg]), ?_, rfl⟩
      rw [← onClientRead_last hmsg hfits hsplit]
      simp [InsertClient.step, idle, accepted]
    · refine ⟨{ idle applies with buffer := got ++ [b] }, ?_, ih (got ++ [b]) (by simpa using hsplit)
        hnil⟩
      rw [← @onClientRead_waits _ _ hmsg hfits _ [b] rest (by simpa using hsplit) hnil]
      simp [InsertClient.step, idle, accepted]

theorem run_readMsg (hmsg : IsMsg msg) (hfits : msg.length ≤ bufferCapacity) :
    run InsertClient.step (idle applies) (msg.map fun b => .read leaderView [b]) =
      some (idle (applies ++ [singleReq msg])) := by
  refine run_readBytes hmsg hfits [] msg rfl fun hnil => ?_
  have hfour := hmsg.four_le
  rw [hnil] at hfour
  simp at hfour

/-- Reading messages byte by byte makes an entry of each. -/
theorem run_readMsgs {msgs : List Bytes} (hmsgs : ∀ msg ∈ msgs, IsMsg msg)
    (hfits : ∀ msg ∈ msgs, msg.length ≤ bufferCapacity) :
    run InsertClient.step (idle applies) (msgs.flatten.map fun b => .read leaderView [b]) =
      some (idle (applies ++ msgs.map singleReq)) := by
  induction msgs generalizing applies with
  | nil => simp
  | cons msg msgs ih =>
    rw [List.flatten_cons, List.map_append, run_append_eq_some]
    refine ⟨_, run_readMsg (hmsgs msg List.mem_cons_self) (hfits msg List.mem_cons_self), ?_⟩
    rw [ih (fun m hm => hmsgs m (List.mem_cons_of_mem msg hm))
      fun m hm => hfits m (List.mem_cons_of_mem msg hm), List.append_assoc]
    rfl

end InsertClient

theorem receivedBytes_bytes (v : ServerView) (bytes : Bytes) :
    receivedBytes (bytes.map fun b => .read v [b]) = bytes := by
  induction bytes with
  | nil => rfl
  | cons b bytes ih => exact congrArg (b :: ·) ih

theorem frontAccepted_of_unpoisoned {stream : Bytes} (h : Unpoisoned.{u} stream) :
    FrontAccepted stream := by
  intro msgs rest hstream hmsgs hfits msg hmsg
  have hrun := @InsertClient.run_readMsgs [] msgs hmsgs hfits
  have hentry := h leaderView _ _ (by rw [receivedBytes_bytes, hstream]; exact List.prefix_append _ _)
    hrun (InsertClient.singleReq msg) (List.mem_map_of_mem hmsg) PUnit (fun s _ _ => (s, 0))
    ⟨PUnit.unit, 0, 0⟩
  rw [fsmApply_status] at hentry
  have hsingle : alignedEntry msg = [msg].flatten ++
      List.replicate ((msg.length + 7) / 8 * 8 - msg.length) 0 := by
    rw [List.flatten_singleton]
    rfl
  rw [show (InsertClient.singleReq msg).entry = alignedEntry msg from rfl, hsingle,
    entryStatus_flatten_eq_ok_iff (by simpa using hmsgs msg hmsg)] at hentry
  exact hentry msg List.mem_cons_self

/-- A stream produces only entries that `FsmApply` accepts on every replica, however it is split
into reads and whatever else happens on the server, exactly when each message the port takes off it
is one that `FsmApply` accepts. -/
theorem unpoisoned_iff (stream : Bytes) : Unpoisoned.{u} stream ↔ FrontAccepted stream :=
  ⟨frontAccepted_of_unpoisoned, unpoisoned_of_frontAccepted⟩

/-- A message of four bytes, nothing but its size word, is replicated and then refused. -/
theorem unpoisoned_fails : ¬ ∀ stream : Bytes, Unpoisoned.{0} stream := by
  intro hall
  have hmsg : IsMsg [4, 0, 0, 0] := ⟨by decide, by decide⟩
  have hok := frontAccepted_of_unpoisoned (hall [4, 0, 0, 0]) [[4, 0, 0, 0]] [] rfl
    (by simpa using hmsg) (by simp [bufferCapacity, batchSize, insertCmdSize]) [4, 0, 0, 0]
    List.mem_cons_self
  exact absurd hok.header_le (by decide)

end RaftLsmt.Server
