import RaftLsmt.Server.SteadyStream

/-!
# How the bytes arrive

The bytes of an insert client come in reads of any size. Whether a message fits is tested against
what the batch holds, and the batch is passed on when a read ends behind a message, when the timer
ticks and when the batch is full. So the reads decide what a message is tested against.

`SplitRun` is one way in which the bytes of some messages come in, down to the end of the stream.
`framing_independent_iff` says for which messages all these ways have the same outcome.
-/

set_option autoImplicit false

namespace RaftLsmt.Server

open RaftLsmt.Lib.ByteCodec
open RaftLsmt.Lsmt

/-! ## The outcome of a run -/

/-- The loop of `process_insert_buffer` ends with `Message too large for batch buffer`. -/
def messageTooLarge (v : ServerView) (c : InsertClient) (rest : Bytes) : Bool :=
  if rest.length < 4 then false
  else if msgSize rest < 4 then false
  else if msgSize rest > rest.length then false
  else if v.isLeader = false then false
  else if c.batchBuffer.length + msgSize rest ≤ bufferCapacity then
    messageTooLarge v (addToBatch v c (rest.take (msgSize rest))) (rest.drop (msgSize rest))
  else true
termination_by rest.length
decreasing_by
  rw [List.length_drop]
  omega

/-- So does `process_insert_buffer`. -/
def bufferTooLarge (v : ServerView) (c : InsertClient) : Bool :=
  decide (v.immutableCount < 24) && messageTooLarge v c c.buffer

/-- So does a callback. -/
def ClientEvent.tooLarge (c : InsertClient) : ClientEvent → Bool
  | .read v chunk =>
    decide ((c.buffer ++ chunk).length ≤ maxClientBufSize) &&
      bufferTooLarge v { c with buffer := c.buffer ++ chunk }
  | .readEnd v => decide (c.buffer.length > 0) && bufferTooLarge v c
  | .statsTimer v =>
    decide (v.immutableCount < 12 ∧ (batchBufferFlush v c).isPaused = true) &&
      bufferTooLarge v { batchBufferFlush v c with isPaused := false, reading := true }
  | _ => false

/-- A connection, and whether it has been closed for a message too large. -/
structure FedClient where
  client : InsertClient
  tooLarge : Bool

/-- One more callback; a callback that is not enabled does not come. -/
def FedClient.feed (f : FedClient) (e : ClientEvent) : FedClient :=
  match f.client.step e with
  | none => f
  | some c => ⟨c, f.tooLarge || e.tooLarge f.client⟩

/-- Messages in the front of an entry. -/
def takeFrames : Nat → Bytes → List Bytes
  | 0, _ => []
  | n + 1, bytes => bytes.take (msgSize bytes) :: takeFrames n (bytes.drop (msgSize bytes))

/-- The messages handed to `raft_apply`. -/
def handed (c : InsertClient) : List Bytes :=
  c.applies.flatMap fun req => takeFrames req.reqCount req.entry

/-- A callback before the end of the stream, while the server leads, does not pause the client, and
nothing fails. -/
def ClientEvent.Undisturbed : ClientEvent → Prop
  | .read v chunk =>
    v.Leads ∧ v.immutableCount < 24 ∧ chunk ≠ [] ∧ chunk.length ≤ uvSuggestedSize
  | .statsTimer v => v.Leads
  | .applied _ _ uvWriteOk => uvWriteOk = true
  | _ => False

/-- One way in which these messages come in: the callbacks up to the last byte, and the end of the
stream. -/
structure SplitRun (frames : List Bytes) where
  first : ServerView
  events : List ClientEvent
  last : ServerView
  first_leads : first.Leads
  undisturbed : ∀ e ∈ events, e.Undisturbed
  received : receivedBytes events = frames.flatten
  last_leads : last.Leads
  last_running : last.immutableCount < 24

/-- What has become of the connection. -/
def SplitRun.outcome {frames : List Bytes} (r : SplitRun frames) : FedClient :=
  (r.events ++ [ClientEvent.readEnd r.last]).foldl FedClient.feed ⟨onInsertConnection r.first, false⟩

/-- All ways in which these messages come in have the same outcome. -/
def FramingIndependent (frames : List Bytes) : Prop :=
  ∀ r r' : SplitRun frames, handed r.outcome.client = handed r'.outcome.client ∧
    (r.outcome.tooLarge = true ↔ r'.outcome.tooLarge = true)

/-! ## Entries and their messages -/

theorem takeFrames_flatten {msgs : List Bytes} (h : ∀ msg ∈ msgs, IsMsg msg) (rest : Bytes) :
    takeFrames msgs.length (msgs.flatten ++ rest) = msgs := by
  induction msgs with
  | nil => rfl
  | cons msg msgs ih =>
    have hmsg := h msg List.mem_cons_self
    have hsize : msgSize (msg ++ (msgs.flatten ++ rest)) = msg.length := by
      rw [msgSize_append hmsg.four_le, hmsg.size_eq]
    rw [List.length_cons, takeFrames, List.flatten_cons, List.append_assoc, hsize, List.take_left,
      List.drop_left, ih fun m hm => h m (List.mem_cons_of_mem msg hm)]

/-- The messages handed on are those of the batches. -/
theorem handed_eq {applies : List ApplyReq} {parts : List (List Bytes)}
    (h : List.Forall₂ ApplyReq.Holds applies parts) (hmsgs : ∀ msg ∈ parts.flatten, IsMsg msg) :
    (applies.flatMap fun req => takeFrames req.reqCount req.entry) = parts.flatten := by
  induction h with
  | nil => rfl
  | @cons req msgs applies parts hreq _ ih =>
    have hown : ∀ msg ∈ msgs, IsMsg msg := fun msg hmsg => hmsgs msg (List.mem_append_left _ hmsg)
    rw [List.flatMap_cons, List.flatten_cons, hreq.entry, hreq.count, alignedEntry,
      takeFrames_flatten hown, ih fun msg hmsg => hmsgs msg (List.mem_append_right _ hmsg)]

/-- The loop that refuses a message returns `false`. -/
theorem processLoop_of_tooLarge {v : ServerView} {c : InsertClient} {rest : Bytes}
    (h : messageTooLarge v c rest = true) : (processLoop v c rest).2 = none := by
  fun_induction processLoop v c rest with
  | case1 c rest hshort =>
    unfold messageTooLarge at h
    rw [if_pos hshort] at h
    cases h
  | case2 c rest hlong hsmall => rfl
  | case3 c rest hlong hlarge hincomplete =>
    unfold messageTooLarge at h
    rw [if_neg hlong, if_neg hlarge, if_pos hincomplete] at h
    cases h
  | case4 c rest hlong hlarge hcomplete hfollower => rfl
  | case5 c rest hlong hlarge hcomplete hleader hroom ih =>
    unfold messageTooLarge at h
    rw [if_neg hlong, if_neg hlarge, if_neg hcomplete, if_neg hleader, if_pos hroom] at h
    exact ih h
  | case6 c rest hlong hlarge hcomplete hleader hfull => rfl

theorem not_tooLarge_of_some {v : ServerView} {c c' : InsertClient} {rest left : Bytes}
    (h : processLoop v c rest = (c', some left)) : messageTooLarge v c rest = false := by
  rw [← Bool.not_eq_true]
  intro hlarge
  have hnone := processLoop_of_tooLarge hlarge
  rw [h] at hnone
  cases hnone

/-! ## Messages that fit -/

namespace FedClient

/-- What holds of a connection that has received `received` of messages that fit: it is open, it has
taken all complete messages, and, with an empty buffer, passed its batch on. -/
structure Even (f : FedClient) (received : Bytes) : Prop where
  tooLarge : f.tooLarge = false
  took : ∃ parts batch, f.client.Took parts batch ∧
    (parts.flatten ++ batch).flatten ++ f.client.buffer = received
  room : f.client.batchBuffer.length < bufferCapacity
  short : f.client.buffer.length < bufferCapacity
  incomplete : Incomplete f.client.buffer
  drained : f.client.buffer = [] → f.client.batchedReqCount = 0
  reading : f.client.reading = true
  isPaused : f.client.isPaused = false
  closing : f.client.closing = false

/-- Messages of which the server takes each one alone, and any number of them in a batch. -/
structure Frames (frames : List Bytes) : Prop where
  isMsg : ∀ frame ∈ frames, IsMsg frame ∧ frame.length ≤ bufferCapacity
  fit : BatchesFit frames

variable {f : FedClient} {received : Bytes} {frames : List Bytes} {v : ServerView}

theorem length_batchBuffer_flush (v : ServerView) (c : InsertClient) :
    (batchBufferFlush v c).batchBuffer.length ≤ c.batchBuffer.length := by
  unfold batchBufferFlush
  split
  · exact le_refl _
  · simp only
    split <;> exact Nat.zero_le _

/-- `process_insert_buffer` on a connection that is not paused. -/
theorem even_processInsertBuffer (hv : v.Leads) (hrunning : v.immutableCount < 24)
    (hframes : Frames frames) {c : InsertClient} (hsent : received <+: frames.flatten)
    (htook : ∃ parts batch, c.Took parts batch ∧
      (parts.flatten ++ batch).flatten ++ c.buffer = received)
    (hroom : c.batchBuffer.length < bufferCapacity) (hreading : c.reading = true)
    (hpaused : c.isPaused = false) (hopen : c.closing = false) :
    Even ⟨processInsertBuffer v c, false⟩ received ∧ bufferTooLarge v c = false := by
  obtain ⟨parts, batch, htook, hstream⟩ := htook
  -- the loop takes what is whole and leaves less than a message
  obtain ⟨c', left, hloop, hleft, hincomplete, hsame, hroom'⟩ :=
    InsertClient.processLoop_fits hv hframes.isMsg hframes.fit htook hroom (hstream.symm ▸ hsent)
  have hshort : left.length < bufferCapacity := hleft.elim (fun h => lt_trans h (by decide)) id
  have hspec := InsertClient.processLoop_spec v htook hstream
  rw [hloop] at hspec
  obtain ⟨parts', batch', rest, htook', hstream', hrest⟩ := hspec.took
  obtain rfl : left = rest := hrest left rfl
  have hset : ({ c' with buffer := left } : InsertClient).Took parts' batch' :=
    ⟨htook'.1, htook'.2, htook'.3, htook'.4, htook'.5, htook'.6⟩
  constructor
  · unfold processInsertBuffer
    rw [if_neg (not_le.mpr hrunning), hloop]
    simp only
    split
    · -- the batch is passed on
      have hflush := InsertClient.batchBufferFlush_sameConnection hv { c' with buffer := left }
      have hbuffer := (InsertClient.batchBufferFlush_sameInput v { c' with buffer := left }).buffer
      obtain ⟨parts'', hflushed, hparts⟩ := hset.flush v
      refine ⟨rfl, ⟨parts'', [], hflushed, ?_⟩, ?_, ?_, ?_, ?_, ?_, ?_, ?_⟩
      · rw [List.append_nil, hparts, hbuffer, hstream']
      · exact lt_of_le_of_lt (length_batchBuffer_flush v _) hroom'
      · rw [hbuffer]
        exact hshort
      · rw [hbuffer]
        exact hincomplete
      · exact fun _ => InsertClient.batchBufferFlush_count v _
      · exact hflush.reading.trans (hsame.reading.trans hreading)
      · exact hflush.isPaused.trans (hsame.isPaused.trans hpaused)
      · exact hflush.closing.trans (hsame.closing.trans hopen)
    · -- the batch is kept for the next read
      rename_i hkeep
      refine ⟨rfl, ⟨parts', batch', hset, hstream'⟩, hroom', hshort, hincomplete, ?_,
        hsame.reading.trans hreading, hsame.isPaused.trans hpaused, hsame.closing.trans hopen⟩
      intro hempty
      by_contra hne
      exact hkeep ⟨hempty, Nat.pos_of_ne_zero hne⟩
  · unfold bufferTooLarge
    rw [not_tooLarge_of_some hloop, Bool.and_false]

theorem Even.read (h : f.Even received) (hframes : Frames frames) {chunk : Bytes}
    (he : (ClientEvent.read v chunk).Undisturbed) (hsent : received ++ chunk <+: frames.flatten) :
    (f.feed (.read v chunk)).Even (received ++ chunk) := by
  obtain ⟨hv, hrunning, hne, hchunk⟩ := he
  have hsize : (f.client.buffer ++ chunk).length ≤ maxClientBufSize := by
    have hshort := h.short
    rw [List.length_append]
    simp only [bufferCapacity, batchSize, insertCmdSize, uvSuggestedSize, maxClientBufSize] at *
    omega
  have hstep : f.client.step (.read v chunk) = some (processInsertBuffer v
      { f.client with buffer := f.client.buffer ++ chunk }) := by
    rw [InsertClient.step, if_pos ⟨h.reading, h.closing, hne⟩, onClientRead,
      if_neg (not_lt.mpr hsize)]
  obtain ⟨parts, batch, htook, hstream⟩ := h.took
  obtain ⟨heven, hnot⟩ := @even_processInsertBuffer (received ++ chunk) frames v hv hrunning hframes
    { f.client with buffer := f.client.buffer ++ chunk } hsent
    ⟨parts, batch, ⟨htook.1, htook.2, htook.3, htook.4, htook.5, htook.6⟩,
      by rw [← List.append_assoc, hstream]⟩ h.room h.reading h.isPaused h.closing
  have hflag : (ClientEvent.read v chunk).tooLarge f.client = false := by
    show (_ && bufferTooLarge v { f.client with buffer := f.client.buffer ++ chunk }) = false
    rw [hnot, Bool.and_false]
  unfold feed
  simp only [hstep, hflag, h.tooLarge]
  exact heven

/-- The timer only passes the batch on. -/
theorem Even.statsTimer (h : f.Even received) (hv : v.Leads) :
    (f.feed (.statsTimer v)).Even received := by
  unfold feed
  split
  · exact h
  · rename_i c hstep
    rw [InsertClient.step] at hstep
    split at hstep
    · cases hstep
      have hsame := InsertClient.batchBufferFlush_sameConnection hv f.client
      have hbuffer := (InsertClient.batchBufferFlush_sameInput v f.client).buffer
      have hpaused : (batchBufferFlush v f.client).isPaused = false := hsame.isPaused.trans h.isPaused
      have hturn : Server.statsTimerTurn v f.client = batchBufferFlush v f.client := by
        unfold Server.statsTimerTurn
        rw [if_neg]
        rintro ⟨-, hresumed⟩
        rw [hpaused] at hresumed
        cases hresumed
      have hflag : (ClientEvent.statsTimer v).tooLarge f.client = false := by
        simp only [ClientEvent.tooLarge, hpaused]
        simp
      obtain ⟨parts, batch, htook, hstream⟩ := h.took
      obtain ⟨parts', hflushed, hparts⟩ := htook.flush v
      rw [hturn, hflag, Bool.or_false]
      refine ⟨h.tooLarge, ⟨parts', [], hflushed, ?_⟩, ?_, ?_, ?_, ?_, hsame.reading.trans h.reading,
        hpaused, hsame.closing.trans h.closing⟩
      · rw [List.append_nil, hparts, hbuffer, hstream]
      · exact lt_of_le_of_lt (length_batchBuffer_flush v _) h.room
      · rw [hbuffer]
        exact h.short
      · rw [hbuffer]
        exact h.incomplete
      · exact fun _ => InsertClient.batchBufferFlush_count v _
    · cases hstep

/-- A completion changes the outcome of its entry and what has been written. -/
theorem Even.applied (h : f.Even received) (i : Nat) (ok : Bool) :
    (f.feed (.applied i ok true)).Even received := by
  unfold feed
  split
  · exact h
  · rename_i c hstep
    rw [InsertClient.step] at hstep
    split at hstep
    · rename_i req hreq
      split at hstep
      · cases hstep
        obtain ⟨parts, batch, htook, hstream⟩ := h.took
        have happlies := InsertClient.holds_set_outcome htook.applies hreq (.completed ok)
        rw [show (ClientEvent.applied i ok true).tooLarge f.client = false from rfl, Bool.or_false]
        unfold Server.serverApplyCb
        simp only [if_true]
        split <;> exact ⟨h.tooLarge,
          ⟨parts, batch, ⟨happlies, htook.2, htook.3, htook.4, htook.5, htook.6⟩, hstream⟩, h.room,
          h.short, h.incomplete, h.drained, h.reading, h.isPaused, h.closing⟩
      · cases hstep
    · cases hstep

/-- Every callback before the end of the stream. -/
theorem Even.feed (h : f.Even received) (hframes : Frames frames) {e : ClientEvent}
    (he : e.Undisturbed) (hsent : received ++ e.received <+: frames.flatten) :
    (f.feed e).Even (received ++ e.received) := by
  cases e with
  | read v chunk => exact h.read hframes he hsent
  | readEnd v => cases he
  | statsTimer v =>
    simp only [ClientEvent.received, List.append_nil]
    exact h.statsTimer he
  | applied i ok uvWriteOk =>
    cases he
    simp only [ClientEvent.received, List.append_nil]
    exact h.applied i ok
  | redirectWritten => cases he
  | writeFailed => cases he

theorem even_accepted (hv : v.Leads) : Even ⟨onInsertConnection v, false⟩ [] := by
  have htook := InsertClient.took_accepted
  unfold onInsertConnection
  rw [if_pos hv.isLeader]
  refine ⟨rfl, ⟨[], [], ?_, rfl⟩, ?_, ?_, Or.inl (by decide), fun _ => rfl, rfl, rfl, rfl⟩
  · exact ⟨htook.1, htook.2, htook.3, htook.4, htook.5, htook.6⟩
  · exact Nat.mul_pos (by decide) (by decide)
  · exact Nat.mul_pos (by decide) (by decide)

/-- Every run of callbacks before the end of the stream. -/
theorem Even.run (h : f.Even received) (hframes : Frames frames) {es : List ClientEvent}
    (hes : ∀ e ∈ es, e.Undisturbed) (hsent : received ++ receivedBytes es <+: frames.flatten) :
    (es.foldl FedClient.feed f).Even (received ++ receivedBytes es) := by
  induction es generalizing f received with
  | nil =>
    rw [receivedBytes, List.flatMap_nil, List.append_nil]
    exact h
  | cons e es ih =>
    rw [receivedBytes, List.flatMap_cons, ← List.append_assoc] at hsent ⊢
    have hnext := h.feed hframes (hes e List.mem_cons_self)
      ((List.prefix_append _ _).trans hsent)
    exact ih hnext (fun e' he' => hes e' (List.mem_cons_of_mem e he')) hsent

/-- At the end of the stream every message has been handed on. -/
theorem Even.readEnd (h : f.Even frames.flatten) (hframes : Frames frames) (v : ServerView) :
    handed (f.feed (.readEnd v)).client = frames ∧ (f.feed (.readEnd v)).tooLarge = false := by
  obtain ⟨parts, batch, htook, hstream⟩ := h.took
  have hismsgs : ∀ msg ∈ frames, IsMsg msg := fun msg hmsg => (hframes.isMsg msg hmsg).1
  obtain ⟨later, hlater, hrest⟩ := exists_append_of_flatten htook.isMsg hismsgs
    ⟨[], (List.append_nil _).trans hstream⟩
  -- less than a message is left, so nothing is
  have hleft : later.flatten = f.client.buffer := by
    have hall := congrArg List.flatten hlater
    rw [← hstream, @List.flatten_append _ (parts.flatten ++ batch)] at hall
    exact (List.append_cancel_left hall).symm
  obtain rfl : later = [] := by
    apply Incomplete.eq_nil fun msg hmsg => hismsgs msg (hlater ▸ List.mem_append_right _ hmsg)
    rw [hleft]
    exact h.incomplete
  have hempty : f.client.buffer = [] := hleft.symm
  have hcount := h.drained hempty
  obtain rfl : batch = [] := List.length_eq_zero_iff.mp (htook.count.symm.trans hcount)
  rw [List.append_nil, List.append_nil] at hlater
  have hstep : f.client.step (.readEnd v) = some (closeAndFreeClient f.client) := by
    rw [InsertClient.step, if_pos ⟨h.reading, h.closing⟩, onClientEnd, hempty,
      if_neg (by exact Nat.lt_irrefl 0), batchBufferFlush, if_pos hcount]
  have hflag : (ClientEvent.readEnd v).tooLarge f.client = false := by
    unfold ClientEvent.tooLarge
    rw [hempty]
    rfl
  unfold FedClient.feed
  simp only [hstep, hflag, h.tooLarge]
  refine ⟨?_, rfl⟩
  have hown : ∀ msg ∈ parts.flatten, IsMsg msg := fun msg hmsg => hismsgs msg (hlater ▸ hmsg)
  exact (handed_eq htook.applies hown).trans hlater.symm

/-- A message too large stays in the outcome. -/
theorem tooLarge_feed {f : FedClient} (h : f.tooLarge = true) (e : ClientEvent) :
    (f.feed e).tooLarge = true := by
  unfold feed
  split
  · exact h
  · show (f.tooLarge || _) = true
    rw [h, Bool.true_or]

theorem tooLarge_foldl {f : FedClient} (h : f.tooLarge = true) (es : List ClientEvent) :
    (es.foldl feed f).tooLarge = true := by
  induction es generalizing f with
  | nil => exact h
  | cons e es ih => exact ih (tooLarge_feed h e)

end FedClient

/-! ## Messages that do not fit -/

section Loop

variable {v : ServerView} {c : InsertClient} {msg rest : Bytes}

theorem processLoop_incomplete (h : Incomplete rest) : processLoop v c rest = (c, some rest) := by
  rw [processLoop]
  by_cases hshort : rest.length < 4
  · rw [if_pos hshort]
  · have hlonger : rest.length < msgSize rest := h.resolve_left hshort
    rw [if_neg hshort, if_neg (by omega), if_pos hlonger]

/-- The sizes at the front of a stream that starts with a message. -/
theorem msgSize_front (hmsg : IsMsg msg) (rest : Bytes) :
    ¬ (msg ++ rest).length < 4 ∧ msgSize (msg ++ rest) = msg.length ∧ ¬ msg.length < 4 ∧
      ¬ msg.length > (msg ++ rest).length := by
  have hfour := hmsg.four_le
  have hsize : msgSize (msg ++ rest) = msg.length := by rw [msgSize_append hfour, hmsg.size_eq]
  rw [List.length_append]
  exact ⟨by omega, hsize, by omega, by omega⟩

theorem IsMsg.ne_nil (h : IsMsg msg) : msg ≠ [] :=
  List.ne_nil_of_length_pos (Nat.lt_of_lt_of_le (by decide) h.four_le)

/-- A complete message that fits is added to the batch. -/
theorem processLoop_msg (hv : v.Leads) (hmsg : IsMsg msg)
    (hroom : c.batchBuffer.length + msg.length ≤ bufferCapacity) (rest : Bytes) :
    processLoop v c (msg ++ rest) = processLoop v (addToBatch v c msg) rest := by
  obtain ⟨hlong, hsize, hlarge, hcomplete⟩ := msgSize_front hmsg rest
  rw [processLoop, hsize, if_neg hlong, if_neg hlarge, if_neg hcomplete,
    if_neg (by rw [hv.isLeader]; exact Bool.noConfusion), if_pos hroom, List.take_left,
    List.drop_left]

/-- A complete message that does not fit is too large. -/
theorem messageTooLarge_msg (hv : v.Leads) (hmsg : IsMsg msg)
    (hfull : ¬ c.batchBuffer.length + msg.length ≤ bufferCapacity) (rest : Bytes) :
    messageTooLarge v c (msg ++ rest) = true := by
  obtain ⟨hlong, hsize, hlarge, hcomplete⟩ := msgSize_front hmsg rest
  rw [messageTooLarge, hsize, if_neg hlong, if_neg hlarge, if_neg hcomplete,
    if_neg (by rw [hv.isLeader]; exact Bool.noConfusion), if_neg hfull]

/-- The first bytes of a message. -/
theorem incomplete_of_append {front behind : Bytes} (hmsg : IsMsg (front ++ behind))
    (hbehind : behind ≠ []) : Incomplete front := by
  by_cases hshort : front.length < 4
  · exact Or.inl hshort
  · right
    rw [← msgSize_append (not_lt.mp hshort) behind, hmsg.size_eq, List.length_append]
    exact Nat.lt_add_of_pos_right (List.length_pos_iff.mpr hbehind)

end Loop

/-- A server that leads and does not pause its clients. -/
def steadyView : ServerView where
  isLeader := true
  immutableCount := 0
  raftApplyOk := fun _ => true
  leaderId := 0
  leaderAddr := none
  uvWriteOk := true

theorem steadyView_leads : steadyView.Leads := ⟨rfl, fun _ => rfl⟩

/-- A connection that collects `batch` and has the bytes `front` of the next message. -/
structure Waits (c : InsertClient) (batch : List Bytes) (front : Bytes) : Prop where
  batchBuffer : c.batchBuffer = batch.flatten
  count : c.batchedReqCount = batch.length
  buffer : c.buffer = front
  reading : c.reading = true
  isPaused : c.isPaused = false
  closing : c.closing = false

/-- Reads of these pieces. -/
def feedReads (f : FedClient) (chunks : List Bytes) : FedClient :=
  (chunks.map (ClientEvent.read steadyView)).foldl FedClient.feed f

theorem feedReads_append (f : FedClient) (chunks chunks' : List Bytes) :
    feedReads f (chunks ++ chunks') = feedReads (feedReads f chunks) chunks' := by
  rw [feedReads, List.map_append, List.foldl_append]
  rfl

/-- The bytes of a message that a batch has room for are far below the limit of the buffer. -/
theorem length_le_max {bytes : Bytes} (h : bytes.length ≤ bufferCapacity + 1) :
    bytes.length ≤ maxClientBufSize := h.trans (by decide)

section Reads

variable {c : InsertClient} {batch : List Bytes} {front chunk msg : Bytes}

/-- A read behind which the loop goes on to the end. -/
theorem feed_read (hw : Waits c batch front) (hchunk : chunk ≠ [])
    (hmax : (front ++ chunk).length ≤ bufferCapacity + 1) {c' : InsertClient} {left : Bytes}
    (hloop : processLoop steadyView { c with buffer := front ++ chunk } (front ++ chunk) =
      (c', some left)) (t : Bool) :
    FedClient.feed ⟨c, t⟩ (.read steadyView chunk) =
      ⟨if left = [] ∧ c'.batchedReqCount > 0 then batchBufferFlush steadyView { c' with buffer := left }
        else { c' with buffer := left }, t⟩ := by
  have hbuffer := hw.buffer
  subst hbuffer
  have hsize := length_le_max hmax
  have hstep : c.step (.read steadyView chunk) =
      some (processInsertBuffer steadyView { c with buffer := c.buffer ++ chunk }) := by
    rw [InsertClient.step, if_pos ⟨hw.reading, hw.closing, hchunk⟩, onClientRead,
      if_neg (not_lt.mpr hsize)]
  have hflag : (ClientEvent.read steadyView chunk).tooLarge c = false := by
    show (_ && (_ && messageTooLarge steadyView { c with buffer := c.buffer ++ chunk }
      (c.buffer ++ chunk))) = false
    rw [not_tooLarge_of_some hloop, Bool.and_false, Bool.and_false]
  unfold FedClient.feed
  simp only [hstep, hflag, Bool.or_false]
  unfold processInsertBuffer
  rw [if_neg (by decide), hloop]

/-- A read that does not complete the message. -/
theorem exists_feed_part (hw : Waits c batch front) (hchunk : chunk ≠ [])
    (hmax : (front ++ chunk).length ≤ bufferCapacity + 1) (hpart : Incomplete (front ++ chunk))
    (t : Bool) : ∃ c', FedClient.feed ⟨c, t⟩ (.read steadyView chunk) = ⟨c', t⟩ ∧
      Waits c' batch (front ++ chunk) := by
  have hne : front ++ chunk ≠ [] := List.append_ne_nil_of_right_ne_nil front hchunk
  refine ⟨_, feed_read hw hchunk hmax (processLoop_incomplete hpart) t, ?_⟩
  rw [if_neg fun h => hne h.1]
  exact ⟨hw.batchBuffer, hw.count, rfl, hw.reading, hw.isPaused, hw.closing⟩

/-- A read that completes the message and ends behind the first byte of the next one. -/
theorem exists_feed_next (hw : Waits c batch front) (hmsg : IsMsg msg) {b : UInt8}
    (hchunk : front ++ chunk = msg ++ [b]) (hne : chunk ≠ [])
    (hcount : batch.length + 1 < batchSize)
    (hroom : batch.flatten.length + msg.length < bufferCapacity) (t : Bool) :
    ∃ c', FedClient.feed ⟨c, t⟩ (.read steadyView chunk) = ⟨c', t⟩ ∧ Waits c' (batch ++ [msg]) [b] := by
  have hadd : addToBatch steadyView { c with buffer := front ++ chunk } msg =
      { c with
        buffer := front ++ chunk
        batchBuffer := c.batchBuffer ++ msg
        batchedReqCount := c.batchedReqCount + 1 } := by
    unfold addToBatch
    rw [if_neg]
    simp only [hw.batchBuffer, hw.count, List.length_append]
    omega
  have hloop : processLoop steadyView { c with buffer := front ++ chunk } (front ++ chunk) =
      ({ c with
        buffer := front ++ chunk
        batchBuffer := c.batchBuffer ++ msg
        batchedReqCount := c.batchedReqCount + 1 }, some [b]) := by
    have hfew : [b].length < 4 := by
      rw [List.length_singleton]
      decide
    rw [← hadd, hchunk, processLoop_msg steadyView_leads hmsg, processLoop_incomplete (Or.inl hfew)]
    rw [hw.batchBuffer]
    exact Nat.le_of_lt hroom
  have hmax : (front ++ chunk).length ≤ bufferCapacity + 1 := by
    rw [hchunk, List.length_append, List.length_singleton]
    omega
  refine ⟨_, feed_read hw hne hmax hloop t, ?_⟩
  rw [if_neg fun h => List.cons_ne_nil _ _ h.1]
  refine ⟨?_, ?_, rfl, hw.reading, hw.isPaused, hw.closing⟩
  · rw [List.flatten_append, List.flatten_singleton, ← hw.batchBuffer]
  · rw [List.length_append, List.length_singleton, ← hw.count]

/-- A read that ends with the message, without a batch in front of it. -/
theorem exists_feed_alone (hw : Waits c [] front) (hmsg : IsMsg msg) (hchunk : front ++ chunk = msg)
    (hne : chunk ≠ []) (hfits : msg.length ≤ bufferCapacity) (t : Bool) :
    ∃ c', FedClient.feed ⟨c, t⟩ (.read steadyView chunk) = ⟨c', t⟩ ∧ Waits c' [] [] := by
  have hempty : c.batchBuffer = [] := hw.batchBuffer
  have hloop : processLoop steadyView { c with buffer := front ++ chunk } (front ++ chunk) =
      (addToBatch steadyView { c with buffer := front ++ chunk } msg, some []) := by
    have hroom : c.batchBuffer.length + msg.length ≤ bufferCapacity := by
      rw [hempty, List.length_nil, Nat.zero_add]
      exact hfits
    have hstep := @processLoop_msg steadyView { c with buffer := front ++ chunk } msg steadyView_leads
      hmsg hroom []
    rw [List.append_nil] at hstep
    rw [hchunk] at hstep ⊢
    rw [hstep, processLoop_incomplete (Or.inl (by decide))]
  have hmax : (front ++ chunk).length ≤ bufferCapacity + 1 := by
    rw [hchunk]
    omega
  refine ⟨_, feed_read hw hne hmax hloop t, ?_⟩
  -- the batch is passed on, by its size or behind the loop
  have hflushed : Waits (batchBufferFlush steadyView
      { c with
        buffer := []
        batchBuffer := c.batchBuffer ++ msg
        batchedReqCount := c.batchedReqCount + 1 }) [] [] :=
    ⟨rfl, rfl, rfl, hw.reading, hw.isPaused, hw.closing⟩
  unfold addToBatch
  simp only [true_and]
  split
  · split
    · rename_i hmore
      rw [InsertClient.batchBufferFlush_count] at hmore
      cases hmore
    · exact hflushed
  · rw [if_pos (Nat.succ_pos _)]
    exact hflushed

/-- A read that completes a message for which the batch has no room. -/
theorem tooLarge_feed_full (hw : Waits c batch front) (hmsg : IsMsg msg)
    (hchunk : front ++ chunk = msg) (hne : chunk ≠ []) (hfits : msg.length ≤ bufferCapacity)
    (hfull : bufferCapacity < batch.flatten.length + msg.length) (t : Bool) :
    (FedClient.feed ⟨c, t⟩ (.read steadyView chunk)).tooLarge = true := by
  have hbuffer := hw.buffer
  subst hbuffer
  have hsize : (c.buffer ++ chunk).length ≤ maxClientBufSize := by
    apply length_le_max
    rw [hchunk]
    omega
  have hlarge : messageTooLarge steadyView { c with buffer := c.buffer ++ chunk }
      (c.buffer ++ chunk) = true := by
    have hnot : ¬ c.batchBuffer.length + msg.length ≤ bufferCapacity := by
      rw [hw.batchBuffer]
      omega
    have hmsgLarge := @messageTooLarge_msg steadyView { c with buffer := c.buffer ++ chunk } msg
      steadyView_leads hmsg hnot []
    rw [List.append_nil] at hmsgLarge
    rw [hchunk] at hmsgLarge ⊢
    exact hmsgLarge
  have hflag : (ClientEvent.read steadyView chunk).tooLarge c = true := by
    show (decide _ && (decide _ && messageTooLarge steadyView
      { c with buffer := c.buffer ++ chunk } (c.buffer ++ chunk))) = true
    rw [hlarge, decide_eq_true hsize]
    rfl
  have hstep : c.step (.read steadyView chunk) = some (onClientRead steadyView c chunk) :=
    if_pos ⟨hw.reading, hw.closing, hne⟩
  unfold FedClient.feed
  simp only [hstep, hflag, Bool.or_true]

/-- Bytes that come one by one. -/
def singles (bytes : Bytes) : List Bytes := bytes.map fun b => [b]

theorem flatten_singles (bytes : Bytes) : (singles bytes).flatten = bytes := by
  rw [singles, ← List.flatMap_def]
  exact List.flatMap_singleton' bytes

theorem singles_small (bytes : Bytes) : ∀ chunk ∈ singles bytes, chunk ≠ [] ∧ chunk.length ≤ 2 := by
  intro chunk hchunk
  obtain ⟨b, -, rfl⟩ := List.mem_map.mp hchunk
  exact ⟨List.cons_ne_nil b [], Nat.le_succ 1⟩

theorem singles_append (bytes bytes' : Bytes) :
    singles (bytes ++ bytes') = singles bytes ++ singles bytes' := List.map_append

/-- The bytes of a message come one by one. -/
theorem exists_feed_bytes (hw : Waits c batch front) {bytes behind : Bytes}
    (hmsg : IsMsg (front ++ bytes ++ behind)) (hbehind : behind ≠ [])
    (hfits : (front ++ bytes ++ behind).length ≤ bufferCapacity) (t : Bool) :
    ∃ c', feedReads ⟨c, t⟩ (singles bytes) = ⟨c', t⟩ ∧ Waits c' batch (front ++ bytes) := by
  induction bytes generalizing c front with
  | nil => exact ⟨c, rfl, by rwa [List.append_nil]⟩
  | cons b bytes ih =>
    have hsplit : front ++ b :: bytes ++ behind = front ++ [b] ++ bytes ++ behind := by simp
    rw [hsplit] at hmsg hfits
    have hpart : Incomplete (front ++ [b]) := by
      rw [List.append_assoc (front ++ [b])] at hmsg
      exact incomplete_of_append hmsg (List.append_ne_nil_of_right_ne_nil _ hbehind)
    have hmax : (front ++ [b]).length ≤ bufferCapacity + 1 := by
      rw [List.append_assoc, List.length_append] at hfits
      omega
    obtain ⟨c₁, hfed, hw₁⟩ := exists_feed_part hw (List.cons_ne_nil b []) hmax hpart t
    obtain ⟨c₂, hrest, hw₂⟩ := ih hw₁ hmsg hfits
    refine ⟨c₂, ?_, ?_⟩
    · rw [← hrest, ← hfed]
      rfl
    · rwa [List.append_assoc] at hw₂

theorem exists_concat {bytes : Bytes} (h : bytes ≠ []) : ∃ front b, bytes = front ++ [b] := by
  rcases List.eq_nil_or_concat bytes with hnil | ⟨front, b, hconcat⟩
  · exact absurd hnil h
  · exact ⟨front, b, hconcat.trans List.concat_eq_append⟩

/-- Messages whose bytes come one by one are each passed on alone. -/
theorem exists_feed_single (hw : Waits c [] []) {msgs : List Bytes}
    (hmsgs : ∀ msg ∈ msgs, IsMsg msg ∧ msg.length ≤ bufferCapacity) (t : Bool) :
    ∃ c', feedReads ⟨c, t⟩ (singles msgs.flatten) = ⟨c', t⟩ ∧ Waits c' [] [] := by
  induction msgs generalizing c with
  | nil => exact ⟨c, rfl, hw⟩
  | cons msg msgs ih =>
    obtain ⟨hmsg, hfits⟩ := hmsgs msg List.mem_cons_self
    obtain ⟨bytes, b, rfl⟩ := exists_concat hmsg.ne_nil
    obtain ⟨c₁, hfed₁, hw₁⟩ := exists_feed_bytes hw hmsg (List.cons_ne_nil b []) hfits t
    obtain ⟨c₂, hfed₂, hw₂⟩ := exists_feed_alone hw₁ hmsg rfl (List.cons_ne_nil b []) hfits t
    obtain ⟨c₃, hfed₃, hw₃⟩ := ih hw₂ fun m hm => hmsgs m (List.mem_cons_of_mem _ hm)
    refine ⟨c₃, ?_, hw₃⟩
    rw [List.flatten_cons, singles_append, singles_append, feedReads_append, feedReads_append, hfed₁,
      ← hfed₃, ← hfed₂]
    rfl

/-- Reads that end inside of messages collect a batch, up to a message for which it has no room. -/
theorem exists_tooLarge {msgs : List Bytes} {b : UInt8} {rest : Bytes} (hw : Waits c batch [b])
    (hmsgs : ∀ m ∈ msgs ++ [msg], IsMsg m ∧ m.length ≤ bufferCapacity)
    (hstream : (msgs ++ [msg]).flatten = b :: rest) (hcount : (batch ++ msgs).length < batchSize)
    (hroom : (batch ++ msgs).flatten.length < bufferCapacity)
    (hfull : bufferCapacity < (batch ++ msgs ++ [msg]).flatten.length) (t : Bool) :
    ∃ chunks, chunks.flatten = rest ∧ (∀ chunk ∈ chunks, chunk ≠ [] ∧ chunk.length ≤ 2) ∧
      (feedReads ⟨c, t⟩ chunks).tooLarge = true := by
  -- the bytes behind the first one of a message
  have hsplit {m : Bytes} {b : UInt8} {tail : Bytes} (hm : IsMsg m) (htail : m = b :: tail) :
      ∃ bytes z, tail = bytes ++ [z] ∧ m = [b] ++ bytes ++ [z] := by
    have hne : tail ≠ [] := by
      rintro rfl
      have hfour := hm.four_le
      rw [htail] at hfour
      exact absurd hfour (by simp)
    obtain ⟨bytes, z, rfl⟩ := exists_concat hne
    exact ⟨bytes, z, rfl, htail⟩
  induction msgs generalizing c batch b rest with
  -- the last message is read up to its last byte, for which the batch has no room left
  | nil =>
    obtain ⟨hmsg, hfits⟩ := hmsgs msg (List.mem_singleton_self msg)
    rw [List.nil_append, List.flatten_singleton] at hstream
    obtain ⟨bytes, z, rfl, hbytes⟩ := hsplit hmsg hstream
    rw [hbytes] at hmsg hfits
    obtain ⟨c', hfed, hw'⟩ := exists_feed_bytes hw hmsg (List.cons_ne_nil z []) hfits t
    refine ⟨(singles bytes) ++ [[z]], ?_, ?_, ?_⟩
    · rw [List.flatten_append, flatten_singles, List.flatten_singleton]
    · exact List.forall_mem_append.mpr
        ⟨singles_small bytes, List.forall_mem_singleton.mpr ⟨List.cons_ne_nil z [], Nat.le_succ 1⟩⟩
    · rw [feedReads_append, hfed]
      refine tooLarge_feed_full hw' hmsg rfl (List.cons_ne_nil z []) hfits ?_ t
      rw [List.append_nil, List.flatten_append, List.flatten_singleton, List.length_append, hbytes]
        at hfull
      exact hfull
  -- a read that ends in the next message leaves this one in the batch
  | cons m msgs ih =>
    obtain ⟨hmsg, hfits⟩ := hmsgs m List.mem_cons_self
    have hnext : ∀ m' ∈ msgs ++ [msg], IsMsg m' ∧ m'.length ≤ bufferCapacity :=
      fun m' hm' => hmsgs m' (List.mem_cons_of_mem m hm')
    obtain ⟨b', rest', hrest⟩ : ∃ b' rest', (msgs ++ [msg]).flatten = b' :: rest' := by
      rw [← List.ne_nil_iff_exists_cons]
      intro hnil
      rw [List.flatten_append, List.append_eq_nil_iff, List.flatten_singleton] at hnil
      exact (hnext msg (List.mem_append_right msgs (List.mem_singleton_self msg))).1.ne_nil hnil.2
    rw [List.cons_append, List.flatten_cons, hrest] at hstream
    obtain ⟨tail, htail⟩ : ∃ tail, m = b :: tail := by
      cases m with
      | nil => exact absurd rfl hmsg.ne_nil
      | cons x tail =>
        rw [List.cons_append, List.cons.injEq] at hstream
        exact ⟨tail, by rw [hstream.1]⟩
    obtain ⟨bytes, z, rfl, hbytes⟩ := hsplit hmsg htail
    obtain rfl : bytes ++ [z] ++ b' :: rest' = rest := by
      rw [htail, List.cons_append, List.cons.injEq] at hstream
      exact hstream.2
    obtain ⟨c₁, hfed₁, hw₁⟩ := exists_feed_bytes hw (hbytes ▸ hmsg) (List.cons_ne_nil z [])
      (hbytes ▸ hfits) t
    rw [List.append_cons batch] at hcount hroom hfull
    -- its last byte comes with the first one of the next message
    have hpiece : [b] ++ bytes ++ [z, b'] = m ++ [b'] := by
      rw [hbytes, List.append_assoc _ [z]]
      rfl
    obtain ⟨c₂, hfed₂, hw₂⟩ := exists_feed_next hw₁ hmsg hpiece (List.cons_ne_nil z [b'])
      (by
        rw [List.length_append, List.length_append, List.length_singleton] at hcount
        omega)
      (by
        rw [List.flatten_append, List.flatten_append, List.flatten_singleton, List.length_append,
          List.length_append] at hroom
        omega) t
    obtain ⟨chunks, hchunks, hsmall, hlarge⟩ := ih hw₂ hnext hrest hcount hroom hfull
    refine ⟨(singles bytes) ++ ([[z, b']] ++ chunks), ?_, ?_, ?_⟩
    · rw [List.flatten_append, List.flatten_append, flatten_singles, List.flatten_singleton, hchunks,
        List.append_assoc]
      rfl
    · exact List.forall_mem_append.mpr ⟨singles_small bytes, List.forall_mem_append.mpr
        ⟨List.forall_mem_singleton.mpr ⟨List.cons_ne_nil z [b'], le_refl 2⟩, hsmall⟩⟩
    · rw [feedReads_append, feedReads_append, hfed₁,
        show feedReads ⟨c₁, t⟩ [[z, b']] = ⟨c₂, t⟩ from hfed₂]
      exact hlarge

end Reads

/-- The bytes of these messages, in pieces, under a steady leader. -/
def readsRun {frames chunks : List Bytes} (hflatten : chunks.flatten = frames.flatten)
    (hchunks : ∀ chunk ∈ chunks, chunk ≠ [] ∧ chunk.length ≤ 2) : SplitRun frames where
  first := steadyView
  events := chunks.map (ClientEvent.read steadyView)
  last := steadyView
  first_leads := steadyView_leads
  undisturbed := by
    intro e he
    obtain ⟨chunk, hchunk, rfl⟩ := List.mem_map.mp he
    obtain ⟨hne, hsmall⟩ := hchunks chunk hchunk
    exact ⟨steadyView_leads, Nat.zero_lt_succ _, hne, hsmall.trans (by decide)⟩
  received := by
    rw [← hflatten, receivedBytes, List.flatMap_map]
    exact List.flatMap_id
  last_leads := steadyView_leads
  last_running := Nat.zero_lt_succ _

theorem outcome_readsRun {frames chunks : List Bytes} (hflatten : chunks.flatten = frames.flatten)
    (hchunks : ∀ chunk ∈ chunks, chunk ≠ [] ∧ chunk.length ≤ 2) :
    (readsRun hflatten hchunks).outcome =
      (feedReads ⟨onInsertConnection steadyView, false⟩ chunks).feed (.readEnd steadyView) := by
  unfold SplitRun.outcome readsRun
  rw [List.foldl_append]
  rfl

theorem waits_accepted : Waits (onInsertConnection steadyView) [] [] :=
  ⟨rfl, rfl, rfl, rfl, rfl, rfl⟩

/-- Of two ways in which the bytes come in, one makes a message too large that the other one does
not. -/
theorem batchesFit_of_independent {frames : List Bytes}
    (hframes : ∀ frame ∈ frames, IsMsg frame ∧ frame.length ≤ bufferCapacity)
    (h : FramingIndependent frames) : BatchesFit frames := by
  rintro batch frame ⟨before, behind, hsplit⟩ hcount hroom
  by_contra hfull
  rw [not_le] at hfull
  -- byte by byte every message is passed on alone
  have halone : (readsRun (flatten_singles frames.flatten)
      (singles_small frames.flatten)).outcome.tooLarge = false := by
    obtain ⟨c, hfed, hw⟩ := exists_feed_single waits_accepted hframes false
    have hstep : c.step (.readEnd steadyView) = some (onClientEnd steadyView c) :=
      if_pos ⟨hw.reading, hw.closing⟩
    have hflag : (ClientEvent.readEnd steadyView).tooLarge c = false := by
      unfold ClientEvent.tooLarge
      rw [hw.buffer]
      rfl
    rw [outcome_readsRun, hfed]
    unfold FedClient.feed
    simp only [hstep, hflag, Bool.or_false]
  -- the messages in front alone, and then reads that end inside of the messages of the batch
  have hmem : ∀ m ∈ before ++ (batch ++ [frame]) ++ behind, IsMsg m ∧ m.length ≤ bufferCapacity :=
    fun m hm => hframes m (hsplit ▸ hm)
  have hbatch : ∀ m ∈ batch ++ [frame], IsMsg m ∧ m.length ≤ bufferCapacity :=
    fun m hm => hmem m (List.mem_append_left _ (List.mem_append_right _ hm))
  obtain ⟨c₁, hfed₁, hw₁⟩ := exists_feed_single waits_accepted
    (fun m (hm : m ∈ before) => hmem m (List.mem_append_left _ (List.mem_append_left _ hm))) false
  obtain ⟨b, rest, hstream⟩ : ∃ b rest, (batch ++ [frame]).flatten = b :: rest := by
    rw [← List.ne_nil_iff_exists_cons]
    exact List.ne_nil_of_length_pos (Nat.lt_of_le_of_lt (Nat.zero_le _) hfull)
  obtain ⟨c₂, hfed₂, hw₂⟩ := exists_feed_part hw₁ (List.cons_ne_nil b [])
    (Nat.succ_le_succ (Nat.zero_le _)) (Or.inl (by simp)) false
  obtain ⟨chunks, hchunks, hsmall, hlarge⟩ := exists_tooLarge hw₂ hbatch hstream hcount hroom hfull
    false
  -- both ways deliver the same bytes
  have hall : (singles before.flatten ++ ([[b]] ++ (chunks ++
      singles behind.flatten))).flatten = frames.flatten := by
    rw [← hsplit, List.flatten_append, List.flatten_append, List.flatten_append, List.flatten_append,
      List.flatten_append, flatten_singles, flatten_singles, hchunks, hstream, List.flatten_singleton]
    simp
  have hpieces : ∀ chunk ∈ singles before.flatten ++ ([[b]] ++ (chunks ++
      singles behind.flatten)), chunk ≠ [] ∧ chunk.length ≤ 2 :=
    List.forall_mem_append.mpr ⟨singles_small _, List.forall_mem_append.mpr
      ⟨List.forall_mem_singleton.mpr ⟨List.cons_ne_nil b [], Nat.le_succ 1⟩,
        List.forall_mem_append.mpr ⟨hsmall, singles_small _⟩⟩⟩
  -- this way the batch grows until the last message does not fit
  have hrefused : (readsRun hall hpieces).outcome.tooLarge = true := by
    rw [outcome_readsRun, feedReads_append, hfed₁, feedReads_append,
      show feedReads ⟨c₁, false⟩ [[b]] = ⟨c₂, false⟩ from hfed₂, feedReads_append]
    exact FedClient.tooLarge_feed (FedClient.tooLarge_foldl hlarge _) _
  have hboth := (h (readsRun (flatten_singles frames.flatten) (singles_small frames.flatten))
    (readsRun hall hpieces)).2
  rw [halone, hrefused] at hboth
  exact Bool.noConfusion (hboth.mpr rfl)

/-- All ways in which the bytes of these messages come in hand the same messages to `raft_apply` and
agree on whether a message is too large, exactly when no stretch of fewer messages than a batch may
have leaves no room for the next one. -/
theorem framing_independent_iff {frames : List Bytes}
    (hframes : ∀ frame ∈ frames, IsMsg frame ∧ frame.length ≤ bufferCapacity) :
    FramingIndependent frames ↔ BatchesFit frames := by
  refine ⟨batchesFit_of_independent hframes, fun hfit r r' => ?_⟩
  have hall (r : SplitRun frames) : handed r.outcome.client = frames ∧ r.outcome.tooLarge = false := by
    have heven := (FedClient.even_accepted r.first_leads).run ⟨hframes, hfit⟩ r.undisturbed
      (by rw [List.nil_append, r.received])
    rw [List.nil_append, r.received] at heven
    have hend := heven.readEnd ⟨hframes, hfit⟩ r.last
    unfold SplitRun.outcome
    rw [List.foldl_append]
    exact hend
  rw [(hall r).1, (hall r').1, (hall r).2, (hall r').2]
  exact ⟨rfl, Iff.rfl⟩

/-- A message of zero bytes behind its size word. -/
def zeroFrame (n : Nat) : Bytes := leBytes 4 (n + 4) ++ List.replicate n 0

theorem length_zeroFrame (n : Nat) : (zeroFrame n).length = n + 4 := by
  rw [zeroFrame, List.length_append, length_leBytes, List.length_replicate, Nat.add_comm]

theorem isMsg_zeroFrame {n : Nat} (h : n + 4 ≤ bufferCapacity) : IsMsg (zeroFrame n) where
  four_le := by
    rw [length_zeroFrame]
    omega
  size_eq := by
    have hsmall : n + 4 < 256 ^ 4 := lt_of_le_of_lt h (by decide)
    rw [length_zeroFrame, msgSize, zeroFrame, List.take_left' (length_leBytes 4 _),
      leNat_leBytes hsmall]

/-- Two small messages, which fit into one batch. -/
theorem framing_independent_iff_two : FramingIndependent [zeroFrame 1, zeroFrame 2] := by
  refine (framing_independent_iff ?_).mpr ?_
  · intro frame hframe
    rcases List.mem_pair.mp hframe with rfl | rfl
    · exact ⟨isMsg_zeroFrame (by decide), by decide⟩
    · exact ⟨isMsg_zeroFrame (by decide), by decide⟩
  · intro batch msg hinfix _ _
    have hle := hinfix.sublist.flatten.length_le
    exact Nat.le_trans hle (by decide)

/-- A message of four bytes less than the batch may have, and one of eight bytes. -/
theorem not_framing_independent : ¬ ∀ frames : List Bytes,
    (∀ frame ∈ frames, IsMsg frame ∧ frame.length ≤ bufferCapacity) → FramingIndependent frames := by
  intro hclaim
  have hlarge : bufferCapacity - 8 + 4 ≤ bufferCapacity := by decide
  have hframes : ∀ frame ∈ [zeroFrame (bufferCapacity - 8), zeroFrame 4],
      IsMsg frame ∧ frame.length ≤ bufferCapacity := by
    intro frame hframe
    rcases List.mem_pair.mp hframe with rfl | rfl
    · exact ⟨isMsg_zeroFrame hlarge, by rwa [length_zeroFrame]⟩
    · exact ⟨isMsg_zeroFrame (by decide), by rw [length_zeroFrame]; decide⟩
  have hfit := batchesFit_of_independent hframes (hclaim _ hframes)
  have hfull := hfit [zeroFrame (bufferCapacity - 8)] (zeroFrame 4) (List.infix_refl _) (by decide)
    (by
      rw [List.flatten_singleton, length_zeroFrame]
      decide)
  rw [List.flatten_append, List.flatten_singleton, List.flatten_singleton, List.length_append,
    length_zeroFrame, length_zeroFrame] at hfull
  revert hfull
  decide

end RaftLsmt.Server
