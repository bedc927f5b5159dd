import RaftLsmt.Server.InsertStream

/-!
# A connection under a steady leader

While the server leads and `raft_apply` succeeds, a connection whose stream consists of messages that
`FsmApply` accepts is never refused: no message is too large for the batch buffer and the client
buffer stays below its limit, whatever the reads, the ticks of the timer and the pauses are.
`InsertClient.Keeps` is the invariant; it says in addition that a connection that is not paused holds
less than a message in its buffer, and nothing in its batch once the buffer is empty.
-/

set_option autoImplicit false

namespace RaftLsmt.Server

open RaftLsmt.Lib.StepMachine
open RaftLsmt.Lsmt

universe u

/-- The size of the buffer libuv asks `alloc_cb` for, which bounds every read. -/
def uvSuggestedSize : Nat := 65536

/-- The server is the leader and `raft_apply` succeeds. -/
structure ServerView.Leads (v : ServerView) : Prop where
  isLeader : v.isLeader = true
  raftApplyOk : ∀ n, v.raftApplyOk n = true

/-- A callback under a steady leader. -/
def ClientEvent.Steady : ClientEvent → Prop
  | .read v chunk => v.Leads ∧ chunk.length ≤ uvSuggestedSize
  | .readEnd v => v.Leads
  | .statsTimer v => v.Leads
  | _ => True

/-- The callbacks behind which the server closes the connection: the client has ended its stream, or
a write to it has failed. -/
def ClientEvent.EndsConnection : ClientEvent → Prop
  | .readEnd _ => True
  | .applied _ _ uvWriteOk => uvWriteOk = false
  | .writeFailed => True
  | _ => False

/-- `FsmApply` on one entry after the other. -/
def fsmApplyAll {σ : Type u} (lsmtInsert : σ → SlUint128 → Bytes → σ × Int) (s : FsmState σ)
    (entries : List Bytes) : FsmState σ :=
  entries.foldl (fun s entry => (fsmApply lsmtInsert s entry).1) s

/-! ## Messages at the front of a stream -/

/-- Messages at the front of a stream of messages are the first ones of these. -/
theorem exists_append_of_flatten {taken msgs : List Bytes} {rest : Bytes}
    (htaken : ∀ msg ∈ taken, IsMsg msg) (hmsgs : ∀ msg ∈ msgs, IsMsg msg)
    (h : taken.flatten ++ rest <+: msgs.flatten) :
    ∃ later, msgs = taken ++ later ∧ rest <+: later.flatten := by
  induction taken generalizing msgs with
  | nil => exact ⟨msgs, rfl, h⟩
  | cons msg taken ih =>
    obtain ⟨unsent, hsplit⟩ := h
    have hmsg := htaken msg List.mem_cons_self
    cases msgs with
    | nil =>
      have hlength := congrArg List.length hsplit
      have hfour := hmsg.four_le
      simp only [List.flatten_cons, List.flatten_nil, List.length_append, List.length_nil] at hlength
      omega
    | cons first msgs =>
      have hfirst := hmsgs first List.mem_cons_self
      rw [List.flatten_cons, List.flatten_cons, List.append_assoc, List.append_assoc] at hsplit
      -- both start with the same size word
      have hsize : msg.length = first.length := by
        rw [← hmsg.size_eq, ← hfirst.size_eq, ← msgSize_append hmsg.four_le, hsplit,
          msgSize_append hfirst.four_le]
      obtain ⟨rfl, hrest⟩ := List.append_inj hsplit hsize
      obtain ⟨later, hlater, hprefix⟩ := ih (fun m hm => htaken m (List.mem_cons_of_mem msg hm))
        (fun m hm => hmsgs m (List.mem_cons_of_mem msg hm))
        ⟨unsent, by rw [List.append_assoc]; exact hrest⟩
      exact ⟨later, by rw [hlater]; rfl, hprefix⟩

theorem length_flatten_le {msgs : List Bytes} {k : Nat} (h : ∀ msg ∈ msgs, msg.length ≤ k) :
    msgs.flatten.length ≤ msgs.length * k := by
  induction msgs with
  | nil => exact Nat.zero_le _
  | cons msg msgs ih =>
    have hmsg := h msg List.mem_cons_self
    have hrest := ih fun m hm => h m (List.mem_cons_of_mem msg hm)
    rw [List.flatten_cons, List.length_append, List.length_cons, Nat.succ_mul]
    omega

theorem MsgOk.length_lt {msg : Bytes} (h : MsgOk msg) : msg.length < insertCmdSize := by
  have hle := h.value_le
  simp only [msgHeaderSize, contentMaxSize, insertCmdSize] at *
  omega

/-- What is left at the end of a stream of messages is less than one of them, or starts with one. -/
theorem msg_at_front {msgs : List Bytes} {rest : Bytes} {k : Nat}
    (hmsgs : ∀ msg ∈ msgs, IsMsg msg ∧ msg.length ≤ k) (h : rest <+: msgs.flatten)
    (hfour : 4 ≤ rest.length) : 4 ≤ msgSize rest ∧ msgSize rest ≤ k := by
  obtain ⟨unsent, hsplit⟩ := h
  cases msgs with
  | nil =>
    rw [List.flatten_nil, List.append_eq_nil_iff] at hsplit
    rw [hsplit.1] at hfour
    cases hfour
  | cons msg msgs =>
    obtain ⟨hmsg, hle⟩ := hmsgs msg List.mem_cons_self
    rw [List.flatten_cons] at hsplit
    rw [← msgSize_append hfour unsent, hsplit, msgSize_append hmsg.four_le, hmsg.size_eq]
    exact ⟨hmsg.four_le, hle⟩

/-- However a stream of messages is cut into batches, one that is not full has room for the next
message. -/
def BatchesFit (msgs : List Bytes) : Prop :=
  ∀ batch msg, batch ++ [msg] <:+: msgs → batch.length < batchSize →
    batch.flatten.length < bufferCapacity → (batch ++ [msg]).flatten.length ≤ bufferCapacity

/-- Messages that are accepted fit, as many as a batch may have. -/
theorem batchesFit_of_ok {msgs : List Bytes} (h : ∀ msg ∈ msgs, MsgOk msg) : BatchesFit msgs := by
  intro batch msg hbatch hcount _
  have hlength := length_flatten_le fun m hm =>
    Nat.le_of_lt (h m (hbatch.subset hm)).length_lt
  rw [List.length_append, List.length_singleton] at hlength
  exact hlength.trans (Nat.mul_le_mul_right insertCmdSize hcount)

/-- Less than a message. -/
def Incomplete (bytes : Bytes) : Prop := bytes.length < 4 ∨ bytes.length < msgSize bytes

/-- A part of a stream of messages that is not empty starts with a message. -/
theorem Incomplete.eq_nil {msgs : List Bytes} (hmsgs : ∀ msg ∈ msgs, IsMsg msg)
    (h : Incomplete msgs.flatten) : msgs = [] := by
  cases msgs with
  | nil => rfl
  | cons msg msgs =>
    have hmsg := hmsgs msg List.mem_cons_self
    have hfour := hmsg.four_le
    unfold Incomplete at h
    rw [List.flatten_cons, List.length_append, msgSize_append hfour, hmsg.size_eq] at h
    omega

namespace InsertClient

/-! ## The batch -/

/-- The state of the connection itself. -/
structure SameConnection (c c' : InsertClient) : Prop where
  reading : c'.reading = c.reading
  isPaused : c'.isPaused = c.isPaused
  closing : c'.closing = c.closing
  listed : c'.listed = c.listed
  redirecting : c'.redirecting = c.redirecting

theorem SameConnection.trans {c d e : InsertClient} (h : SameConnection c d)
    (h' : SameConnection d e) : SameConnection c e :=
  ⟨h'.reading.trans h.reading, h'.isPaused.trans h.isPaused, h'.closing.trans h.closing,
    h'.listed.trans h.listed, h'.redirecting.trans h.redirecting⟩

section Leads

variable {v : ServerView} {c : InsertClient}

theorem batchBufferFlush_sameConnection (hv : v.Leads) (c : InsertClient) :
    SameConnection c (batchBufferFlush v c) := by
  unfold batchBufferFlush
  split
  · exact ⟨rfl, rfl, rfl, rfl, rfl⟩
  · simp only [hv.raftApplyOk, if_true]
    exact ⟨rfl, rfl, rfl, rfl, rfl⟩

theorem batchBufferFlush_count (v : ServerView) (c : InsertClient) :
    (batchBufferFlush v c).batchedReqCount = 0 := by
  unfold batchBufferFlush
  split
  · assumption
  · simp only
    split <;> rfl

theorem addToBatch_sameConnection (hv : v.Leads) (c : InsertClient) (msg : Bytes) :
    SameConnection c (addToBatch v c msg) := by
  unfold addToBatch
  simp only
  split
  · have hflush := batchBufferFlush_sameConnection hv { c with
      batchBuffer := c.batchBuffer ++ msg
      batchedReqCount := c.batchedReqCount + 1 }
    exact ⟨hflush.reading, hflush.isPaused, hflush.closing, hflush.listed, hflush.redirecting⟩
  · exact ⟨rfl, rfl, rfl, rfl, rfl⟩

/-- The batch stays below its capacity. -/
theorem length_addToBatch_lt (v : ServerView) (c : InsertClient) (msg : Bytes) :
    (addToBatch v c msg).batchBuffer.length < bufferCapacity := by
  unfold addToBatch
  simp only
  split
  · unfold batchBufferFlush
    rw [if_neg (Nat.succ_ne_zero _)]
    simp only
    split <;> exact Nat.mul_pos (by decide) (by decide)
  · rename_i hnot
    exact not_le.mp fun hfull => hnot (Or.inr hfull)

/-- On a stream of messages that fit the loop stops only in front of an incomplete one. -/
theorem processLoop_fits (hv : v.Leads) {msgs : List Bytes} {k : Nat}
    (hmsgs : ∀ msg ∈ msgs, IsMsg msg ∧ msg.length ≤ k) (hfit : BatchesFit msgs) {rest : Bytes}
    {parts : List (List Bytes)} {batch : List Bytes} (h : c.Took parts batch)
    (hroom : c.batchBuffer.length < bufferCapacity)
    (hsent : (parts.flatten ++ batch).flatten ++ rest <+: msgs.flatten) :
    ∃ c' left, processLoop v c rest = (c', some left) ∧ (left.length < 4 ∨ left.length < k) ∧
      Incomplete left ∧ SameConnection c c' ∧ c'.batchBuffer.length < bufferCapacity := by
  have hismsgs : ∀ msg ∈ msgs, IsMsg msg := fun msg hmsg => (hmsgs msg hmsg).1
  obtain ⟨later, hlater, hrest⟩ := exists_append_of_flatten h.isMsg hismsgs hsent
  have hnext : ∀ msg ∈ later, IsMsg msg ∧ msg.length ≤ k :=
    fun msg hmsg => hmsgs msg (hlater ▸ List.mem_append_right _ hmsg)
  fun_induction processLoop v c rest generalizing parts batch later with
  | case1 c rest hshort =>
    exact ⟨c, rest, rfl, Or.inl hshort, Or.inl hshort, ⟨rfl, rfl, rfl, rfl, rfl⟩, hroom⟩
  | case2 c rest hlong hsmall =>
    -- the message at the front has a size of four bytes or more
    have hfront := msg_at_front hnext hrest (not_lt.mp hlong)
    omega
  | case3 c rest hlong hlarge hincomplete =>
    -- the rest is the beginning of a message
    have hfront := msg_at_front hnext hrest (not_lt.mp hlong)
    exact ⟨c, rest, rfl, Or.inr (lt_of_lt_of_le hincomplete hfront.2), Or.inr hincomplete,
      ⟨rfl, rfl, rfl, rfl, rfl⟩, hroom⟩
  | case4 c rest hlong hlarge hcomplete hfollower =>
    -- a steady leader redirects nobody
    rw [hv.isLeader] at hfollower
    cases hfollower
  | case5 c rest hlong hlarge hcomplete hleader hfits ih =>
    have hmsg : IsMsg (rest.take (msgSize rest)) := isMsg_take (not_lt.mp hlarge) (not_lt.mp hcomplete)
    have hlength : (rest.take (msgSize rest)).length ≤ bufferCapacity := by
      rw [List.length_take]
      omega
    obtain ⟨parts', batch', htook, hparts⟩ := h.add v hmsg hlength
    have hsent' : (parts'.flatten ++ batch').flatten ++ rest.drop (msgSize rest) <+: msgs.flatten := by
      rw [hparts, ← List.append_assoc, List.flatten_append, List.flatten_singleton,
        List.append_assoc, List.take_append_drop]
      exact hsent
    obtain ⟨later', hlater', hrest'⟩ := exists_append_of_flatten htook.isMsg hismsgs hsent'
    obtain ⟨c', left, hloop, hleft, hincomplete, hsame, hroom'⟩ :=
      ih htook (length_addToBatch_lt v c _) hsent' later' hlater' hrest'
        (fun msg hmsg => hmsgs msg (hlater' ▸ List.mem_append_right _ hmsg))
    exact ⟨c', left, hloop, hleft, hincomplete, (addToBatch_sameConnection hv c _).trans hsame, hroom'⟩
  | case6 c rest hlong hlarge hcomplete hleader hfull =>
    -- the batch and the message stand one behind the other in the stream
    have hcomplete' := not_lt.mp hcomplete
    cases later with
    | nil =>
      rw [List.flatten_nil, List.prefix_nil] at hrest
      rw [hrest] at hlong
      exact absurd (by decide) hlong
    | cons msg later =>
      have hsize : msgSize rest = msg.length := by
        obtain ⟨unsent, hsplit⟩ := hrest
        have hmsg := (hnext msg List.mem_cons_self).1
        rw [← msgSize_append (not_lt.mp hlong) unsent, hsplit, List.flatten_cons,
          msgSize_append hmsg.four_le, hmsg.size_eq]
      have hbatch : batch ++ [msg] <:+: msgs := by
        refine ⟨parts.flatten, later, ?_⟩
        rw [hlater, List.append_assoc, List.append_assoc, List.append_assoc]
        rfl
      have hall := hfit batch msg hbatch h.length_lt (h.buffer ▸ hroom)
      rw [List.flatten_append, List.flatten_singleton, List.length_append, ← h.buffer, ← hsize] at hall
      exact absurd hall hfull

/-- On a stream of accepted messages the loop stops only in front of an incomplete one. -/
theorem processLoop_keeps (hv : v.Leads) {msgs : List Bytes} (hmsgs : ∀ msg ∈ msgs, MsgOk msg)
    {rest : Bytes} {parts : List (List Bytes)} {batch : List Bytes} (h : c.Took parts batch)
    (hsent : (parts.flatten ++ batch).flatten ++ rest <+: msgs.flatten) :
    ∃ c' left, processLoop v c rest = (c', some left) ∧ left.length < insertCmdSize ∧
      Incomplete left ∧ SameConnection c c' := by
  have hismsgs : ∀ msg ∈ msgs, IsMsg msg := fun msg hmsg => (hmsgs msg hmsg).toIsMsg
  obtain ⟨later, hlater, -⟩ := exists_append_of_flatten h.isMsg hismsgs hsent
  have hroom : c.batchBuffer.length < bufferCapacity := by
    have hlength := length_flatten_le fun msg hmsg => Nat.le_of_lt
      (hmsgs msg (hlater ▸ List.mem_append_left later (List.mem_append_right _ hmsg))).length_lt
    have hcount := h.length_lt
    rw [← h.buffer] at hlength
    simp only [bufferCapacity, batchSize, insertCmdSize] at *
    omega
  obtain ⟨c', left, hloop, hleft, hincomplete, hsame, -⟩ := processLoop_fits hv
    (fun msg hmsg => ⟨hismsgs msg hmsg, Nat.le_of_lt (hmsgs msg hmsg).length_lt⟩)
    (batchesFit_of_ok hmsgs) h hroom hsent
  exact ⟨c', left, hloop, hleft.elim (fun hshort => lt_trans hshort (by decide)) id, hincomplete,
    hsame⟩

end Leads

/-! ## The invariant -/

/-- What holds of a connection that has received `received`: the messages taken and the buffer make it
up; a connection that is not paused has taken all complete messages and, with an empty buffer, passed
its batch on; and it is read from or paused for as long as it is open. -/
structure Keeps (c : InsertClient) (received : Bytes) : Prop where
  took : ∃ parts batch, c.Took parts batch ∧ (parts.flatten ++ batch).flatten ++ c.buffer = received
  redirecting : c.redirecting = false
  drained : c.isPaused = false → c.buffer.length < insertCmdSize ∧ Incomplete c.buffer ∧
    (c.buffer = [] → c.batchedReqCount = 0)
  reading : c.reading = true → c.isPaused = false
  listed : c.listed = true → c.closing = false
  live : c.closing = false → c.listed = true ∧ (c.isPaused = false → c.reading = true)

section Keeps

variable {v : ServerView} {c : InsertClient} {received : Bytes} {msgs : List Bytes}

theorem Keeps.close (h : c.Keeps received) : (closeAndFreeClient c).Keeps received where
  took := by
    obtain ⟨parts, batch, htook, hstream⟩ := h.took
    exact ⟨parts, batch, ⟨htook.1, htook.2, htook.3, htook.4, htook.5, htook.6⟩, hstream⟩
  redirecting := h.redirecting
  drained := h.drained
  reading := h.reading
  listed := by
    intro hlisted
    cases hlisted
  live := by
    intro hopen
    cases hopen

theorem Keeps.flush (h : c.Keeps received) (hv : v.Leads) :
    (batchBufferFlush v c).Keeps received where
  took := by
    obtain ⟨parts, batch, htook, hstream⟩ := h.took
    obtain ⟨parts', hflushed, hparts⟩ := htook.flush v
    refine ⟨parts', [], hflushed, ?_⟩
    rw [List.append_nil, hparts, (batchBufferFlush_sameInput v c).buffer, hstream]
  redirecting := by
    rw [(batchBufferFlush_sameConnection hv c).redirecting]
    exact h.redirecting
  drained := by
    rw [(batchBufferFlush_sameConnection hv c).isPaused, (batchBufferFlush_sameInput v c).buffer]
    intro hpaused
    obtain ⟨hshort, hincomplete, -⟩ := h.drained hpaused
    exact ⟨hshort, hincomplete, fun _ => batchBufferFlush_count v c⟩
  reading := by
    rw [(batchBufferFlush_sameConnection hv c).isPaused,
      (batchBufferFlush_sameConnection hv c).reading]
    exact h.reading
  listed := by
    rw [(batchBufferFlush_sameConnection hv c).listed,
      (batchBufferFlush_sameConnection hv c).closing]
    exact h.listed
  live := by
    have hsame := batchBufferFlush_sameConnection hv c
    rw [hsame.closing, hsame.listed, hsame.isPaused, hsame.reading]
    exact h.live

/-- `process_insert_buffer` on an open connection that is not paused. -/
theorem processInsertBuffer_keeps (hv : v.Leads) (hmsgs : ∀ msg ∈ msgs, MsgOk msg)
    (hsent : received <+: msgs.flatten)
    (htook : ∃ parts batch, c.Took parts batch ∧
      (parts.flatten ++ batch).flatten ++ c.buffer = received)
    (hredirecting : c.redirecting = false) (hreading : c.reading = true)
    (hpaused : c.isPaused = false) (hlisted : c.listed = true) (hopen : c.closing = false) :
    (processInsertBuffer v c).Keeps received ∧ (processInsertBuffer v c).closing = false := by
  obtain ⟨parts, batch, htook, hstream⟩ := htook
  unfold processInsertBuffer
  split
  · -- a full tree pauses the client, and its bytes wait in the buffer
    rw [if_neg (by rw [hpaused]; exact Bool.false_ne_true)]
    refine ⟨⟨⟨parts, batch, ?_, hstream⟩, hredirecting, ?_, ?_, fun _ => hopen, ?_⟩, hopen⟩
    · exact ⟨htook.1, htook.2, htook.3, htook.4, htook.5, htook.6⟩
    · intro hrunning
      cases hrunning
    · intro hread
      cases hread
    · intro _
      refine ⟨hlisted, ?_⟩
      intro hrunning
      cases hrunning
  · -- otherwise the loop stops only in front of an incomplete message
    obtain ⟨c', left, hloop, hleft, hincomplete, hsame⟩ :=
      processLoop_keeps hv hmsgs htook (hstream.symm ▸ hsent)
    have hspec := processLoop_spec v htook hstream
    rw [hloop] at hspec ⊢
    obtain ⟨parts', batch', rest, htook', hstream', hrest⟩ := hspec.took
    have hrest' : left = rest := hrest left rfl
    subst hrest'
    -- the last flush changes the batch only
    have hkept : ∀ d : InsertClient, SameConnection c' d → d.buffer = left →
        (∃ parts batch, d.Took parts batch ∧
          (parts.flatten ++ batch).flatten ++ left = received) →
        (d.buffer = [] → d.batchedReqCount = 0) → d.Keeps received ∧ d.closing = false := by
      intro d hd hbuffer htook hcount
      have hall := hsame.trans hd
      have hclosing : d.closing = false := hall.closing.trans hopen
      refine ⟨⟨?_, hall.redirecting.trans hredirecting, ?_, ?_, fun _ => hclosing, ?_⟩, hclosing⟩
      · rw [hbuffer]
        exact htook
      · intro _
        rw [hbuffer] at hcount ⊢
        exact ⟨hleft, hincomplete, hcount⟩
      · exact fun _ => hall.isPaused.trans hpaused
      · exact fun _ => ⟨hall.listed.trans hlisted, fun _ => hall.reading.trans hreading⟩
    have hset : ({ c' with buffer := left } : InsertClient).Took parts' batch' :=
      ⟨htook'.1, htook'.2, htook'.3, htook'.4, htook'.5, htook'.6⟩
    simp only
    split
    · rename_i hempty
      have hflush := batchBufferFlush_sameConnection hv { c' with buffer := left }
      obtain ⟨parts'', hflushed, hparts⟩ := hset.flush v
      apply hkept _ ⟨hflush.reading, hflush.isPaused, hflush.closing, hflush.listed,
        hflush.redirecting⟩ (batchBufferFlush_sameInput v _).buffer
      · refine ⟨parts'', [], hflushed, ?_⟩
        rw [List.append_nil, hparts, hstream']
      · exact fun _ => batchBufferFlush_count v _
    · rename_i hkeep
      refine hkept { c' with buffer := left } ⟨rfl, rfl, rfl, rfl, rfl⟩ rfl
        ⟨parts', batch', hset, hstream'⟩ ?_
      intro hempty
      by_contra hne
      exact hkeep ⟨hempty, Nat.pos_of_ne_zero hne⟩

theorem Keeps.onClientRead (h : c.Keeps received) (hv : v.Leads)
    (hmsgs : ∀ msg ∈ msgs, MsgOk msg) {chunk : Bytes} (hchunk : chunk.length ≤ uvSuggestedSize)
    (hsent : received ++ chunk <+: msgs.flatten) (hreading : c.reading = true)
    (hopen : c.closing = false) :
    (onClientRead v c chunk).Keeps (received ++ chunk) ∧
      (onClientRead v c chunk).closing = false := by
  have hpaused := h.reading hreading
  have hsize : ¬ (c.buffer ++ chunk).length > maxClientBufSize := by
    have hbuffer := (h.drained hpaused).1
    rw [List.length_append]
    simp only [insertCmdSize, uvSuggestedSize, maxClientBufSize] at *
    omega
  obtain ⟨parts, batch, htook, hstream⟩ := h.took
  unfold Server.onClientRead
  rw [if_neg hsize]
  refine @processInsertBuffer_keeps v { c with buffer := c.buffer ++ chunk } (received ++ chunk) msgs
    hv hmsgs hsent ⟨parts, batch, ?_, ?_⟩ h.redirecting hreading hpaused (h.live hopen).1 hopen
  · exact ⟨htook.1, htook.2, htook.3, htook.4, htook.5, htook.6⟩
  · rw [← List.append_assoc, hstream]

theorem Keeps.onClientEnd (h : c.Keeps received) (hv : v.Leads)
    (hmsgs : ∀ msg ∈ msgs, MsgOk msg) (hsent : received <+: msgs.flatten)
    (hreading : c.reading = true) (hopen : c.closing = false) :
    (onClientEnd v c).Keeps received := by
  unfold Server.onClientEnd
  apply Keeps.close
  split
  · have hprocessed := processInsertBuffer_keeps hv hmsgs hsent h.took h.redirecting hreading
      (h.reading hreading) (h.live hopen).1 hopen
    exact hprocessed.1.flush hv
  · exact h.flush hv

theorem Keeps.statsTimerTurn (h : c.Keeps received) (hv : v.Leads)
    (hmsgs : ∀ msg ∈ msgs, MsgOk msg) (hsent : received <+: msgs.flatten)
    (hlisted : c.listed = true) :
    (statsTimerTurn v c).Keeps received ∧ (statsTimerTurn v c).closing = false := by
  have hflush := h.flush hv
  have hsame := batchBufferFlush_sameConnection hv c
  have hlisted' : (batchBufferFlush v c).listed = true := hsame.listed.trans hlisted
  unfold Server.statsTimerTurn
  simp only
  split
  · obtain ⟨parts, batch, htook, hstream⟩ := hflush.took
    refine @processInsertBuffer_keeps v
      { batchBufferFlush v c with isPaused := false, reading := true } received msgs hv hmsgs hsent
      ⟨parts, batch, ?_, hstream⟩ hflush.redirecting rfl rfl hlisted' (hflush.listed hlisted')
    exact ⟨htook.1, htook.2, htook.3, htook.4, htook.5, htook.6⟩
  · exact ⟨hflush, hflush.listed hlisted'⟩

/-- A completion only adds to what has been written, or closes the connection. -/
theorem Keeps.serverApplyCb (h : c.Keeps received) {i : Nat} {req : ApplyReq}
    (hreq : c.applies[i]? = some req) (ok uvWriteOk : Bool) :
    (serverApplyCb c i req ok uvWriteOk).Keeps received ∧
      (uvWriteOk = true → (serverApplyCb c i req ok uvWriteOk).closing = c.closing) := by
  obtain ⟨parts, batch, htook, hstream⟩ := h.took
  have happlies := holds_set_outcome htook.applies hreq (.completed ok)
  have htook' : ∃ parts batch, InsertClient.Took
      { c with applies := c.applies.set i { req with outcome := .completed ok } } parts batch ∧
      (parts.flatten ++ batch).flatten ++ c.buffer = received :=
    ⟨parts, batch, ⟨happlies, htook.2, htook.3, htook.4, htook.5, htook.6⟩, hstream⟩
  have hset : Keeps { c with applies := c.applies.set i { req with outcome := .completed ok } }
      received := ⟨htook', h.redirecting, h.drained, h.reading, h.listed, h.live⟩
  unfold Server.serverApplyCb
  simp only
  split
  · split
    · obtain ⟨parts', batch', hparts, hstream'⟩ := htook'
      refine ⟨⟨⟨parts', batch', ?_, hstream'⟩, h.redirecting, h.drained, h.reading, h.listed, h.live⟩,
        fun _ => rfl⟩
      exact ⟨hparts.1, hparts.2, hparts.3, hparts.4, hparts.5, hparts.6⟩
    · rename_i hfailed
      exact ⟨hset.close, fun hqueued => absurd hqueued hfailed⟩
  · exact ⟨hset, fun _ => rfl⟩

/-- Every callback under a steady leader keeps the invariant, and only the end of the stream or a
failing write closes the connection. -/
theorem Keeps.step (h : c.Keeps received) (hmsgs : ∀ msg ∈ msgs, MsgOk msg) {e : ClientEvent}
    (he : e.Steady) (hsent : received ++ e.received <+: msgs.flatten) {c' : InsertClient}
    (hstep : c.step e = some c') :
    c'.Keeps (received ++ e.received) ∧
      (¬ e.EndsConnection → c.closing = false → c'.closing = false) := by
  have hnothing : received ++ [] = received := List.append_nil received
  cases step_cases hstep with
  | read v chunk hreading hopen =>
    have hread := h.onClientRead he.1 hmsgs he.2 hsent hreading hopen
    exact ⟨hread.1, fun _ _ => hread.2⟩
  | readEnd v hreading hopen =>
    simp only [ClientEvent.received, hnothing] at hsent ⊢
    exact ⟨h.onClientEnd he hmsgs hsent hreading hopen, fun hends => absurd trivial hends⟩
  | statsTimer v hlisted =>
    simp only [ClientEvent.received, hnothing] at hsent ⊢
    have hturn := h.statsTimerTurn he hmsgs hsent hlisted
    exact ⟨hturn.1, fun _ _ => hturn.2⟩
  | applied i ok uvWriteOk req hreq =>
    simp only [ClientEvent.received, hnothing]
    have happlied := h.serverApplyCb hreq ok uvWriteOk
    refine ⟨happlied.1, fun hends hopen => ?_⟩
    rw [happlied.2 (Bool.not_eq_false _ ▸ hends)]
    exact hopen
  | redirectWritten hredirecting =>
    -- a steady leader redirects nobody
    rw [h.redirecting] at hredirecting
    cases hredirecting
  | writeFailed =>
    simp only [ClientEvent.received, hnothing]
    exact ⟨h.close, fun hends => absurd trivial hends⟩

theorem keeps_onInsertConnection (hv : v.Leads) : (onInsertConnection v).Keeps [] := by
  have htook := took_accepted
  unfold onInsertConnection
  rw [if_pos hv.isLeader]
  refine ⟨⟨[], [], ?_, rfl⟩, rfl, ?_, fun _ => rfl, fun _ => rfl, fun _ => ⟨rfl, fun _ => rfl⟩⟩
  · exact ⟨htook.1, htook.2, htook.3, htook.4, htook.5, htook.6⟩
  · exact fun _ => ⟨by decide, Or.inl (by decide), fun _ => rfl⟩

/-- Every run of callbacks under a steady leader. -/
theorem Keeps.run (h : c.Keeps received) (hmsgs : ∀ msg ∈ msgs, MsgOk msg) {es : List ClientEvent}
    (hes : ∀ e ∈ es, e.Steady) (hsent : received ++ receivedBytes es <+: msgs.flatten)
    {c' : InsertClient} (hrun : run InsertClient.step c es = some c') :
    c'.Keeps (received ++ receivedBytes es) ∧
      ((∀ e ∈ es, ¬ e.EndsConnection) → c.closing = false → c'.closing = false) := by
  induction es generalizing c received with
  | nil =>
    cases hrun
    rw [receivedBytes, List.flatMap_nil, List.append_nil]
    exact ⟨h, fun _ hopen => hopen⟩
  | cons e es ih =>
    obtain ⟨d, hstep, hrest⟩ := run_cons_eq_some.mp hrun
    rw [receivedBytes, List.flatMap_cons, ← List.append_assoc] at hsent ⊢
    have hfront : received ++ e.received <+: msgs.flatten :=
      (List.prefix_append _ _).trans hsent
    obtain ⟨hd, hopen⟩ := h.step hmsgs (hes e List.mem_cons_self) hfront hstep
    obtain ⟨hc', hopen'⟩ := ih hd (fun e' he' => hes e' (List.mem_cons_of_mem e he')) hsent hrest
    refine ⟨hc', fun hends hc => ?_⟩
    apply hopen' fun e' he' => hends e' (List.mem_cons_of_mem e he')
    exact hopen (hends e List.mem_cons_self) hc

end Keeps

/-! ## The entries -/

/-- The entries of accepted messages are accepted, and their calls are those of the messages. -/
theorem entries_of_holds {applies : List ApplyReq} {parts : List (List Bytes)}
    (h : List.Forall₂ ApplyReq.Holds applies parts) (hok : ∀ msg ∈ parts.flatten, MsgOk msg) :
    (∀ req ∈ applies, entryStatus req.entry = .ok) ∧
      (applies.map ApplyReq.entry).flatMap entryCalls = parts.flatten.map recordOf := by
  induction h with
  | nil =>
    refine ⟨?_, rfl⟩
    intro req hreq
    cases hreq
  | @cons req msgs applies parts hreq _ ih =>
    have hmsgs : ∀ msg ∈ msgs, MsgOk msg := fun msg hmsg => hok msg (List.mem_append_left _ hmsg)
    obtain ⟨hstatus, hcalls⟩ := ih fun msg hmsg => hok msg (List.mem_append_right _ hmsg)
    constructor
    · rw [List.forall_mem_cons]
      refine ⟨?_, hstatus⟩
      rw [hreq.entry, alignedEntry,
        entryStatus_flatten_eq_ok_iff fun msg hmsg => (hmsgs msg hmsg).toIsMsg]
      exact hmsgs
    · rw [List.map_cons, List.flatMap_cons, hcalls, List.flatten_cons, List.map_append, entryCalls,
        hreq.entry, alignedEntry, entryMsgs_flatten hmsgs]

end InsertClient

/-- Applying entries makes their calls of `lsmt_insert` in order. -/
theorem fsmApplyAll_db {σ : Type u} (lsmtInsert : σ → SlUint128 → Bytes → σ × Int)
    (s : FsmState σ) (entries : List Bytes) :
    (fsmApplyAll lsmtInsert s entries).db =
      (entries.flatMap entryCalls).foldl (fun db call => (lsmtInsert db call.1 call.2).1) s.db := by
  induction entries generalizing s with
  | nil => rfl
  | cons entry entries ih =>
    rw [List.flatMap_cons, List.foldl_append, ← fsmApply_db]
    exact ih (fsmApply lsmtInsert s entry).1

end RaftLsmt.Server
