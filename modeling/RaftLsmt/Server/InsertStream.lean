import RaftLsmt.Server.InsertClient
import Mathlib.Data.List.Forall2

/-!
# What a connection does with its stream

A connection takes complete messages off the front of its stream, in order, and puts each of them
into exactly one batch. `InsertClient.Took` says which messages the entries and the current batch
hold, and `InsertClient.Tracks` that these messages and the unprocessed bytes are what has been
received. Every callback keeps this (`InsertClient.Tracks.step`), so it holds after every run of
callbacks, however the stream was split into reads (`tracks_of_run`).
-/

set_option autoImplicit false

namespace RaftLsmt.Server

open RaftLsmt.Lib.StepMachine
open RaftLsmt.Lsmt

/-- The entry is the batch of these messages. -/
structure ApplyReq.Holds (req : ApplyReq) (msgs : List Bytes) : Prop where
  entry : req.entry = alignedEntry msgs.flatten
  count : req.reqCount = msgs.length
  ne_nil : msgs ≠ []
  length_le : msgs.length ≤ batchSize

namespace InsertClient

/-- The messages of `parts` are in the entries, those of `batch` are being collected. -/
structure Took (c : InsertClient) (parts : List (List Bytes)) (batch : List Bytes) : Prop where
  applies : List.Forall₂ ApplyReq.Holds c.applies parts
  buffer : c.batchBuffer = batch.flatten
  count : c.batchedReqCount = batch.length
  length_lt : batch.length < batchSize
  isMsg : ∀ msg ∈ parts.flatten ++ batch, IsMsg msg
  fits : ∀ msg ∈ parts.flatten ++ batch, msg.length ≤ bufferCapacity

/-- The unprocessed bytes of a connection that is or may again be read from are in its buffer. -/
structure Tracks (c : InsertClient) (received : Bytes) (parts : List (List Bytes))
    (batch : List Bytes) : Prop extends Took c parts batch where
  stream : ∃ rest, (parts.flatten ++ batch).flatten ++ rest = received ∧
    (c.closing = false → c.reading = true ∨ c.isPaused = true → rest = c.buffer)
  reading : c.reading = true → c.isPaused = false
  listed : c.listed = true → c.closing = false

/-- What the functions that fill and flush the batch leave alone. -/
structure SameInput (c c' : InsertClient) : Prop where
  buffer : c'.buffer = c.buffer
  reading : c'.reading = c.reading
  isPaused : c'.isPaused = c.isPaused
  listed : (c.listed = true → c.closing = false) → c'.listed = true → c'.closing = false

theorem SameInput.refl (c : InsertClient) : SameInput c c := ⟨rfl, rfl, rfl, id⟩

theorem SameInput.trans {c d e : InsertClient} (h : SameInput c d) (h' : SameInput d e) :
    SameInput c e :=
  ⟨h'.buffer.trans h.buffer, h'.reading.trans h.reading, h'.isPaused.trans h.isPaused,
    fun hc => h'.listed (h.listed hc)⟩

/-! ## The batch -/

theorem batchBufferFlush_sameInput (v : ServerView) (c : InsertClient) :
    SameInput c (batchBufferFlush v c) := by
  rw [batchBufferFlush]
  split
  · exact SameInput.refl c
  · simp only
    split
    · exact ⟨rfl, rfl, rfl, id⟩
    · exact ⟨rfl, rfl, rfl, by simp [closeAndFreeClient]⟩

theorem addToBatch_sameInput (v : ServerView) (c : InsertClient) (msg : Bytes) :
    SameInput c (addToBatch v c msg) := by
  rw [addToBatch]
  simp only
  split
  · have hflush := batchBufferFlush_sameInput v { c with
      batchBuffer := c.batchBuffer ++ msg
      batchedReqCount := c.batchedReqCount + 1 }
    exact ⟨hflush.buffer, hflush.reading, hflush.isPaused, hflush.listed⟩
  · exact ⟨rfl, rfl, rfl, id⟩

section Took

variable {c : InsertClient} {parts : List (List Bytes)} {batch : List Bytes}

/-- The messages of an entry. -/
theorem Took.exists_holds (h : c.Took parts batch) {req : ApplyReq} (hreq : req ∈ c.applies) :
    ∃ msgs ∈ parts, req.Holds msgs := by
  obtain ⟨i, hi⟩ := List.mem_iff_get.mp hreq
  have hlt : i.val < parts.length := h.applies.length_eq ▸ i.isLt
  refine ⟨parts.get ⟨i, hlt⟩, List.get_mem _ _, ?_⟩
  rw [← hi]
  exact h.applies.get i.isLt hlt

/-- Flushing makes one entry of a batch of at most `batchSize` messages. -/
theorem flush_took (v : ServerView) (happlies : List.Forall₂ ApplyReq.Holds c.applies parts)
    (hbuffer : c.batchBuffer = batch.flatten) (hcount : c.batchedReqCount = batch.length)
    (hlength : batch.length ≤ batchSize) (hmsg : ∀ msg ∈ parts.flatten ++ batch, IsMsg msg)
    (hfits : ∀ msg ∈ parts.flatten ++ batch, msg.length ≤ bufferCapacity) :
    ∃ parts', (batchBufferFlush v c).Took parts' [] ∧ parts'.flatten = parts.flatten ++ batch := by
  rw [batchBufferFlush]
  by_cases hzero : c.batchedReqCount = 0
  · have hnil : batch = [] := List.length_eq_zero_iff.mp (hcount ▸ hzero)
    subst hnil
    rw [if_pos hzero]
    exact ⟨parts, ⟨happlies, hbuffer, hcount, by decide, hmsg, hfits⟩, by simp⟩
  · rw [if_neg hzero]
    have hne : batch ≠ [] := fun hnil => hzero (by rw [hcount, hnil]; rfl)
    have hparts : (parts ++ [batch]).flatten = parts.flatten ++ batch := by simp
    refine ⟨parts ++ [batch], ?_, hparts⟩
    have hforall : ∀ outcome, List.Forall₂ ApplyReq.Holds
        (c.applies ++ [⟨alignedEntry c.batchBuffer, c.batchedReqCount, outcome⟩])
        (parts ++ [batch]) := by
      intro outcome
      refine List.rel_append happlies (List.Forall₂.cons ⟨?_, hcount, hne, hlength⟩ .nil)
      rw [hbuffer]
    simp only
    split
    · exact ⟨hforall _, rfl, rfl, by decide, by rwa [hparts, List.append_nil],
        by rwa [hparts, List.append_nil]⟩
    · exact ⟨hforall _, rfl, rfl, by decide, by rwa [hparts, List.append_nil],
        by rwa [hparts, List.append_nil]⟩

theorem Took.flush (h : c.Took parts batch) (v : ServerView) :
    ∃ parts', (batchBufferFlush v c).Took parts' [] ∧ parts'.flatten = parts.flatten ++ batch :=
  flush_took v h.applies h.buffer h.count (le_of_lt h.length_lt) h.isMsg h.fits

/-- One more message. -/
theorem Took.add (h : c.Took parts batch) (v : ServerView) {msg : Bytes} (hmsg : IsMsg msg)
    (hfits : msg.length ≤ bufferCapacity) :
    ∃ parts' batch', (addToBatch v c msg).Took parts' batch' ∧
      parts'.flatten ++ batch' = parts.flatten ++ (batch ++ [msg]) := by
  have hbuffer : c.batchBuffer ++ msg = (batch ++ [msg]).flatten := by
    rw [h.buffer, List.flatten_append, List.flatten_singleton]
  have hcount : c.batchedReqCount + 1 = (batch ++ [msg]).length := by
    rw [h.count, List.length_append]
    rfl
  have hall : ∀ m ∈ parts.flatten ++ (batch ++ [msg]), IsMsg m := by
    rw [← List.append_assoc]
    exact List.forall_mem_append.mpr ⟨h.isMsg, by simpa using hmsg⟩
  have hallfits : ∀ m ∈ parts.flatten ++ (batch ++ [msg]), m.length ≤ bufferCapacity := by
    rw [← List.append_assoc]
    exact List.forall_mem_append.mpr ⟨h.fits, by simpa using hfits⟩
  have hlength : (batch ++ [msg]).length ≤ batchSize := by
    rw [List.length_append]
    exact h.length_lt
  rw [addToBatch]
  simp only
  split
  · obtain ⟨parts', htook, hparts⟩ := @flush_took
      { c with batchBuffer := c.batchBuffer ++ msg, batchedReqCount := c.batchedReqCount + 1 }
      parts (batch ++ [msg]) v h.applies hbuffer hcount hlength hall hallfits
    exact ⟨parts', [], htook, by rw [List.append_nil, hparts]⟩
  · rename_i hnot
    refine ⟨parts, batch ++ [msg], ⟨h.applies, hbuffer, hcount, ?_, hall, hallfits⟩, rfl⟩
    rw [← hcount]
    exact not_le.mp fun hle => hnot (Or.inl hle)

end Took

/-! ## The loop -/

/-- The message at the front of the rest. -/
theorem isMsg_take {rest : Bytes} (hfour : 4 ≤ msgSize rest) (hle : msgSize rest ≤ rest.length) :
    IsMsg (rest.take (msgSize rest)) := by
  have hlen : (rest.take (msgSize rest)).length = msgSize rest := by simpa using hle
  refine ⟨by rw [hlen]; exact hfour, ?_⟩
  rw [hlen, ← msgSize_append (by rw [hlen]; exact hfour) (rest.drop (msgSize rest)),
    List.take_append_drop]

/-- What the loop leaves behind: the messages taken and the rest make up what was received. When it
returns `false` the connection is closed or no longer read from. -/
structure LoopSpec (c : InsertClient) (received : Bytes) (result : InsertClient × Option Bytes) :
    Prop where
  took : ∃ parts batch rest, result.1.Took parts batch ∧
    (parts.flatten ++ batch).flatten ++ rest = received ∧
    (∀ left, result.2 = some left → left = rest)
  buffer : result.1.buffer = c.buffer
  isPaused : result.1.isPaused = c.isPaused
  reading : result.2 ≠ none → result.1.reading = c.reading
  ended : result.2 = none → result.1.closing = true ∨ result.1.reading = false
  listed : (c.listed = true → c.closing = false) → result.1.listed = true →
    result.1.closing = false

theorem processLoop_spec (v : ServerView) {received : Bytes} {c : InsertClient} {rest : Bytes}
    {parts : List (List Bytes)} {batch : List Bytes} (h : c.Took parts batch)
    (hstream : (parts.flatten ++ batch).flatten ++ rest = received) :
    LoopSpec c received (processLoop v c rest) := by
  fun_induction processLoop v c rest generalizing parts batch with
  | case1 c rest hshort =>
    -- less than a size field: the rest waits in the buffer
    exact ⟨⟨parts, batch, rest, h, hstream, by simp⟩, rfl, rfl, fun _ => rfl, by simp, id⟩
  | case2 c rest hlong hsmall =>
    -- a size below that of the field itself closes the connection
    have htook : (closeAndFreeClient c).Took parts batch := ⟨h.1, h.2, h.3, h.4, h.5, h.6⟩
    -- an incomplete message waits in the buffer
    exact ⟨⟨parts, batch, rest, htook, hstream, by simp⟩, rfl, rfl, by simp, fun _ => Or.inl rfl,
      by simp [closeAndFreeClient]⟩
  | case3 c rest hlong hlarge hincomplete =>
    exact ⟨⟨parts, batch, rest, h, hstream, by simp⟩, rfl, rfl, fun _ => rfl, by simp, id⟩
  | case4 c rest hlong hlarge hcomplete hfollower =>
    -- a follower redirects the client, and keeps what it has received
    have htook : (redirectToLeaderAndClose v c).Took parts batch := by
      rw [redirectToLeaderAndClose]
      split <;> exact ⟨h.1, h.2, h.3, h.4, h.5, h.6⟩
    refine ⟨⟨parts, batch, rest, htook, hstream, by simp⟩, ?_, ?_, by simp, fun _ => Or.inr ?_, ?_⟩
    · show (redirectToLeaderAndClose v c).buffer = c.buffer
      rw [redirectToLeaderAndClose]
      split <;> rfl
    · show (redirectToLeaderAndClose v c).isPaused = c.isPaused
      rw [redirectToLeaderAndClose]
      split <;> rfl
    · show (redirectToLeaderAndClose v c).reading = false
      rw [redirectToLeaderAndClose]
      split <;> rfl
    · intro hlisted
      show (redirectToLeaderAndClose v c).listed = true → _
      simp only [redirectToLeaderAndClose]
      split
      · exact hlisted
      · simp [closeAndFreeClient]
  | case5 c rest hlong hlarge hcomplete hleader hroom ih =>
    -- a whole message goes to the batch
    have hmsg : IsMsg (rest.take (msgSize rest)) := isMsg_take (not_lt.mp hlarge) (not_lt.mp hcomplete)
    have hfits : (rest.take (msgSize rest)).length ≤ bufferCapacity := by
      rw [List.length_take]
      omega
    obtain ⟨parts', batch', htook, hmsgs⟩ := h.add v hmsg hfits
    have hspec := ih htook (by
      rw [hmsgs, ← List.append_assoc, List.flatten_append, List.flatten_singleton,
        List.append_assoc, List.take_append_drop, hstream])
    have hsame := addToBatch_sameInput v c (rest.take (msgSize rest))
    exact ⟨hspec.took, hspec.buffer.trans hsame.buffer, hspec.isPaused.trans hsame.isPaused,
      fun hne => (hspec.reading hne).trans hsame.reading, hspec.ended,
      fun hlisted => hspec.listed (hsame.listed hlisted)⟩
  | case6 c rest hlong hlarge hcomplete hleader hfull =>
    -- a message without room in the batch closes the connection
    have htook : (closeAndFreeClient c).Took parts batch := ⟨h.1, h.2, h.3, h.4, h.5, h.6⟩
    exact ⟨⟨parts, batch, rest, htook, hstream, by simp⟩, rfl, rfl, by simp, fun _ => Or.inl rfl,
      by simp [closeAndFreeClient]⟩

/-! ## The callbacks -/

section Tracks

variable {c : InsertClient} {received : Bytes} {parts : List (List Bytes)} {batch : List Bytes}

/-- `process_insert_buffer` on a connection that is not paused. -/
theorem processInsertBuffer_tracks (v : ServerView) (h : c.Took parts batch)
    (hstream : (parts.flatten ++ batch).flatten ++ c.buffer = received)
    (hpaused : c.isPaused = false) (hlisted : c.listed = true → c.closing = false) :
    ∃ parts' batch', (processInsertBuffer v c).Tracks received parts' batch' := by
  rw [processInsertBuffer]
  by_cases hfull : v.immutableCount ≥ 24
  · rw [if_pos hfull, if_neg (by simp [hpaused])]
    exact ⟨parts, batch, ⟨h.1, h.2, h.3, h.4, h.5, h.6⟩, ⟨c.buffer, hstream, fun _ _ => rfl⟩,
      by simp, hlisted⟩
  · rw [if_neg hfull]
    have hspec := processLoop_spec v h hstream
    obtain ⟨parts', batch', rest, htook, hrest, hleft⟩ := hspec.took
    cases hloop : processLoop v c c.buffer with
    | mk c' left =>
      rw [hloop] at hspec htook hleft
      have hpaused' : c'.isPaused = false := hspec.isPaused.trans hpaused
      cases left with
      | none =>
        refine ⟨parts', batch', htook, ⟨rest, hrest, fun hopen hlive => ?_⟩, fun _ => hpaused',
          hspec.listed hlisted⟩
        rcases hspec.ended rfl with hclosed | hstopped
        · rw [show c'.closing = true from hclosed] at hopen
          cases hopen
        · rcases hlive with hlive | hlive
          · rw [show c'.reading = false from hstopped] at hlive
            cases hlive
          · rw [hpaused'] at hlive
            cases hlive
      | some left =>
        have hleft' : left = rest := hleft left rfl
        subst hleft'
        have htook' : ({ c' with buffer := left } : InsertClient).Took parts' batch' :=
          ⟨htook.1, htook.2, htook.3, htook.4, htook.5, htook.6⟩
        simp only
        split
        · obtain ⟨parts'', hflushed, hmsgs⟩ := htook'.flush v
          have hsame := batchBufferFlush_sameInput v { c' with buffer := left }
          refine ⟨parts'', [], hflushed, ⟨left, ?_, fun _ _ => hsame.buffer.symm⟩,
            fun _ => hsame.isPaused.trans hpaused', hsame.listed (hspec.listed hlisted)⟩
          rw [List.append_nil, hmsgs, hrest]
        · exact ⟨parts', batch', htook', ⟨left, hrest, fun _ _ => rfl⟩, fun _ => hpaused',
            hspec.listed hlisted⟩

theorem Tracks.close (h : c.Tracks received parts batch) :
    (closeAndFreeClient c).Tracks received parts batch := by
  obtain ⟨rest, hstream, -⟩ := h.stream
  exact ⟨⟨h.1.1, h.1.2, h.1.3, h.1.4, h.1.5, h.1.6⟩,
    ⟨rest, hstream, by simp [closeAndFreeClient]⟩, h.reading, by simp [closeAndFreeClient]⟩

theorem Tracks.flush (h : c.Tracks received parts batch) (v : ServerView) :
    ∃ parts', (batchBufferFlush v c).Tracks received parts' [] ∧
      (c.closing = false → c.reading = true ∨ c.isPaused = true →
        parts'.flatten.flatten ++ c.buffer = received) := by
  obtain ⟨rest, hstream, hlive⟩ := h.stream
  obtain ⟨parts', htook, hmsgs⟩ := h.toTook.flush v
  have hsame := batchBufferFlush_sameInput v c
  have hopen : (batchBufferFlush v c).closing = false → c.closing = false := by
    rw [batchBufferFlush]
    split
    · exact id
    · simp only
      split
      · exact id
      · simp [closeAndFreeClient]
  refine ⟨parts', ⟨htook, ⟨rest, by rw [List.append_nil, hmsgs, hstream], fun hc hl => ?_⟩, ?_,
    hsame.listed h.listed⟩, fun hc hl => ?_⟩
  · rw [hsame.reading, hsame.isPaused] at hl
    rw [hsame.buffer]
    exact hlive (hopen hc) hl
  · rw [hsame.reading, hsame.isPaused]
    exact h.reading
  · rw [hmsgs, ← hlive hc hl, hstream]

/-- The connection is read from, so what it has not taken is in its buffer. -/
theorem Tracks.stream_buffer (h : c.Tracks received parts batch) (hopen : c.closing = false)
    (hreading : c.reading = true) : (parts.flatten ++ batch).flatten ++ c.buffer = received := by
  obtain ⟨rest, hstream, hlive⟩ := h.stream
  rw [← hlive hopen (Or.inl hreading), hstream]

theorem Tracks.onClientRead (h : c.Tracks received parts batch) (hopen : c.closing = false)
    (hreading : c.reading = true) (v : ServerView) (chunk : Bytes) :
    ∃ parts' batch', (onClientRead v c chunk).Tracks (received ++ chunk) parts' batch' := by
  have hstream : (parts.flatten ++ batch).flatten ++ (c.buffer ++ chunk) = received ++ chunk := by
    rw [← List.append_assoc, h.stream_buffer hopen hreading]
  have htook : ({ c with buffer := c.buffer ++ chunk } : InsertClient).Took parts batch :=
    ⟨h.1.1, h.1.2, h.1.3, h.1.4, h.1.5, h.1.6⟩
  rw [Server.onClientRead]
  simp only
  split
  · exact ⟨parts, batch, ⟨htook.1, htook.2, htook.3, htook.4, htook.5, htook.6⟩,
      ⟨_, hstream, by simp [closeAndFreeClient]⟩, h.reading, by simp [closeAndFreeClient]⟩
  · exact processInsertBuffer_tracks v htook hstream (h.reading hreading) h.listed

theorem Tracks.onClientEnd (h : c.Tracks received parts batch) (hopen : c.closing = false)
    (hreading : c.reading = true) (v : ServerView) :
    ∃ parts' batch', (onClientEnd v c).Tracks received parts' batch' := by
  rw [Server.onClientEnd]
  split
  · obtain ⟨parts', batch', htracks⟩ := processInsertBuffer_tracks v h.toTook
      (h.stream_buffer hopen hreading) (h.reading hreading) h.listed
    obtain ⟨parts'', hflush, -⟩ := htracks.flush v
    exact ⟨parts'', [], hflush.close⟩
  · obtain ⟨parts'', hflush, -⟩ := h.flush v
    exact ⟨parts'', [], hflush.close⟩

theorem Tracks.statsTimerTurn (h : c.Tracks received parts batch) (hlisted : c.listed = true)
    (v : ServerView) : ∃ parts' batch', (statsTimerTurn v c).Tracks received parts' batch' := by
  obtain ⟨parts', hflush, hbuffer⟩ := h.flush v
  have hsame := batchBufferFlush_sameInput v c
  rw [Server.statsTimerTurn]
  split
  · rename_i hresume
    have hpaused : c.isPaused = true := hsame.isPaused ▸ hresume.2
    refine @processInsertBuffer_tracks
      { batchBufferFlush v c with isPaused := false, reading := true } received parts' [] v
      ⟨hflush.1.1, hflush.1.2, hflush.1.3, hflush.1.4, hflush.1.5, hflush.1.6⟩ ?_ rfl
      hflush.listed
    show (parts'.flatten ++ []).flatten ++ (batchBufferFlush v c).buffer = received
    rw [List.append_nil, hsame.buffer, hbuffer (h.listed hlisted) (Or.inr hpaused)]
  · exact ⟨parts', [], hflush⟩

/-- The outcome of an entry does not matter for its messages. -/
theorem holds_set_outcome {applies : List ApplyReq} {parts : List (List Bytes)}
    (h : List.Forall₂ ApplyReq.Holds applies parts) {i : Nat} {req : ApplyReq}
    (hreq : applies[i]? = some req) (outcome : ApplyOutcome) :
    List.Forall₂ ApplyReq.Holds (applies.set i { req with outcome := outcome }) parts := by
  induction h generalizing i with
  | nil => simp at hreq
  | @cons a msgs as parts ha hall ih =>
    cases i with
    | zero =>
      simp only [List.getElem?_cons_zero, Option.some.injEq] at hreq
      subst hreq
      exact .cons ⟨ha.1, ha.2, ha.3, ha.4⟩ hall
    | succ i => exact .cons ha (ih hreq)

/-- A completion changes no message. -/
theorem Tracks.serverApplyCb (h : c.Tracks received parts batch) {i : Nat} {req : ApplyReq}
    (hreq : c.applies[i]? = some req) (ok uvWriteOk : Bool) :
    (serverApplyCb c i req ok uvWriteOk).Tracks received parts batch := by
  have happlies := holds_set_outcome h.applies hreq (.completed ok)
  rw [Server.serverApplyCb]
  simp only
  split
  · split
    · exact ⟨⟨happlies, h.1.2, h.1.3, h.1.4, h.1.5, h.1.6⟩, h.stream, h.reading, h.listed⟩
    · exact Tracks.close ⟨⟨happlies, h.1.2, h.1.3, h.1.4, h.1.5, h.1.6⟩, h.stream, h.reading,
        h.listed⟩
  · exact ⟨⟨happlies, h.1.2, h.1.3, h.1.4, h.1.5, h.1.6⟩, h.stream, h.reading, h.listed⟩

/-- Every callback keeps track of the stream. -/
theorem Tracks.step (h : c.Tracks received parts batch) {e : ClientEvent} {c' : InsertClient}
    (hstep : c.step e = some c') :
    ∃ parts' batch', c'.Tracks (received ++ e.received) parts' batch' := by
  -- all other callbacks receive nothing
  have hnothing : received ++ [] = received := List.append_nil received
  cases step_cases hstep with
  | read v chunk hreading hopen => exact h.onClientRead hopen hreading v chunk
  | readEnd v hreading hopen =>
    simp only [ClientEvent.received, hnothing]
    exact h.onClientEnd hopen hreading v
  | statsTimer v hlisted =>
    simp only [ClientEvent.received, hnothing]
    exact h.statsTimerTurn hlisted v
  | applied i ok uvWriteOk req hreq =>
    simp only [ClientEvent.received, hnothing]
    exact ⟨parts, batch, h.serverApplyCb hreq ok uvWriteOk⟩
  | redirectWritten =>
    simp only [ClientEvent.received, hnothing]
    have hclose := h.close
    exact ⟨parts, batch, ⟨hclose.1.1, hclose.1.2, hclose.1.3, hclose.1.4, hclose.1.5, hclose.1.6⟩,
      hclose.2, hclose.3, hclose.4⟩
  | writeFailed =>
    simp only [ClientEvent.received, hnothing]
    exact ⟨parts, batch, h.close⟩

end Tracks

theorem took_accepted : accepted.Took [] [] :=
  ⟨.nil, rfl, rfl, by decide, by simp, by simp⟩

/-- A connection starts with nothing taken. -/
theorem tracks_onInsertConnection (v : ServerView) : (onInsertConnection v).Tracks [] [] [] := by
  have htook := took_accepted
  rw [onInsertConnection]
  split
  · exact ⟨⟨htook.1, htook.2, htook.3, htook.4, htook.5, htook.6⟩, ⟨[], rfl, fun _ _ => rfl⟩,
      fun _ => rfl, fun _ => rfl⟩
  · rw [redirectToLeaderAndClose]
    split
    · exact ⟨⟨htook.1, htook.2, htook.3, htook.4, htook.5, htook.6⟩, ⟨[], rfl, fun _ _ => rfl⟩,
        fun _ => rfl, fun _ => rfl⟩
    · exact ⟨⟨htook.1, htook.2, htook.3, htook.4, htook.5, htook.6⟩, ⟨[], rfl, fun _ _ => rfl⟩,
        fun _ => rfl, by simp [closeAndFreeClient]⟩

/-- After every run of callbacks the connection has taken its messages off what it received. -/
theorem Tracks.run {c c' : InsertClient} {received : Bytes} {parts : List (List Bytes)}
    {batch : List Bytes} (h : c.Tracks received parts batch) {es : List ClientEvent}
    (hrun : run InsertClient.step c es = some c') :
    ∃ parts' batch', c'.Tracks (received ++ receivedBytes es) parts' batch' := by
  induction es generalizing c received parts batch with
  | nil =>
    cases hrun
    exact ⟨parts, batch, by rwa [receivedBytes, List.flatMap_nil, List.append_nil]⟩
  | cons e es ih =>
    obtain ⟨d, hstep, hrest⟩ := run_cons_eq_some.mp hrun
    obtain ⟨parts', batch', hd⟩ := h.step hstep
    obtain ⟨parts'', batch'', hc'⟩ := ih hd hrest
    refine ⟨parts'', batch'', ?_⟩
    rwa [receivedBytes, List.flatMap_cons, ← List.append_assoc]

theorem tracks_of_run {v : ServerView} {es : List ClientEvent} {c : InsertClient}
    (hrun : run InsertClient.step (onInsertConnection v) es = some c) :
    ∃ parts batch, c.Tracks (receivedBytes es) parts batch := by
  simpa using (tracks_onInsertConnection v).run hrun

end InsertClient

end RaftLsmt.Server
