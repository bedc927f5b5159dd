import RaftLsmt.Server.InsertStream

/-!
# What a connection writes

Two kinds of bytes are written to an insert client, and nothing separates them: an acknowledgement
byte for each message of an entry whose callback has run with status 0, and the redirect line. A
callback other than `serverApplyCb` completes no entry and writes nothing but that line
(`InsertClient.Fills`), so the acknowledgement bytes are never more than the messages in entries that
have completed with status 0 (`okCount`).
-/

set_option autoImplicit false

namespace RaftLsmt.Server

open RaftLsmt.Lsmt

/-- The messages in entries that have completed with status 0. -/
def okCount (applies : List ApplyReq) : Nat :=
  (applies.map fun req => if req.outcome = .completed true then req.reqCount else 0).sum

theorem okCount_cons (req : ApplyReq) (applies : List ApplyReq) :
    okCount (req :: applies) =
      (if req.outcome = .completed true then req.reqCount else 0) + okCount applies := by
  unfold okCount
  rw [List.map_cons, List.sum_cons]

theorem okCount_append (applies more : List ApplyReq) :
    okCount (applies ++ more) = okCount applies + okCount more := by
  unfold okCount
  rw [List.map_append, List.sum_append]

/-- A completion adds the messages of its entry. -/
theorem okCount_set {applies : List ApplyReq} {i : Nat} {req : ApplyReq}
    (h : applies[i]? = some req) (hpending : req.outcome = .pending) (ok : Bool) :
    okCount (applies.set i { req with outcome := .completed ok }) =
      okCount applies + if ok then req.reqCount else 0 := by
  induction applies generalizing i with
  | nil => cases h
  | cons first applies ih =>
    cases i with
    | zero =>
      cases h
      rw [List.set_cons_zero, okCount_cons, okCount_cons, hpending]
      cases ok <;> simp [Nat.add_comm]
    | succ i =>
      rw [List.set_cons_succ, okCount_cons, okCount_cons, ih h, Nat.add_assoc]

/-- No more messages are in completed entries than have been taken off the stream. -/
theorem okCount_le {applies : List ApplyReq} {parts : List (List Bytes)}
    (h : List.Forall₂ ApplyReq.Holds applies parts) : okCount applies ≤ parts.flatten.length := by
  induction h with
  | nil => exact Nat.le_refl _
  | @cons req msgs applies parts hreq hrest ih =>
    have hcount := hreq.count
    rw [okCount_cons, List.flatten_cons, List.length_append]
    split <;> omega

/-- When the count is full every entry has completed with status 0. -/
theorem completed_of_okCount {applies : List ApplyReq} {parts : List (List Bytes)}
    (h : List.Forall₂ ApplyReq.Holds applies parts) (hfull : parts.flatten.length ≤ okCount applies) :
    ∀ req ∈ applies, req.outcome = .completed true := by
  induction h with
  | nil =>
    intro req hreq
    cases hreq
  | @cons first msgs applies parts hfirst hrest ih =>
    have hcount := hfirst.count
    have hpos := List.length_pos_of_ne_nil hfirst.ne_nil
    have hle := okCount_le hrest
    rw [List.flatten_cons, List.length_append, okCount_cons] at hfull
    split at hfull
    · rename_i hok
      intro req hreq
      rcases List.mem_cons.mp hreq with rfl | hreq
      · exact hok
      · exact ih (by omega) req hreq
    · omega

theorem okCount_of_completed {applies : List ApplyReq} {parts : List (List Bytes)}
    (h : List.Forall₂ ApplyReq.Holds applies parts)
    (hok : ∀ req ∈ applies, req.outcome = .completed true) :
    okCount applies = parts.flatten.length := by
  induction h with
  | nil => rfl
  | @cons req msgs applies parts hreq hrest ih =>
    rw [okCount_cons, if_pos (hok req List.mem_cons_self), hreq.count,
      ih fun r hr => hok r (List.mem_cons_of_mem _ hr), List.flatten_cons, List.length_append]

/-! ## The messages of an entry -/

/-- A number of messages at the front of the same bytes are the same messages. -/
theorem msgs_unique {msgs msgs' : List Bytes} (hmsgs : ∀ msg ∈ msgs, IsMsg msg)
    (hmsgs' : ∀ msg ∈ msgs', IsMsg msg) (hlength : msgs.length = msgs'.length) {rest rest' : Bytes}
    (h : msgs.flatten ++ rest = msgs'.flatten ++ rest') : msgs = msgs' := by
  induction msgs generalizing msgs' with
  | nil => exact (List.length_eq_zero_iff.mp hlength.symm).symm
  | cons msg msgs ih =>
    cases msgs' with
    | nil => cases hlength
    | cons msg' msgs' =>
      have hmsg := hmsgs msg List.mem_cons_self
      have hmsg' := hmsgs' msg' List.mem_cons_self
      rw [List.flatten_cons, List.flatten_cons, List.append_assoc, List.append_assoc] at h
      have hsize : msg.length = msg'.length := by
        have hword := congrArg msgSize h
        rw [msgSize_append hmsg.four_le, msgSize_append hmsg'.four_le, hmsg.size_eq,
          hmsg'.size_eq] at hword
        exact hword
      obtain ⟨rfl, hrest⟩ := List.append_inj h hsize
      rw [ih (fun m hm => hmsgs m (List.mem_cons_of_mem _ hm))
        (fun m hm => hmsgs' m (List.mem_cons_of_mem _ hm)) (Nat.succ.inj hlength) hrest]

/-- Entries hold one list of messages each. -/
theorem parts_unique {applies : List ApplyReq} {parts parts' : List (List Bytes)}
    (h : List.Forall₂ ApplyReq.Holds applies parts) (h' : List.Forall₂ ApplyReq.Holds applies parts')
    (hmsgs : ∀ msg ∈ parts.flatten, IsMsg msg) (hmsgs' : ∀ msg ∈ parts'.flatten, IsMsg msg) :
    parts = parts' := by
  induction h generalizing parts' with
  | nil =>
    cases h'
    rfl
  | @cons req msgs applies parts hreq hrest ih =>
    cases h' with
    | @cons _ msgs' _ parts' hreq' hrest' =>
      rw [List.flatten_cons, List.forall_mem_append] at hmsgs hmsgs'
      have hhead : msgs = msgs' := by
        apply msgs_unique hmsgs.1 hmsgs'.1
        · rw [← hreq.count, hreq'.count]
        · have hentry := hreq.entry.symm.trans hreq'.entry
          exact hentry
      rw [hhead, ih hrest' hmsgs.2 hmsgs'.2]

/-- The messages of the first entries and of the others. -/
theorem exists_parts_append {applies more : List ApplyReq} {parts : List (List Bytes)}
    (h : List.Forall₂ ApplyReq.Holds (applies ++ more) parts) :
    ∃ parts₁ parts₂, parts = parts₁ ++ parts₂ ∧ List.Forall₂ ApplyReq.Holds applies parts₁ ∧
      List.Forall₂ ApplyReq.Holds more parts₂ := by
  induction applies generalizing parts with
  | nil => exact ⟨[], parts, rfl, .nil, h⟩
  | cons req applies ih =>
    cases h with
    | @cons _ msgs _ parts hreq hrest =>
      obtain ⟨parts₁, parts₂, rfl, h₁, h₂⟩ := ih hrest
      exact ⟨msgs :: parts₁, parts₂, rfl, .cons hreq h₁, h₂⟩

namespace InsertClient

/-- What a callback that completes no entry does: it may add entries, and write a line, which it does
only when it begins to redirect. -/
structure Fills (c c' : InsertClient) : Prop where
  applies : ∃ more, c'.applies = c.applies ++ more ∧
    ∀ req ∈ more, req.outcome = .pending ∨ req.outcome = .refused
  written : c.written <+: c'.written
  quiet : c'.redirecting = false → c.redirecting = false ∧ c'.written = c.written

theorem Fills.of_eq {c c' : InsertClient} (happlies : c'.applies = c.applies)
    (hwritten : c'.written = c.written) (hredirecting : c'.redirecting = c.redirecting) :
    Fills c c' := by
  refine ⟨⟨[], by rw [happlies, List.append_nil], ?_⟩, ?_, fun h => ⟨?_, hwritten⟩⟩
  · intro req hreq
    cases hreq
  · rw [hwritten]
  · rw [← hredirecting, h]

theorem Fills.refl (c : InsertClient) : Fills c c := Fills.of_eq rfl rfl rfl

theorem Fills.trans {c d e : InsertClient} (h : Fills c d) (h' : Fills d e) : Fills c e := by
  obtain ⟨more, happlies, hmore⟩ := h.applies
  obtain ⟨more', happlies', hmore'⟩ := h'.applies
  refine ⟨⟨more ++ more', ?_, ?_⟩, h.written.trans h'.written, fun hquiet => ?_⟩
  · rw [happlies', happlies, List.append_assoc]
  · exact List.forall_mem_append.mpr ⟨hmore, hmore'⟩
  · obtain ⟨hd, hwritten'⟩ := h'.quiet hquiet
    obtain ⟨hc, hwritten⟩ := h.quiet hd
    exact ⟨hc, hwritten'.trans hwritten⟩

theorem Fills.close {c c' : InsertClient} (h : Fills c c') : Fills c (closeAndFreeClient c') :=
  h.trans (Fills.of_eq rfl rfl rfl)

theorem redirectToLeaderAndClose_fills (v : ServerView) (c : InsertClient) :
    Fills c (redirectToLeaderAndClose v c) := by
  unfold redirectToLeaderAndClose
  split
  · refine ⟨⟨[], (List.append_nil _).symm, ?_⟩, List.prefix_append _ _, ?_⟩
    · intro req hreq
      cases hreq
    · intro h
      cases h
  · exact Fills.of_eq rfl rfl rfl

theorem batchBufferFlush_fills (v : ServerView) (c : InsertClient) :
    Fills c (batchBufferFlush v c) := by
  unfold batchBufferFlush
  split
  · exact Fills.refl c
  · have hadds : ∀ outcome, outcome = .pending ∨ outcome = .refused → Fills c
        { c with
          applies := c.applies ++ [⟨alignedEntry c.batchBuffer, c.batchedReqCount, outcome⟩]
          batchBuffer := []
          batchedReqCount := 0 } := by
      intro outcome houtcome
      refine ⟨⟨_, rfl, ?_⟩, List.prefix_refl _, fun h => ⟨h, rfl⟩⟩
      intro req hreq
      rw [List.mem_singleton.mp hreq]
      exact houtcome
    simp only
    split
    · exact hadds _ (Or.inl rfl)
    · exact (hadds _ (Or.inr rfl)).close

theorem addToBatch_fills (v : ServerView) (c : InsertClient) (msg : Bytes) :
    Fills c (addToBatch v c msg) := by
  have hadd : Fills c { c with
      batchBuffer := c.batchBuffer ++ msg
      batchedReqCount := c.batchedReqCount + 1 } := Fills.of_eq rfl rfl rfl
  unfold addToBatch
  simp only
  split
  · exact hadd.trans (batchBufferFlush_fills v _)
  · exact hadd

theorem processLoop_fills (v : ServerView) (c : InsertClient) (rest : Bytes) :
    Fills c (processLoop v c rest).1 := by
  fun_induction processLoop v c rest with
  | case1 c rest hshort => exact Fills.refl c
  | case2 c rest hlong hsmall => exact (Fills.refl c).close
  | case3 c rest hlong hlarge hincomplete => exact Fills.refl c
  | case4 c rest hlong hlarge hcomplete hfollower => exact redirectToLeaderAndClose_fills v c
  | case5 c rest hlong hlarge hcomplete hleader hroom ih => exact (addToBatch_fills v c _).trans ih
  | case6 c rest hlong hlarge hcomplete hleader hfull => exact (Fills.refl c).close

theorem processInsertBuffer_fills (v : ServerView) (c : InsertClient) :
    Fills c (processInsertBuffer v c) := by
  unfold processInsertBuffer
  split
  · split
    · exact Fills.refl c
    · exact Fills.of_eq rfl rfl rfl
  · have hloop := processLoop_fills v c c.buffer
    split
    · rename_i c' heq
      rw [heq] at hloop
      exact hloop
    · rename_i c' rest heq
      rw [heq] at hloop
      have hrest : Fills c { c' with buffer := rest } := hloop.trans (Fills.of_eq rfl rfl rfl)
      simp only
      split
      · exact hrest.trans (batchBufferFlush_fills v _)
      · exact hrest

theorem onClientRead_fills (v : ServerView) (c : InsertClient) (chunk : Bytes) :
    Fills c (onClientRead v c chunk) := by
  have hreceived : Fills c { c with buffer := c.buffer ++ chunk } := Fills.of_eq rfl rfl rfl
  unfold onClientRead
  simp only
  split
  · exact hreceived.close
  · exact hreceived.trans (processInsertBuffer_fills v _)

theorem onClientEnd_fills (v : ServerView) (c : InsertClient) : Fills c (onClientEnd v c) := by
  unfold onClientEnd
  simp only
  apply Fills.close
  split
  · exact (processInsertBuffer_fills v c).trans (batchBufferFlush_fills v _)
  · exact batchBufferFlush_fills v c

theorem statsTimerTurn_fills (v : ServerView) (c : InsertClient) :
    Fills c (statsTimerTurn v c) := by
  have hflush := batchBufferFlush_fills v c
  unfold statsTimerTurn
  simp only
  split
  · have hresume : Fills (batchBufferFlush v c)
        { batchBufferFlush v c with isPaused := false, reading := true } := Fills.of_eq rfl rfl rfl
    exact (hflush.trans hresume).trans (processInsertBuffer_fills v _)
  · exact hflush

/-- What a completion does: the acknowledgements are for messages of the entry, and there are none
when its status is not 0. -/
structure Completes (c c' : InsertClient) (i : Nat) (req : ApplyReq) (ok : Bool) : Prop where
  pending : c.applies[i]? = some req ∧ req.outcome = .pending
  applies : c'.applies = c.applies.set i { req with outcome := .completed ok }
  written : ∃ k, c'.written = c.written ++ List.replicate k 1 ∧ k ≤ if ok then req.reqCount else 0
  redirecting : c'.redirecting = c.redirecting

/-- A callback completes one entry or none, and then it writes nothing or redirects. -/
theorem completes_or_fills {c c' : InsertClient} {e : ClientEvent} (h : c.step e = some c') :
    (∃ i req ok, Completes c c' i req ok) ∨
    ((∃ more, c'.applies = c.applies ++ more ∧
      ∀ req ∈ more, req.outcome = .pending ∨ req.outcome = .refused) ∧
      c.written <+: c'.written ∧ (c'.redirecting = false → c'.written = c.written)) := by
  have hfills : Fills c c' → (∃ more, c'.applies = c.applies ++ more ∧
      ∀ req ∈ more, req.outcome = .pending ∨ req.outcome = .refused) ∧
      c.written <+: c'.written ∧ (c'.redirecting = false → c'.written = c.written) :=
    fun h => ⟨h.applies, h.written, fun hquiet => (h.quiet hquiet).2⟩
  cases step_cases h with
  | read v chunk => exact Or.inr (hfills (onClientRead_fills v c chunk))
  | readEnd v => exact Or.inr (hfills (onClientEnd_fills v c))
  | statsTimer v => exact Or.inr (hfills (statsTimerTurn_fills v c))
  | applied i ok uvWriteOk req hreq hpending =>
    refine Or.inl ⟨i, req, ok, ⟨hreq, hpending⟩, ?_, ?_, ?_⟩
    · unfold serverApplyCb
      simp only
      split
      · split <;> rfl
      · rfl
    · unfold serverApplyCb
      simp only
      split
      · rename_i hack
        split
        · -- as many bytes as the entry has messages, or as the array holds
          refine ⟨_, rfl, ?_⟩
          rw [if_pos hack.1]
          exact Nat.min_le_left _ _
        · exact ⟨0, (List.append_nil _).symm, Nat.zero_le _⟩
      · exact ⟨0, (List.append_nil _).symm, Nat.zero_le _⟩
    · unfold serverApplyCb
      simp only
      split
      · split <;> rfl
      · rfl
  | redirectWritten =>
    refine Or.inr ⟨⟨[], (List.append_nil _).symm, ?_⟩, List.prefix_refl _, fun _ => rfl⟩
    intro req hreq
    cases hreq
  | writeFailed => exact Or.inr (hfills (Fills.refl c).close)

/-- Entries whose callback has run stay as they are. -/
theorem exists_split_of_step {c c' : InsertClient} {e : ClientEvent} (h : c.step e = some c')
    {before reqs behind : List ApplyReq} (hsplit : c.applies = before ++ (reqs ++ behind))
    (hdone : ∀ req ∈ reqs, req.outcome ≠ .pending) :
    ∃ before' behind', c'.applies = before' ++ (reqs ++ behind') ∧
      before'.length = before.length := by
  rcases completes_or_fills h with ⟨i, req, ok, hcompletes⟩ | ⟨⟨more, happlies, -⟩, -⟩
  · obtain ⟨hreq, hpending⟩ := hcompletes.pending
    rw [hcompletes.applies, hsplit]
    rw [hsplit] at hreq
    by_cases hbefore : i < before.length
    · rw [List.set_append_left _ _ hbefore]
      exact ⟨_, behind, rfl, List.length_set⟩
    · rw [List.set_append_right _ _ (not_lt.mp hbefore)]
      rw [List.getElem?_append_right (not_lt.mp hbefore)] at hreq
      by_cases hreqs : i - before.length < reqs.length
      · rw [List.getElem?_append_left hreqs] at hreq
        exact absurd hpending (hdone req (List.mem_of_getElem? hreq))
      · rw [List.set_append_right _ _ (not_lt.mp hreqs)]
        exact ⟨before, _, rfl, rfl⟩
  · refine ⟨before, behind ++ more, ?_, rfl⟩
    rw [happlies, hsplit, List.append_assoc, List.append_assoc]

/-- No callback takes a completion back. -/
theorem okCount_mono {c c' : InsertClient} {e : ClientEvent} (h : c.step e = some c') :
    okCount c.applies ≤ okCount c'.applies := by
  rcases completes_or_fills h with ⟨i, req, ok, hcompletes⟩ | ⟨⟨more, happlies, -⟩, -⟩
  · rw [hcompletes.applies, okCount_set hcompletes.pending.1 hcompletes.pending.2]
    exact Nat.le_add_right _ _
  · rw [happlies, okCount_append]
    exact Nat.le_add_right _ _

end InsertClient

end RaftLsmt.Server
