import RaftLsmt.Client.WritePath
import RaftLsmt.Server.InsertAcks

/-!
# Counting acknowledgements

`_send_batch` sends a batch over one of its connections and takes it as written when it has read as
many bytes as the batch has records. Only the first of them is looked at: when it is an `R` the server
has redirected the client.

`SendSystem` is the client with all its connections: the calls of `_send_batch`, what each connection
has in flight, and the server's end of each, which goes through its callbacks in any order and may
find itself no longer the leader in any of them. `send_batch_sound` says that a batch taken as written
was acknowledged record by record in every run in which the client counts no byte from the redirect
line on.
-/

set_option autoImplicit false

namespace RaftLsmt.Client

open RaftLsmt.Lib.ByteCodec
open RaftLsmt.Lib.StepMachine
open RaftLsmt.Lsmt
open RaftLsmt.Server

/-- The variables of a call of `_send_batch`. -/
structure SendCall where
  batch : List Record
  retries : Nat

/-- A connection to an insert port with both its ends. `inFlight` has been sent and not been read by
the server, `counted` is how many of the bytes written by the server the client has read, and
`waiting` is the call that holds the socket. The rest is history: the records `sent`, those of the
batches `returned` as written, and how many bytes were written in front of the redirect line. -/
structure WriteLink where
  server : InsertClient
  inFlight : Bytes
  counted : Nat
  waiting : Option SendCall
  isOpen : Bool
  sent : List Record
  returned : List Record
  lineStart : Option Nat

/-- The connections, the calls at the head of their loop, and those that have ended: with the batch
and the connection it was written to, or with an error. -/
structure SendSystem where
  links : List WriteLink
  calls : List SendCall
  returned : List (List Record × Nat)
  raised : List SendCall

/-- What can happen. `knownLeader` says whether the redirect line names a node of the cluster. -/
inductive SendEvent where
  | submit (batch : List Record)
  | connect (v : ServerView)
  | connectFailed (j : Nat)
  | send (j i : Nat)
  | callback (i : Nat) (e : ClientEvent)
  | reply (i : Nat) (knownLeader : Bool)
  | failed (i : Nat)
  | discard (i : Nat)

namespace WriteLink

/-- A connection that the server has accepted. -/
def accepted (v : ServerView) : WriteLink where
  server := onInsertConnection v
  inFlight := []
  counted := 0
  waiting := none
  isOpen := true
  sent := []
  returned := []
  lineStart := if (onInsertConnection v).redirecting then some 0 else none

/-- `sock.sendall(payload)`. -/
def sendall (link : WriteLink) (call : SendCall) (payload : Bytes) : WriteLink :=
  { link with
    inFlight := link.inFlight ++ payload
    waiting := some call
    sent := link.sent ++ call.batch }

/-- A callback at the server's end; what it reads has been in flight. -/
def callback (link : WriteLink) (e : ClientEvent) : Option WriteLink :=
  if e.received <+: link.inFlight then
    (link.server.step e).map fun server => { link with
      server := server
      inFlight := link.inFlight.drop e.received.length
      lineStart := link.lineStart.or
        (if server.redirecting then some link.server.written.length else none) }
  else none

/-- The socket is closed. -/
def close (link : WriteLink) : WriteLink := { link with isOpen := false, waiting := none }

/-- The acknowledgements have been counted and the socket goes back to the pool. -/
def count (link : WriteLink) (call : SendCall) : WriteLink :=
  { link with
    counted := link.counted + call.batch.length
    waiting := none
    returned := link.returned ++ call.batch }

end WriteLink

/-- `b'R'`. -/
def redirectByte : UInt8 := 82

namespace SendSystem

/-- A client without connections. -/
def init : SendSystem := ⟨[], [], [], []⟩

/-- `while retries < self.config.max_retries`. -/
def enterLoop (maxRetries : Nat) (s : SendSystem) (call : SendCall) : SendSystem :=
  if call.retries < maxRetries then { s with calls := s.calls ++ [call] }
  else { s with raised := s.raised ++ [call] }

/-- `retries += 1`. -/
def retry (maxRetries : Nat) (s : SendSystem) (call : SendCall) : SendSystem :=
  s.enterLoop maxRetries { call with retries := call.retries + 1 }

/-- `_send_batch` up to the first read, on the connection `i`. -/
def sendStep (maxRetries : Nat) (s : SendSystem) (j i : Nat) : Option SendSystem :=
  match s.calls[j]?, s.links[i]? with
  | some call, some link =>
    if link.isOpen = true ∧ link.waiting.isNone then
      let s := { s with calls := s.calls.eraseIdx j }
      match serializeBatch call.batch with
      | none => some (retry maxRetries { s with links := s.links.set i link.close } call)
      | some payload => some { s with links := s.links.set i (link.sendall call payload) }
    else none
  | _, _ => none

/-- `_send_batch` from the first read on, when the bytes it asks for have come. -/
def replyStep (maxRetries : Nat) (s : SendSystem) (i : Nat) (knownLeader : Bool) :
    Option SendSystem :=
  match s.links[i]? with
  | none => none
  | some link =>
    match link.waiting, link.server.written[link.counted]? with
    | some call, some firstByte =>
      if firstByte = redirectByte then
        let s := { s with links := s.links.set i link.close }
        some (if knownLeader then enterLoop maxRetries s call else retry maxRetries s call)
      else if link.counted + call.batch.length ≤ link.server.written.length then
        some { s with
          links := s.links.set i (link.count call)
          returned := s.returned ++ [(call.batch, i)] }
      else none
    | _, _ => none

/-- One step. A call that waits may fail at any time; a connection without a call may be discarded. -/
def step (maxRetries : Nat) (s : SendSystem) : SendEvent → Option SendSystem
  | .submit batch => if batch = [] then none else some (enterLoop maxRetries s ⟨batch, 0⟩)
  | .connect v => some { s with links := s.links ++ [.accepted v] }
  | .connectFailed j =>
    match s.calls[j]? with
    | some call => some (retry maxRetries { s with calls := s.calls.eraseIdx j } call)
    | none => none
  | .send j i => sendStep maxRetries s j i
  | .callback i e =>
    match s.links[i]? with
    | some link => (link.callback e).map fun link => { s with links := s.links.set i link }
    | none => none
  | .reply i knownLeader => replyStep maxRetries s i knownLeader
  | .failed i =>
    match s.links[i]? with
    | some link =>
      link.waiting.map fun call =>
        retry maxRetries { s with links := s.links.set i link.close } call
    | none => none
  | .discard i =>
    match s.links[i]? with
    | some link =>
      if link.waiting.isNone then some { s with links := s.links.set i link.close } else none
    | none => none

end SendSystem

/-! ## What is claimed -/

/-- The records of the batch fill consecutive entries whose callbacks reported status 0. -/
def Acked (applies : List ApplyReq) (batch : List Record) : Prop :=
  ∃ before reqs behind parts, applies = before ++ (reqs ++ behind) ∧
    List.Forall₂ ApplyReq.Holds reqs parts ∧ parts.flatten = batch.map frame ∧
    ∀ req ∈ reqs, req.outcome = .completed true

/-- Each batch returned as written has been acknowledged on its connection. -/
def SendSystem.Sound (s : SendSystem) : Prop :=
  ∀ p ∈ s.returned, ∃ link, s.links[p.2]? = some link ∧ Acked link.server.applies p.1

/-- The bytes that a call counts have been written in front of the redirect line. -/
def SendSystem.CountsAcks (s : SendSystem) : SendEvent → Prop
  | .reply i _ => ∀ link call, s.links[i]? = some link → link.waiting = some call →
      link.server.written[link.counted]? ≠ some redirectByte →
      ∀ start, link.lineStart = some start → link.counted + call.batch.length ≤ start
  | _ => True

/-! ## One connection -/

/-- On a connection that is open the client has counted one acknowledgement for each record of the
batches before the current one, which are in the first entries. There are no more acknowledgements
than messages in completed entries. -/
structure WriteLink.Inv (link : WriteLink) : Prop where
  frames : ∀ record ∈ link.sent, MsgOk (frame record)
  tracks : ∃ received parts batch, link.server.Tracks received parts batch ∧
    received ++ link.inFlight = (link.sent.map frame).flatten
  line : link.lineStart = none → link.server.redirecting = false
  acks : link.lineStart.getD link.server.written.length ≤ okCount link.server.applies
  records : link.isOpen = true →
    link.sent = link.returned ++ (link.waiting.map SendCall.batch).getD [] ∧
      link.counted = link.returned.length
  acked : ∃ done behind parts, link.server.applies = done ++ behind ∧
    List.Forall₂ ApplyReq.Holds done parts ∧ parts.flatten = link.returned.map frame ∧
    ∀ req ∈ done, req.outcome = .completed true

namespace WriteLink

variable {link link' : WriteLink}

theorem inv_accepted (v : ServerView) : (accepted v).Inv := by
  have hwritten : (onInsertConnection v).applies = [] ∧
      ((onInsertConnection v).redirecting = false → (onInsertConnection v).written = []) := by
    unfold onInsertConnection redirectToLeaderAndClose
    split
    · exact ⟨rfl, fun _ => rfl⟩
    · split
      · refine ⟨rfl, ?_⟩
        intro h
        cases h
      · exact ⟨rfl, fun _ => rfl⟩
  refine ⟨?_, ⟨[], [], [], InsertClient.tracks_onInsertConnection v, rfl⟩, ?_, ?_,
    fun _ => ⟨rfl, rfl⟩, ⟨[], [], [], hwritten.1, .nil, rfl, ?_⟩⟩
  · intro record hrecord
    cases hrecord
  · intro hline
    rw [Bool.eq_false_iff]
    intro hredirecting
    have hstart : (if (onInsertConnection v).redirecting = true then some 0 else none) = none :=
      hline
    rw [if_pos (show (onInsertConnection v).redirecting = true from hredirecting)] at hstart
    cases hstart
  · show (if (onInsertConnection v).redirecting = true then some 0 else none).getD
      (onInsertConnection v).written.length ≤ _
    split
    · exact Nat.zero_le _
    · rename_i hquiet
      rw [hwritten.2 (Bool.eq_false_iff.mpr hquiet)]
      exact Nat.zero_le _
  · intro req hreq
    cases hreq

theorem Inv.sendall (h : link.Inv) (hwaiting : link.waiting = none) {call : SendCall}
    {payload : Bytes} (hpayload : serializeBatch call.batch = some payload) :
    (link.sendall call payload).Inv := by
  obtain ⟨hframes, hok⟩ := serializeBatch_spec hpayload
  obtain ⟨received, parts, batch, htracks, hstream⟩ := h.tracks
  refine ⟨List.forall_mem_append.mpr ⟨h.frames, hok⟩, ⟨received, parts, batch, htracks, ?_⟩, h.line,
    h.acks, fun hopen => ?_, h.acked⟩
  · show received ++ (link.inFlight ++ payload) = ((link.sent ++ call.batch).map frame).flatten
    rw [← List.append_assoc, hstream, hframes, List.map_append, List.flatten_append]
  · obtain ⟨hsent, hcounted⟩ := h.records hopen
    rw [hwaiting, Option.map_none, Option.getD_none, List.append_nil] at hsent
    refine ⟨?_, hcounted⟩
    show link.sent ++ call.batch = link.returned ++ call.batch
    rw [hsent]

theorem Inv.close (h : link.Inv) : link.close.Inv := by
  refine ⟨h.frames, h.tracks, h.line, h.acks, fun hopen => ?_, h.acked⟩
  cases hopen

theorem callback_eq_some {e : ClientEvent} (h : link.callback e = some link') :
    e.received <+: link.inFlight ∧ ∃ server, link.server.step e = some server ∧
      link' = { link with
        server := server
        inFlight := link.inFlight.drop e.received.length
        lineStart := link.lineStart.or
          (if server.redirecting then some link.server.written.length else none) } := by
  unfold callback at h
  split at h
  · rename_i hfront
    obtain ⟨server, hserver, rfl⟩ := Option.map_eq_some_iff.mp h
    exact ⟨hfront, server, hserver, rfl⟩
  · cases h

/-- A callback that reads what is in flight first. -/
theorem callback_of_step {e : ClientEvent} {server : InsertClient} {left : Bytes}
    (hleft : link.inFlight = e.received ++ left) (h : link.server.step e = some server) :
    link.callback e = some { link with
      server := server
      inFlight := left
      lineStart := link.lineStart.or
        (if server.redirecting then some link.server.written.length else none) } := by
  unfold callback
  rw [if_pos (hleft ▸ List.prefix_append _ _), h, hleft, List.drop_left]
  rfl

theorem Inv.callback (h : link.Inv) {e : ClientEvent} (hstep : link.callback e = some link') :
    link'.Inv := by
  obtain ⟨⟨left, hleft⟩, server, hserver, rfl⟩ := callback_eq_some hstep
  obtain ⟨received, parts, batch, htracks, hstream⟩ := h.tracks
  obtain ⟨done, behind, dparts, happlies, hholds, hframes, hok⟩ := h.acked
  have hmono := InsertClient.okCount_mono hserver
  refine ⟨h.frames, ?_, ?_, ?_, h.records, ?_⟩
  · -- what the callback receives comes off the bytes in flight
    obtain ⟨parts', batch', htracks'⟩ := htracks.step hserver
    refine ⟨received ++ e.received, parts', batch', htracks', ?_⟩
    show received ++ e.received ++ link.inFlight.drop e.received.length = _
    rw [← hstream, ← hleft, List.drop_left, List.append_assoc]
  · -- a redirect puts down where its line starts
    intro hline
    obtain ⟨-, hquiet⟩ := Option.or_eq_none_iff.mp hline
    rw [Bool.eq_false_iff]
    intro hredirecting
    rw [if_pos hredirecting] at hquiet
    cases hquiet
  · -- only completed entries are acknowledged, and each message of them once
    show (link.lineStart.or _).getD server.written.length ≤ okCount server.applies
    have hacks := h.acks
    cases hstart : link.lineStart with
    | some start =>
      rw [hstart] at hacks
      exact hacks.trans hmono
    | none =>
      rw [hstart, Option.getD_none] at hacks
      rw [Option.none_or]
      split
      · exact hacks.trans hmono
      · rename_i hquiet
        rw [Option.getD_none]
        rcases InsertClient.completes_or_fills hserver with ⟨i, req, ok, hcompletes⟩ | ⟨-, -, hwritten⟩
        · obtain ⟨k, hwritten, hk⟩ := hcompletes.written
          rw [hcompletes.applies, okCount_set hcompletes.pending.1 hcompletes.pending.2, hwritten,
            List.length_append, List.length_replicate]
          exact Nat.add_le_add hacks hk
        · rw [hwritten (Bool.eq_false_iff.mpr hquiet)]
          exact hacks.trans hmono
  · -- the entries of the batches returned are completed, so they stay as they are
    have hdone : ∀ req ∈ done, req.outcome ≠ .pending := by
      intro req hreq hpending
      rw [hok req hreq] at hpending
      cases hpending
    have hsplit : link.server.applies = [] ++ (done ++ behind) := happlies
    obtain ⟨before', behind', happlies', hlength⟩ :=
      InsertClient.exists_split_of_step hserver hsplit hdone
    rw [List.length_eq_zero_iff.mp hlength] at happlies'
    exact ⟨done, behind', dparts, happlies', hholds, hframes, hok⟩

/-- No callback undoes an acknowledgement. -/
theorem acked_callback {e : ClientEvent} (hstep : link.callback e = some link')
    {batch : List Record} (h : Acked link.server.applies batch) :
    Acked link'.server.applies batch := by
  obtain ⟨-, server, hserver, rfl⟩ := callback_eq_some hstep
  obtain ⟨before, reqs, behind, parts, happlies, hholds, hframes, hok⟩ := h
  have hdone : ∀ req ∈ reqs, req.outcome ≠ .pending := by
    intro req hreq hpending
    rw [hok req hreq] at hpending
    cases hpending
  obtain ⟨before', behind', happlies', -⟩ :=
    InsertClient.exists_split_of_step hserver happlies hdone
  exact ⟨before', reqs, behind', parts, happlies', hholds, hframes, hok⟩

/-- When the client has counted as many acknowledgements as it has sent records, every entry has
completed with status 0 and the entries hold everything that was sent. -/
theorem Inv.count (h : link.Inv) (hopen : link.isOpen = true) {call : SendCall}
    (hwaiting : link.waiting = some call)
    (hcount : link.counted + call.batch.length ≤
      link.lineStart.getD link.server.written.length) :
    (link.count call).Inv ∧ Acked link.server.applies call.batch := by
  obtain ⟨hsent, hcounted⟩ := h.records hopen
  rw [hwaiting, Option.map_some, Option.getD_some] at hsent
  obtain ⟨received, parts, batch, htracks, hstream⟩ := h.tracks
  obtain ⟨done, behind, dparts, happlies, hholds, hframes, hok⟩ := h.acked
  have hismsg : ∀ msg ∈ link.sent.map frame, IsMsg msg := by
    intro msg hmsg
    obtain ⟨record, hrecord, rfl⟩ := List.mem_map.mp hmsg
    exact (h.frames record hrecord).toIsMsg
  -- the messages in entries are the first ones sent
  obtain ⟨rest, hrest, -⟩ := htracks.stream
  obtain ⟨later, hlater, -⟩ : ∃ later, link.sent.map frame = parts.flatten ++ batch ++ later ∧
      rest <+: later.flatten := by
    apply exists_append_of_flatten htracks.isMsg hismsg
    rw [hrest, ← hstream]
    exact List.prefix_append _ _
  have hlength := congrArg List.length hlater
  rw [List.length_map, List.length_append, List.length_append, hsent, List.length_append,
    ← hcounted] at hlength
  have hacks := h.acks
  have hle := okCount_le htracks.applies
  have hall : link.sent.map frame = parts.flatten := by
    have hbatch : batch = [] := List.length_eq_zero_iff.mp (by omega)
    have hlaterNil : later = [] := List.length_eq_zero_iff.mp (by omega)
    rw [hlater, hbatch, hlaterNil, List.append_nil, List.append_nil]
  have hcompleted := completed_of_okCount htracks.applies (by omega)
  -- the entries of the batches before this one and those of this one
  have htaken := htracks.applies
  rw [happlies] at htaken
  obtain ⟨parts₁, parts₂, rfl, hparts₁, hparts₂⟩ := exists_parts_append htaken
  rw [List.flatten_append] at hall
  have hsame : parts₁ = dparts := by
    apply parts_unique hparts₁ hholds
    · intro msg hmsg
      apply hismsg
      rw [hall]
      exact List.mem_append_left _ hmsg
    · intro msg hmsg
      apply hismsg
      rw [hframes] at hmsg
      rw [hsent, List.map_append]
      exact List.mem_append_left _ hmsg
  rw [hsame, hframes, hsent, List.map_append] at hall
  refine ⟨⟨h.frames, ⟨received, parts₁ ++ parts₂, batch, htracks, hstream⟩, h.line, h.acks, fun _ => ?_,
    ⟨link.server.applies, [], parts₁ ++ parts₂, (List.append_nil _).symm, htracks.applies, ?_,
      hcompleted⟩⟩, ⟨done, behind, [], parts₂, ?_, hparts₂, ?_, ?_⟩⟩
  · refine ⟨?_, ?_⟩
    · show link.sent = link.returned ++ call.batch ++ []
      rw [List.append_nil, hsent]
    · show link.counted + call.batch.length = (link.returned ++ call.batch).length
      rw [List.length_append, hcounted]
  · show _ = (link.returned ++ call.batch).map frame
    rw [List.flatten_append, hsame, hframes, List.map_append, ← List.append_cancel_left hall]
  · rw [List.append_nil, happlies]
  · exact (List.append_cancel_left hall).symm
  · intro req hreq
    apply hcompleted
    rw [happlies]
    exact List.mem_append_right _ hreq

end WriteLink

/-! ## All connections -/

namespace SendSystem

variable {s s' : SendSystem} {maxRetries : Nat}

/-- A call holds only sockets that are open, the connections are right and so are the batches
returned. -/
structure Inv (s : SendSystem) : Prop where
  links : ∀ link ∈ s.links, link.Inv ∧ (link.waiting.isSome → link.isOpen = true)
  sound : s.Sound

theorem inv_init : Inv init := by
  refine ⟨?_, ?_⟩
  · intro link hlink
    cases hlink
  · intro p hp
    cases hp

theorem Inv.enterLoop (h : s.Inv) (call : SendCall) : (s.enterLoop maxRetries call).Inv := by
  unfold SendSystem.enterLoop
  split <;> exact ⟨h.links, h.sound⟩

theorem Inv.retry (h : s.Inv) (call : SendCall) : (s.retry maxRetries call).Inv :=
  h.enterLoop _

theorem Inv.moveCalls (h : s.Inv) (calls : List SendCall) : Inv { s with calls := calls } :=
  ⟨h.links, h.sound⟩

/-- One connection changes and keeps its acknowledgements. -/
theorem Inv.set (h : s.Inv) {i : Nat} {link link' : WriteLink} (hi : s.links[i]? = some link)
    (hlink : link'.Inv) (hopen : link'.waiting.isSome → link'.isOpen = true)
    (hacked : ∀ batch, Acked link.server.applies batch → Acked link'.server.applies batch) :
    Inv { s with links := s.links.set i link' } := by
  refine ⟨?_, ?_⟩
  · intro other hother
    rcases List.mem_or_eq_of_mem_set hother with hother | rfl
    · exact h.links other hother
    · exact ⟨hlink, hopen⟩
  · intro p hp
    obtain ⟨other, hother, hbatch⟩ := h.sound p hp
    by_cases hsame : i = p.2
    · refine ⟨link', ?_, ?_⟩
      · show (s.links.set i link')[p.2]? = _
        rw [← hsame, List.getElem?_set_self (List.getElem?_eq_some_iff.mp hi).1]
      · rw [← hsame, hi] at hother
        cases hother
        exact hacked _ hbatch
    · refine ⟨other, ?_, hbatch⟩
      show (s.links.set i link')[p.2]? = _
      rw [List.getElem?_set_ne hsame]
      exact hother

theorem Inv.close (h : s.Inv) {i : Nat} {link : WriteLink} (hi : s.links[i]? = some link) :
    Inv { s with links := s.links.set i link.close } := by
  apply h.set hi (h.links link (List.mem_of_getElem? hi)).1.close
  · intro hsome
    cases hsome
  · exact fun batch hbatch => hbatch

theorem Inv.sendStep (h : s.Inv) {j i : Nat} (hstep : s.sendStep maxRetries j i = some s') :
    s'.Inv := by
  unfold SendSystem.sendStep at hstep
  split at hstep
  · rename_i call link hcall hi
    split at hstep
    · rename_i hidle
      simp only at hstep
      split at hstep
      · cases hstep
        exact ((h.moveCalls (s.calls.eraseIdx j)).close hi).retry call
      · rename_i payload hpayload
        cases hstep
        apply (h.moveCalls (s.calls.eraseIdx j)).set hi
        · exact (h.links link (List.mem_of_getElem? hi)).1.sendall
            (Option.isNone_iff_eq_none.mp hidle.2) hpayload
        · exact fun _ => hidle.1
        · exact fun batch hbatch => hbatch
    · cases hstep
  · cases hstep

theorem Inv.replyStep (h : s.Inv) {i : Nat} {knownLeader : Bool}
    (hcounts : s.CountsAcks (.reply i knownLeader))
    (hstep : s.replyStep maxRetries i knownLeader = some s') : s'.Inv := by
  unfold SendSystem.replyStep at hstep
  split at hstep
  · cases hstep
  rename_i link hi
  obtain ⟨hlink, hopen⟩ := h.links link (List.mem_of_getElem? hi)
  split at hstep
  · rename_i call firstByte hwaiting hfirst
    split at hstep
    · -- the first byte is an `R`
      cases hstep
      split
      · exact (h.close hi).enterLoop call
      · exact (h.close hi).retry call
    rename_i hack
    split at hstep
    · rename_i hcome
      cases hstep
      have hfront : link.counted + call.batch.length ≤
          link.lineStart.getD link.server.written.length := by
        cases hstart : link.lineStart with
        | none => exact hcome
        | some start =>
          apply hcounts link call hi hwaiting _ start hstart
          rw [hfirst]
          intro hbyte
          exact hack (Option.some.inj hbyte)
      have hlinkOpen := hopen (by rw [hwaiting]; rfl)
      obtain ⟨hcount, hacked⟩ := hlink.count hlinkOpen hwaiting hfront
      have hset : Inv { s with links := s.links.set i (link.count call) } := by
        apply h.set hi hcount
        · intro hsome
          cases hsome
        · exact fun batch hbatch => hbatch
      refine ⟨hset.links, ?_⟩
      intro p hp
      rcases List.mem_append.mp hp with hp | hp
      · exact hset.sound p hp
      · rw [List.mem_singleton.mp hp]
        refine ⟨link.count call, ?_, hacked⟩
        exact List.getElem?_set_self (List.getElem?_eq_some_iff.mp hi).1
    · cases hstep
  · cases hstep

theorem Inv.step (h : s.Inv) {e : SendEvent} (hcounts : s.CountsAcks e)
    (hstep : SendSystem.step maxRetries s e = some s') : s'.Inv := by
  cases e with
  | submit batch =>
    simp only [SendSystem.step] at hstep
    split at hstep <;> cases hstep
    exact h.enterLoop _
  | connect v =>
    cases hstep
    refine ⟨?_, ?_⟩
    · intro link hlink
      rcases List.mem_append.mp hlink with hlink | hlink
      · exact h.links link hlink
      · rw [List.mem_singleton.mp hlink]
        exact ⟨WriteLink.inv_accepted v, fun _ => rfl⟩
    · intro p hp
      obtain ⟨link, hlink, hacked⟩ := h.sound p hp
      refine ⟨link, ?_, hacked⟩
      show (s.links ++ [.accepted v])[p.2]? = _
      rw [List.getElem?_append_left (List.getElem?_eq_some_iff.mp hlink).1]
      exact hlink
  | connectFailed j =>
    simp only [SendSystem.step] at hstep
    split at hstep <;> cases hstep
    exact (h.moveCalls _).retry _
  | send j i => exact h.sendStep hstep
  | callback i e =>
    simp only [SendSystem.step] at hstep
    split at hstep
    · rename_i link hi
      obtain ⟨link', hlink', rfl⟩ := Option.map_eq_some_iff.mp hstep
      obtain ⟨hlink, hopen⟩ := h.links link (List.mem_of_getElem? hi)
      apply h.set hi (hlink.callback hlink')
      · obtain ⟨-, server, -, rfl⟩ := WriteLink.callback_eq_some hlink'
        exact hopen
      · exact fun batch hbatch => WriteLink.acked_callback hlink' hbatch
    · cases hstep
  | reply i knownLeader => exact h.replyStep hcounts hstep
  | failed i =>
    simp only [SendSystem.step] at hstep
    split at hstep
    · rename_i link hi
      obtain ⟨call, -, rfl⟩ := Option.map_eq_some_iff.mp hstep
      exact (h.close hi).retry call
    · cases hstep
  | discard i =>
    simp only [SendSystem.step] at hstep
    split at hstep
    · rename_i link hi
      split at hstep <;> cases hstep
      exact h.close hi
    · cases hstep

theorem step_callback {i : Nat} {link link' : WriteLink} {e : ClientEvent}
    (hi : s.links[i]? = some link) (h : link.callback e = some link') :
    SendSystem.step maxRetries s (.callback i e) = some { s with links := s.links.set i link' } := by
  unfold SendSystem.step
  simp only [hi, h, Option.map_some]

end SendSystem

/-- In every run in which no call counts a byte of the redirect line or behind it, every batch that
`_send_batch` returns as written is acknowledged record by record. -/
theorem send_batch_sound (maxRetries : Nat) (es : List SendEvent)
    (hcounts : EachStep (SendSystem.step maxRetries) SendSystem.CountsAcks SendSystem.init es) :
    Always (SendSystem.step maxRetries) SendSystem.Sound SendSystem.init es := by
  have hinv : Always (SendSystem.step maxRetries) SendSystem.Inv SendSystem.init es := by
    apply always_of_eachStep SendSystem.inv_init
    intro pre e post s has hs s' h hstep
    exact h.step (hcounts pre e post s has hs) hstep
  intro pre post s has hs
  exact (hinv pre post s has hs).sound

/-! ## Two runs -/

/-- A message that comes in one read to a leader. -/
theorem step_read_leader {applies : List ApplyReq} {record : Record} (hok : MsgOk (frame record)) :
    (InsertClient.idle applies).step (.read leaderView (frame record)) =
      some (InsertClient.idle (applies ++ [InsertClient.singleReq (frame record)])) := by
  have hfits : (frame record).length ≤ bufferCapacity :=
    Nat.le_of_lt (lt_trans hok.length_lt (by decide))
  have hread := @InsertClient.onClientRead_last applies (frame record) hok.toIsMsg hfits []
    (frame record) rfl
  have hne : frame record ≠ [] := by
    intro hnil
    have hfour := hok.four_le
    rw [hnil] at hfour
    cases hfour
  have hstep : (InsertClient.idle applies).step (.read leaderView (frame record)) =
      some (onClientRead leaderView (InsertClient.idle applies) (frame record)) := by
    simp [InsertClient.step, InsertClient.idle, InsertClient.accepted, hne]
  rw [hstep]
  exact congrArg some hread

/-- A message that comes in one read to a server that is not the leader. -/
theorem onClientRead_follower {v : ServerView} (hv : v.isLeader = false)
    (hroom : v.immutableCount < 24) {c : InsertClient} (hbuffer : c.buffer = []) {record : Record}
    (hok : MsgOk (frame record)) :
    onClientRead v c (frame record) = redirectToLeaderAndClose v { c with buffer := frame record } := by
  have hfour := hok.four_le
  have hlt := hok.length_lt
  have hsmall : ¬ (frame record).length > maxClientBufSize := by
    have hcap : insertCmdSize ≤ maxClientBufSize := by decide
    omega
  have hloop : processLoop v { c with buffer := frame record } (frame record) =
      (redirectToLeaderAndClose v { c with buffer := frame record }, none) := by
    rw [processLoop, if_neg (by omega), hok.size_eq, if_neg (by omega), if_neg (lt_irrefl _),
      if_pos hv]
  unfold onClientRead
  simp only [hbuffer, List.nil_append, if_neg hsmall]
  rw [processInsertBuffer, if_neg (by simpa using hroom)]
  simp only [hloop]

/-- A first record and what comes of it: its entry completes with status 0. -/
def firstAcked (record : Record) : InsertClient :=
  { InsertClient.idle [⟨alignedEntry (frame record), 1, .completed true⟩] with written := [1] }

/-- The connection when the first record of a batch has been acknowledged. -/
def partlyAcked (batch : List Record) (record : Record) (inFlight : Bytes) : WriteLink where
  server := firstAcked record
  inFlight := inFlight
  counted := 0
  waiting := some ⟨batch, 0⟩
  isOpen := true
  sent := batch
  returned := []
  lineStart := none

/-- Up to the first acknowledgement. -/
def untilFirstAck (batch : List Record) (record : Record) : List SendEvent :=
  [.connect leaderView, .submit batch, .send 0 0, .callback 0 (.read leaderView (frame record)),
    .callback 0 (.applied 0 true true)]

theorem run_untilFirstAck {record : Record} {batch : List Record} {payload : Bytes}
    (hpayload : serializeBatch (record :: batch) = some (frame record ++ payload)) :
    run (SendSystem.step 10) SendSystem.init (untilFirstAck (record :: batch) record) =
      some ⟨[partlyAcked (record :: batch) record payload], [], [], []⟩ := by
  have hok := (serializeBatch_spec hpayload).2 record List.mem_cons_self
  have hstep : ((WriteLink.accepted leaderView).sendall ⟨record :: batch, 0⟩
      (frame record ++ payload)).server.step (.read leaderView (frame record)) =
      some (InsertClient.idle [InsertClient.singleReq (frame record)]) := step_read_leader hok
  have hread := WriteLink.callback_of_step rfl hstep
  refine run_cons_eq_some.mpr ⟨⟨[.accepted leaderView], [], [], []⟩, rfl, ?_⟩
  refine run_cons_eq_some.mpr
    ⟨⟨[.accepted leaderView], [⟨record :: batch, 0⟩], [], []⟩, rfl, ?_⟩
  refine run_cons_eq_some.mpr ⟨⟨[(WriteLink.accepted leaderView).sendall ⟨record :: batch, 0⟩
    (frame record ++ payload)], [], [], []⟩, ?_, ?_⟩
  · show (match serializeBatch (record :: batch) with
      | none => _
      | some payload => _) = _
    rw [hpayload]
    rfl
  refine run_cons_eq_some.mpr ⟨_, SendSystem.step_callback rfl hread, ?_⟩
  refine run_cons_eq_some.mpr ⟨_, rfl, ?_⟩
  rfl

/-- The view of a server that has lost the leadership. -/
def followerView : ServerView := { leaderView with isLeader := false }

/-- A test of the bytes that a call counts. -/
def SendSystem.countsAcks (s : SendSystem) : SendEvent → Bool
  | .reply i _ =>
    match s.links[i]? with
    | none => true
    | some link =>
      match link.waiting, link.lineStart with
      | some call, some start =>
        link.server.written[link.counted]? == some redirectByte ||
          decide (link.counted + call.batch.length ≤ start)
      | _, _ => true
  | _ => true

theorem SendSystem.countsAcks_of_test (s : SendSystem) (e : SendEvent)
    (h : s.countsAcks e = true) : s.CountsAcks e := by
  cases e with
  | reply i knownLeader =>
    intro link call hlink hwaiting hbyte start hstart
    unfold countsAcks at h
    simp only [hlink, hwaiting, hstart, Bool.or_eq_true, beq_iff_eq, decide_eq_true_eq] at h
    exact h.resolve_left hbyte
  | _ => trivial

/-- Two records. -/
def twoRecords : List Record := [⟨1, 2, .int 7⟩, ⟨3, 4, .int 8⟩]

/-- The first server redirects the client. The second one takes the two records in two reads and two
entries, and the callback of the second entry comes first. -/
def redirectedSend : List SendEvent :=
  let payload := (twoRecords.map frame).flatten
  [.connect followerView, .submit twoRecords, .send 0 0, .reply 0 true, .connect leaderView,
    .send 0 1, .callback 1 (.read leaderView (payload.take 40)),
    .callback 1 (.statsTimer leaderView), .callback 1 (.read leaderView (payload.drop 40)),
    .callback 1 (.applied 1 true true), .callback 1 (.applied 0 true true), .reply 1 false]

/-- The batch is taken as written on the second connection, where both entries have completed. -/
theorem send_batch_sound_one : ∃ s,
    run (SendSystem.step 10) SendSystem.init redirectedSend = some s ∧
    s.returned = [(twoRecords, 1)] ∧ s.Sound := by
  have hend : (run (SendSystem.step 10) SendSystem.init redirectedSend).map SendSystem.returned =
      some [(twoRecords, 1)] := by decide +kernel
  obtain ⟨s, hrun, hreturned⟩ := Option.map_eq_some_iff.mp hend
  refine ⟨s, hrun, hreturned, ?_⟩
  refine send_batch_sound 10 _ ?_ _ [] _ (List.append_nil _).symm hrun
  exact eachStep_of_allSteps SendSystem.countsAcks_of_test (by decide +kernel)

/-- The first of two records has been acknowledged when the server is no longer the leader: the
redirect line completes the count, and the second record is in no entry. -/
theorem not_send_batch_sound : ¬ ∀ (maxRetries : Nat) (es : List SendEvent),
    Always (SendSystem.step maxRetries) SendSystem.Sound SendSystem.init es := by
  intro hclaim
  have hpayload : serializeBatch [⟨1, 2, .int 7⟩, ⟨3, 4, .int 8⟩] =
      some (frame ⟨1, 2, .int 7⟩ ++ frame ⟨3, 4, .int 8⟩) := by decide
  have hok := (serializeBatch_spec hpayload).2 ⟨3, 4, .int 8⟩ (by decide)
  have hrun := run_untilFirstAck hpayload
  have hserver : (partlyAcked [⟨1, 2, .int 7⟩, ⟨3, 4, .int 8⟩] ⟨1, 2, .int 7⟩
      (frame ⟨3, 4, .int 8⟩)).server.step (.read followerView (frame ⟨3, 4, .int 8⟩)) =
      some (redirectToLeaderAndClose followerView
        { firstAcked ⟨1, 2, .int 7⟩ with buffer := frame ⟨3, 4, .int 8⟩ }) := by
    rw [← onClientRead_follower rfl (by decide) rfl hok]
    rfl
  have hread := WriteLink.callback_of_step (List.append_nil _).symm hserver
  have hall := run_append_eq_some.mpr ⟨_, hrun, run_cons_eq_some.mpr ⟨_,
    SendSystem.step_callback (i := 0) rfl hread, run_cons_eq_some.mpr ⟨_,
      (rfl : SendSystem.step 10 _ (.reply 0 false) = some _), run_nil _⟩⟩⟩
  obtain ⟨link, hlink, before, reqs, behind, parts, happlies, hholds, hframes, hdone⟩ :=
    hclaim 10 _ _ [] _ (List.append_nil _).symm hall _ (List.mem_singleton_self _)
  cases hlink
  -- one entry of one message has completed, and the batch has two
  have hcount := congrArg okCount happlies
  rw [okCount_append, okCount_append, okCount_of_completed hholds hdone, hframes] at hcount
  have hone : okCount (firstAcked ⟨1, 2, .int 7⟩).applies = 1 := by decide
  have htwo : 1 = okCount before + (2 + okCount behind) := hone.symm.trans hcount
  omega

end RaftLsmt.Client
