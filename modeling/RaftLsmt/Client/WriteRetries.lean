import RaftLsmt.Client.Routing
import RaftLsmt.Lib.SuppliedLoop
import Mathlib.Data.List.Basic
import Mathlib.Data.Nat.Basic

/-!
# How often a batch is sent

The loop of `_send_batch` counts the attempts that fail. An attempt that is answered with a
`REDIRECT` to a node of the cluster makes this node the leader and goes back to the head of the loop,
without a count and without a pause. `send_attempts_bounded_iff` says that the attempts are bounded,
whatever the servers answer within a given class of behaviours, exactly when the number of such
answers in front of the one that ends the call is.
-/

set_option autoImplicit false

namespace RaftLsmt.Client

open RaftLsmt.Lib.SuppliedLoop

/-- What an attempt meets: an exception before the first byte is looked at or behind it, a line that
begins with `R`, as decoded and stripped, or this many bytes that begin with another one. -/
inductive SendReply where
  | failed
  | line (msgStr : List Char)
  | acks (count : Nat)

/-- What a call of `_send_batch` works with: `max_retries`, the nodes of the cluster and the length
of the batch. `int` is `int(..)`, without a value when it raises an error. -/
structure SendConfig where
  maxRetries : Nat
  nodes : List Node
  batchLength : Nat
  int : List Char → Option Int

/-- Where the loop of `_send_batch` is. -/
inductive SendStatus where
  | running
  | returned
  | raised
  deriving DecidableEq

/-- The variables of the loop: `retries`, the leader of the cluster in the registry, and the history
of the attempts and of the redirects followed. -/
structure SendLoop where
  retries : Nat
  leader : Option Node
  status : SendStatus
  attempts : List Node
  redirects : Nat

namespace SendLoop

/-- Before the loop. -/
def init (leader : Option Node) : SendLoop where
  retries := 0
  leader := leader
  status := .running
  attempts := []
  redirects := 0

/-- `"REDIRECT"`. -/
def redirectWord : List Char := ['R', 'E', 'D', 'I', 'R', 'E', 'C', 'T']

/-- The node that a line redirects to; without one an exception is raised. -/
def newLeader (config : SendConfig) (msgStr : List Char) : Option Node :=
  if redirectWord.isPrefixOf msgStr then
    match msgStr.splitOn ' ' with
    | _ :: leaderId :: _ :: _ =>
      match config.int leaderId with
      | none => none
      | some leaderId =>
        if leaderId = 0 then none else config.nodes.find? fun n => (n.id : Int) = leaderId
    | _ => none
  else none

/-- `current_node`. -/
def currentNode (config : SendConfig) (s : SendLoop) : Option Node :=
  s.leader.or config.nodes[s.retries % config.nodes.length]?

/-- The exception path: the leader is forgotten, and the attempt counts. -/
def fail (s : SendLoop) : SendLoop := { s with leader := none, retries := s.retries + 1 }

/-- One attempt on `current_node`. -/
def attempt (config : SendConfig) (s : SendLoop) (node : Node) (reply : SendReply) : SendLoop :=
  let s := { s with attempts := s.attempts ++ [node] }
  match reply with
  | .failed => s.fail
  | .line msgStr =>
    match newLeader config msgStr with
    | some leader => { s with leader := some leader, redirects := s.redirects + 1 }
    | none => s.fail
  | .acks count =>
    -- the first byte is there, and `_recv_exact` asks for the others
    if count = 0 ∨ count < config.batchLength then s.fail
    else { s with leader := some node, status := .returned }

/-- One turn of the loop, or the error behind it. A cluster without nodes is a division by zero. -/
def turn (config : SendConfig) (s : SendLoop) (reply : SendReply) : SendLoop :=
  if s.status ≠ .running then s
  else if s.retries < config.maxRetries then
    match s.currentNode config with
    | some node => s.attempt config node reply
    | none => { s with status := .raised }
  else { s with status := .raised }

/-- The call has returned the batch or raised an error. -/
def Done (s : SendLoop) : Prop := s.status ≠ .running

end SendLoop

/-! ## The answers -/

namespace SendReply

/-- A line that names a node of the cluster as the leader. -/
def redirects (config : SendConfig) : SendReply → Bool
  | .line msgStr => (SendLoop.newLeader config msgStr).isSome
  | _ => false

/-- A byte for each record of the batch. -/
def acknowledges (config : SendConfig) : SendReply → Bool
  | .acks count => !decide (count = 0 ∨ count < config.batchLength)
  | _ => false

/-- Everything else ends the attempt with an exception. -/
def fails (config : SendConfig) (reply : SendReply) : Bool :=
  !reply.redirects config && !reply.acknowledges config

end SendReply

/-- The first `n` answers. -/
def answers (supply : Nat → SendReply) (n : Nat) : List SendReply := (List.range n).map supply

/-- With these answers a call is not at its end: none of them acknowledges the batch, and fewer than
`max_retries` are failures. -/
structure GoesOn (config : SendConfig) (replies : List SendReply) : Prop where
  unacknowledged : replies.countP (SendReply.acknowledges config) = 0
  retries : replies.countP (SendReply.fails config) < config.maxRetries

theorem countP_answers_succ (test : SendReply → Bool) (supply : Nat → SendReply) (n : Nat) :
    (answers supply (n + 1)).countP test =
      (answers supply n).countP test + if test (supply n) then 1 else 0 := by
  unfold answers
  rw [List.range_succ, List.map_append, List.countP_append, List.map_singleton, List.countP_singleton]

theorem GoesOn.of_succ {config : SendConfig} {supply : Nat → SendReply} {n : Nat}
    (h : GoesOn config (answers supply (n + 1))) : GoesOn config (answers supply n) := by
  obtain ⟨hacks, hfails⟩ := h
  rw [countP_answers_succ] at hacks hfails
  exact ⟨by omega, by omega⟩

/-- A redirect is no acknowledgement and counts as no failure. -/
theorem SendReply.kind_of_redirects {config : SendConfig} {reply : SendReply}
    (h : reply.redirects config = true) :
    reply.acknowledges config = false ∧ reply.fails config = false := by
  refine ⟨?_, ?_⟩
  · cases reply with
    | line msgStr => rfl
    | failed => cases h
    | acks count => cases h
  · unfold SendReply.fails
    rw [h]
    rfl

theorem SendReply.kind_of_fails {config : SendConfig} {reply : SendReply}
    (h : reply.fails config = true) :
    reply.redirects config = false ∧ reply.acknowledges config = false := by
  unfold SendReply.fails at h
  rw [Bool.and_eq_true, Bool.not_eq_true', Bool.not_eq_true'] at h
  exact h

/-- A cluster without nodes has none to name. -/
theorem redirects_of_nodes_eq_nil {config : SendConfig} (h : config.nodes = []) (reply : SendReply) :
    reply.redirects config = false := by
  cases reply with
  | line msgStr =>
    show (SendLoop.newLeader config msgStr).isSome = false
    unfold SendLoop.newLeader
    rw [h]
    split
    · split
      · split
        · rfl
        · rw [List.find?_nil, ite_self]
          rfl
      · rfl
    · rfl
  | failed => rfl
  | acks count => rfl

/-! ## The loop -/

namespace SendLoop

variable {config : SendConfig} {s : SendLoop}

theorem turn_of_done (config : SendConfig) (s : SendLoop) (reply : SendReply) (h : s.Done) :
    s.turn config reply = s := if_pos h

/-- What a turn of a running call does: an attempt that fails, one that is redirected, one that is
acknowledged, or the error at the end. -/
inductive Turned (config : SendConfig) (reply : SendReply) (s s' : SendLoop) : Prop where
  | failed (node : Node) (hretries : s.retries < config.maxRetries)
    (heq : s' = { s with attempts := s.attempts ++ [node] }.fail) (hreply : reply.fails config)
  | redirected (node leader : Node) (hretries : s.retries < config.maxRetries)
    (heq : s' = { s with
      attempts := s.attempts ++ [node], leader := some leader, redirects := s.redirects + 1 })
    (hreply : reply.redirects config)
  | acked (node : Node) (hretries : s.retries < config.maxRetries)
    (heq : s' = { s with
      attempts := s.attempts ++ [node], leader := some node, status := .returned })
    (hreply : reply.acknowledges config)
  | raised (heq : s' = { s with status := .raised })
    (hwhy : s.retries < config.maxRetries → config.nodes = [])

/-- A cluster that has nodes has one to try. -/
theorem nodes_eq_nil_of_currentNode (h : s.currentNode config = none) : config.nodes = [] := by
  obtain ⟨-, hnodes⟩ := Option.or_eq_none_iff.mp h
  have hlength := List.getElem?_eq_none_iff.mp hnodes
  rcases Nat.eq_zero_or_pos config.nodes.length with hnil | hpos
  · exact List.length_eq_zero_iff.mp hnil
  · have hlt := Nat.mod_lt s.retries hpos
    omega

theorem turn_cases (config : SendConfig) (h : ¬ s.Done) (reply : SendReply) :
    Turned config reply s (s.turn config reply) := by
  unfold turn
  rw [if_neg (show ¬ s.status ≠ .running from h)]
  by_cases hretries : s.retries < config.maxRetries
  · rw [if_pos hretries]
    cases hnode : s.currentNode config with
    | some node =>
      simp only
      unfold attempt
      cases reply with
      | failed => exact .failed node hretries rfl rfl
      | line msgStr =>
        cases hleader : newLeader config msgStr with
        | some leader =>
          simp only [hleader]
          exact .redirected node leader hretries rfl (by simp [SendReply.redirects, hleader])
        | none =>
          simp only [hleader]
          refine .failed node hretries rfl ?_
          simp [SendReply.fails, SendReply.redirects, SendReply.acknowledges, hleader]
      | acks count =>
        simp only
        by_cases hshort : count = 0 ∨ count < config.batchLength
        · rw [if_pos hshort]
          refine .failed node hretries rfl ?_
          simp [SendReply.fails, SendReply.redirects, SendReply.acknowledges, hshort]
        · rw [if_neg hshort]
          exact .acked node hretries rfl (by simp [SendReply.acknowledges, hshort])
    | none => exact .raised rfl fun _ => nodes_eq_nil_of_currentNode hnode
  · rw [if_neg hretries]
    exact .raised rfl fun h => absurd h hretries

/-- Every attempt has failed, was redirected, or has been acknowledged. -/
structure Counted (config : SendConfig) (s : SendLoop) : Prop where
  attempts_eq : s.attempts.length =
    s.retries + s.redirects + if s.status = .returned then 1 else 0
  retries_le : s.retries ≤ config.maxRetries
  returned : s.status = .returned → s.retries < config.maxRetries

theorem counted_init (config : SendConfig) (leader : Option Node) :
    Counted config (init leader) := by
  refine ⟨rfl, Nat.zero_le _, ?_⟩
  intro h
  cases h

theorem Counted.turn (h : Counted config s) (reply : SendReply) :
    Counted config (s.turn config reply) := by
  by_cases hdone : s.Done
  · rw [turn_of_done config s reply hdone]
    exact h
  · have hrunning : s.status = .running := not_not.mp hdone
    have hattempts := h.attempts_eq
    rw [hrunning] at hattempts
    rcases turn_cases config hdone reply with
      ⟨node, hretries, heq⟩ | ⟨node, leader, hretries, heq⟩ | ⟨node, hretries, heq⟩ | heq <;>
      rw [heq]
    · refine ⟨?_, hretries, ?_⟩
      · simp [fail, hattempts, hrunning]
        omega
      · intro hreturned
        rw [show s.status = .returned from hreturned] at hrunning
        cases hrunning
    · refine ⟨?_, h.retries_le, ?_⟩
      · simp [hattempts, hrunning, Nat.add_assoc]
      · intro hreturned
        rw [show s.status = .returned from hreturned] at hrunning
        cases hrunning
    · refine ⟨?_, h.retries_le, fun _ => hretries⟩
      simp [hattempts]
    · refine ⟨?_, h.retries_le, ?_⟩
      · simp [hattempts]
      · intro hreturned
        cases hreturned

theorem redirects_le_turn (s : SendLoop) (reply : SendReply) :
    s.redirects ≤ (s.turn config reply).redirects := by
  by_cases hdone : s.Done
  · rw [turn_of_done config s reply hdone]
  · rcases turn_cases config hdone reply with
      ⟨node, -, heq⟩ | ⟨node, leader, -, heq⟩ | ⟨node, -, heq⟩ | heq
    · rw [heq]
      exact le_refl _
    · rw [heq]
      exact Nat.le_succ _
    · rw [heq]
    · rw [heq]

/-- What is left of the two counters. -/
def left (config : SendConfig) (bound : Nat) (s : SendLoop) : Nat :=
  if s.status = .running then (config.maxRetries - s.retries) + (bound - s.redirects) + 1 else 0

/-- A turn uses up one of the counters, or ends the call. -/
theorem left_turn {bound : Nat} (h : ¬ s.Done) (reply : SendReply)
    (hbound : (s.turn config reply).redirects ≤ bound) :
    (s.turn config reply).left config bound < s.left config bound := by
  have hrunning : s.status = .running := not_not.mp h
  unfold left
  rw [if_pos hrunning]
  rcases turn_cases config h reply with
    ⟨node, hretries, heq⟩ | ⟨node, leader, hretries, heq⟩ | ⟨node, -, heq⟩ | heq
  · rw [heq]
    show (if s.status = .running then
      config.maxRetries - (s.retries + 1) + (bound - s.redirects) + 1 else 0) < _
    rw [if_pos hrunning]
    omega
  · rw [heq] at hbound ⊢
    have hlt : s.redirects + 1 ≤ bound := hbound
    show (if s.status = .running then
      config.maxRetries - s.retries + (bound - (s.redirects + 1)) + 1 else 0) < _
    rw [if_pos hrunning]
    omega
  · rw [heq]
    exact Nat.succ_pos _
  · rw [heq]
    exact Nat.succ_pos _

end SendLoop

namespace SendLoop

variable {config : SendConfig} {supply : Nat → SendReply} {n : Nat} {s : SendLoop}

/-- The loop behind `n` answers. While it runs its counters are those of the answers, it runs while
they let it go on, and the redirects it has followed are those of answers that let it go on. -/
structure Reads (config : SendConfig) (supply : Nat → SendReply) (n : Nat) (s : SendLoop) : Prop where
  running : s.status = .running →
    s.retries = (answers supply n).countP (SendReply.fails config) ∧
    s.redirects = (answers supply n).countP (SendReply.redirects config) ∧
    (answers supply n).countP (SendReply.acknowledges config) = 0
  goesOn : GoesOn config (answers supply n) → config.nodes ≠ [] → s.status = .running
  followed : s.redirects = 0 ∨ ∃ m, GoesOn config (answers supply m) ∧
    s.redirects = (answers supply m).countP (SendReply.redirects config)

theorem reads_init (config : SendConfig) (supply : Nat → SendReply) (leader : Option Node) :
    Reads config supply 0 (init leader) :=
  ⟨fun _ => ⟨rfl, rfl, rfl⟩, fun _ _ => rfl, .inl rfl⟩

theorem Reads.turn (h : Reads config supply n s) :
    Reads config supply (n + 1) (s.turn config (supply n)) := by
  obtain ⟨hrunning, hgoes, hfollowed⟩ := h
  by_cases hdone : s.Done
  · rw [turn_of_done config s (supply n) hdone]
    exact ⟨fun h => absurd h hdone, fun h hnodes => hgoes h.of_succ hnodes, hfollowed⟩
  · have hstatus : s.status = .running := not_not.mp hdone
    obtain ⟨hretries, hredirects, hacks⟩ := hrunning hstatus
    rcases turn_cases config hdone (supply n) with
      ⟨node, hlt, heq, hreply⟩ | ⟨node, leader, hlt, heq, hreply⟩ | ⟨node, hlt, heq, hreply⟩ |
        ⟨heq, hwhy⟩ <;>
      rw [heq]
    · -- a failure is counted
      obtain ⟨hno, hnone⟩ := SendReply.kind_of_fails hreply
      refine ⟨fun _ => ?_, fun _ _ => hstatus, hfollowed⟩
      rw [countP_answers_succ, countP_answers_succ, countP_answers_succ, hreply, hno, hnone]
      exact ⟨congrArg (· + 1) hretries, hredirects, hacks⟩
    · -- a redirect is not, and the answers still let the call go on
      obtain ⟨hnone, hno⟩ := SendReply.kind_of_redirects hreply
      have hcount : s.redirects + 1 =
          (answers supply (n + 1)).countP (SendReply.redirects config) := by
        rw [countP_answers_succ, hreply, hredirects]
        rfl
      have hfails : s.retries = (answers supply (n + 1)).countP (SendReply.fails config) := by
        rw [countP_answers_succ, hno, hretries]
        rfl
      have hacks' : (answers supply (n + 1)).countP (SendReply.acknowledges config) = 0 := by
        rw [countP_answers_succ, hnone, hacks]
        rfl
      exact ⟨fun _ => ⟨hfails, hcount, hacks'⟩, fun _ _ => hstatus,
        .inr ⟨n + 1, ⟨hacks', hfails ▸ hlt⟩, hcount⟩⟩
    · -- an acknowledgement ends the call
      refine ⟨fun h => ?_, fun h _ => ?_, hfollowed⟩
      · cases h
      · have hcount := h.unacknowledged
        rw [countP_answers_succ, hreply, if_pos rfl] at hcount
        omega
    · -- the error needs all the retries, or a cluster without nodes
      refine ⟨fun h => ?_, fun h hnodes => ?_, hfollowed⟩
      · cases h
      · exact absurd (hwhy (hretries ▸ h.of_succ.retries)) hnodes

theorem reads_after (config : SendConfig) (supply : Nat → SendReply) (leader : Option Node)
    (n : Nat) : Reads config supply n (after (turn config) (init leader) supply n) := by
  induction n with
  | zero => exact reads_init config supply leader
  | succ n ih => exact ih.turn

theorem counted_after (config : SendConfig) (supply : Nat → SendReply) (leader : Option Node)
    (n : Nat) : Counted config (after (turn config) (init leader) supply n) :=
  after_invariant (fun _ n h => h.turn (supply n)) (counted_init config leader) n

/-- A call that ends has followed all the redirects that it ever follows. -/
theorem redirects_le_of_done {leader : Option Node} {m : Nat}
    (hdone : (after (turn config) (init leader) supply m).Done) (n : Nat) :
    (after (turn config) (init leader) supply n).redirects ≤
      (after (turn config) (init leader) supply m).redirects := by
  rcases Nat.le_total n m with hnm | hmn
  · exact after_mono redirects_le_turn hnm
  · rw [after_eq_of_done (turn_of_done config) hmn hdone]

/-- A call whose redirects are bounded ends, and the bound is one of its attempts as well. -/
theorem exists_done_of_redirects_le {leader : Option Node} {bound : Nat}
    (hbound : ∀ n, (after (turn config) (init leader) supply n).redirects ≤ bound) :
    ∃ n, (after (turn config) (init leader) supply n).Done ∧
      (after (turn config) (init leader) supply n).attempts.length ≤ config.maxRetries + bound := by
  obtain ⟨n, -, -, hdone⟩ : ∃ n, 0 ≤ n ∧ n ≤ _ ∧
      (after (turn config) (init leader) supply n).Done :=
    exists_done_of_lt (left config bound) fun m _ hnot =>
      left_turn hnot (supply m) (hbound (m + 1))
  refine ⟨n, hdone, ?_⟩
  obtain ⟨hattempts, hretries, hreturned⟩ := counted_after config supply leader n
  have hredirects := hbound n
  rw [hattempts]
  split
  · rename_i hstatus
    have hlt := hreturned hstatus
    omega
  · omega

/-- The redirects among answers that let the call go on have been followed. -/
theorem countP_redirects_le {leader : Option Node} (h : GoesOn config (answers supply n)) :
    (answers supply n).countP (SendReply.redirects config) ≤
      (after (turn config) (init leader) supply n).redirects := by
  have hreads := reads_after config supply leader n
  by_cases hnodes : config.nodes = []
  · have hnone : (answers supply n).countP (SendReply.redirects config) = 0 := by
      rw [List.countP_eq_zero]
      intro reply _
      rw [redirects_of_nodes_eq_nil hnodes]
      exact Bool.false_ne_true
    rw [hnone]
    exact Nat.zero_le _
  · obtain ⟨-, hredirects, -⟩ := hreads.running (hreads.goesOn h hnodes)
    rw [hredirects]

end SendLoop

/-- For every class of behaviours of the servers, the connection attempts of `_send_batch` are
bounded exactly when this is so of the redirects among the answers that come before the call is at
its end: before one acknowledges the batch and before `max_retries` are failures. -/
theorem send_attempts_bounded_iff (config : SendConfig) (leader : Option Node)
    (behaviours : (Nat → SendReply) → Prop) :
    (∃ bound, ∀ supply, behaviours supply →
      ∃ n, (after (SendLoop.turn config) (SendLoop.init leader) supply n).Done ∧
        (after (SendLoop.turn config) (SendLoop.init leader) supply n).attempts.length ≤ bound) ↔
    ∃ bound, ∀ supply, behaviours supply → ∀ n, GoesOn config (answers supply n) →
      (answers supply n).countP (SendReply.redirects config) ≤ bound := by
  constructor
  · rintro ⟨bound, hbound⟩
    refine ⟨bound, fun supply hsupply n hgoes => ?_⟩
    obtain ⟨m, hdone, hattempts⟩ := hbound supply hsupply
    have hcount := (SendLoop.counted_after config supply leader m).attempts_eq
    calc (answers supply n).countP (SendReply.redirects config)
        ≤ (after (SendLoop.turn config) (SendLoop.init leader) supply n).redirects :=
          SendLoop.countP_redirects_le hgoes
      _ ≤ (after (SendLoop.turn config) (SendLoop.init leader) supply m).redirects :=
          SendLoop.redirects_le_of_done hdone n
      _ ≤ bound := by omega
  · rintro ⟨bound, hbound⟩
    refine ⟨config.maxRetries + bound, fun supply hsupply => ?_⟩
    refine SendLoop.exists_done_of_redirects_le fun n => ?_
    rcases (SendLoop.reads_after config supply leader n).followed with hzero | ⟨m, hgoes, hcount⟩
    · rw [hzero]
      exact Nat.zero_le _
    · rw [hcount]
      exact hbound supply hsupply m hgoes

/-! ## Two nodes that redirect to each other -/

/-- A decimal number. -/
def decimal (digits : List Char) : Option Int :=
  if digits ≠ [] ∧ digits.all Char.isDigit then
    some (digits.foldl (fun n c => 10 * n + (c.toNat - 48)) 0)
  else none

/-- Two nodes, three attempts and a batch of one record. -/
def twoNodes : SendConfig := ⟨3, [⟨"c", 1, "h", 1⟩, ⟨"c", 2, "h", 2⟩], 1, decimal⟩

/-- The first node names the second as the leader, and the other way round. -/
def pingPong (n : Nat) : List Char :=
  SendLoop.redirectWord ++ if n % 2 = 0 then [' ', '2', ' ', 'h'] else [' ', '1', ' ', 'h']

theorem newLeader_pingPong (n : Nat) :
    ∃ leader, SendLoop.newLeader twoNodes (pingPong n) = some leader := by
  unfold pingPong
  split
  · exact ⟨_, rfl⟩
  · exact ⟨_, rfl⟩

/-- The call goes on and has not counted an attempt. -/
def SendLoop.Bounces (s : SendLoop) : Prop := s.status = .running ∧ s.retries = 0

/-- The redirect is followed and no attempt is counted. -/
theorem SendLoop.Bounces.turn {s : SendLoop} (h : s.Bounces) (n : Nat) :
    (s.turn twoNodes (.line (pingPong n))).Bounces := by
  obtain ⟨hrunning, hretries⟩ := h
  obtain ⟨leader, hleader⟩ := newLeader_pingPong n
  obtain ⟨node, hnode⟩ : ∃ node, s.currentNode twoNodes = some node := by
    unfold SendLoop.currentNode
    rw [hretries]
    cases s.leader with
    | some leader => exact ⟨leader, rfl⟩
    | none => exact ⟨_, rfl⟩
  have hroom : s.retries < twoNodes.maxRetries := by
    rw [hretries]
    decide
  unfold SendLoop.turn
  rw [if_neg (fun hnot => hnot hrunning), if_pos hroom, hnode]
  unfold SendLoop.attempt
  simp only [hleader]
  exact ⟨hrunning, hretries⟩

theorem not_send_attempts_bounded : ¬ ∀ (config : SendConfig) (leader : Option Node), ∃ bound,
    ∀ supply, ∃ n, (after (SendLoop.turn config) (SendLoop.init leader) supply n).Done ∧
      (after (SendLoop.turn config) (SendLoop.init leader) supply n).attempts.length ≤ bound := by
  intro hclaim
  obtain ⟨bound, hbound⟩ := hclaim twoNodes none
  obtain ⟨n, hdone, -⟩ := hbound fun n => .line (pingPong n)
  have hbounces : SendLoop.Bounces
      (after (SendLoop.turn twoNodes) (SendLoop.init none) (fun n => .line (pingPong n)) n) :=
    after_invariant (fun _ n h => h.turn n) ⟨rfl, rfl⟩ n
  exact hdone hbounces.1

end RaftLsmt.Client
