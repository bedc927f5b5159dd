import RaftLsmt.Server.ClientLifetime
import RaftLsmt.Server.QueryFrame

/-!
# Query requests become tasks

The bytes of a query client are a stream of requests of 40 bytes. `dispatch_queries` makes a task of
each while fewer than `GLOBAL_MAX_QUERIES` are unfinished, and stops reading from the client when it
comes to that limit; `after_query_cb` resumes the clients that wait. `Dispatches` says that no request
is lost or repeated on the way and that nobody waits in vain; it holds between the callbacks of every
run in which `uv_queue_work` takes all tasks (`queries_dispatched`).
-/

set_option autoImplicit false

namespace RaftLsmt.Server.EventLoop

open RaftLsmt.Lib.ByteCodec
open RaftLsmt.Lib.RefCount
open RaftLsmt.Lib.StepMachine
open RaftLsmt.Lsmt

/-! ## The invariant -/

/-- The stream of a client, but for `rest`, has become tasks. -/
def Served (s : EventLoop) (a : Nat) (rest : Bytes) : Prop :=
  ∃ bytes n, s.received a = bytes ++ rest ∧ bytes.length = queryReqSize * n ∧
    streamRequests bytes = s.dispatchedTo a

/-- The clients of the list are query clients, and open. -/
def Listed (s : EventLoop) : Prop :=
  ∀ b ∈ s.clientsHead .query, s.IsQuery b ∧ (s.clients b).closing = false

theorem listed_of_lives {s : EventLoop} {extra : List Nat} (h : s.Lives extra) : s.Listed := by
  intro b hb
  obtain ⟨hmem, hopen, htype⟩ := h.listed .query b hb
  exact ⟨⟨h.accounts.lt_allocated b (List.mem_append_right _ (List.mem_append_left _ hmem)), htype⟩,
    hopen⟩

/-- Between two callbacks `busy` and `waiting` are empty. The client `busy` may have requests although
it is not paused, and those of `waiting` may be paused although there is room for more queries. -/
structure Dispatches (s : EventLoop) (busy waiting : List Nat) : Prop where
  count : s.activeQueriesCount = s.queries.length
  le : s.activeQueriesCount ≤ globalMaxQueries
  served : ∀ a, s.IsQuery a → s.Served a (s.clients a).buffer
  none : ∀ a, ¬ s.IsQuery a → s.received a = [] ∧ s.dispatchedTo a = []
  reading : ∀ a, s.IsQuery a → (s.clients a).reading = true → (s.clients a).isPaused = false
  idle : ∀ a, s.IsQuery a → a ∉ busy → (s.clients a).isPaused = false →
    (s.clients a).buffer.length < queryReqSize
  full : ∀ a ∈ s.clientsHead .query, a ∉ waiting → (s.clients a).isPaused = true →
    s.activeQueriesCount = globalMaxQueries

namespace Dispatches

variable {s s' : EventLoop} {v : LoopView} {busy waiting : List Nat} {a : Nat}

/-- A step that leaves the query port alone. -/
theorem same (h : s.Dispatches busy waiting) (hsame : SameQueries s s')
    (hquery : ∀ a ∈ s.clientsHead .query, (s.clients a).type = .query) :
    s'.Dispatches busy waiting := by
  have hq : ∀ a, s'.IsQuery a ↔ s.IsQuery a := by
    intro a
    unfold IsQuery
    rw [hsame.allocated_eq, hsame.type_eq]
  have hto : ∀ a, s'.dispatchedTo a = s.dispatchedTo a := by
    intro a
    unfold dispatchedTo
    rw [hsame.dispatched_eq]
  have hserved : ∀ a rest, s'.Served a rest ↔ s.Served a rest := by
    intro a rest
    unfold Served
    rw [hsame.received_eq, hto]
  refine ⟨?_, ?_, ?_, ?_, ?_, ?_, ?_⟩
  · rw [hsame.active_eq, hsame.queries_eq]
    exact h.count
  · rw [hsame.active_eq]
    exact h.le
  · intro a ha
    have ha := (hq a).mp ha
    rw [hserved, (hsame.client a ha.2).1]
    exact h.served a ha
  · intro a ha
    rw [hsame.received_eq, hto]
    exact h.none a fun hquery => ha ((hq a).mpr hquery)
  · intro a ha
    have ha := (hq a).mp ha
    obtain ⟨-, hreading, hpaused⟩ := hsame.client a ha.2
    rw [hreading, hpaused]
    exact h.reading a ha
  · intro a ha
    have ha := (hq a).mp ha
    obtain ⟨hbuffer, -, hpaused⟩ := hsame.client a ha.2
    rw [hbuffer, hpaused]
    exact h.idle a ha
  · intro a ha
    have ha := hsame.head_sub a ha
    rw [hsame.active_eq, (hsame.client a (hquery a ha)).2.2]
    exact h.full a ha

end Dispatches

/-! ## Dispatching -/

/-- The bytes become tasks of the client, until fewer than a request are left or the limit is
reached. -/
structure DispatchSpec (s : EventLoop) (a : Nat) (rest : Bytes) (s' : EventLoop) (rest' : Bytes)
    (new : List ClientQuery) : Prop where
  queries_eq : s'.queries = s.queries ++ new
  dispatched_eq : s'.dispatched = s.dispatched ++ new
  active_eq : s'.activeQueriesCount = s.activeQueriesCount + new.length
  le : s.activeQueriesCount ≤ globalMaxQueries → s'.activeQueriesCount ≤ globalMaxQueries
  of_client : ∀ query ∈ new, query.client = a
  bytes : ∃ bytes, rest = bytes ++ rest' ∧ bytes.length = queryReqSize * new.length ∧
    streamRequests bytes = new.map fun query => requestOf query.task
  allocated_eq : s'.heap.allocated = s.heap.allocated
  head_eq : s'.clientsHead = s.clientsHead
  received_eq : s'.received = s.received
  other : ∀ b, b ≠ a → s'.clients b = s.clients b
  type_eq : (s'.clients a).type = (s.clients a).type
  closing_eq : (s'.clients a).closing = (s.clients a).closing
  ends : rest'.length < queryReqSize ∧ (s'.clients a).isPaused = (s.clients a).isPaused ∧
      (s'.clients a).reading = (s.clients a).reading ∨
    s'.activeQueriesCount ≥ globalMaxQueries ∧ (s'.clients a).isPaused = true ∧
      ((s.clients a).isPaused = false → (s'.clients a).reading = false)

theorem dispatchLoop_spec {s : EventLoop} {v : LoopView} {a : Nat}
    (hv : ∀ n, v.uvQueueWorkOk n = true) (rest : Bytes) :
    ∃ new, DispatchSpec s a rest (dispatchLoop v a s rest).1 (dispatchLoop v a s rest).2 new := by
  fun_induction dispatchLoop v a s rest with
  -- less than one request is left: the loop ends and nobody pauses
  | case1 s rest hshort =>
    refine ⟨[], (List.append_nil _).symm, (List.append_nil _).symm, (Int.add_zero _).symm, id, ?_,
      ⟨[], rfl, rfl, ?_⟩, rfl, rfl, rfl, fun _ _ => rfl, rfl, rfl, Or.inl ⟨hshort, rfl, rfl⟩⟩
    · intro query hquery
      cases hquery
    · exact streamRequests_of_short (by decide)
  -- the maximum is reached and the client is paused already
  | case2 s rest hlong hfull hpaused =>
    refine ⟨[], (List.append_nil _).symm, (List.append_nil _).symm, (Int.add_zero _).symm, id, ?_,
      ⟨[], rfl, rfl, ?_⟩, rfl, rfl, rfl, fun _ _ => rfl, rfl, rfl, Or.inr ⟨hfull, hpaused, ?_⟩⟩
    · intro query hquery
      cases hquery
    · exact streamRequests_of_short (by decide)
    · intro hnot
      rw [hnot] at hpaused
      cases hpaused
  -- the maximum is reached: the client is paused
  | case3 s rest hlong hfull hpaused =>
    have hself : (s.update a fun c => { c with reading := false, isPaused := true }).clients a =
        { s.clients a with reading := false, isPaused := true } := Function.update_self _ _ _
    refine ⟨[], (List.append_nil _).symm, (List.append_nil _).symm, (Int.add_zero _).symm, id, ?_,
      ⟨[], rfl, rfl, ?_⟩, rfl, rfl, rfl, fun b hb => Function.update_of_ne hb _ _, ?_, ?_,
      Or.inr ⟨hfull, ?_, ?_⟩⟩
    · intro query hquery
      cases hquery
    · exact streamRequests_of_short (by decide)
    · rw [hself]
    · rw [hself]
    · rw [hself]
    · rw [hself]
      exact fun _ => rfl
  -- one request is cut off the buffer and goes to a worker
  | case4 s rest hlong hroom retained counted ih =>
    obtain ⟨new, h⟩ := ih
    let query : ClientQuery := ⟨a, queryTask rest (v.uvHrtime counted.calls)⟩
    have hqueue : counted.uvQueueWork v query =
        { counted with
          calls := counted.calls + 1
          queries := counted.queries ++ [query]
          dispatched := counted.dispatched ++ [query] } := if_pos (hv _)
    rw [hqueue] at h ⊢
    have hlen : (rest.take queryReqSize).length = queryReqSize * 1 := by
      rw [List.length_take]
      omega
    -- the bytes that were cut off are that request
    have htake : streamRequests (rest.take queryReqSize) = [requestOf query.task] := by
      have hsplit := streamRequests_append hlen (rest.drop queryReqSize)
      rw [List.take_append_drop, streamRequests_of_long hlong] at hsplit
      exact (List.append_cancel_right hsplit).symm
    refine ⟨query :: new, ?_, ?_, ?_, ?_, ?_, ?_, h.allocated_eq, h.head_eq, h.received_eq, h.other,
      h.type_eq, h.closing_eq, h.ends⟩
    · rw [h.queries_eq]
      exact List.append_assoc _ _ _
    · rw [h.dispatched_eq]
      exact List.append_assoc _ _ _
    · rw [h.active_eq, List.length_cons]
      show s.activeQueriesCount + 1 + (new.length : Int) = _
      push_cast
      omega
    · intro hle
      refine h.le ?_
      show s.activeQueriesCount + 1 ≤ globalMaxQueries
      omega
    · intro q hq
      rcases List.mem_cons.mp hq with rfl | hq
      · rfl
      · exact h.of_client q hq
    · obtain ⟨bytes, hbytes, hlength, hrequests⟩ := h.bytes
      refine ⟨rest.take queryReqSize ++ bytes, ?_, ?_, ?_⟩
      · rw [List.append_assoc, ← hbytes, List.take_append_drop]
      · rw [List.length_append, hlen, hlength, List.length_cons]
        ring
      · rw [streamRequests_append hlen, htake, hrequests]
        rfl

theorem dispatchQueries_spec (s : EventLoop) {v : LoopView} (a : Nat)
    (hv : ∀ n, v.uvQueueWorkOk n = true) :
    ∃ new, DispatchSpec s a (s.clients a).buffer (s.dispatchQueries v a)
      ((s.dispatchQueries v a).clients a).buffer new := by
  obtain ⟨new, h⟩ := dispatchLoop_spec (s := s.touch a) (a := a) hv (s.clients a).buffer
  generalize hloop : dispatchLoop v a (s.touch a) (s.clients a).buffer = result at h
  obtain ⟨t, rest⟩ := result
  have heq : s.dispatchQueries v a = t.update a fun c => { c with buffer := rest } := by
    unfold dispatchQueries
    dsimp only
    rw [show dispatchLoop v a (s.touch a) ((s.touch a).clients a).buffer = (t, rest) from hloop]
  have hself : (t.update a fun c => { c with buffer := rest }).clients a =
      { t.clients a with buffer := rest } := Function.update_self _ _ _
  rw [heq]
  refine ⟨new, h.queries_eq, h.dispatched_eq, h.active_eq, h.le, h.of_client, ?_, h.allocated_eq,
    h.head_eq, h.received_eq, ?_, ?_, ?_, ?_⟩
  · rw [hself]
    exact h.bytes
  · intro b hb
    exact (Function.update_of_ne hb _ _).trans (h.other b hb)
  · rw [hself]
    exact h.type_eq
  · rw [hself]
    exact h.closing_eq
  · rw [hself]
    exact h.ends

namespace Dispatches

variable {s s' : EventLoop} {v : LoopView} {busy waiting : List Nat} {a : Nat}

/-- `dispatch_queries` for a client that is not paused. -/
theorem dispatch {rest : Bytes} {new : List ClientQuery} (h : s.Dispatches (a :: busy) waiting)
    (ha : s.IsQuery a) (hpaused : (s.clients a).isPaused = false)
    (hspec : DispatchSpec s a (s.clients a).buffer s' rest new)
    (hrest : (s'.clients a).buffer = rest) : s'.Dispatches busy waiting := by
  -- the loop changes no client's type
  have htype : ∀ b, (s'.clients b).type = (s.clients b).type := by
    intro b
    by_cases hb : b = a
    · rw [hb, hspec.type_eq]
    · rw [hspec.other b hb]
  have hq : ∀ b, s'.IsQuery b ↔ s.IsQuery b := by
    intro b
    unfold IsQuery
    rw [hspec.allocated_eq, htype]
  -- what is dispatched belongs to this client, so nothing is added for another
  have hto : ∀ b, b ≠ a → s'.dispatchedTo b = s.dispatchedTo b := by
    intro b hb
    have hnone : new.filter (fun query => query.client = b) = [] := by
      refine List.filter_eq_nil_iff.mpr fun query hquery => ?_
      rw [hspec.of_client query hquery]
      simpa using Ne.symm hb
    unfold dispatchedTo
    rw [hspec.dispatched_eq, List.filter_append, hnone, List.append_nil]
  have htoa : s'.dispatchedTo a = s.dispatchedTo a ++ new.map fun query => requestOf query.task := by
    have hall : new.filter (fun query => query.client = a) = new := by
      refine List.filter_eq_self.mpr fun query hquery => ?_
      simpa using hspec.of_client query hquery
    unfold dispatchedTo
    rw [hspec.dispatched_eq, List.filter_append, hall, List.map_append]
  refine ⟨?_, hspec.le h.le, ?_, ?_, ?_, ?_, ?_⟩
  · -- the count is that of the queries in flight
    rw [hspec.active_eq, hspec.queries_eq, h.count, List.length_append]
    push_cast
    rfl
  · -- the bytes served: this client's buffer begins with the requests it has just dispatched
    intro b hb
    by_cases hba : b = a
    · subst hba
      obtain ⟨bytes, n, hreceived, hlength, hrequests⟩ := h.served b ha
      obtain ⟨taken, hbuffer, htaken, hnew⟩ := hspec.bytes
      refine ⟨bytes ++ taken, n + new.length, ?_, ?_, ?_⟩
      · rw [hspec.received_eq, hreceived, hbuffer, hrest, List.append_assoc]
      · rw [List.length_append, hlength, htaken]
        ring
      · rw [streamRequests_append hlength, hrequests, hnew, htoa]
    · obtain ⟨bytes, n, hreceived, hserved⟩ := h.served b ((hq b).mp hb)
      rw [hspec.other b hba]
      refine ⟨bytes, n, ?_, ?_⟩
      · rw [hspec.received_eq]
        exact hreceived
      · rw [hto b hba]
        exact hserved
  · -- a client that does not query has sent nothing
    intro b hb
    have hba : b ≠ a := by
      rintro rfl
      exact hb ((hq b).mpr ha)
    rw [hspec.received_eq, hto b hba]
    exact h.none b fun hquery => hb ((hq b).mpr hquery)
  · -- a client that is read from is not paused: pausing stops the reading
    intro b hb hreading
    by_cases hba : b = a
    · subst hba
      rcases hspec.ends with ⟨-, hsame, -⟩ | ⟨-, -, hstop⟩
      · exact hsame.trans hpaused
      · rw [hstop hpaused] at hreading
        cases hreading
    · rw [hspec.other b hba] at hreading ⊢
      exact h.reading b ((hq b).mp hb) hreading
  · -- an idle buffer is shorter than a request, for otherwise the loop would have gone on
    intro b hb hbusy hidle
    by_cases hba : b = a
    · subst hba
      rw [hrest]
      rcases hspec.ends with ⟨hshort, -⟩ | ⟨-, hfull, -⟩
      · exact hshort
      · rw [hfull] at hidle
        cases hidle
    · rw [hspec.other b hba] at hidle ⊢
      refine h.idle b ((hq b).mp hb) ?_ hidle
      exact List.not_mem_cons_of_ne_of_not_mem hba hbusy
  · -- a client that waits has found the count at its maximum
    intro b hb hwaiting hfull
    refine le_antisymm (hspec.le h.le) ?_
    by_cases hba : b = a
    · subst hba
      rcases hspec.ends with ⟨-, hsame, -⟩ | ⟨hmax, -⟩
      · rw [hsame, hpaused] at hfull
        cases hfull
      · exact hmax
    · rw [hspec.head_eq] at hb
      rw [hspec.other b hba] at hfull
      have hmax := h.full b hb hwaiting hfull
      rw [hspec.active_eq, hmax]
      omega

/-- A waiting client is about to dispatch. -/
theorem unpause (h : s.Dispatches [] (a :: waiting)) :
    (s.update a fun c => { c with isPaused := false, reading := true }).Dispatches [a] waiting := by
  have hself : (s.update a fun c => { c with isPaused := false, reading := true }).clients a =
      { s.clients a with isPaused := false, reading := true } := Function.update_self _ _ _
  have hother : ∀ b, b ≠ a →
      (s.update a fun c => { c with isPaused := false, reading := true }).clients b = s.clients b :=
    fun b hb => Function.update_of_ne hb _ _
  have hsame : ∀ b, ((s.update a fun c => { c with isPaused := false, reading := true }).clients b).type
      = (s.clients b).type ∧
        ((s.update a fun c => { c with isPaused := false, reading := true }).clients b).buffer =
          (s.clients b).buffer := by
    intro b
    by_cases hb : b = a
    · rw [hb, hself]
      exact ⟨rfl, rfl⟩
    · rw [hother b hb]
      exact ⟨rfl, rfl⟩
  have hq : ∀ b, (s.update a fun c => { c with isPaused := false, reading := true }).IsQuery b →
      s.IsQuery b := by
    intro b hb
    exact ⟨hb.1, (hsame b).1.symm.trans hb.2⟩
  refine ⟨h.count, h.le, ?_, ?_, ?_, ?_, ?_⟩
  · intro b hb
    rw [(hsame b).2]
    exact h.served b (hq b hb)
  · intro b hb
    exact h.none b fun hquery => hb ⟨hquery.1, (hsame b).1.trans hquery.2⟩
  · -- the client reads again, so it is no longer one that waits
    intro b hb hreading
    by_cases hba : b = a
    · rw [hba, hself]
    · rw [hother b hba] at hreading ⊢
      exact h.reading b (hq b hb) hreading
  · -- what its buffer holds is dispatched next
    intro b hb hbusy hidle
    have hba : b ≠ a := fun heq => hbusy (List.mem_singleton.mpr heq)
    rw [hother b hba] at hidle ⊢
    exact h.idle b (hq b hb) List.not_mem_nil hidle
  · intro b hb hwaiting hpaused
    have hba : b ≠ a := by
      rintro rfl
      rw [hself] at hpaused
      cases hpaused
    rw [hother b hba] at hpaused
    exact h.full b hb (List.not_mem_cons_of_ne_of_not_mem hba hwaiting) hpaused

/-- The loop over the clients that wait. -/
theorem resume (hv : ∀ n, v.uvQueueWorkOk n = true) {as : List Nat} (h : s.Dispatches [] as)
    (hlisted : s.Listed) (has : ∀ b ∈ as, b ∈ s.clientsHead .query) :
    (resumeLoop v as s).Dispatches [] [] := by
  induction as generalizing s with
  | nil => exact h
  -- the list is walked in its order, and the walk ends when the count is at the maximum
  | cons a as ih =>
    obtain ⟨hquery, hopen⟩ := hlisted a (has a List.mem_cons_self)
    -- looking at a client changes nothing here
    have htouch : (s.touch a).Dispatches [] (a :: as) :=
      ⟨h.count, h.le, h.served, h.none, h.reading, h.idle, h.full⟩
    have hrest : ∀ b ∈ as, b ∈ s.clientsHead .query := fun b hb => has b (List.mem_cons_of_mem a hb)
    unfold resumeLoop
    dsimp only
    -- an open client that is paused is woken up
    split
    · have hwake := htouch.unpause
      have hself : ((s.touch a).update a fun c => { c with isPaused := false, reading := true }).clients
          a = { s.clients a with isPaused := false, reading := true } := Function.update_self _ _ _
      obtain ⟨new, hspec⟩ := dispatchQueries_spec
        ((s.touch a).update a fun c => { c with isPaused := false, reading := true }) a hv
      have hdone := hwake.dispatch (by rw [IsQuery, hself]; exact hquery) (by rw [hself]) hspec rfl
      split
      · -- nobody behind this client is woken up
        rename_i hmax
        refine { hdone with full := ?_ }
        intro b _ _ _
        exact le_antisymm hdone.le hmax
      · refine ih hdone ?_ ?_
        · intro b hb
          rw [hspec.head_eq] at hb
          have hold := hlisted b hb
          by_cases hba : b = a
          · rw [hba]
            refine ⟨⟨hspec.allocated_eq ▸ hquery.1, ?_⟩, ?_⟩
            · rw [hspec.type_eq, hself]
              exact hquery.2
            · rw [hspec.closing_eq, hself]
              exact hopen
          · unfold IsQuery
            rw [hspec.other b hba, hspec.allocated_eq]
            rw [show ((s.touch a).update a fun c => { c with isPaused := false, reading := true }).clients
              b = s.clients b from Function.update_of_ne hba _ _]
            exact hold
        · intro b hb
          rw [hspec.head_eq]
          exact hrest b hb
    · -- a client that is not paused, or that closes, is passed over
      rename_i hnot
      refine ih { htouch with full := ?_ } hlisted hrest
      intro b hb hwaiting hpaused
      refine htouch.full b hb (List.not_mem_cons_of_ne_of_not_mem ?_ hwaiting) hpaused
      rintro rfl
      exact hnot ⟨hpaused, hopen⟩

/-- `on_client_query` for an open client that is being read from. -/
theorem clientQuery (hv : ∀ n, v.uvQueueWorkOk n = true) (h : s.Dispatches [] []) (hlisted : s.Listed)
    (ha : s.IsQuery a) (hreading : (s.clients a).reading = true) (chunk : Option Bytes) :
    (s.onClientQuery v a chunk).Dispatches [] [] := by
  have hquery : ∀ b ∈ s.clientsHead .query, (s.clients b).type = .query :=
    fun b hb => (hlisted b hb).1.2
  cases chunk with
  | none => exact h.same (SameQueries.close s a) hquery
  | some chunk =>
    cases chunk with
    | nil => exact h
    | cons byte chunk =>
      -- the bytes arrive and are appended to the buffer
      let t : EventLoop :=
        { s with received := Function.update s.received a (s.received a ++ byte :: chunk) }
      let u : EventLoop := t.update a fun c => { c with buffer := c.buffer ++ byte :: chunk }
      have hself : u.clients a = { s.clients a with buffer := (s.clients a).buffer ++ byte :: chunk } :=
        Function.update_self _ _ _
      have hother : ∀ b, b ≠ a → u.clients b = s.clients b ∧ u.received b = s.received b :=
        fun b hb => ⟨Function.update_of_ne hb _ _, Function.update_of_ne hb _ _⟩
      have hq : ∀ b, u.IsQuery b ↔ s.IsQuery b := by
        intro b
        by_cases hb : b = a
        · -- what was received is what has been served followed by the buffer, for this client too
          rw [hb, IsQuery, hself]
          rfl
        · rw [IsQuery, (hother b hb).1]
          rfl
      -- between the two calls the buffer of this client may hold whole requests
      have hu : u.Dispatches [a] [] := by
        refine ⟨h.count, h.le, ?_, ?_, ?_, ?_, ?_⟩
        · intro b hb
          obtain ⟨bytes, n, hreceived, hserved⟩ := h.served b ((hq b).mp hb)
          refine ⟨bytes, n, ?_, hserved⟩
          by_cases hba : b = a
          · have hall : u.received a = s.received a ++ byte :: chunk := Function.update_self _ _ _
            rw [hba] at hreceived ⊢
            rw [hall, hself, hreceived, List.append_assoc]
          · rw [(hother b hba).1, (hother b hba).2]
            exact hreceived
        · intro b hb
          have hnot : ¬ s.IsQuery b := fun hquery => hb ((hq b).mpr hquery)
          have hba : b ≠ a := by
            rintro rfl
            exact hnot ha
          rw [(hother b hba).2]
          exact h.none b hnot
        · intro b hb
          have hold := h.reading b ((hq b).mp hb)
          by_cases hba : b = a
          · rw [hba] at hold ⊢
            rw [hself]
            exact hold
          · rw [(hother b hba).1]
            exact hold
        · intro b hb hbusy hidle
          have hba : b ≠ a := fun heq => hbusy (List.mem_singleton.mpr heq)
          rw [(hother b hba).1] at hidle ⊢
          exact h.idle b ((hq b).mp hb) List.not_mem_nil hidle
        · intro b hb hwaiting hpaused
          have hold := h.full b hb hwaiting
          by_cases hba : b = a
          · rw [hba] at hold hpaused
            rw [hself] at hpaused
            exact hold hpaused
          · rw [(hother b hba).1] at hpaused
            exact hold hpaused
      obtain ⟨new, hspec⟩ := dispatchQueries_spec u a hv
      refine hu.dispatch ((hq a).mpr ha) ?_ hspec rfl
      rw [hself]
      exact h.reading a ha hreading

/-- A new client. -/
theorem newClient (h : s.Dispatches [] []) (hlisted : s.Listed) (type : ClientType) :
    (s.newClient type).Dispatches [] [] := by
  have hself : (s.newClient type).clients s.heap.allocated = Client.new type :=
    Function.update_self _ _ _
  have hother : ∀ b, b ≠ s.heap.allocated → (s.newClient type).clients b = s.clients b :=
    fun b hb => Function.update_of_ne hb _ _
  -- the address is a new one, so nothing was received at it
  have hnew : ¬ s.IsQuery s.heap.allocated := fun hquery => Nat.lt_irrefl _ hquery.1
  have hq : ∀ b, b ≠ s.heap.allocated → ((s.newClient type).IsQuery b ↔ s.IsQuery b) := by
    intro b hb
    unfold IsQuery
    rw [hother b hb]
    show b < s.heap.allocated + 1 ∧ _ ↔ _
    rw [show b < s.heap.allocated + 1 ↔ b < s.heap.allocated by omega]
  refine ⟨h.count, h.le, ?_, ?_, ?_, ?_, ?_⟩
  · intro b hb
    by_cases hba : b = s.heap.allocated
    · obtain ⟨hreceived, hto⟩ := h.none _ hnew
      rw [hba, hself]
      refine ⟨[], 0, hreceived, rfl, ?_⟩
      rw [streamRequests_of_short (by decide)]
      exact hto.symm
    · rw [hother b hba]
      exact h.served b ((hq b hba).mp hb)
  · intro b hb
    by_cases hba : b = s.heap.allocated
    · rw [hba]
      exact h.none _ hnew
    · exact h.none b fun hquery => hb ((hq b hba).mpr hquery)
  · intro b hb
    by_cases hba : b = s.heap.allocated
    · rw [hba, hself]
      exact fun _ => rfl
    · rw [hother b hba]
      exact h.reading b ((hq b hba).mp hb)
  · intro b hb hbusy
    by_cases hba : b = s.heap.allocated
    · rw [hba, hself]
      exact fun _ => by show 0 < 40; decide
    · rw [hother b hba]
      exact h.idle b ((hq b hba).mp hb) hbusy
  · -- the new client is not listed yet
    intro b hb
    have hba : b ≠ s.heap.allocated := Nat.ne_of_lt (hlisted b hb).1.1
    rw [hother b hba]
    exact h.full b hb

/-- A new query client goes into the list and is read from. -/
theorem connect (h : s.Dispatches [] []) (hlisted : s.Listed) :
    (((s.newClient .query).addClient s.heap.allocated .query).update s.heap.allocated
      fun c => { c with reading := true }).Dispatches [] [] := by
  -- the new client owns its record before it is listed
  have hnew := h.newClient hlisted .query
  let t : EventLoop := ((s.newClient .query).addClient s.heap.allocated .query).update
    s.heap.allocated fun c => { c with reading := true }
  have hclient : (s.newClient .query).clients s.heap.allocated = Client.new .query :=
    Function.update_self _ _ _
  have hself : t.clients s.heap.allocated = { Client.new .query with reading := true } := by
    have hadd : ((s.newClient .query).addClient s.heap.allocated .query).clients s.heap.allocated =
        { Client.new .query with type := .query } := by
      rw [← hclient]
      exact Function.update_self _ _ _
    refine (Function.update_self _ _ _).trans ?_
    rw [hadd]
    rfl
  have hother : ∀ b, b ≠ s.heap.allocated → t.clients b = (s.newClient .query).clients b :=
    fun b hb => (Function.update_of_ne hb _ _).trans (Function.update_of_ne hb _ _)
  have hsame : ∀ b, (t.clients b).type = ((s.newClient .query).clients b).type ∧
      (t.clients b).buffer = ((s.newClient .query).clients b).buffer ∧
        (t.clients b).isPaused = ((s.newClient .query).clients b).isPaused := by
    intro b
    by_cases hb : b = s.heap.allocated
    · rw [hb, hself, hclient]
      exact ⟨rfl, rfl, rfl⟩
    · rw [hother b hb]
      exact ⟨rfl, rfl, rfl⟩
  have hq : ∀ b, t.IsQuery b ↔ (s.newClient .query).IsQuery b := by
    intro b
    unfold IsQuery
    rw [(hsame b).1]
    rfl
  refine ⟨hnew.count, hnew.le, ?_, ?_, ?_, ?_, ?_⟩
  · intro b hb
    rw [(hsame b).2.1]
    exact hnew.served b ((hq b).mp hb)
  · intro b hb
    exact hnew.none b fun hquery => hb ((hq b).mpr hquery)
  · intro b hb
    by_cases hba : b = s.heap.allocated
    · rw [hba, hself]
      exact fun _ => rfl
    · rw [hother b hba]
      exact hnew.reading b ((hq b).mp hb)
  · intro b hb hbusy
    rw [(hsame b).2.1, (hsame b).2.2]
    exact hnew.idle b ((hq b).mp hb) hbusy
  · -- only the new client's reading flag is set
    intro b hb hwaiting
    rw [(hsame b).2.2]
    by_cases hba : b = s.heap.allocated
    · rw [hba, hclient]
      intro hpaused
      cases hpaused
    · have hb : b ∈ Function.update s.clientsHead .query
          (s.heap.allocated :: s.clientsHead .query) .query := hb
      rw [Function.update_self] at hb
      exact hnew.full b (List.mem_of_ne_of_mem hba hb) hwaiting

theorem insertConnection (h : s.Dispatches [] []) (hlives : s.Lives []) (accept : Accept) :
    (s.onInsertConnection v accept).Dispatches [] [] := by
  have hnew := h.newClient (listed_of_lives hlives) .insert
  have hquery : ∀ b ∈ (s.newClient .insert).clientsHead .query,
      ((s.newClient .insert).clients b).type = .query :=
    fun b hb => ((hlives.newClient .insert).listed .query b hb).2.2
  have hclient : (s.newClient .insert).clients s.heap.allocated = Client.new .insert :=
    Function.update_self _ _ _
  have hself : ((s.newClient .insert).clients s.heap.allocated).type = .insert := by
    rw [hclient]
    rfl
  cases accept with
  | error => exact h
  | refused => exact hnew.same (SameQueries.close _ _) hquery
  | accepted =>
    unfold onInsertConnection
    dsimp only
    split
    · exact hnew.same (SameQueries.redirect v hself) hquery
    · have hadd := SameQueries.addInsert hself
      exact hnew.same (hadd.trans (SameQueries.update_insert (hadd.insert_type hself) rfl)) hquery

theorem readConnection (h : s.Dispatches [] []) (hlives : s.Lives []) (accept : Accept) :
    (s.onReadConnection v accept).Dispatches [] [] := by
  have hlisted := listed_of_lives hlives
  have hnew := h.newClient hlisted .query
  have hquery : ∀ b ∈ (s.newClient .query).clientsHead .query,
      ((s.newClient .query).clients b).type = .query :=
    fun b hb => ((hlives.newClient .query).listed .query b hb).2.2
  cases accept with
  | error => exact h
  | refused => exact hnew.same (SameQueries.close _ _) hquery
  | accepted =>
    unfold onReadConnection
    dsimp only
    split
    · exact hnew.same (SameQueries.close _ _) hquery
    · exact h.connect hlisted

/-- A query is no longer unfinished, and whoever waits has not been resumed yet. -/
theorem finish (h : s.Dispatches [] []) {i : Nat} (hi : i < s.queries.length) :
    Dispatches { s with
        queries := s.queries.eraseIdx i
        activeQueriesCount := s.activeQueriesCount - 1 } [] (s.clientsHead .query) where
  count := by
    show s.activeQueriesCount - 1 = ((s.queries.eraseIdx i).length : Int)
    rw [h.count, List.length_eraseIdx_of_lt hi]
    omega
  le := by
    have hle := h.le
    show s.activeQueriesCount - 1 ≤ globalMaxQueries
    omega
  served := h.served
  none := h.none
  reading := h.reading
  idle := h.idle
  full := fun b hb hwaiting => absurd hb hwaiting

/-- The completion of a query. -/
theorem queryCb (hv : ∀ n, v.uvQueueWorkOk n = true) (h : s.Dispatches [] []) {i : Nat}
    {query : ClientQuery} (hi : s.queries[i]? = some query)
    (hlives : Lives { s with queries := s.queries.eraseIdx i } [query.client]) (ok : Bool)
    (response : Option Bytes) :
    ({ s with queries := s.queries.eraseIdx i }.afterQueryCb v query ok response).Dispatches [] [] := by
  obtain ⟨hlt, -⟩ := List.getElem?_eq_some_iff.mp hi
  let t : EventLoop := { s with queries := s.queries.eraseIdx i }
  have ha : t.Held [query.client] query.client := Or.inl List.mem_cons_self
  let u : EventLoop := (t.touch query.client).answerQuery v query.client ok response
  have hkeeps : t.Keeps u [query.client] := by
    have htouch : t.touch query.client = t := hlives.touch_eq ha
    show t.Keeps ((t.touch query.client).answerQuery v query.client ok response) _
    rw [htouch]
    exact hlives.answer ha ok response
  have hsame : SameQueries t u := by
    refine (SameQueries.touch t query.client).trans ?_
    exact SameQueries.answer _ v query.client ok response
  let w : EventLoop := { u with activeQueriesCount := u.activeQueriesCount - 1 }
  have hwlisted : w.Listed := listed_of_lives (hkeeps.lives.active _).lives
  have hw : w.Dispatches [] (s.clientsHead .query) := by
    refine (h.finish hlt).same ⟨hsame.allocated_eq, hsame.type_eq, hsame.client, hsame.head_sub,
      hsame.stays, ?_, hsame.queries_eq, hsame.received_eq, hsame.dispatched_eq⟩ ?_
    · show u.activeQueriesCount - 1 = s.activeQueriesCount - 1
      rw [hsame.active_eq]
    · exact fun b hb => (hlives.listed .query b hb).2.2
  have hroom : w.activeQueriesCount < globalMaxQueries := by
    have hle := h.le
    show u.activeQueriesCount - 1 < globalMaxQueries
    rw [hsame.active_eq]
    show s.activeQueriesCount - 1 < globalMaxQueries
    omega
  have hresume : (resumeLoop v (w.clientsHead .query) w).Dispatches [] [] :=
    resume hv { hw with full := fun b hb hwaiting => absurd hb hwaiting } hwlisted fun _ hb => hb
  have hcb : t.afterQueryCb v query ok response = (w.resumeQueries v).clientRelease query.client := rfl
  rw [hcb, resumeQueries, if_pos hroom]
  exact ⟨hresume.count, hresume.le, hresume.served, hresume.none, hresume.reading, hresume.idle,
    hresume.full⟩

end Dispatches

/-! ## Open clients are in the list -/

/-- A query client that is not in the list is closing. -/
def OpenListed (s : EventLoop) : Prop :=
  ∀ a, s.IsQuery a → (s.clients a).closing = false → a ∈ s.clientsHead .query

namespace OpenListed

variable {s s' : EventLoop} {v : LoopView} {a : Nat}

theorem same (h : s.OpenListed) (hsame : SameQueries s s') : s'.OpenListed := by
  rintro b ⟨hlt, htype⟩ hopen
  rw [hsame.allocated_eq] at hlt
  rw [hsame.type_eq] at htype
  obtain ⟨hopen, hstays⟩ := hsame.stays b htype hopen
  exact hstays (h b ⟨hlt, htype⟩ hopen)

theorem dispatch {rest rest' : Bytes} {new : List ClientQuery} (h : s.OpenListed)
    (hspec : DispatchSpec s a rest s' rest' new) : s'.OpenListed := by
  rintro b ⟨hlt, htype⟩ hopen
  have hclient : (s'.clients b).type = (s.clients b).type ∧
      (s'.clients b).closing = (s.clients b).closing := by
    by_cases hb : b = a
    · rw [hb]
      exact ⟨hspec.type_eq, hspec.closing_eq⟩
    · rw [hspec.other b hb]
      exact ⟨rfl, rfl⟩
  rw [hspec.allocated_eq] at hlt
  rw [hclient.1] at htype
  rw [hclient.2] at hopen
  rw [hspec.head_eq]
  exact h b ⟨hlt, htype⟩ hopen

/-- A write that neither closes the client nor changes its type. -/
theorem update (h : s.OpenListed) {f : Client → Client}
    (htype : (f (s.clients a)).type = (s.clients a).type)
    (hclosing : (f (s.clients a)).closing = (s.clients a).closing) : (s.update a f).OpenListed := by
  have hsame : ∀ b, ((s.update a f).clients b).type = (s.clients b).type ∧
      ((s.update a f).clients b).closing = (s.clients b).closing := by
    intro b
    show (Function.update s.clients a _ b).type = _ ∧ (Function.update s.clients a _ b).closing = _
    by_cases hb : b = a
    · rw [hb, Function.update_self]
      exact ⟨htype, hclosing⟩
    · rw [Function.update_of_ne hb]
      exact ⟨rfl, rfl⟩
  rintro b ⟨hlt, hquery⟩ hopen
  rw [(hsame b).1] at hquery
  rw [(hsame b).2] at hopen
  exact h b ⟨hlt, hquery⟩ hopen

theorem resume (hv : ∀ n, v.uvQueueWorkOk n = true) (h : s.OpenListed) (as : List Nat) :
    (resumeLoop v as s).OpenListed := by
  induction as generalizing s with
  | nil => exact h
  | cons a as ih =>
    have htouch : (s.touch a).OpenListed := h
    unfold resumeLoop
    dsimp only
    split
    · have hwake := htouch.update (a := a)
        (f := fun c => { c with isPaused := false, reading := true }) rfl rfl
      obtain ⟨new, hspec⟩ := dispatchQueries_spec
        ((s.touch a).update a fun c => { c with isPaused := false, reading := true }) a hv
      have hdone := hwake.dispatch hspec
      split
      · exact hdone
      · exact ih hdone
    · exact ih htouch

theorem clientQuery (hv : ∀ n, v.uvQueueWorkOk n = true) (h : s.OpenListed) (chunk : Option Bytes) :
    (s.onClientQuery v a chunk).OpenListed := by
  cases chunk with
  | none => exact h.same (SameQueries.close s a)
  | some chunk =>
    cases chunk with
    | nil => exact h
    | cons byte chunk =>
      let t : EventLoop :=
        { s with received := Function.update s.received a (s.received a ++ byte :: chunk) }
      have ht : t.OpenListed := h
      have happend := ht.update (a := a) (f := fun c => { c with buffer := c.buffer ++ byte :: chunk })
        rfl rfl
      obtain ⟨new, hspec⟩ := dispatchQueries_spec
        (t.update a fun c => { c with buffer := c.buffer ++ byte :: chunk }) a hv
      exact happend.dispatch hspec

theorem queryCb (hv : ∀ n, v.uvQueueWorkOk n = true) (h : s.OpenListed) (query : ClientQuery)
    (ok : Bool) (response : Option Bytes) : (s.afterQueryCb v query ok response).OpenListed := by
  have htouch : (s.touch query.client).OpenListed := h
  have hanswer := htouch.same (SameQueries.answer _ v query.client ok response)
  let t : EventLoop := (s.touch query.client).answerQuery v query.client ok response
  let w : EventLoop := { t with activeQueriesCount := t.activeQueriesCount - 1 }
  have hw : w.OpenListed := hanswer
  have hresume : (w.resumeQueries v).OpenListed := by
    unfold resumeQueries
    split
    · exact hw.resume hv _
    · exact hw
  exact hresume

/-- A new client that is closed, or goes into the list. -/
theorem newClient (h : s.OpenListed) (type : ClientType) {t : EventLoop}
    (hother : ∀ b, b ≠ s.heap.allocated → t.clients b = (s.newClient type).clients b)
    (hallocated : t.heap.allocated = s.heap.allocated + 1)
    (hhead : ∀ b ∈ s.clientsHead .query, b ∈ t.clientsHead .query)
    (hself : t.IsQuery s.heap.allocated → (t.clients s.heap.allocated).closing = false →
      s.heap.allocated ∈ t.clientsHead .query) : t.OpenListed := by
  intro b hb hopen
  by_cases hba : b = s.heap.allocated
  · rw [hba] at hb hopen ⊢
    exact hself hb hopen
  · obtain ⟨hlt, htype⟩ := hb
    have hclient : t.clients b = s.clients b := (hother b hba).trans (Function.update_of_ne hba _ _)
    rw [hallocated] at hlt
    rw [hclient] at htype hopen
    exact hhead b (h b ⟨by omega, htype⟩ hopen)

/-- A new client that is closed at once. -/
theorem closeNew (h : s.OpenListed) (hlives : s.Lives []) (type : ClientType) :
    ((s.newClient type).closeAndFreeClient s.heap.allocated).OpenListed := by
  have hself : (s.newClient type).clients s.heap.allocated = Client.new type :=
    Function.update_self _ _ _
  have hopen : ((s.newClient type).clients s.heap.allocated).closing = false := by
    rw [hself]
    rfl
  rw [closeAndFreeClient_of_open (hlives.newClient type) (s.held_newClient type []) hopen]
  have hfresh : ∀ b ∈ s.clientsHead .query, b ≠ s.heap.allocated :=
    fun b hb => Nat.ne_of_lt (hlives.accounts.lt_allocated b (hlives.held_of_listed hb).mem_refs)
  refine h.newClient type (fun b hb => Function.update_of_ne hb _ _) rfl ?_ ?_
  · intro b hb
    dsimp only
    by_cases htype : .query = ((s.newClient type).clients s.heap.allocated).type
    · rw [← htype, Function.update_self]
      exact (List.mem_erase_of_ne (hfresh b hb)).mpr hb
    · rw [Function.update_of_ne htype]
      exact hb
  · intro _ hclosed
    dsimp only at hclosed
    rw [Function.update_self] at hclosed
    cases hclosed

theorem insertConnection (h : s.OpenListed) (hlives : s.Lives []) (accept : Accept) :
    (s.onInsertConnection v accept).OpenListed := by
  have hclient : (s.newClient .insert).clients s.heap.allocated = Client.new .insert :=
    Function.update_self _ _ _
  have hself : ((s.newClient .insert).clients s.heap.allocated).type = .insert := by
    rw [hclient]
    rfl
  have hnew : (s.newClient .insert).OpenListed := by
    refine h.newClient .insert (fun _ _ => rfl) rfl (fun _ hb => hb) ?_
    rintro ⟨-, htype⟩
    rw [hself] at htype
    cases htype
  cases accept with
  | error => exact h
  | refused => exact h.closeNew hlives .insert
  | accepted =>
    unfold onInsertConnection
    dsimp only
    split
    · exact hnew.same (SameQueries.redirect v hself)
    · have hadd := SameQueries.addInsert hself
      exact hnew.same (hadd.trans (SameQueries.update_insert (hadd.insert_type hself) rfl))

theorem readConnection (h : s.OpenListed) (hlives : s.Lives []) (accept : Accept) :
    (s.onReadConnection v accept).OpenListed := by
  cases accept with
  | error => exact h
  | refused => exact h.closeNew hlives .query
  | accepted =>
    unfold onReadConnection
    dsimp only
    split
    · exact h.closeNew hlives .query
    · let t : EventLoop := ((s.newClient .query).addClient s.heap.allocated .query).update
        s.heap.allocated fun c => { c with reading := true }
      have hhead : t.clientsHead .query = s.heap.allocated :: s.clientsHead .query := by
        show Function.update s.clientsHead .query (s.heap.allocated :: s.clientsHead .query) .query = _
        exact Function.update_self _ _ _
      show t.OpenListed
      refine h.newClient .query ?_ rfl ?_ ?_
      · exact fun b hb => (Function.update_of_ne hb _ _).trans (Function.update_of_ne hb _ _)
      · intro b hb
        rw [hhead]
        exact List.mem_cons_of_mem _ hb
      · intro _ _
        rw [hhead]
        exact List.mem_cons_self

end OpenListed

/-! ## Runs -/

/-- `uv_queue_work` takes all tasks of the callback. -/
def Event.Queues : Event → Prop
  | .read v _ _ => ∀ n, v.uvQueueWorkOk n = true
  | .queryDone v _ _ _ => ∀ n, v.uvQueueWorkOk n = true
  | _ => True

/-- The invariants of a run. -/
structure QueryInv (s : EventLoop) : Prop where
  lives : s.Lives []
  dispatches : s.Dispatches [] []
  openListed : s.OpenListed

theorem QueryInv.same {s s' : EventLoop} (h : s.QueryInv) (hsame : SameQueries s s')
    (hlives : s'.Lives []) : s'.QueryInv where
  lives := hlives
  dispatches := h.dispatches.same hsame fun b hb => (listed_of_lives h.lives b hb).1.2
  openListed := h.openListed.same hsame

/-- Each callback keeps the invariants. -/
theorem QueryInv.step {s s' : EventLoop} {e : Event} (h : s.QueryInv) (he : e.Queues)
    (hstep : s.step e = some s') : s'.QueryInv := by
  have hlives' : s'.Lives [] := h.lives.step hstep
  have hlisted := listed_of_lives h.lives
  cases step_cases hstep with
  -- the connections
  | insertConnection v accept =>
    exact ⟨hlives', h.dispatches.insertConnection h.lives accept,
      h.openListed.insertConnection h.lives accept⟩
  | readConnection v accept =>
    exact ⟨hlives', h.dispatches.readConnection h.lives accept,
      h.openListed.readConnection h.lives accept⟩
  -- a read goes to the handler of the client's type
  | clientRead v a chunk hhandle hopen hreading htype =>
    exact h.same (SameQueries.clientRead v htype chunk) hlives'
  | clientQuery v a chunk hhandle hopen hreading htype =>
    have ha : s.IsQuery a := ⟨h.lives.accounts.lt_allocated a
      (List.mem_append_right _ (List.mem_append_left _ hhandle)), htype⟩
    exact ⟨hlives', h.dispatches.clientQuery he hlisted ha hreading chunk,
      h.openListed.clientQuery he chunk⟩
  -- the timer looks at insert clients
  | statsTimer v =>
    refine h.same ?_ hlives'
    refine SameQueries.foldl (P := fun type => type = .insert) (fun s a ha => ?_) _ fun a ha => ?_
    · exact SameQueries.timerTurn v ha
    · exact (h.lives.listed .insert a ha).2.2
  -- the callbacks of the raft and of the writes touch no query
  | applied v i ok ctx =>
    refine h.same (SameQueries.trans ?_ (SameQueries.applyCb _ v ctx ok)) hlives'
    exact ⟨rfl, fun _ => rfl, fun _ _ => ⟨rfl, rfl, rfl⟩, fun _ hb => hb,
      fun _ _ hopen => ⟨hopen, id⟩, rfl, rfl, rfl, rfl⟩
  | written i ok wr =>
    refine h.same (SameQueries.trans ?_ (SameQueries.writeComplete _ wr ok)) hlives'
    exact ⟨rfl, fun _ => rfl, fun _ _ => ⟨rfl, rfl, rfl⟩, fun _ hb => hb,
      fun _ _ hopen => ⟨hopen, id⟩, rfl, rfl, rfl, rfl⟩
  -- a query that is done makes room for one that waits
  | queryDone v i ok response query hi =>
    have htaken : OpenListed { s with queries := s.queries.eraseIdx i } := h.openListed
    exact ⟨hlives', h.dispatches.queryCb he hi (h.lives.takeQuery hi) ok response,
      htaken.queryCb he query ok response⟩
  | closed a =>
    exact h.same ⟨rfl, fun _ => rfl, fun _ _ => ⟨rfl, rfl, rfl⟩, fun _ hb => hb,
      fun _ _ hopen => ⟨hopen, id⟩, rfl, rfl, rfl, rfl⟩ hlives'
  | shutdown => exact h.same (SameQueries.serverClose s) hlives'

theorem dispatches_init : init.Dispatches [] [] where
  count := rfl
  le := by decide
  served := fun a ha => absurd ha.1 (Nat.not_lt_zero a)
  none := fun a _ => ⟨rfl, rfl⟩
  reading := fun a ha => absurd ha.1 (Nat.not_lt_zero a)
  idle := fun a ha => absurd ha.1 (Nat.not_lt_zero a)
  full := fun a ha => by cases ha

/-- The requests of each query client have become tasks in their order, but for those in its buffer;
only an open client that waits at the limit, or one that was closed when it waited, has any there. -/
structure QueriesServed (s : EventLoop) : Prop where
  in_order : ∀ a, s.IsQuery a →
    streamRequests (s.received a) = s.dispatchedTo a ++ streamRequests (s.clients a).buffer
  all : ∀ a, s.IsQuery a → (s.clients a).isPaused = false →
    s.dispatchedTo a = streamRequests (s.received a)
  count : s.activeQueriesCount = s.queries.length
  le : s.activeQueriesCount ≤ globalMaxQueries
  idle : ∀ a, s.IsQuery a →
    (s.clients a).buffer.length < queryReqSize ∨ (s.clients a).isPaused = true
  full : ∀ a, s.IsQuery a → (s.clients a).closing = false → (s.clients a).isPaused = true →
    s.activeQueriesCount = globalMaxQueries

theorem QueryInv.queriesServed {s : EventLoop} (hinv : s.QueryInv) : s.QueriesServed := by
  obtain ⟨hlives, h, hopen⟩ := hinv
  have hin : ∀ a, s.IsQuery a →
      streamRequests (s.received a) = s.dispatchedTo a ++ streamRequests (s.clients a).buffer := by
    intro a ha
    obtain ⟨bytes, n, hreceived, hlength, hrequests⟩ := h.served a ha
    rw [hreceived, streamRequests_append hlength, hrequests]
  refine ⟨hin, ?_, h.count, h.le, ?_, ?_⟩
  · intro a ha hidle
    rw [hin a ha, streamRequests_of_short (h.idle a ha List.not_mem_nil hidle), List.append_nil]
  · intro a ha
    cases hpaused : (s.clients a).isPaused with
    | true => exact Or.inr rfl
    | false => exact Or.inl (h.idle a ha List.not_mem_nil hpaused)
  · exact fun a ha hclosing => h.full a (hopen a ha hclosing) List.not_mem_nil

/-- In every run in which `uv_queue_work` takes all tasks, the requests of the query clients become
tasks. -/
theorem queries_dispatched (es : List Event) (hes : ∀ e ∈ es, e.Queues) :
    Always EventLoop.step QueriesServed init es := by
  have hinit : init.QueryInv := by
    refine ⟨lives_init, dispatches_init, ?_⟩
    exact fun a ha => absurd ha.1 (Nat.not_lt_zero a)
  have hinv : Always EventLoop.step QueryInv init es :=
    always_of_eachStep hinit fun pre e post s hsplit _ s' h hstep =>
      h.step (hes e (by rw [hsplit]; simp)) hstep
  exact fun pre post s hsplit hs => (hinv pre post s hsplit hs).queriesServed

/-- A follower all of whose calls succeed. -/
def openView : LoopView where
  isLeader := fun _ => false
  raftApplyOk := fun _ => true
  uvWriteOk := fun _ => true
  uvQueueWorkOk := fun _ => true
  uvHrtime := fun _ => 0
  immutableCount := fun _ => 0
  leaderId := 0
  leaderAddr := none

/-- The first client sends one request more than the limit, and a part of another, and the second client
sends one. They wait until two tasks are done; then the rest of the last request comes. -/
def crowdedLoop : List Event :=
  [.readConnection openView .accepted, .readConnection openView .accepted,
    .read openView 0 (some (List.replicate (queryReqSize * 257 + 39) 0)),
    .read openView 1 (some (List.replicate queryReqSize 0)),
    .queryDone openView 0 true (some []), .queryDone openView 0 true (some []),
    .read openView 0 (some [0])]

/-- All but the last request have become tasks, and the limit is reached again. -/
theorem queries_dispatched_one :
    (∀ e ∈ crowdedLoop, e.Queues) ∧ Always EventLoop.step QueriesServed init crowdedLoop ∧
      ((run EventLoop.step init crowdedLoop).map fun s =>
        (s.dispatched.length, s.activeQueriesCount, (s.clients 0).isPaused, (s.clients 1).isPaused)) =
        some (258, globalMaxQueries, true, false) := by
  have hqueues : ∀ e ∈ crowdedLoop, e.Queues := by
    intro e he
    simp only [crowdedLoop, List.mem_cons, List.not_mem_nil, or_false] at he
    rcases he with rfl | rfl | rfl | rfl | rfl | rfl | rfl
    · trivial
    · trivial
    all_goals exact fun _ => rfl
  exact ⟨hqueues, queries_dispatched crowdedLoop hqueues, by decide +kernel⟩

/-- The write of an answer is refused. -/
def brokenView : LoopView := { openView with uvWriteOk := fun _ => false }

theorem streamRequests_replicate (n : Nat) :
    (streamRequests (List.replicate (queryReqSize * n) 0)).length = n := by
  induction n with
  | zero =>
    rw [streamRequests_of_short (by decide)]
    rfl
  | succ n ih =>
    have hlong : ¬ (List.replicate (queryReqSize * (n + 1)) (0 : UInt8)).length < queryReqSize := by
      rw [List.length_replicate, Nat.mul_succ]
      omega
    rw [streamRequests_of_long hlong, List.drop_replicate, List.length_cons]
    have hsub : queryReqSize * (n + 1) - queryReqSize = queryReqSize * n := by
      rw [Nat.mul_succ]
      omega
    rw [hsub, ih]

/-- Only the client 0 has queries and may be in the list. -/
structure OnlyClient (s : EventLoop) : Prop where
  lives : s.Lives []
  queries : ∀ query ∈ s.queries, query.client = 0
  head : ∀ a ∈ s.clientsHead .query, a = 0

theorem closing_close (s : EventLoop) (a : Nat) :
    ((s.closeAndFreeClient a).clients a).closing = true := by
  unfold closeAndFreeClient
  dsimp only
  split
  · rename_i hclosing
    exact hclosing
  · show (Function.update s.clients a _ a).closing = true
    rw [Function.update_self]

/-- An answer that cannot be written leaves the client closed. -/
theorem closing_answer (s : EventLoop) (a : Nat) :
    ((s.answerQuery brokenView a true (some [])).clients a).closing = true := by
  unfold answerQuery
  dsimp only
  split
  · exact closing_close _ a
  · rename_i hnot
    exact Bool.eq_true_of_not_eq_false fun hopen => hnot ⟨rfl, hopen⟩

/-- The next completion finds the client closed or closes it, and resumes nobody. -/
theorem OnlyClient.completion {s : EventLoop} (h : s.OnlyClient) {query : ClientQuery}
    {queries : List ClientQuery} (hqueries : s.queries = query :: queries) :
    ∃ s', s.step (.queryDone brokenView 0 true (some [])) = some s' ∧ s'.OnlyClient ∧
      s'.queries = queries ∧ s'.dispatched = s.dispatched ∧ s'.received = s.received ∧
        (s.IsQuery 0 → s'.IsQuery 0) := by
  have hi : s.queries[0]? = some query := by
    rw [hqueries]
    rfl
  have hclient : query.client = 0 := h.queries query (by rw [hqueries]; exact List.mem_cons_self)
  have hlives := h.lives.takeQuery hi
  let t : EventLoop := { s with queries := s.queries.eraseIdx 0 }
  have hleft : t.queries = queries := by
    show s.queries.eraseIdx 0 = queries
    rw [hqueries]
    rfl
  have ha : t.Held [query.client] query.client := Or.inl List.mem_cons_self
  -- the client is held by its query, so it is there
  have htouch : t.touch query.client = t := hlives.touch_eq ha
  let u : EventLoop := t.answerQuery brokenView query.client true (some [])
  have hu : u.Lives [query.client] := (hlives.answer ha true (some [])).lives
  have hsame : SameQueries t u := SameQueries.answer t brokenView query.client true (some [])
  -- the answer closes the client, which leaves the list
  have hempty : u.clientsHead .query = [] := by
    refine List.eq_nil_iff_forall_not_mem.mpr fun a hmem => ?_
    have hzero : a = query.client := (h.head a (hsame.head_sub a hmem)).trans hclient.symm
    have hopen := (hu.listed .query a hmem).2.1
    rw [hzero, closing_answer t query.client] at hopen
    cases hopen
  let w : EventLoop := { u with activeQueriesCount := u.activeQueriesCount - 1 }
  -- with an empty list nobody is resumed
  have hresume : w.resumeQueries brokenView = w := by
    have hloop : resumeLoop brokenView (w.clientsHead .query) w = w := by
      rw [show w.clientsHead .query = [] from hempty]
      rfl
    unfold resumeQueries
    rw [hloop, ite_self]
  have hcb : t.afterQueryCb brokenView query true (some []) = w.clientRelease query.client := by
    show ((EventLoop.resumeQueries _ brokenView).clientRelease query.client) = _
    rw [htouch]
    exact congrArg (fun s : EventLoop => s.clientRelease query.client) hresume
  refine ⟨w.clientRelease query.client, ?_, ⟨?_, ?_, ?_⟩, ?_, hsame.dispatched_eq, hsame.received_eq, ?_⟩
  · show s.queries[0]?.map _ = _
    rw [hi, Option.map_some]
    exact congrArg some hcb
  · rw [← hcb]
    exact (hlives.queryCb true (some [])).lives
  · intro q hq
    refine h.queries q ?_
    have hq : q ∈ u.queries := hq
    rw [hsame.queries_eq, hleft] at hq
    rw [hqueries]
    exact List.mem_cons_of_mem _ hq
  · intro a hmem
    have hmem : a ∈ u.clientsHead .query := hmem
    rw [hempty] at hmem
    cases hmem
  · exact hsame.queries_eq.trans hleft
  · rintro ⟨hlt, htype⟩
    exact ⟨hsame.allocated_eq.symm ▸ hlt, (hsame.type_eq 0).trans htype⟩

/-- The requests in the buffer of the client stay there. -/
theorem OnlyClient.drain {n : Nat} {s : EventLoop} (h : s.OnlyClient) (hn : s.queries.length = n) :
    ∃ s', run EventLoop.step s (List.replicate n (.queryDone brokenView 0 true (some []))) = some s' ∧
      s'.queries = [] ∧ s'.dispatched = s.dispatched ∧ s'.received = s.received ∧
        (s.IsQuery 0 → s'.IsQuery 0) := by
  induction n generalizing s with
  | zero => exact ⟨s, rfl, List.length_eq_zero_iff.mp hn, rfl, rfl, id⟩
  | succ n ih =>
    obtain ⟨query, queries, hqueries⟩ := List.exists_cons_of_length_eq_add_one hn
    obtain ⟨t, hstep, ht, hleft, hdispatched, hreceived, hquery⟩ := h.completion hqueries
    have hlength : t.queries.length = n := by
      rw [hqueries, List.length_cons] at hn
      rw [hleft]
      omega
    obtain ⟨s', hrun, hempty, hdispatched', hreceived', hquery'⟩ := ih ht hlength
    refine ⟨s', ?_, hempty, hdispatched'.trans hdispatched, hreceived'.trans hreceived, hquery' ∘ hquery⟩
    exact run_cons_eq_some.mpr ⟨t, hstep, hrun⟩

/-- The first client, behind its connection. -/
def connected : EventLoop := init.onReadConnection openView .accepted

/-- A first read makes tasks of this client only. -/
theorem connected_read {chunk : Bytes} (hchunk : chunk ≠ []) :
    ∃ s, connected.step (.read openView 0 (some chunk)) = some s ∧ s.OnlyClient ∧ s.IsQuery 0 ∧
      s.received 0 = chunk ∧ s.dispatched = s.queries ∧ s.QueryInv := by
  have hclient : connected.clients 0 = { Client.new .query with reading := true } := rfl
  have hinit : init.QueryInv :=
    ⟨lives_init, dispatches_init, fun a ha => absurd ha.1 (Nat.not_lt_zero a)⟩
  have hconnected : connected.QueryInv :=
    hinit.step (e := .readConnection openView .accepted) trivial rfl
  obtain ⟨byte, bytes, rfl⟩ := List.exists_cons_of_ne_nil hchunk
  have hstep : connected.step (.read openView 0 (some (byte :: bytes))) =
      some (connected.onClientQuery openView 0 (some (byte :: bytes))) := by
    unfold EventLoop.step
    dsimp only
    rw [if_pos ⟨by decide, by rw [hclient]; rfl, by rw [hclient]⟩, hclient]
    rfl
  have hinv := hconnected.step (e := .read openView 0 (some (byte :: bytes))) (fun _ => rfl) hstep
  let t : EventLoop :=
    { connected with
      received := Function.update connected.received 0 (connected.received 0 ++ byte :: bytes) }
  obtain ⟨new, hspec⟩ := dispatchQueries_spec
    (t.update 0 fun c => { c with buffer := c.buffer ++ byte :: bytes }) (v := openView) 0 fun _ => rfl
  let s : EventLoop := connected.onClientQuery openView 0 (some (byte :: bytes))
  have hqueries : s.queries = new := hspec.queries_eq
  have hdispatched : s.dispatched = new := hspec.dispatched_eq
  have hreceived : s.received 0 = byte :: bytes := by
    have hall : s.received = t.received := hspec.received_eq
    rw [hall]
    show Function.update connected.received 0 (connected.received 0 ++ byte :: bytes) 0 = _
    rw [Function.update_self]
    rfl
  have htype : (s.clients 0).type = .query := hspec.type_eq.trans rfl
  have hlt : 0 < s.heap.allocated := by
    rw [show s.heap.allocated = connected.heap.allocated from hspec.allocated_eq]
    decide
  refine ⟨s, hstep, ⟨hinv.lives, ?_, ?_⟩, ⟨hlt, htype⟩, hreceived, hdispatched.trans hqueries.symm, hinv⟩
  · intro query hquery
    rw [hqueries] at hquery
    exact hspec.of_client query hquery
  · intro a hmem
    rw [show s.clientsHead = connected.clientsHead from hspec.head_eq] at hmem
    exact List.mem_singleton.mp hmem

/-- The last request stays in the buffer of the client, which is closed when its first answer cannot be
written. -/
theorem not_queries_dispatched : ¬ ∀ es s, (∀ e ∈ es, e.Queues) →
    run EventLoop.step init es = some s → s.queries = [] →
      ∀ a, s.IsQuery a → s.dispatchedTo a = streamRequests (s.received a) := by
  intro hall
  have hchunk : List.replicate (queryReqSize * 257) (0 : UInt8) ≠ [] := by
    intro hnil
    have hlength := congrArg List.length hnil
    rw [List.length_replicate] at hlength
    cases hlength
  obtain ⟨s, hread, honly, hquery, hreceived, hdispatched, hinv⟩ := connected_read hchunk
  obtain ⟨t, hdrain, hempty, hdispatched', hreceived', hquery'⟩ := honly.drain rfl
  let es : List Event := .readConnection openView .accepted ::
    .read openView 0 (some (List.replicate (queryReqSize * 257) 0)) ::
      List.replicate s.queries.length (.queryDone brokenView 0 true (some []))
  have hqueues : ∀ e ∈ es, e.Queues := by
    intro e he
    rcases List.mem_cons.mp he with rfl | he
    · trivial
    · rcases List.mem_cons.mp he with rfl | he
      · exact fun _ => rfl
      · rw [(List.mem_replicate.mp he).2]
        exact fun _ => rfl
  have hrun : run EventLoop.step init es = some t :=
    run_cons_eq_some.mpr ⟨connected, rfl, run_cons_eq_some.mpr ⟨s, hread, hdrain⟩⟩
  have hlost := congrArg List.length (hall es t hqueues hrun hempty 0 (hquery' hquery))
  rw [hreceived', hreceived, streamRequests_replicate] at hlost
  have hfew : (t.dispatchedTo 0).length ≤ t.dispatched.length := by
    unfold dispatchedTo
    rw [List.length_map]
    exact List.length_filter_le _ _
  rw [hdispatched', hdispatched] at hfew
  have hcount := hinv.dispatches.count
  have hle := hinv.dispatches.le
  unfold globalMaxQueries at hle
  omega

end RaftLsmt.Server.EventLoop
