import RaftLsmt.Server.ClientLifetime
import RaftLsmt.Server.ClientLists

/-!
# The list calls of the callbacks

What the callbacks of the event loop do to the two lists of clients: a connection callback allocates a
client and adds it or not, every other function closes some of the clients that it works for, also ones
that are closing already. So a run of callbacks is a run of list calls, and the pointers lead through
the lists of the event loop (`exists_calls`).

`clientLists_wellFormed` is the result: the pointers are those of two well-formed lists in every run,
and the loops of `ServerClose` end.
-/

set_option autoImplicit false

namespace RaftLsmt.Server

open RaftLsmt.Lib.DoublyLinked
open RaftLsmt.Lib.StepMachine
open RaftLsmt.Lsmt

/-- What the functions of the lists read of a client. -/
def Client.listed (c : Client) : ListedClient := ⟨c.type, c.closing⟩

namespace EventLoop

/-- The clients of the event loop and their lists. -/
def view (s : EventLoop) : ListView where
  allocated := s.heap.allocated
  client := Client.listed ∘ s.clients
  heads := s.clientsHead

/-- The lists change by closing some of the clients `as` only. -/
def Closes (as : List Nat) (s t : EventLoop) : Prop :=
  ∃ cs : List Nat, (∀ c ∈ cs, c ∈ as) ∧ t.view = cs.foldl ListView.close s.view

variable {s t u : EventLoop} {v : LoopView} {as : List Nat} {a : Nat}

theorem closes_of_view_eq (h : t.view = s.view) : Closes as s t :=
  ⟨[], fun _ hc => absurd hc List.not_mem_nil, h⟩

theorem Closes.refl (s : EventLoop) : Closes as s s := closes_of_view_eq rfl

theorem Closes.trans (h : Closes as s t) (h' : Closes as t u) : Closes as s u := by
  obtain ⟨cs, hcs, hview⟩ := h
  obtain ⟨cs', hcs', hview'⟩ := h'
  refine ⟨cs ++ cs', ?_, ?_⟩
  · intro c hc
    rcases List.mem_append.mp hc with hc | hc
    · exact hcs c hc
    · exact hcs' c hc
  · rw [hview', hview, List.foldl_append]

/-! ## The functions of the event loop -/

/-- A write to a client that neither closes it nor changes its type. -/
theorem view_update {f : Client → Client} (h : (f (s.clients a)).listed = (s.clients a).listed) :
    (s.update a f).view = s.view := by
  have hclient : Client.listed ∘ Function.update s.clients a (f (s.clients a)) =
      Client.listed ∘ s.clients := by
    rw [Function.comp_update, h]
    exact Function.update_eq_self a _
  show ListView.mk s.heap.allocated (Client.listed ∘ Function.update s.clients a _) s.clientsHead = _
  rw [hclient]
  rfl

theorem Closes.update {f : Client → Client} (h : (f (s.clients a)).listed = (s.clients a).listed) :
    Closes as s (s.update a f) :=
  closes_of_view_eq (view_update h)

theorem view_closeAndFreeClient (s : EventLoop) (a : Nat) :
    (s.closeAndFreeClient a).view = s.view.close a := by
  unfold closeAndFreeClient ListView.close
  by_cases hclosing : (s.clients a).closing = true
  · have hview : (s.view.client a).closing = true := hclosing
    have htouch : ((s.touch a).clients a).closing = true := hclosing
    simp only [htouch, hview, if_true]
    rfl
  · have hview : ¬ (s.view.client a).closing = true := hclosing
    have htouch : ¬ ((s.touch a).clients a).closing = true := hclosing
    dsimp only
    rw [if_neg htouch, if_neg hview]
    have htype : (Function.update s.clients a { s.clients a with closing := true } a).type =
        (s.clients a).type := by
      rw [Function.update_self]
    unfold removeClient EventLoop.update EventLoop.touch view
    dsimp only
    rw [htype, Function.comp_update]
    rfl

/-- Closing a client, also one that is closing. -/
theorem Closes.close (ha : a ∈ as) : Closes as s (s.closeAndFreeClient a) := by
  refine ⟨[a], ?_, view_closeAndFreeClient s a⟩
  intro c hc
  rw [List.mem_singleton.mp hc]
  exact ha

theorem Closes.uvWrite {wr : AckWrite} (ha : wr.client ∈ as) : Closes as s (s.uvWrite v wr) := by
  unfold EventLoop.uvWrite
  dsimp only
  split
  · exact closes_of_view_eq rfl
  · exact (closes_of_view_eq rfl).trans (Closes.close ha)

theorem Closes.redirect (ha : a ∈ as) : Closes as s (s.redirectToLeaderAndClose v a) := by
  have hstop : Closes as s (s.update a fun c => { c with reading := false }) := Closes.update rfl
  exact hstop.trans ((closes_of_view_eq rfl).trans (Closes.uvWrite ha))

theorem Closes.raftApply {ctx : ApplyCtx} (ha : ctx.client ∈ as) :
    Closes as s (s.raftApply v ctx) := by
  unfold EventLoop.raftApply
  dsimp only
  split
  · exact closes_of_view_eq rfl
  · exact (closes_of_view_eq rfl).trans (Closes.close ha)

theorem Closes.flush (ha : a ∈ as) : Closes as s (s.batchBufferFlush v a) := by
  unfold batchBufferFlush
  dsimp only
  split
  · exact closes_of_view_eq rfl
  · have hretain : Closes as s ((s.touch a).clientRetain a) := closes_of_view_eq rfl
    have happly : Closes as ((s.touch a).clientRetain a) (((s.touch a).clientRetain a).raftApply v
        ⟨a, (s.clients a).batchedReqCount, alignedEntry (s.clients a).batchBuffer⟩) :=
      Closes.raftApply ha
    exact hretain.trans (happly.trans (Closes.update rfl))

theorem Closes.add (ha : a ∈ as) (msg : Bytes) : Closes as s (s.addToBatch v a msg) := by
  unfold addToBatch
  dsimp only
  split
  · exact (Closes.update rfl).trans (Closes.flush ha)
  · exact Closes.update rfl

theorem Closes.processLoop (ha : a ∈ as) (rest : Bytes) :
    Closes as s (processLoop v a s rest).1 := by
  fun_induction EventLoop.processLoop v a s rest with
  | case1 s rest hshort => exact Closes.refl s
  | case2 s rest hlong hsmall => exact Closes.close ha
  | case3 s rest hlong hsize hpart => exact Closes.refl s
  | case4 s rest hlong hsize hfull hfollower => exact Closes.redirect ha
  | case5 s rest hlong hsize hfull hleader hroom ih => exact (Closes.add ha _).trans ih
  | case6 s rest hlong hsize hfull hleader hroom => exact Closes.close ha

theorem Closes.process (ha : a ∈ as) : Closes as s (s.processInsertBuffer v a) := by
  unfold processInsertBuffer
  dsimp only
  split
  · split
    · exact closes_of_view_eq rfl
    · exact (closes_of_view_eq rfl).trans (Closes.update rfl)
  · have hloop := Closes.processLoop (v := v) (s := s.touch a) ha ((s.touch a).clients a).buffer
    have htouch : Closes as s (s.touch a) := closes_of_view_eq rfl
    split
    · rename_i t heq
      rw [heq] at hloop
      exact htouch.trans hloop
    · rename_i t rest heq
      rw [heq] at hloop
      have hset : Closes as t (t.update a fun c => { c with buffer := rest }) := Closes.update rfl
      split
      · exact htouch.trans ((hloop.trans hset).trans (Closes.flush ha))
      · exact htouch.trans (hloop.trans hset)

theorem Closes.clientRead (ha : a ∈ as) (chunk : Option Bytes) :
    Closes as s (s.onClientRead v a chunk) := by
  cases chunk with
  | none =>
    unfold onClientRead
    dsimp only
    have htouch : Closes as s (s.touch a) := closes_of_view_eq rfl
    split
    · exact htouch.trans ((Closes.process ha).trans ((Closes.flush ha).trans (Closes.close ha)))
    · exact htouch.trans ((Closes.flush ha).trans (Closes.close ha))
  | some chunk =>
    cases chunk with
    | nil => exact Closes.refl s
    | cons b chunk =>
      unfold onClientRead
      dsimp only
      split
      · exact (Closes.update rfl).trans (Closes.close ha)
      · exact (Closes.update rfl).trans (Closes.process ha)

theorem Closes.timerTurn (ha : a ∈ as) : Closes as s (statsTimerTurn v s a) := by
  unfold statsTimerTurn
  dsimp only
  split
  · exact (Closes.flush ha).trans ((Closes.update rfl).trans (Closes.process ha))
  · exact Closes.flush ha

/-- A loop over clients. -/
theorem Closes.foldl {f : EventLoop → Nat → EventLoop}
    (hf : ∀ (s : EventLoop) a, a ∈ as → Closes as s (f s a)) {bs : List Nat} (hbs : ∀ b ∈ bs, b ∈ as) :
    Closes as s (bs.foldl f s) := by
  induction bs generalizing s with
  | nil => exact Closes.refl s
  | cons b bs ih =>
    have hturn := hf s b (hbs b List.mem_cons_self)
    exact hturn.trans (ih fun c hc => hbs c (List.mem_cons_of_mem b hc))

theorem Closes.retain_uvWrite (ha : a ∈ as) (buf : Bytes) (cb : WriteCb) :
    Closes as s ((s.clientRetain a).uvWrite v ⟨a, buf, cb⟩) := by
  have hretain : Closes as s (s.clientRetain a) := closes_of_view_eq rfl
  exact hretain.trans (Closes.uvWrite ha)

theorem Closes.applyCb {ctx : ApplyCtx} (ha : ctx.client ∈ as) (ok : Bool) :
    Closes as s (s.serverApplyCb v ctx ok) := by
  have htouch : Closes as s (s.touch ctx.client) := closes_of_view_eq rfl
  unfold serverApplyCb
  dsimp only
  split
  · exact htouch.trans ((Closes.retain_uvWrite ha _ _).trans (closes_of_view_eq rfl))
  · exact closes_of_view_eq rfl

/-! ## The query port -/

theorem Closes.queueWork {query : ClientQuery} : Closes as s (s.uvQueueWork v query) := by
  unfold uvQueueWork
  dsimp only
  split
  · exact closes_of_view_eq rfl
  · exact closes_of_view_eq rfl

/-- Dispatching closes nobody. -/
theorem Closes.dispatchLoop (rest : Bytes) : Closes as s (dispatchLoop v a s rest).1 := by
  fun_induction EventLoop.dispatchLoop v a s rest with
  | case1 s rest hshort => exact Closes.refl s
  | case2 s rest hlong hfull hpaused => exact Closes.refl s
  | case3 s rest hlong hfull hpaused => exact Closes.update rfl
  | case4 s rest hlong hroom retained counted ih =>
    have hcounted : Closes as s counted := closes_of_view_eq rfl
    exact hcounted.trans (Closes.queueWork.trans ih)

theorem Closes.dispatch : Closes as s (s.dispatchQueries v a) := by
  have htouch : Closes as s (s.touch a) := closes_of_view_eq rfl
  unfold dispatchQueries
  dsimp only
  exact htouch.trans ((Closes.dispatchLoop _).trans (Closes.update rfl))

theorem Closes.clientQuery (ha : a ∈ as) (chunk : Option Bytes) :
    Closes as s (s.onClientQuery v a chunk) := by
  cases chunk with
  | none => exact Closes.close ha
  | some chunk =>
    cases chunk with
    | nil => exact Closes.refl s
    | cons b chunk =>
      let t : EventLoop :=
        { s with received := Function.update s.received a (s.received a ++ b :: chunk) }
      have ht : Closes as s t := closes_of_view_eq rfl
      have happend : Closes as t (t.update a fun c => { c with buffer := c.buffer ++ b :: chunk }) :=
        Closes.update rfl
      exact ht.trans (happend.trans Closes.dispatch)

theorem Closes.resume (bs : List Nat) : Closes as s (resumeLoop v bs s) := by
  induction bs generalizing s with
  | nil => exact Closes.refl s
  | cons b bs ih =>
    have htouch : Closes as s (s.touch b) := closes_of_view_eq rfl
    unfold resumeLoop
    dsimp only
    split
    · split
      · exact htouch.trans ((Closes.update rfl).trans Closes.dispatch)
      · exact htouch.trans (((Closes.update rfl).trans Closes.dispatch).trans ih)
    · exact htouch.trans ih

theorem Closes.answer (ha : a ∈ as) (ok : Bool) (response : Option Bytes) :
    Closes as s (s.answerQuery v a ok response) := by
  unfold answerQuery
  split
  · split
    · exact Closes.retain_uvWrite ha _ _
    · exact Closes.refl s
  · exact Closes.refl s

theorem Closes.resumeQueries : Closes as s (s.resumeQueries v) := by
  unfold EventLoop.resumeQueries
  split
  · exact Closes.resume _
  · exact Closes.refl s

theorem Closes.queryCb {query : ClientQuery} (ha : query.client ∈ as) (ok : Bool)
    (response : Option Bytes) : Closes as s (s.afterQueryCb v query ok response) := by
  let t : EventLoop := (s.touch query.client).answerQuery v query.client ok response
  let counted : EventLoop := { t with activeQueriesCount := t.activeQueriesCount - 1 }
  have htouch : Closes as s (s.touch query.client) := closes_of_view_eq rfl
  have hanswer : Closes as s t := htouch.trans (Closes.answer ha ok response)
  have hcounted : Closes as s counted := hanswer.trans (closes_of_view_eq rfl)
  have hresumed : Closes as s (counted.resumeQueries v) := hcounted.trans Closes.resumeQueries
  exact hresumed.trans (closes_of_view_eq rfl)

theorem Closes.writeComplete {wr : AckWrite} (ha : wr.client ∈ as) (ok : Bool) :
    Closes as s (s.onWriteComplete wr ok) := by
  unfold onWriteComplete
  dsimp only
  split
  · exact (Closes.close ha).trans (closes_of_view_eq rfl)
  · exact closes_of_view_eq rfl

/-- The loops of `ServerClose` close the clients of the two lists. -/
theorem Closes.serverClose :
    Closes (s.clientsHead .insert ++ s.clientsHead .query) s s.serverClose := by
  have hinserts : Closes (s.clientsHead .insert ++ s.clientsHead .query) s
      ((s.clientsHead .insert).foldl closeAndFreeClient s) :=
    Closes.foldl (fun _ _ ha => Closes.close ha) fun _ hb => List.mem_append_left _ hb
  refine hinserts.trans (Closes.foldl (fun _ _ ha => Closes.close ha) ?_)
  intro b hb
  obtain ⟨cs, -, hview⟩ := hinserts
  have hb : b ∈ (cs.foldl ListView.close s.view).heads .query := by
    rw [← hview]
    exact hb
  exact List.mem_append_right _ (ListView.mem_of_mem_closes hb)

/-! ## Connections -/

theorem view_newClient (s : EventLoop) (type : ClientType) :
    (s.newClient type).view = s.view.calloc type := by
  show ListView.mk (s.heap.allocated + 1)
    (Client.listed ∘ Function.update s.clients s.heap.allocated (Client.new type)) s.clientsHead = _
  rw [Function.comp_update]
  rfl

theorem view_addClient (s : EventLoop) (a : Nat) (type : ClientType) :
    (s.addClient a type).view = s.view.add a type := by
  show ListView.mk s.heap.allocated
    (Client.listed ∘ Function.update s.clients a { s.clients a with type := type }) _ = _
  rw [Function.comp_update]
  rfl

/-! ## A callback is a sequence of calls -/

variable {p q : ClientLinks}

/-- Calls that lead from one set of pointers to another which represents the lists of `s`. -/
def Calls (p : ClientLinks) (s : EventLoop) : Prop :=
  ∃ calls q, run ClientLinks.step p calls = some q ∧ q.Represents s.view

/-- Closing clients that are allocated. -/
theorem calls_of_closes (hp : p.Represents s.view) (h : Closes as s t)
    (has : ∀ a ∈ as, a < s.heap.allocated) : Calls p t := by
  obtain ⟨cs, hcs, hview⟩ := h
  have hlt : ∀ c ∈ cs, c < s.view.allocated := fun c hc => has c (hcs c hc)
  unfold Calls
  rw [hview]
  generalize s.view = v at hp hlt
  clear hview hcs has
  induction cs generalizing p v with
  | nil => exact ⟨[], p, rfl, hp⟩
  | cons c cs ih =>
    have hc := hlt c List.mem_cons_self
    rw [hp.allocated_eq] at hc
    obtain ⟨m, hm, hrepresents⟩ := hp.close hc
    have hallocated : (v.close c).allocated = v.allocated := by
      unfold ListView.close
      split <;> rfl
    obtain ⟨calls, q, hq, hend⟩ := ih _ hrepresents fun b hb =>
      hallocated ▸ hlt b (List.mem_cons_of_mem c hb)
    exact ⟨.closeAndFreeClient c :: calls, q, run_cons_eq_some.mpr ⟨m, hm, hq⟩, hend⟩

theorem calls_of_view_eq (hp : p.Represents s.view) (h : t.view = s.view) : Calls p t :=
  ⟨[], p, rfl, h ▸ hp⟩

/-- A new client that is not added: it may be closed. -/
theorem calls_of_newClient (hp : p.Represents s.view) {type : ClientType}
    (h : Closes [s.heap.allocated] (s.newClient type) t) : Calls p t := by
  have hnew : (p.calloc type).Represents (s.newClient type).view := by
    rw [view_newClient]
    exact hp.calloc type
  obtain ⟨calls, q, hq, hend⟩ := calls_of_closes hnew h fun a ha => by
    rw [List.mem_singleton.mp ha]
    exact Nat.lt_succ_self _
  exact ⟨.calloc type :: calls, q, run_cons_eq_some.mpr ⟨_, rfl, hq⟩, hend⟩

/-- A new client that is added. -/
theorem calls_of_connect (hp : p.Represents s.view) (type : ClientType) :
    Calls p (((s.newClient type).addClient s.heap.allocated type).update s.heap.allocated
      fun c => { c with reading := true }) := by
  have hnew := hp.calloc type
  have hallocated : s.heap.allocated = p.allocated := hp.allocated_eq
  have hfresh : p.allocated ∉ (p.calloc type).added := fun hmem =>
    Nat.lt_irrefl _ (hp.added_lt _ hmem)
  have hlt : p.allocated < (p.calloc type).allocated := Nat.lt_succ_self _
  have hopen : ((s.view.calloc type).client p.allocated).closing = false := by
    show (Function.update s.view.client s.heap.allocated _ p.allocated).closing = false
    rw [hallocated, Function.update_self]
  obtain ⟨q, hq, hadd⟩ := hnew.add hfresh hlt hopen type
  refine ⟨[.calloc type, .addClient p.allocated type], q,
    run_cons_eq_some.mpr ⟨_, rfl, run_cons_eq_some.mpr ⟨q, ?_, rfl⟩⟩, ?_⟩
  · have hcontent : contentAt (p.calloc type).nodes p.allocated =
        some ((s.view.calloc type).client p.allocated) := (hnew.content _).trans (if_pos hlt)
    have hguard : p.allocated ∉ (p.calloc type).added ∧
        (contentAt (p.calloc type).nodes p.allocated).map ListedClient.closing = some false := by
      rw [hcontent, Option.map_some, hopen]
      exact ⟨hfresh, rfl⟩
    exact (if_pos hguard).trans hq
  · rw [view_update rfl, view_addClient, view_newClient, hallocated]
    exact hadd

theorem calls_of_insertConnection (hp : p.Represents s.view) (accept : Accept) :
    Calls p (s.onInsertConnection v accept) := by
  cases accept with
  | error => exact calls_of_view_eq hp rfl
  | refused => exact calls_of_newClient hp (Closes.close List.mem_cons_self)
  | accepted =>
    unfold onInsertConnection
    dsimp only
    split
    · exact calls_of_newClient hp (Closes.redirect List.mem_cons_self)
    · exact calls_of_connect hp .insert

theorem calls_of_readConnection (hp : p.Represents s.view) (accept : Accept) :
    Calls p (s.onReadConnection v accept) := by
  cases accept with
  | error => exact calls_of_view_eq hp rfl
  | refused => exact calls_of_newClient hp (Closes.close List.mem_cons_self)
  | accepted =>
    unfold onReadConnection
    dsimp only
    split
    · exact calls_of_newClient hp (Closes.close List.mem_cons_self)
    · exact calls_of_connect hp .query

/-- Each callback is a sequence of calls. -/
theorem calls_of_step {e : Event} (hp : p.Represents s.view) (hlives : s.Lives [])
    (hstep : s.step e = some t) : Calls p t := by
  have hrefs : ∀ a ∈ s.refs, a < s.heap.allocated := fun a ha => hlives.accounts.lt_allocated a ha
  have hsingle : ∀ b ∈ s.refs, ∀ a ∈ [b], a < s.heap.allocated := by
    intro b hb a ha
    rw [List.mem_singleton.mp ha]
    exact hrefs b hb
  have hlisted : ∀ type, ∀ a ∈ s.clientsHead type, a < s.heap.allocated := fun type a ha =>
    hrefs a (List.mem_append_left _ (hlives.listed type a ha).1)
  cases step_cases hstep with
  | insertConnection v accept => exact calls_of_insertConnection hp accept
  | readConnection v accept => exact calls_of_readConnection hp accept
  | clientRead v a chunk hhandle =>
    have ha := hsingle a (List.mem_append_left _ hhandle)
    exact calls_of_closes hp (Closes.clientRead List.mem_cons_self chunk) ha
  | clientQuery v a chunk hhandle =>
    have ha := hsingle a (List.mem_append_left _ hhandle)
    exact calls_of_closes hp (Closes.clientQuery List.mem_cons_self chunk) ha
  | statsTimer v =>
    exact calls_of_closes hp (Closes.foldl (fun s a ha => Closes.timerTurn ha) fun _ hb => hb)
      (hlisted .insert)
  -- what a completion takes off its list keeps a reference to the client until then
  | applied v i ok ctx hctx =>
    have hmem : ctx.client ∈ s.refs := List.mem_append_right _ (List.mem_append_left _
      (List.mem_append_left _ (List.mem_map_of_mem (List.mem_of_getElem? hctx))))
    have htaken : Closes [ctx.client] s { s with applies := s.applies.eraseIdx i } :=
      closes_of_view_eq rfl
    exact calls_of_closes hp (htaken.trans (Closes.applyCb List.mem_cons_self ok)) (hsingle _ hmem)
  | written i ok wr hwr =>
    have hmem : wr.client ∈ s.refs := List.mem_append_right _ (List.mem_append_left _
      (List.mem_append_right _ (List.mem_map_of_mem (List.mem_of_getElem? hwr))))
    have htaken : Closes [wr.client] s { s with writes := s.writes.eraseIdx i } :=
      closes_of_view_eq rfl
    exact calls_of_closes hp (htaken.trans (Closes.writeComplete List.mem_cons_self ok)) (hsingle _ hmem)
  | queryDone v i ok response query hquery =>
    have hmem : query.client ∈ s.refs := List.mem_append_right _ (List.mem_append_right _
      (List.mem_map_of_mem (List.mem_of_getElem? hquery)))
    have htaken : Closes [query.client] s { s with queries := s.queries.eraseIdx i } :=
      closes_of_view_eq rfl
    exact calls_of_closes hp (htaken.trans (Closes.queryCb List.mem_cons_self ok response))
      (hsingle _ hmem)
  | closed a => exact calls_of_view_eq hp rfl
  | shutdown =>
    exact calls_of_closes hp Closes.serverClose fun a ha =>
      (List.mem_append.mp ha).elim (hlisted .insert a) (hlisted .query a)

/-- In every run of callbacks the pointers lead through the lists of the event loop. -/
theorem exists_calls {es : List Event} (h : run EventLoop.step init es = some s) :
    ∃ calls p, run ClientLinks.step .init calls = some p ∧ p.Represents s.view := by
  have hstep : ∀ (s : EventLoop) (e : Event) (t : EventLoop), True →
      (s.Lives [] ∧ Calls .init s) → s.step e = some t → t.Lives [] ∧ Calls .init t := by
    rintro s e t - ⟨hlives, calls, p, hp, hrepresents⟩ he
    refine ⟨hlives.step he, ?_⟩
    obtain ⟨calls', q, hq, hend⟩ := calls_of_step hrepresents hlives he
    exact ⟨calls ++ calls', q, run_append_eq_some.mpr ⟨p, hp, hq⟩, hend⟩
  have hinit : Calls .init init := ⟨[], .init, rfl, ClientLinks.represents_init _⟩
  exact (run_invariant hstep (fun _ _ => trivial) ⟨lives_init, hinit⟩ h).2

end EventLoop

/-! ## The lists in every run -/

namespace ClientLinks

/-- The pointers of the list lead, forwards and backwards, through the open clients of the type that
were added, each once. -/
def WellFormed (s : ClientLinks) (type : ClientType) : Prop :=
  ∃ cs, Linked s.nodes (s.heads type) cs ∧ cs.Nodup ∧
    ∀ c, c ∈ cs ↔ c ∈ s.added ∧ contentAt s.nodes c = some ⟨type, false⟩

variable {s : ClientLinks} {v : ListView}

theorem Represents.wellFormed (h : s.Represents v) (type : ClientType) : s.WellFormed type := by
  refine ⟨v.heads type, h.linked type, h.nodup type, ?_⟩
  intro c
  rw [h.mem_iff type c, h.content c]
  constructor
  · rintro ⟨hadded, hclient⟩
    rw [if_pos (h.added_lt c hadded), hclient]
    exact ⟨hadded, rfl⟩
  · rintro ⟨hadded, hclient⟩
    rw [if_pos (h.added_lt c hadded)] at hclient
    exact ⟨hadded, Option.some.inj hclient⟩

/-- No call follows a pointer to nothing. -/
theorem Represents.isSome (h : s.Represents v) (c : Nat) :
    (c < s.allocated → (s.closeAndFreeClient c).isSome) ∧
    ∀ type, c ∉ s.added → (contentAt s.nodes c).map ListedClient.closing = some false →
      (s.addClient c type).isSome := by
  constructor
  · intro hc
    obtain ⟨t, ht, -⟩ := h.close hc
    rw [ht]
    rfl
  · intro type hnew hopen
    rw [h.content c] at hopen
    split at hopen
    · rename_i hc
      obtain ⟨t, ht, -⟩ := h.add hnew hc (Option.some.inj hopen) type
      rw [ht]
      rfl
    · cases hopen

/-- In every run of the calls of the callbacks, both lists are well formed and have the open clients of
their type that were added, each once; any client may be closed, also twice and also one that was never
added; and the loops of `ServerClose` end with both lists empty. The callbacks of the event loop make
such calls, and the pointers lead through its lists. -/
theorem clientLists_wellFormed :
    (∀ calls s, run step init calls = some s →
      (∀ type, s.WellFormed type) ∧
      (∀ c, (c < s.allocated → (s.closeAndFreeClient c).isSome) ∧
        ∀ type, c ∉ s.added → (contentAt s.nodes c).map ListedClient.closing = some false →
          (s.addClient c type).isSome) ∧
      ∃ inserts queries t, s.serverClose inserts queries = some t ∧ ∀ type, t.heads type = none) ∧
    ∀ es s, run EventLoop.step .init es = some s →
      ∃ calls p, run step init calls = some p ∧
        (∀ type, Linked p.nodes (p.heads type) (s.clientsHead type)) ∧
        ∀ c, contentAt p.nodes c = if c < p.allocated then some (s.clients c).listed else none := by
  constructor
  · intro calls s h
    obtain ⟨v, hv⟩ := exists_represents h
    exact ⟨hv.wellFormed, hv.isSome, hv.exists_serverClose⟩
  · intro es s h
    obtain ⟨calls, p, hp, hrepresents⟩ := EventLoop.exists_calls h
    exact ⟨calls, p, hp, hrepresents.linked, hrepresents.content⟩

/-- Two insert clients are added, a third one is refused; the first one is closed twice. -/
theorem clientLists_wellFormed_refused :
    ∃ s, run step init [.calloc .insert, .addClient 0 .insert, .calloc .insert, .addClient 1 .insert,
        .calloc .insert, .closeAndFreeClient 2, .closeAndFreeClient 0, .closeAndFreeClient 0] = some s ∧
      s.heads .insert = some 1 ∧ s.WellFormed .insert ∧
      ∃ inserts queries t, s.serverClose inserts queries = some t ∧ ∀ type, t.heads type = none := by
  obtain ⟨s, hs, hhead⟩ : ∃ s, run step init [.calloc .insert, .addClient 0 .insert, .calloc .insert,
      .addClient 1 .insert, .calloc .insert, .closeAndFreeClient 2, .closeAndFreeClient 0,
      .closeAndFreeClient 0] = some s ∧ s.heads .insert = some 1 :=
    ⟨_, rfl, rfl⟩
  obtain ⟨hwell, -, hclose⟩ := clientLists_wellFormed.1 _ s hs
  exact ⟨s, hs, hhead, hwell .insert, hclose⟩

end ClientLinks

end RaftLsmt.Server
