import RaftLsmt.Lsmt.StoredRecords
import RaftLsmt.Server.InsertAcks
import RaftLsmt.Server.PoisonedLog

/-!
# Acknowledged records and the store

`serverApplyCb` acknowledges every message of an entry when the status of the entry is 0. `FsmApply`
returns 0 when the entry could be taken apart; that `lsmt_insert` has refused a record is only logged.

`Node` is the process of a server: the store with its threads, the insert connections, and the event
loop, which may be inside a call of `FsmApply`. The raft library calls `FsmApply` for the entries of
this server's requests and for those of other servers, and reports status 0 for a request only when
`FsmApply` has returned 0 for its entry. `acks_stored` says that acknowledged records were stored, in
every run in which no record of an entry that is applied for a request is refused or dropped.
-/

set_option autoImplicit false

namespace RaftLsmt.Server

open RaftLsmt.Lib.StepMachine
open RaftLsmt.Lsmt

/-- The call of `FsmApply` in progress: the request it applies when this server has made one for the
entry (the connection and the number of its `raft_apply`), the messages that have been handed to
`lsmt_insert`, and the rest of the buffer. -/
structure FsmCall where
  request : Option (Nat × Nat)
  entry : Bytes
  applied : List Bytes
  rest : Bytes

/-- A call of `FsmApply` that has returned, with the store at its return. -/
structure FsmReturn where
  request : Option (Nat × Nat)
  entry : Bytes
  status : FsmStatus
  store : World

/-- The process of a server. The last two fields are history: the calls of `FsmApply` that have
returned, and the requests for which `serverApplyCb` has sent acknowledgements. -/
structure Node where
  store : World
  clients : List InsertClient
  fsm : Option FsmCall
  returned : List FsmReturn
  acked : List (Nat × Nat)

/-- What can happen next: a connection to the insert port, a callback of a connection, the start of
`FsmApply`, the next turn of its loop, a step of another thread. -/
inductive NodeEvent where
  | connection (v : ServerView)
  | callback (k : Nat) (e : ClientEvent)
  | fsmApply (request : Option (Nat × Nat)) (entry : Bytes)
  | fsmTurn
  | thread (a : Action)

namespace Node

/-- An empty store and no connection. -/
def init : Node := ⟨World.init lsmtInit, [], none, [], []⟩

/-- A request of a connection. -/
def request (n : Node) (id : Nat × Nat) : Option ApplyReq :=
  n.clients[id.1]?.bind fun c => c.applies[id.2]?

/-- `FsmApply` has returned 0 for the entry of the request. -/
def appliedOk (n : Node) (id : Nat × Nat) : Bool :=
  n.returned.any fun ret => ret.request = some id ∧ ret.status = .ok

/-- A callback of the `k`-th connection. -/
def callback (n : Node) (k : Nat) (e : ClientEvent) : Option Node :=
  match n.clients[k]? with
  | none => none
  | some c =>
    match e with
    | .applied i ok uvWriteOk =>
      if ok ∧ n.appliedOk (k, i) = false then none
      else
        (c.step e).map fun c' => { n with
          clients := n.clients.set k c'
          acked := if ok ∧ c.closing = false ∧ uvWriteOk then n.acked ++ [(k, i)] else n.acked }
    | _ => (c.step e).map fun c' => { n with clients := n.clients.set k c' }

/-- `FsmApply` begins. The entry of a request is the buffer it was made with. -/
def fsmApply (n : Node) (request : Option (Nat × Nat)) (entry : Bytes) : Option Node :=
  if request.all fun id => (n.request id).map ApplyReq.entry = some entry then
    some { n with fsm := some ⟨request, entry, [], entry⟩ }
  else none

/-- `FsmApply` returns. -/
def fsmReturn (n : Node) (call : FsmCall) (status : FsmStatus) : Node :=
  { n with
    fsm := none
    returned := n.returned ++ [⟨call.request, call.entry, status, n.store⟩] }

/-- The loop of `FsmApply` comes to its test when the call of `lsmt_insert` has returned. -/
def fsmTurn (n : Node) : Option Node :=
  match n.fsm with
  | none => none
  | some call =>
    if n.store.inserting.isEmpty then
      match checkMsg call.rest with
      | .finished => some (n.fsmReturn call .ok)
      | .malformed => some (n.fsmReturn call .malformed)
      | .msg size =>
        let msg := call.rest.take size
        (n.store.step (.insert (recordKey msg) (recordValue msg))).map fun store => { n with
          store := store
          fsm := some { call with
            applied := call.applied ++ [msg]
            rest := call.rest.drop size } }
    else none

/-- One step. The event loop runs one callback at a time, and the others only while it is not inside
`FsmApply`. -/
def step (n : Node) (e : NodeEvent) : Option Node :=
  if n.store.status ≠ .running then none
  else
    match e with
    | .connection v =>
      if n.fsm.isNone then some { n with clients := n.clients ++ [onInsertConnection v] } else none
    | .callback k e => if n.fsm.isNone then n.callback k e else none
    | .fsmApply request entry => if n.fsm.isNone then n.fsmApply request entry else none
    | .fsmTurn => n.fsmTurn
    | .thread a =>
      if a.insertedNode.isNone then (n.store.step a).map fun store => { n with store := store }
      else none

/-- Every acknowledged record was stored: an acknowledged request consists of messages that
`FsmApply` accepts, `FsmApply` has returned 0 for its entry, and when it did the store held the key of
each of these messages with exactly its value. -/
def AcksStored (n : Node) : Prop :=
  ∀ id ∈ n.acked, ∃ req msgs, n.request id = some req ∧ req.Holds msgs ∧
    (∀ msg ∈ msgs, MsgOk msg) ∧ n.appliedOk id = true ∧
    ∀ ret ∈ n.returned, ret.request = some id → ret.status = .ok →
      ∀ msg ∈ msgs, ret.store.Stores (recordOf msg)

/-- What a step must not do while `FsmApply` applies a request: hand a record to `lsmt_insert` that is
refused and not stored already, or drop one of its records that is not stored elsewhere. Merges can
read their inputs, and no SST is registered in which a record is cut short. -/
structure StepOk (n : Node) (e : NodeEvent) : Prop where
  takes : ∀ call size, e = .fsmTurn → n.fsm = some call → call.request ≠ none →
    checkMsg call.rest = .msg size → ¬ n.store.lsmt.Refuses (recordKey (call.rest.take size)) ∨
      n.store.Stores (recordOf (call.rest.take size))
  keeps : ∀ call a, e = .thread a → n.fsm = some call → call.request ≠ none →
    ∀ msg ∈ call.applied, n.store.KeepsCopy (recordOf msg) a
  reads : ∀ faults, e = .thread (.compact faults) → ∀ f ∈ faults, f = IoFaults.none
  whole : ∀ a, e = .thread a → n.store.RegistersWhole a

end Node

/-! ## Requests -/

/-- A callback keeps the entries of the requests. -/
theorem InsertClient.entry_of_step {c c' : InsertClient} {e : ClientEvent} (h : c.step e = some c')
    {i : Nat} {entry : Bytes} (hentry : (c.applies[i]?).map ApplyReq.entry = some entry) :
    (c'.applies[i]?).map ApplyReq.entry = some entry := by
  obtain ⟨req, hreq, rfl⟩ := Option.map_eq_some_iff.mp hentry
  rcases InsertClient.completes_or_fills h with ⟨j, done, ok, hcompletes⟩ | ⟨⟨more, happlies, -⟩, -⟩
  · obtain ⟨hdone, -⟩ := hcompletes.pending
    have hlt := (List.getElem?_eq_some_iff.mp hreq).1
    rw [hcompletes.applies, List.getElem?_set]
    by_cases hij : j = i
    · subst hij
      rw [hreq] at hdone
      cases hdone
      rw [if_pos rfl, if_pos hlt]
      rfl
    · rw [if_neg hij, hreq]
      rfl
  · have hlt := (List.getElem?_eq_some_iff.mp hreq).1
    rw [happlies, List.getElem?_append_left hlt, hreq]
    rfl

namespace Node

/-- The requests of the first node are requests of the second, with the same entries. -/
def KeepsEntries (n n' : Node) : Prop :=
  ∀ id entry, (n.request id).map ApplyReq.entry = some entry →
    (n'.request id).map ApplyReq.entry = some entry

variable {n n' : Node}

theorem KeepsEntries.of_clients (h : n'.clients = n.clients) : KeepsEntries n n' := by
  intro id entry hentry
  unfold request at hentry ⊢
  rw [h]
  exact hentry

theorem keepsEntries_connection (v : ServerView) :
    KeepsEntries n { n with clients := n.clients ++ [onInsertConnection v] } := by
  intro id entry hentry
  obtain ⟨req, hreq, rfl⟩ := Option.map_eq_some_iff.mp hentry
  obtain ⟨c, hc, happly⟩ := Option.bind_eq_some_iff.mp hreq
  have hlt := (List.getElem?_eq_some_iff.mp hc).1
  unfold request
  show (((n.clients ++ [onInsertConnection v])[id.1]?.bind fun c => c.applies[id.2]?).map
    ApplyReq.entry) = some req.entry
  rw [List.getElem?_append_left hlt, hc, Option.bind_some, happly]
  rfl

theorem keepsEntries_set {k : Nat} {c c' : InsertClient} {e : ClientEvent}
    (hc : n.clients[k]? = some c) (hstep : c.step e = some c')
    (hclients : n'.clients = n.clients.set k c') : KeepsEntries n n' := by
  intro id entry hentry
  unfold request at hentry ⊢
  rw [hclients, List.getElem?_set]
  by_cases hk : k = id.1
  · rw [← hk, hc, Option.bind_some] at hentry
    rw [if_pos hk, if_pos (List.getElem?_eq_some_iff.mp hc).1, Option.bind_some]
    exact InsertClient.entry_of_step hstep hentry
  · rw [if_neg hk]
    exact hentry

end Node

/-! ## The invariant -/

/-- A call of `FsmApply` is on its way through its entry, and what it has applied of a request is
stored. -/
structure FsmCall.Ok (n : Node) (call : FsmCall) : Prop where
  msgs : entryMsgs call.entry = call.applied ++ entryMsgs call.rest
  status : entryStatus call.entry = entryStatus call.rest
  request : ∀ id, call.request = some id → (n.request id).map ApplyReq.entry = some call.entry
  stored : call.request ≠ none → ∀ msg ∈ call.applied, n.store.Stores (recordOf msg)

/-- When `FsmApply` has returned for a request, everything it has applied was stored. -/
structure FsmReturn.Ok (n : Node) (ret : FsmReturn) : Prop where
  status : ret.status = entryStatus ret.entry
  request : ∀ id, ret.request = some id → (n.request id).map ApplyReq.entry = some ret.entry
  stored : ret.request ≠ none → ∀ msg ∈ entryMsgs ret.entry, ret.store.Stores (recordOf msg)

theorem FsmReturn.Ok.mono {n n' : Node} {ret : FsmReturn} (h : ret.Ok n)
    (hentries : Node.KeepsEntries n n') : ret.Ok n' :=
  ⟨h.status, fun id hid => hentries _ _ (h.request id hid), h.stored⟩

namespace Node

/-- The invariant of a run without a refused or dropped record. -/
structure Inv (n : Node) : Prop where
  accounts : n.store.Accounts []
  headFlushed : n.store.HeadFlushed
  clients : ∀ c ∈ n.clients, ∃ received parts batch, c.Tracks received parts batch
  call : ∀ call, n.fsm = some call → call.Ok n
  returned : ∀ ret ∈ n.returned, ret.Ok n
  acked : ∀ id ∈ n.acked, n.appliedOk id = true

theorem inv_init : Node.init.Inv where
  accounts := (World.inv_iff.mp (World.inv_of_run (by simp) (run_nil _))).1
  headFlushed := by
    intro hreg
    cases hreg
  clients := by simp [Node.init]
  call := by simp [Node.init]
  returned := by simp [Node.init]
  acked := by simp [Node.init]

theorem appliedOk_iff {n : Node} {id : Nat × Nat} :
    n.appliedOk id = true ↔ ∃ ret ∈ n.returned, ret.request = some id ∧ ret.status = .ok := by
  simp [appliedOk]

/-- The invariant says that the acknowledged records were stored. -/
theorem Inv.acksStored {n : Node} (h : n.Inv) : n.AcksStored := by
  intro id hid
  have happlied := h.acked id hid
  obtain ⟨ret, hret, hrequest, hstatus⟩ := appliedOk_iff.mp happlied
  obtain ⟨req, hreq, hentry⟩ := Option.map_eq_some_iff.mp ((h.returned ret hret).request id hrequest)
  obtain ⟨c, hc, happly⟩ := Option.bind_eq_some_iff.mp hreq
  obtain ⟨received, parts, batch, htracks⟩ := h.clients c (List.mem_of_getElem? hc)
  obtain ⟨msgs, hmsgs, hholds⟩ := htracks.exists_holds (List.mem_of_getElem? happly)
  have hmsg : ∀ msg ∈ msgs, IsMsg msg := by
    intro msg hmsg
    exact htracks.isMsg msg (List.mem_append_left _ (List.mem_flatten.mpr ⟨msgs, hmsgs, hmsg⟩))
  -- an entry of accepted messages is applied message by message
  have hok : ∀ msg ∈ msgs, MsgOk msg := by
    have hentryOk := (h.returned ret hret).status
    rw [hstatus, ← hentry, hholds.entry, alignedEntry] at hentryOk
    exact (entryStatus_flatten_eq_ok_iff hmsg _).mp hentryOk.symm
  refine ⟨req, msgs, hreq, hholds, hok, happlied, fun ret' hret' hrequest' _ msg hmem => ?_⟩
  obtain ⟨req', hreq', hentry'⟩ :=
    Option.map_eq_some_iff.mp ((h.returned ret' hret').request id hrequest')
  rw [hreq] at hreq'
  cases hreq'
  apply (h.returned ret' hret').stored
  · rw [hrequest']
    exact Option.some_ne_none _
  · rw [← hentry', hholds.entry, alignedEntry, entryMsgs_flatten hok]
    exact hmem

/-- A callback leaves the store and `FsmApply` alone. -/
structure SameApply (n n' : Node) : Prop where
  store : n'.store = n.store
  fsm : n'.fsm = n.fsm
  returned : n'.returned = n.returned
  entries : KeepsEntries n n'

theorem Inv.of_sameApply {n n' : Node} (h : n.Inv) (hsame : SameApply n n')
    (hclients : ∀ c ∈ n'.clients, ∃ received parts batch, c.Tracks received parts batch)
    (hacked : ∀ id ∈ n'.acked, n.appliedOk id = true) : n'.Inv where
  accounts := by
    rw [hsame.store]
    exact h.accounts
  headFlushed := by
    rw [hsame.store]
    exact h.headFlushed
  clients := hclients
  call call hcall := by
    rw [hsame.fsm] at hcall
    have hok := h.call call hcall
    refine ⟨hok.msgs, hok.status, fun id hid => hsame.entries _ _ (hok.request id hid), ?_⟩
    rw [hsame.store]
    exact hok.stored
  returned ret hret := by
    rw [hsame.returned] at hret
    exact (h.returned ret hret).mono hsame.entries
  acked id hid := by
    have happlied := hacked id hid
    unfold appliedOk at happlied ⊢
    rw [hsame.returned]
    exact happlied

theorem Inv.connection {n : Node} (h : n.Inv) (v : ServerView) :
    Inv { n with clients := n.clients ++ [onInsertConnection v] } := by
  have hsame : SameApply n { n with clients := n.clients ++ [onInsertConnection v] } :=
    ⟨rfl, rfl, rfl, keepsEntries_connection v⟩
  refine h.of_sameApply hsame (fun c hc => ?_) h.acked
  rcases List.mem_append.mp hc with hc | hc
  · exact h.clients c hc
  · rw [List.mem_singleton.mp hc]
    exact ⟨[], [], [], InsertClient.tracks_onInsertConnection v⟩

/-- A callback of a connection acknowledges only what `FsmApply` has applied. -/
theorem Inv.setClient {n n' : Node} (h : n.Inv) {k : Nat} {c c' : InsertClient} {e : ClientEvent}
    (hc : n.clients[k]? = some c) (hstep : c.step e = some c')
    (hn' : ∃ acked, n' = { n with clients := n.clients.set k c', acked := acked } ∧
      ∀ id ∈ acked, n.appliedOk id = true) : n'.Inv := by
  obtain ⟨acked, rfl, hacked⟩ := hn'
  have hsame : SameApply n { n with clients := n.clients.set k c', acked := acked } :=
    ⟨rfl, rfl, rfl, keepsEntries_set hc hstep rfl⟩
  refine h.of_sameApply hsame (fun d hd => ?_) hacked
  rcases List.mem_or_eq_of_mem_set hd with hd | rfl
  · exact h.clients d hd
  · obtain ⟨received, parts, batch, htracks⟩ := h.clients c (List.mem_of_getElem? hc)
    obtain ⟨parts', batch', htracks'⟩ := htracks.step hstep
    exact ⟨_, parts', batch', htracks'⟩

theorem Inv.callback {n n' : Node} (h : n.Inv) {k : Nat} {e : ClientEvent}
    (hstep : n.callback k e = some n') : n'.Inv := by
  unfold Node.callback at hstep
  split at hstep
  · cases hstep
  · rename_i c hc
    split at hstep
    · rename_i i ok uvWriteOk
      split at hstep
      · cases hstep
      · rename_i happlied
        obtain ⟨c', hc', rfl⟩ := Option.map_eq_some_iff.mp hstep
        refine h.setClient hc hc' ⟨_, rfl, fun id hid => ?_⟩
        split at hid
        · rename_i hack
          rcases List.mem_append.mp hid with hid | hid
          · exact h.acked id hid
          · rw [List.mem_singleton.mp hid]
            simpa [hack.1] using happlied
        · exact h.acked id hid
    · obtain ⟨c', hc', rfl⟩ := Option.map_eq_some_iff.mp hstep
      exact h.setClient hc hc' ⟨n.acked, rfl, h.acked⟩

theorem Inv.fsmApply {n n' : Node} (h : n.Inv) {request : Option (Nat × Nat)} {entry : Bytes}
    (hstep : n.fsmApply request entry = some n') : n'.Inv := by
  unfold Node.fsmApply at hstep
  split at hstep
  · rename_i hrequest
    cases hstep
    have hentries : KeepsEntries n { n with fsm := some ⟨request, entry, [], entry⟩ } :=
      KeepsEntries.of_clients rfl
    refine ⟨h.accounts, h.headFlushed, h.clients, fun call hcall => ?_,
      fun ret hret => (h.returned ret hret).mono hentries, h.acked⟩
    cases hcall
    refine ⟨rfl, rfl, fun id hid => hentries _ _ ?_, fun _ msg hmsg => ?_⟩
    · have hid' : request = some id := hid
      rw [hid'] at hrequest
      simpa using hrequest
    · cases hmsg
  · cases hstep

/-- `FsmApply` returns when it has applied all messages of its entry. -/
theorem Inv.fsmReturn {n : Node} (h : n.Inv) {call : FsmCall} (hcall : n.fsm = some call)
    {status : FsmStatus} (hstatus : entryStatus call.rest = status)
    (hend : entryMsgs call.rest = []) : (n.fsmReturn call status).Inv := by
  have hok := h.call call hcall
  have hentries : KeepsEntries n (n.fsmReturn call status) := KeepsEntries.of_clients rfl
  have hall : entryMsgs call.entry = call.applied := by
    rw [hok.msgs, hend, List.append_nil]
  refine ⟨h.accounts, h.headFlushed, h.clients, fun call' hcall' => ?_, fun ret hret => ?_,
    fun id hid => ?_⟩
  · cases hcall'
  · rcases List.mem_append.mp hret with hret | hret
    · exact (h.returned ret hret).mono hentries
    · rw [List.mem_singleton.mp hret]
      refine ⟨?_, fun id hid => hentries _ _ (hok.request id hid), fun hrequest msg hmsg => ?_⟩
      · rw [← hstatus]
        exact hok.status.symm
      · apply hok.stored hrequest
        rw [← hall]
        exact hmsg
  · obtain ⟨ret, hret, hspec⟩ := appliedOk_iff.mp (h.acked id hid)
    exact appliedOk_iff.mpr ⟨ret, List.mem_append_left _ hret, hspec⟩

/-- The store takes a step; the call of `FsmApply` goes on with what it has applied. -/
theorem Inv.moveStore {n : Node} (h : n.Inv) {store : World} {a : Action}
    (hreads : ∀ faults, a = .compact faults → ∀ f ∈ faults, f = IoFaults.none)
    (hwhole : n.store.RegistersWhole a) (hstep : n.store.step a = some store) (fsm : Option FsmCall)
    (hfsm : ∀ call, fsm = some call → call.Ok { n with store := store, fsm := fsm }) :
    Inv { n with store := store, fsm := fsm } where
  accounts := h.accounts.step hreads hwhole hstep
  headFlushed := (h.accounts.headFlushed_step h.headFlushed hwhole hstep).1
  clients := h.clients
  call := hfsm
  returned ret hret := (h.returned ret hret).mono (KeepsEntries.of_clients rfl)
  acked := h.acked

theorem Inv.thread {n : Node} (h : n.Inv) {store : World} {a : Action}
    (hok : n.StepOk (.thread a)) (hstep : n.store.step a = some store) :
    Inv { n with store := store } := by
  have hreads := fun faults ha => hok.reads faults (congrArg NodeEvent.thread ha)
  have hwhole := hok.whole a rfl
  apply h.moveStore hreads hwhole hstep n.fsm
  intro call hcall
  have hcallOk := h.call call hcall
  refine ⟨hcallOk.msgs, hcallOk.status, hcallOk.request, fun hrequest msg hmsg => ?_⟩
  exact h.accounts.stores_step h.headFlushed (h.accounts.step hreads hwhole hstep) hwhole
    hstep (hcallOk.stored hrequest msg hmsg) (hok.keeps call a rfl hcall hrequest msg hmsg)

theorem Inv.fsmTurn {n n' : Node} (h : n.Inv) (hok : n.StepOk .fsmTurn)
    (hstep : n.fsmTurn = some n') : n'.Inv := by
  unfold Node.fsmTurn at hstep
  split at hstep
  · cases hstep
  · rename_i call hcall
    have hcallOk := h.call call hcall
    split at hstep
    · split at hstep
      · -- the loop stops, and with it the call returns its status
        rename_i hcheck
        cases hstep
        apply h.fsmReturn hcall (entryStatus_of_finished hcheck)
        apply entryMsgs_of_not_msg
        simp [hcheck]
      · rename_i hcheck
        cases hstep
        apply h.fsmReturn hcall (entryStatus_of_malformed hcheck)
        apply entryMsgs_of_not_msg
        simp [hcheck]
      · -- one message is inserted, and the loop goes on behind it
        rename_i size hcheck
        obtain ⟨store, hinsert, rfl⟩ := Option.map_eq_some_iff.mp hstep
        have hreads : ∀ faults, Action.insert (recordKey (call.rest.take size))
            (recordValue (call.rest.take size)) = .compact faults →
            ∀ f ∈ faults, f = IoFaults.none := by
          intro faults ha
          cases ha
        have hwhole : n.store.RegistersWhole (.insert (recordKey (call.rest.take size))
            (recordValue (call.rest.take size))) := by
          intro memtable sst hdaemon
          cases hdaemon
        have haccounts := h.accounts.step hreads hwhole hinsert
        apply h.moveStore hreads hwhole hinsert
        intro call' hcall'
        cases hcall'
        refine ⟨?_, ?_, hcallOk.request, fun hrequest msg hmsg => ?_⟩
        · rw [hcallOk.msgs, entryMsgs_of_msg hcheck, List.append_assoc]
          rfl
        · rw [hcallOk.status, entryStatus_of_msg hcheck]
        · rcases List.mem_append.mp hmsg with hmsg | hmsg
          · -- what has been applied before stays stored
            apply h.accounts.stores_step h.headFlushed haccounts hwhole hinsert
              (hcallOk.stored hrequest msg hmsg)
            intro memtable registered hdaemon
            cases hdaemon
          · rw [List.mem_singleton.mp hmsg]
            exact (h.accounts.stores_insert_iff h.headFlushed haccounts hinsert).mpr
              (hok.takes call size rfl hcall hrequest hcheck)
    · cases hstep

/-- A step that neither refuses nor drops a record keeps the invariant. -/
theorem Inv.step {n n' : Node} (h : n.Inv) {e : NodeEvent} (hok : n.StepOk e)
    (hstep : n.step e = some n') : n'.Inv := by
  unfold Node.step at hstep
  split at hstep
  · cases hstep
  · cases e with
    | connection v =>
      simp only at hstep
      split at hstep <;> cases hstep
      exact h.connection v
    | callback k e =>
      simp only at hstep
      split at hstep
      · exact h.callback hstep
      · cases hstep
    | fsmApply request entry =>
      simp only at hstep
      split at hstep
      · exact h.fsmApply hstep
      · cases hstep
    | fsmTurn => exact h.fsmTurn hok hstep
    | thread a =>
      simp only at hstep
      split at hstep
      · obtain ⟨store, hstore, rfl⟩ := Option.map_eq_some_iff.mp hstep
        exact h.thread hok hstore
      · cases hstep

end Node

/-- In every run in which no record of a request is refused or dropped while `FsmApply` applies the
request, every acknowledged record was stored when `FsmApply` returned. -/
theorem acks_stored {es : List NodeEvent} (hes : EachStep Node.step Node.StepOk Node.init es) :
    Always Node.step Node.AcksStored Node.init es := by
  have hinv : Always Node.step Node.Inv Node.init es := by
    apply always_of_eachStep Node.inv_init
    intro pre e post n hsplit hn n' h hstep
    exact h.step (hes pre e post n hsplit hn) hstep
  intro pre post n hsplit hn
  exact (hinv pre post n hsplit hn).acksStored

/-! ## One record -/

namespace Node

/-- What happens to a message from the connection of its client to its acknowledgement. -/
def frameEvents (msg : Bytes) : List NodeEvent :=
  [.connection leaderView, .callback 0 (.read leaderView msg),
    .fsmApply (some (0, 0)) (alignedEntry msg), .fsmTurn, .thread (.insertCall 0), .fsmTurn,
    .callback 0 (.applied 0 true true)]

/-- The call of `lsmt_insert` for a message in an empty store. -/
def frameCall (msg : Bytes) : InsertCall :=
  ⟨recordKey msg, recordValue msg, (slInsert (slInit 0) (recordKey msg) (recordValue msg)).2, false⟩

/-- The store after this call, which is still in progress or has returned. -/
def frameStore (msg : Bytes) (inserting returned : List InsertCall) : World :=
  { World.init { lsmtInit with
      memtable := (slInsert (slInit 0) (recordKey msg) (recordValue msg)).1 } with
    inserting := inserting
    inserted := [frameCall msg]
    returned := returned }

/-- A node with one connection, which has made these requests. -/
def withRequests (store : World) (applies : List ApplyReq) (fsm : Option FsmCall)
    (returned : List FsmReturn) : Node :=
  ⟨store, [InsertClient.idle applies], fsm, returned, []⟩

/-- The call of `FsmApply` for the entry of the message. -/
def frameFsm (msg : Bytes) (applied : List Bytes) (rest : Bytes) : FsmCall :=
  ⟨some (0, 0), alignedEntry msg, applied, rest⟩

/-- The node when the message has been acknowledged. -/
def frameAcked (msg : Bytes) : Node where
  store := frameStore msg [] [frameCall msg]
  clients := [serverApplyCb (InsertClient.idle [InsertClient.singleReq msg]) 0
    (InsertClient.singleReq msg) true true]
  fsm := none
  returned := [⟨some (0, 0), alignedEntry msg, .ok, frameStore msg [] [frameCall msg]⟩]
  acked := [(0, 0)]

section Frame

variable {msg : Bytes}

theorem step_connection : Node.init.step (.connection leaderView) =
    some (withRequests (World.init lsmtInit) [] none []) := rfl

theorem step_read (hmsg : MsgOk msg) :
    (withRequests (World.init lsmtInit) [] none []).step (.callback 0 (.read leaderView msg)) =
      some (withRequests (World.init lsmtInit) [InsertClient.singleReq msg] none []) := by
  have hfits : msg.length ≤ bufferCapacity :=
    le_trans hmsg.value_le (by decide)
  have hne : msg ≠ [] := List.ne_nil_of_length_pos (lt_of_lt_of_le (by decide) hmsg.four_le)
  have hread := @InsertClient.onClientRead_last [] msg hmsg.toIsMsg hfits [] msg rfl
  have hstep : (InsertClient.idle []).step (.read leaderView msg) =
      some (InsertClient.idle [InsertClient.singleReq msg]) := by
    show (if _ then some (onClientRead leaderView (InsertClient.idle []) msg) else none) = _
    rw [if_pos ⟨rfl, rfl, hne⟩]
    exact congrArg some hread
  show ((InsertClient.idle []).step (.read leaderView msg)).map _ = _
  rw [hstep]
  rfl

theorem step_fsmApply (msg : Bytes) :
    (withRequests (World.init lsmtInit) [InsertClient.singleReq msg] none []).step
        (.fsmApply (some (0, 0)) (alignedEntry msg)) =
      some (withRequests (World.init lsmtInit) [InsertClient.singleReq msg]
        (some (frameFsm msg [] (alignedEntry msg))) []) := by
  show (if _ then some _ else none) = _
  rw [if_pos]
  · rfl
  · simp [request, withRequests, InsertClient.idle, InsertClient.singleReq]

/-- The fill bytes of the entry. -/
def frameFill (msg : Bytes) : Bytes :=
  List.replicate ((msg.length + 7) / 8 * 8 - msg.length) 0

theorem step_insert (hmsg : MsgOk msg) :
    (withRequests (World.init lsmtInit) [InsertClient.singleReq msg]
        (some (frameFsm msg [] (alignedEntry msg))) []).step .fsmTurn =
      some (withRequests (frameStore msg [frameCall msg] []) [InsertClient.singleReq msg]
        (some (frameFsm msg [msg] (frameFill msg))) []) := by
  have hcheck : checkMsg (alignedEntry msg) = .msg msg.length :=
    checkMsg_append_of_ok hmsg (frameFill msg)
  have htake : (alignedEntry msg).take msg.length = msg := List.take_left' rfl
  have hdrop : (alignedEntry msg).drop msg.length = frameFill msg := List.drop_left' rfl
  show (match checkMsg (alignedEntry msg) with
    | .finished => _
    | .malformed => _
    | .msg size => _) = _
  rw [hcheck]
  simp only [withRequests, frameFsm, htake, hdrop]
  rfl

theorem step_insertCall (msg : Bytes) :
    (withRequests (frameStore msg [frameCall msg] []) [InsertClient.singleReq msg]
        (some (frameFsm msg [msg] (frameFill msg))) []).step (.thread (.insertCall 0)) =
      some (withRequests (frameStore msg [] [frameCall msg]) [InsertClient.singleReq msg]
        (some (frameFsm msg [msg] (frameFill msg))) []) := rfl

theorem step_return (msg : Bytes) :
    (withRequests (frameStore msg [] [frameCall msg]) [InsertClient.singleReq msg]
        (some (frameFsm msg [msg] (frameFill msg))) []).step .fsmTurn =
      some (withRequests (frameStore msg [] [frameCall msg]) [InsertClient.singleReq msg] none
        [⟨some (0, 0), alignedEntry msg, .ok, frameStore msg [] [frameCall msg]⟩]) := by
  show (match checkMsg (frameFill msg) with
    | .finished => _
    | .malformed => _
    | .msg size => _) = _
  rw [frameFill, checkMsg_replicate_zero]
  rfl

theorem step_ack (msg : Bytes) :
    (withRequests (frameStore msg [] [frameCall msg]) [InsertClient.singleReq msg] none
        [⟨some (0, 0), alignedEntry msg, .ok, frameStore msg [] [frameCall msg]⟩]).step
        (.callback 0 (.applied 0 true true)) = some (frameAcked msg) := rfl

/-- The message is acknowledged. -/
theorem run_frameEvents (hmsg : MsgOk msg) :
    run Node.step Node.init (frameEvents msg) = some (frameAcked msg) := by
  simp only [frameEvents, run, step_connection, step_read hmsg, step_fsmApply, step_insert hmsg,
    step_insertCall, step_return, step_ack, Option.bind_some]

/-- Callbacks, and the start of `FsmApply`, refuse and drop nothing. -/
theorem stepOk_of_loop {n : Node} {e : NodeEvent} (hturn : e ≠ .fsmTurn)
    (hthread : ∀ a, e ≠ .thread a) : n.StepOk e where
  takes _ _ he := absurd he hturn
  keeps _ a he := absurd he (hthread a)
  reads faults he := absurd he (hthread (.compact faults))
  whole a he := absurd he (hthread a)

/-- The empty store takes the record of the message. -/
theorem eachStep_frameEvents (hmsg : MsgOk msg) (hid : (recordKey msg).id ≠ 0) :
    EachStep Node.step Node.StepOk Node.init (frameEvents msg) := by
  have hcheck : checkMsg (alignedEntry msg) = .msg msg.length :=
    checkMsg_append_of_ok hmsg (frameFill msg)
  refine (eachStep_cons_of_step step_connection).mpr ⟨stepOk_of_loop (by simp) (by simp), ?_⟩
  refine (eachStep_cons_of_step (step_read hmsg)).mpr ⟨stepOk_of_loop (by simp) (by simp), ?_⟩
  refine (eachStep_cons_of_step (step_fsmApply msg)).mpr
    ⟨stepOk_of_loop (by simp) (by simp), ?_⟩
  refine (eachStep_cons_of_step (step_insert hmsg)).mpr ⟨⟨?_, by simp, by simp, by simp⟩, ?_⟩
  · intro call size _ hcall _ hsize
    cases hcall
    rw [show (frameFsm msg [] (alignedEntry msg)).rest = alignedEntry msg from rfl, hcheck] at hsize
    cases hsize
    have htake : (alignedEntry msg).take msg.length = msg := List.take_left' rfl
    show ¬ (World.init lsmtInit).lsmt.Refuses (recordKey ((alignedEntry msg).take msg.length)) ∨ _
    rw [htake]
    left
    rintro (hzero | ⟨node, hnode, -⟩)
    · exact hid hzero
    · cases hnode
  refine (eachStep_cons_of_step (step_insertCall msg)).mpr ⟨⟨by simp, ?_, by simp, ?_⟩, ?_⟩
  · intro call a ha _ _ record _ memtable registered hdaemon
    cases ha
    cases hdaemon
  · intro a ha memtable sst hdaemon
    cases ha
    cases hdaemon
  refine (eachStep_cons_of_step (step_return msg)).mpr ⟨⟨?_, by simp, by simp, by simp⟩, ?_⟩
  · intro call size _ hcall _ hsize
    cases hcall
    rw [show (frameFsm msg [msg] (frameFill msg)).rest = frameFill msg from rfl, frameFill,
      checkMsg_replicate_zero] at hsize
    cases hsize
  refine (eachStep_cons_of_step (step_ack msg)).mpr ⟨stepOk_of_loop (by simp) (by simp), ?_⟩
  exact eachStep_nil _ _ _

end Frame

end Node

/-- One record, from the read to the acknowledgement. -/
theorem acks_stored_one :
    ∃ n, run Node.step Node.init (Node.frameEvents (message ⟨1, 0⟩ (encodeData 1 [7]))) = some n ∧
      n.acked = [(0, 0)] ∧ n.AcksStored := by
  have hmsg : MsgOk (message ⟨1, 0⟩ (encodeData 1 [7])) := msgOk_message _ _ (by decide)
  refine ⟨_, Node.run_frameEvents hmsg, rfl, ?_⟩
  exact acks_stored (Node.eachStep_frameEvents hmsg (by decide)) _ [] _
    (List.append_nil _).symm (Node.run_frameEvents hmsg)

/-- A record under the reserved id is acknowledged and not stored. -/
theorem not_acks_stored :
    ¬ ∀ es : List NodeEvent, Always Node.step Node.AcksStored Node.init es := by
  intro hall
  have hmsg : MsgOk (message ⟨0, 1⟩ (encodeData 1 [7])) := msgOk_message _ _ (by decide)
  obtain ⟨req, msgs, -, hholds, -, -, hstored⟩ := hall _ _ [] _ (List.append_nil _).symm
    (Node.run_frameEvents hmsg) (0, 0) List.mem_cons_self
  obtain ⟨msg, hmem⟩ := List.exists_mem_of_ne_nil msgs hholds.ne_nil
  rcases hstored _ List.mem_cons_self rfl rfl msg hmem with ⟨m, hm, hnode⟩ | hdisk
  · -- the memtable is still empty
    have hempty : (slInsert (slInit 0) (recordKey (message ⟨0, 1⟩ (encodeData 1 [7])))
        (recordValue (message ⟨0, 1⟩ (encodeData 1 [7])))).1 = slInit 0 := by
      have hkey : recordKey (message ⟨0, 1⟩ (encodeData 1 [7])) = ⟨0, 1⟩ :=
        congrArg Prod.fst (recordOf_message ⟨0, 1⟩ (encodeData 1 [7]))
      rw [slInsert, hkey, if_pos rfl]
    have hm' : m ∈ [slInit 0] := by
      rw [← hempty]
      exact hm
    rw [List.mem_singleton.mp hm'] at hnode
    cases hnode
  · cases hdisk

end RaftLsmt.Server
