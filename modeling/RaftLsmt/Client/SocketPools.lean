import Mathlib.Data.List.Perm.Basic
import Mathlib.Data.List.Nodup
import RaftLsmt.Client.Routing
import RaftLsmt.Lib.StepMachine

/-!
# The socket pools

The worker threads of `DbClient` share its connections. `_get_socket` takes one out of the pool of a
node, drops those that have become readable while nobody used them, and opens a new one when the pool
is empty; an attempt that has read all it asked for puts its socket back, any other attempt closes it.

`SocketPools` is the client with its workers and the other ends of its connections. On the query port
the requests and the answers on their way are part of it, so that it can be said what a worker may
find on a socket that somebody else has used before. `sockets_unshared` is the result. It needs
`write_cb` to return: the handler in `_send_batch` closes a socket that is back in its pool already.
-/

set_option autoImplicit false

namespace RaftLsmt.Client

open RaftLsmt.Lib.StepMachine

/-- One attempt of a worker at one node. -/
inductive SocketJob where
  | sendBatch (node : Node)
  | querySingle (node : Node) (reqId : Nat)
  | queryBatch (node : Node) (reqIds : List Nat)

namespace SocketJob

def node : SocketJob → Node
  | .sendBatch node => node
  | .querySingle node _ => node
  | .queryBatch node _ => node

/-- The argument `for_query` of `_get_socket`. -/
def forQuery : SocketJob → Bool
  | .sendBatch _ => false
  | _ => true

/-- The requests the attempt writes on the query port. -/
def reqIds : SocketJob → List Nat
  | .sendBatch _ => []
  | .querySingle _ reqId => [reqId]
  | .queryBatch _ reqIds => reqIds

end SocketJob

/-- The address `_get_socket` connects to. -/
def socketPeer (node : Node) (forQuery : Bool) : String × Nat :=
  (node.host, if forQuery then node.port + 1000 else node.port)

/-- A connection: the requests the server has not answered, the answers the client has not read, and
whether the server has ended it. -/
structure Connection where
  peer : String × Nat
  closed : Bool
  asked : List Nat
  answers : List Nat
  ended : Bool

namespace Connection

/-- A connection that has just been made. -/
def opened (peer : String × Nat) : Connection := ⟨peer, false, [], [], false⟩

/-- The requests whose answers are still to be read. -/
def outstanding (c : Connection) : List Nat := c.answers ++ c.asked

/-- What `select` says of a socket nobody has used. On the query port it is readable when something has
arrived; what a server writes on the insert port, and when, is open. -/
def readable (c : Connection) (forQuery arrived : Bool) : Bool :=
  if forQuery then !c.answers.isEmpty || c.ended else arrived

end Connection

/-- An entry of `_socket_pools[(node, for_query)]`. -/
structure PooledSocket where
  node : Node
  forQuery : Bool
  sock : Nat

/-- The entry is in the pool of the attempt. -/
def SocketJob.inPool (job : SocketJob) (e : PooledSocket) : Bool :=
  e.node = job.node ∧ e.forQuery = job.forQuery

/-- A worker: without a task; in the loop of `_get_socket`; about to call `select` on a socket from the
pool; about to write; with the responses read so far; about to put the socket back; behind that, about
to call `write_cb`. -/
inductive WorkerPc where
  | idle
  | getting (job : SocketJob)
  | selecting (job : SocketJob) (sock : Nat)
  | sending (job : SocketJob) (sock : Nat)
  | receiving (job : SocketJob) (sock : Nat) (received : List Nat)
  | returning (job : SocketJob) (sock : Nat)
  | notifying (sock : Nat)

/-- The attempt the worker is at, and the socket it uses for it. -/
def WorkerPc.uses : WorkerPc → Option (SocketJob × Nat)
  | .selecting job sock => some (job, sock)
  | .sending job sock => some (job, sock)
  | .receiving job sock _ => some (job, sock)
  | .returning job sock => some (job, sock)
  | _ => none

/-- The socket the worker uses. -/
def WorkerPc.sock (pc : WorkerPc) : Option Nat := pc.uses.map Prod.snd

/-- The client and its connections, in the order in which they were made. -/
structure SocketPools where
  conns : List Connection
  pools : List PooledSocket
  workers : List WorkerPc

/-- What happens next: a step of a worker, of a server, of `connect` or of `disconnect`. -/
inductive SocketAction where
  | start (t : Nat) (job : SocketJob)
  | get (t : Nat) (connects : Bool)
  | select (t : Nat) (arrived : Option Bool)
  | send (t : Nat) (raisedBehind : Option Nat)
  | receive (t : Nat) (arrives parses : Bool)
  | giveBack (t : Nat)
  | callback (t : Nat) (raises : Bool)
  | serve (i j : Nat)
  | hangUp (i : Nat)
  | connect (node : Node) (silent : Bool)
  | disconnectPop (j : Nat)
  | disconnectClear

/-- `write_cb` returns. -/
def SocketAction.CallbackReturns : SocketAction → Prop
  | .callback _ raises => raises = false
  | _ => True

namespace SocketPools

/-- A client with a number of workers. -/
def init (workers : Nat) : SocketPools := ⟨[], [], List.replicate workers .idle⟩

def setWorker (s : SocketPools) (t : Nat) (pc : WorkerPc) : SocketPools :=
  { s with workers := s.workers.set t pc }

def setConn (s : SocketPools) (i : Nat) (c : Connection) : SocketPools :=
  { s with conns := s.conns.set i c }

/-- The worker closes its socket and the attempt fails. -/
def close (s : SocketPools) (t i : Nat) (c : Connection) : SocketPools :=
  (s.setConn i { c with closed := true }).setWorker t .idle

/-- One turn of the loop of `_get_socket`, up to the call of `select`, or the new connection. A socket
that does not connect goes out of scope. -/
def getStep (s : SocketPools) (t : Nat) (job : SocketJob) (connects : Bool) : SocketPools :=
  match s.pools.find? job.inPool with
  | some e => { s with
      pools := s.pools.eraseP job.inPool
      workers := s.workers.set t (.selecting job e.sock) }
  | none =>
    if connects then
      { s with
        conns := s.conns ++ [.opened (socketPeer job.node job.forQuery)]
        workers := s.workers.set t (.sending job s.conns.length) }
    else s.setWorker t .idle

/-- `select` on a socket from the pool. It raises for a closed one, and it may raise for any (`none`):
the attempt has failed then, and the socket goes out of scope. -/
def selectStep (s : SocketPools) (t : Nat) (job : SocketJob) (i : Nat) (c : Connection)
    (arrived : Option Bool) : SocketPools :=
  match arrived with
  | none => s.setWorker t .idle
  | some arrived =>
    if c.closed then s.setWorker t .idle
    else if c.readable job.forQuery arrived then
      (s.setConn i { c with closed := true }).setWorker t (.getting job)
    else s.setWorker t (.sending job i)

/-- `sendall`, which may raise when a part of the requests is on its way. `_send_batch` goes on behind
a broken pipe or a reset, which is an attempt whose answers may not arrive. -/
def sendStep (s : SocketPools) (t : Nat) (job : SocketJob) (i : Nat) (c : Connection)
    (raisedBehind : Option Nat) : SocketPools :=
  if c.closed then s.close t i c
  else
    match raisedBehind with
    | some k => s.close t i { c with asked := c.asked ++ job.reqIds.take k }
    | none =>
      (s.setConn i { c with asked := c.asked ++ job.reqIds }).setWorker t (.receiving job i [])

/-- The reading half of an attempt. A batch has its acknowledgements or it has not; a query reads one
response, checks its request id and decodes it. A response that `_query_single_node` cannot decode
leaves the socket unclosed behind. `none` when the worker waits. -/
def receiveStep (s : SocketPools) (t : Nat) (job : SocketJob) (i : Nat) (received : List Nat)
    (c : Connection) (arrives parses : Bool) : Option SocketPools :=
  if c.closed then some (s.close t i c)
  else if job.reqIds.length ≤ received.length ∧ job.forQuery then
    some (s.setWorker t (.returning job i))
  else if ¬ arrives then some (s.close t i c)
  else
    match job with
    | .sendBatch _ => some (s.setWorker t (.returning job i))
    | .querySingle _ reqId =>
      match c.answers with
      | [] => none
      | id :: rest =>
        let s := s.setConn i { c with answers := rest }
        if id ≠ reqId then some (s.close t i { c with answers := rest })
        else if parses then some (s.setWorker t (.receiving job i (received ++ [id])))
        else some (s.setWorker t .idle)
    | .queryBatch _ reqIds =>
      match c.answers with
      | [] => none
      | id :: rest =>
        let s := s.setConn i { c with answers := rest }
        if id ∉ reqIds ∨ ¬ parses then some (s.close t i { c with answers := rest })
        else some (s.setWorker t (.receiving job i (received ++ [id])))

/-- `_return_socket`. -/
def giveBackStep (s : SocketPools) (t : Nat) (job : SocketJob) (i : Nat) : SocketPools :=
  { s with
    pools := s.pools ++ [⟨job.node, job.forQuery, i⟩]
    workers := s.workers.set t (if job.forQuery then .idle else .notifying i) }

/-- A step of a worker. -/
def workerStep (s : SocketPools) (t : Nat) (a : SocketAction) : Option SocketPools :=
  match s.workers[t]?, a with
  | some .idle, .start _ job => some (s.setWorker t (.getting job))
  | some (.getting job), .get _ connects => some (s.getStep t job connects)
  | some (.selecting job i), .select _ arrived =>
    (s.conns[i]?).map fun c => s.selectStep t job i c arrived
  | some (.sending job i), .send _ raisedBehind =>
    (s.conns[i]?).map fun c => s.sendStep t job i c raisedBehind
  | some (.receiving job i received), .receive _ arrives parses =>
    (s.conns[i]?).bind fun c => s.receiveStep t job i received c arrives parses
  | some (.returning job i), .giveBack _ => some (s.giveBackStep t job i)
  | some (.notifying i), .callback _ raises =>
    if raises then (s.conns[i]?).map fun c => s.close t i c else some (s.setWorker t .idle)
  | _, _ => none

/-- One step. -/
def step (s : SocketPools) : SocketAction → Option SocketPools
  | .serve i j =>
    (s.conns[i]?).bind fun c => (c.asked[j]?).map fun id =>
      s.setConn i { c with asked := c.asked.eraseIdx j, answers := c.answers ++ [id] }
  | .hangUp i => (s.conns[i]?).map fun c => s.setConn i { c with ended := true }
  | .connect node silent =>
    let c := Connection.opened (socketPeer node false)
    some { s with
      conns := s.conns ++ [if silent then c else { c with closed := true }]
      pools := if silent then s.pools ++ [⟨node, false, s.conns.length⟩] else s.pools }
  | .disconnectPop j =>
    (s.pools[j]?).bind fun e => (s.conns[e.sock]?).map fun c =>
      { s.setConn e.sock { c with closed := true } with pools := s.pools.eraseIdx j }
  | .disconnectClear => some { s with pools := [] }
  | .start t job => s.workerStep t (.start t job)
  | .get t connects => s.workerStep t (.get t connects)
  | .select t arrived => s.workerStep t (.select t arrived)
  | .send t raisedBehind => s.workerStep t (.send t raisedBehind)
  | .receive t arrives parses => s.workerStep t (.receive t arrives parses)
  | .giveBack t => s.workerStep t (.giveBack t)
  | .callback t raises => s.workerStep t (.callback t raises)

end SocketPools

/-! ## Who has a socket -/

/-- The socket is open, connected to the port the pool stands for, and on the query port the answers to
these requests are still to be read from it. -/
def Carries (conns : List Connection) (i : Nat) (node : Node) (forQuery : Bool) (ids : List Nat) :
    Prop :=
  ∃ c, conns[i]? = some c ∧ c.closed = false ∧ c.peer = socketPeer node forQuery ∧
    (forQuery = true → c.outstanding.Perm ids)

/-- What a worker knows about its socket. -/
def PcOk (conns : List Connection) : WorkerPc → Prop
  | .selecting job i => Carries conns i job.node job.forQuery []
  | .sending job i => Carries conns i job.node job.forQuery []
  | .receiving job i received =>
    ∃ left, (received ++ left).Perm job.reqIds ∧ Carries conns i job.node job.forQuery left
  | .returning job i => Carries conns i job.node job.forQuery []
  | _ => True

theorem Carries.of_eq {conns conns' : List Connection} {i : Nat} {node : Node} {forQuery : Bool}
    {ids : List Nat} (h : Carries conns i node forQuery ids) (heq : conns'[i]? = conns[i]?) :
    Carries conns' i node forQuery ids := by
  obtain ⟨c, hc, hrest⟩ := h
  exact ⟨c, heq.trans hc, hrest⟩

theorem PcOk.of_eq {conns conns' : List Connection} {pc : WorkerPc} (h : PcOk conns pc)
    (heq : ∀ i, pc.sock = some i → conns'[i]? = conns[i]?) : PcOk conns' pc := by
  cases pc with
  | selecting job i => exact Carries.of_eq h (heq i rfl)
  | sending job i => exact Carries.of_eq h (heq i rfl)
  | receiving job i received =>
    obtain ⟨left, hleft, hcarries⟩ := h
    exact ⟨left, hleft, hcarries.of_eq (heq i rfl)⟩
  | returning job i => exact Carries.of_eq h (heq i rfl)
  | idle => trivial
  | getting job => trivial
  | notifying i => trivial

/-- What a server does to a connection leaves the answers that are still to be read as they are. -/
structure Connection.Served (c c' : Connection) : Prop where
  closed : c'.closed = c.closed
  peer : c'.peer = c.peer
  outstanding : c'.outstanding.Perm c.outstanding

theorem Carries.served {conns : List Connection} {i : Nat} {node : Node} {forQuery : Bool}
    {ids : List Nat} (h : Carries conns i node forQuery ids) {k : Nat} {c c' : Connection}
    (hget : conns[k]? = some c) (hserved : c.Served c') :
    Carries (conns.set k c') i node forQuery ids := by
  by_cases hne : k = i
  · subst hne
    obtain ⟨old, hold, hclosed, hpeer, hids⟩ := h
    rw [hget] at hold
    cases hold
    refine ⟨c', List.getElem?_set_self (List.getElem?_eq_some_iff.mp hget).1, ?_, ?_, ?_⟩
    · exact hserved.closed.trans hclosed
    · exact hserved.peer.trans hpeer
    · exact fun hquery => hserved.outstanding.trans (hids hquery)
  · exact h.of_eq (List.getElem?_set_ne hne)

theorem PcOk.served {conns : List Connection} {pc : WorkerPc} (h : PcOk conns pc) {k : Nat}
    {c c' : Connection} (hget : conns[k]? = some c) (hserved : c.Served c') :
    PcOk (conns.set k c') pc := by
  cases pc with
  | selecting job i => exact Carries.served h hget hserved
  | sending job i => exact Carries.served h hget hserved
  | receiving job i received =>
    obtain ⟨left, hleft, hcarries⟩ := h
    exact ⟨left, hleft, hcarries.served hget hserved⟩
  | returning job i => exact Carries.served h hget hserved
  | idle => trivial
  | getting job => trivial
  | notifying i => trivial

/-- A new connection is none of those there are. -/
theorem Carries.append {conns : List Connection} {i : Nat} {node : Node} {forQuery : Bool}
    {ids : List Nat} (h : Carries conns i node forQuery ids) (c : Connection) :
    Carries (conns ++ [c]) i node forQuery ids := by
  obtain ⟨old, hold, -⟩ := id h
  exact h.of_eq (List.getElem?_append_left (List.getElem?_eq_some_iff.mp hold).1)

theorem PcOk.append {conns : List Connection} {pc : WorkerPc} (h : PcOk conns pc) (c : Connection) :
    PcOk (conns ++ [c]) pc := by
  cases pc with
  | selecting job i => exact Carries.append h c
  | sending job i => exact Carries.append h c
  | receiving job i received =>
    obtain ⟨left, hleft, hcarries⟩ := h
    exact ⟨left, hleft, hcarries.append c⟩
  | returning job i => exact Carries.append h c
  | idle => trivial
  | getting job => trivial
  | notifying i => trivial

/-- The socket of an attempt is one that carries. -/
theorem PcOk.of_uses {conns : List Connection} {pc : WorkerPc} (h : PcOk conns pc) {job : SocketJob}
    {i : Nat} (huses : pc.uses = some (job, i)) :
    ∃ ids, Carries conns i job.node job.forQuery ids := by
  cases pc with
  | selecting job' i' =>
    cases huses
    exact ⟨_, h⟩
  | sending job' i' =>
    cases huses
    exact ⟨_, h⟩
  | receiving job' i' received =>
    cases huses
    obtain ⟨left, -, hcarries⟩ := h
    exact ⟨_, hcarries⟩
  | returning job' i' =>
    cases huses
    exact ⟨_, h⟩
  | idle => cases huses
  | getting job' => cases huses
  | notifying i' => cases huses

theorem PcOk.lt {conns : List Connection} {pc : WorkerPc} (h : PcOk conns pc) {i : Nat}
    (hsock : pc.sock = some i) : i < conns.length := by
  obtain ⟨⟨job, sock⟩, huses, rfl⟩ := Option.map_eq_some_iff.mp hsock
  obtain ⟨ids, c, hc, -⟩ := h.of_uses huses
  exact (List.getElem?_eq_some_iff.mp hc).1

/-- A connection that has just been made. -/
theorem carries_opened (conns : List Connection) (node : Node) (forQuery : Bool) :
    Carries (conns ++ [.opened (socketPeer node forQuery)]) conns.length node forQuery [] :=
  ⟨_, List.getElem?_concat_length, rfl, rfl, fun _ => List.Perm.refl _⟩

namespace SocketPools

/-- The sockets the workers use. -/
def held (s : SocketPools) : List Nat := s.workers.filterMap WorkerPc.sock

/-- The sockets in the pools. -/
def pooled (s : SocketPools) : List Nat := s.pools.map PooledSocket.sock

/-- Every socket is in one place, and everybody finds on it what he expects. -/
structure Inv (s : SocketPools) : Prop where
  nodup : (s.held ++ s.pooled).Nodup
  workers : ∀ (t : Nat) pc, s.workers[t]? = some pc → PcOk s.conns pc
  pools : ∀ e ∈ s.pools, Carries s.conns e.sock e.node e.forQuery []

theorem inv_init (n : Nat) : (init n).Inv := by
  have hidle : ∀ pc ∈ List.replicate n WorkerPc.idle, pc = .idle := fun _ => List.eq_of_mem_replicate
  refine ⟨?_, ?_, nofun⟩
  · have hheld : (init n).held = [] := by
      refine List.filterMap_eq_nil_iff.mpr fun pc hpc => ?_
      rw [hidle pc hpc]
      rfl
    rw [hheld]
    exact List.nodup_nil
  · intro t pc hpc
    rw [hidle pc (List.mem_of_getElem? hpc)]
    trivial

/-- The sockets of the workers but one. -/
def others (s : SocketPools) (t : Nat) : List Nat := (s.workers.eraseIdx t).filterMap WorkerPc.sock

section Owners

variable {s : SocketPools} {t : Nat} {old : WorkerPc}

theorem held_perm (hget : s.workers[t]? = some old) :
    s.held.Perm (old.sock.toList ++ s.others t) := by
  obtain ⟨ht, rfl⟩ := List.getElem?_eq_some_iff.mp hget
  have hperm := (List.getElem_cons_eraseIdx_perm ht).symm.filterMap WorkerPc.sock
  rw [List.filterMap_cons] at hperm
  unfold held others
  split at hperm <;> rename_i hsock <;> rw [hsock] <;> exact hperm

theorem held_setWorker (hget : s.workers[t]? = some old) (new : WorkerPc) :
    (s.setWorker t new).held.Perm (new.sock.toList ++ s.others t) := by
  obtain ⟨ht, -⟩ := List.getElem?_eq_some_iff.mp hget
  have hperm := (List.set_perm_cons_eraseIdx ht new).filterMap WorkerPc.sock
  rw [List.filterMap_cons] at hperm
  unfold held others setWorker
  split at hperm <;> rename_i hsock <;> rw [hsock] <;> exact hperm

/-- The socket of one worker is not that of another. -/
theorem Inv.others_disjoint (h : s.Inv) (hget : s.workers[t]? = some old) {i : Nat}
    (hsock : old.sock = some i) : i ∉ s.others t ++ s.pooled := by
  have hnodup := ((held_perm hget).append_right s.pooled).nodup_iff.mp h.nodup
  rw [hsock, Option.toList_some, List.singleton_append, List.cons_append] at hnodup
  exact (List.nodup_cons.mp hnodup).1

theorem mem_others {t' : Nat} {pc : WorkerPc} {i : Nat} (hget : s.workers[t']? = some pc)
    (hne : t' ≠ t) (hsock : pc.sock = some i) : i ∈ s.others t :=
  List.mem_filterMap.mpr ⟨pc, List.mem_eraseIdx_iff_getElem?.mpr ⟨t', hne, hget⟩, hsock⟩

/-- A worker goes on with its socket or without one, and leaves the connections of all others as they
are. -/
theorem Inv.move (h : s.Inv) (hget : s.workers[t]? = some old) {new : WorkerPc}
    {conns : List Connection} (hsock : new.sock = old.sock ∨ new.sock = none)
    (hconns : ∀ i, old.sock ≠ some i → conns[i]? = s.conns[i]?) (hok : PcOk conns new) :
    Inv { s.setWorker t new with conns := conns } := by
  refine ⟨?_, ?_, ?_⟩
  · have hbefore := ((held_perm hget).append_right s.pooled).nodup_iff.mp h.nodup
    refine ((held_setWorker hget new).append_right s.pooled).nodup_iff.mpr ?_
    rcases hsock with hsock | hsock
    · rw [hsock]
      exact hbefore
    · rw [hsock, Option.toList_none, List.nil_append]
      rw [List.append_assoc] at hbefore
      exact (List.nodup_append.mp hbefore).2.1
  · intro t' pc hpc
    have hpc : (s.workers.set t new)[t']? = some pc := hpc
    by_cases hne : t = t'
    · subst hne
      rw [List.getElem?_set_self (List.getElem?_eq_some_iff.mp hget).1] at hpc
      cases hpc
      exact hok
    · rw [List.getElem?_set_ne hne] at hpc
      refine (h.workers t' pc hpc).of_eq fun i hi => hconns i fun hold => ?_
      exact h.others_disjoint hget hold
        (List.mem_append_left _ (mem_others hpc (Ne.symm hne) hi))
  · intro e he
    refine (h.pools e he).of_eq (hconns e.sock fun hold => ?_)
    exact h.others_disjoint hget hold (List.mem_append_right _ (List.mem_map_of_mem he))

/-- A worker that has no socket, or has one no longer. -/
theorem Inv.release (h : s.Inv) (hget : s.workers[t]? = some old) {new : WorkerPc}
    (hnew : new.sock = none) : (s.setWorker t new).Inv := by
  refine h.move hget (Or.inr hnew) (fun _ _ => rfl) ?_
  cases new with
  | idle => trivial
  | getting job => trivial
  | notifying i => trivial
  | selecting job i => cases hnew
  | sending job i => cases hnew
  | receiving job i received => cases hnew
  | returning job i => cases hnew

/-- A worker closes its socket. -/
theorem Inv.drop (h : s.Inv) (hget : s.workers[t]? = some old) {i : Nat} (hsock : old.sock = some i)
    (c : Connection) {new : WorkerPc} (hnew : new.sock = none) :
    ((s.setConn i c).setWorker t new).Inv := by
  refine h.move hget (Or.inr hnew) ?_ ?_
  · intro j hj
    refine List.getElem?_set_ne ?_
    rintro rfl
    exact hj hsock
  · cases new with
    | idle => trivial
    | getting job => trivial
    | notifying i => trivial
    | selecting job i => cases hnew
    | sending job i => cases hnew
    | receiving job i received => cases hnew
    | returning job i => cases hnew

/-- A worker goes on with its socket. -/
theorem Inv.keep (h : s.Inv) (hget : s.workers[t]? = some old) {i : Nat} (hsock : old.sock = some i)
    (c : Connection) {new : WorkerPc} (hnew : new.sock = some i)
    (hok : PcOk (s.conns.set i c) new) : ((s.setConn i c).setWorker t new).Inv := by
  refine h.move hget (Or.inl (hnew.trans hsock.symm)) ?_ hok
  intro j hj
  refine List.getElem?_set_ne ?_
  rintro rfl
  exact hj hsock

/-- What a server does to one connection. -/
theorem Inv.served (h : s.Inv) {i : Nat} {c c' : Connection} (hget : s.conns[i]? = some c)
    (hserved : c.Served c') : (s.setConn i c').Inv :=
  ⟨h.nodup, fun t pc hpc => (h.workers t pc hpc).served hget hserved,
    fun e he => (h.pools e he).served hget hserved⟩

theorem Inv.lt (h : s.Inv) {i : Nat} (hi : i ∈ s.held ++ s.pooled) : i < s.conns.length := by
  rcases List.mem_append.mp hi with hi | hi
  · obtain ⟨pc, hpc, hsock⟩ := List.mem_filterMap.mp hi
    obtain ⟨t, ht⟩ := List.mem_iff_getElem?.mp hpc
    exact (h.workers t pc ht).lt hsock
  · obtain ⟨e, he, rfl⟩ := List.mem_map.mp hi
    obtain ⟨c, hc, -⟩ := h.pools e he
    exact (List.getElem?_eq_some_iff.mp hc).1

/-- A connection that nobody has. -/
theorem Inv.unused (h : s.Inv) (c : Connection) : Inv { s with conns := s.conns ++ [c] } :=
  ⟨h.nodup, fun t pc hpc => (h.workers t pc hpc).append c, fun e he => (h.pools e he).append c⟩

/-- A new connection for a worker. -/
theorem Inv.connected (h : s.Inv) (hget : s.workers[t]? = some old) (hold : old.sock = none)
    (job : SocketJob) :
    Inv { s with
      conns := s.conns ++ [.opened (socketPeer job.node job.forQuery)]
      workers := s.workers.set t (.sending job s.conns.length) } := by
  have hfresh : s.conns.length ∉ s.held ++ s.pooled := fun hmem => Nat.lt_irrefl _ (h.lt hmem)
  have hheld := held_perm hget
  rw [hold, Option.toList_none, List.nil_append] at hheld
  refine ⟨?_, ?_, ?_⟩
  · refine ((held_setWorker hget (.sending job s.conns.length)).append_right s.pooled).nodup_iff.mpr ?_
    refine List.nodup_cons.mpr ⟨?_, ((hheld.append_right s.pooled).nodup_iff.mp h.nodup)⟩
    exact fun hmem => hfresh ((hheld.append_right s.pooled).mem_iff.mpr hmem)
  · intro t' pc hpc
    have hpc : (s.workers.set t (.sending job s.conns.length))[t']? = some pc := hpc
    by_cases hne : t = t'
    · subst hne
      rw [List.getElem?_set_self (List.getElem?_eq_some_iff.mp hget).1] at hpc
      cases hpc
      exact carries_opened s.conns job.node job.forQuery
    · rw [List.getElem?_set_ne hne] at hpc
      exact (h.workers t' pc hpc).append _
  · exact fun e he => (h.pools e he).append _

/-- A worker takes a socket out of a pool. -/
theorem Inv.take (h : s.Inv) (hget : s.workers[t]? = some old) (hold : old.sock = none)
    {job : SocketJob} {e : PooledSocket} {pools : List PooledSocket}
    (hperm : s.pools.Perm (e :: pools)) (hnode : e.node = job.node)
    (hquery : e.forQuery = job.forQuery) :
    Inv { s with pools := pools, workers := s.workers.set t (.selecting job e.sock) } := by
  have hheld := held_perm hget
  rw [hold, Option.toList_none, List.nil_append] at hheld
  have hmem : e ∈ s.pools := hperm.mem_iff.mpr List.mem_cons_self
  refine ⟨?_, ?_, ?_⟩
  · have hpooled : s.pooled.Perm (e.sock :: pools.map PooledSocket.sock) :=
      hperm.map PooledSocket.sock
    refine ((held_setWorker hget (.selecting job e.sock)).append_right _).nodup_iff.mpr ?_
    refine (List.perm_middle.symm.trans (hheld.symm.append hpooled.symm)).nodup_iff.mpr h.nodup
  · intro t' pc hpc
    have hpc : (s.workers.set t (.selecting job e.sock))[t']? = some pc := hpc
    by_cases hne : t = t'
    · subst hne
      rw [List.getElem?_set_self (List.getElem?_eq_some_iff.mp hget).1] at hpc
      cases hpc
      show Carries s.conns e.sock job.node job.forQuery []
      rw [← hnode, ← hquery]
      exact h.pools e hmem
    · rw [List.getElem?_set_ne hne] at hpc
      exact h.workers t' pc hpc
  · exact fun e' he' => h.pools e' (hperm.mem_iff.mpr (List.mem_cons_of_mem e he'))

/-- A worker puts its socket into a pool. -/
theorem Inv.giveBack (h : s.Inv) {job : SocketJob} {i : Nat}
    (hget : s.workers[t]? = some (.returning job i)) : (s.giveBackStep t job i).Inv := by
  have hcarries : Carries s.conns i job.node job.forQuery [] := h.workers t _ hget
  have hnew : WorkerPc.sock (if job.forQuery then .idle else .notifying i) = none := by
    split <;> rfl
  have hreleased := h.release hget hnew
  refine ⟨?_, hreleased.workers, ?_⟩
  · have hheld := held_setWorker hget (if job.forQuery then .idle else .notifying i)
    rw [hnew, Option.toList_none, List.nil_append] at hheld
    have hbefore : (i :: s.others t ++ s.pooled).Nodup :=
      ((held_perm hget).append_right s.pooled).nodup_iff.mp h.nodup
    have hpooled : (s.giveBackStep t job i).pooled = s.pooled ++ [i] := List.map_append
    rw [hpooled]
    refine (hheld.append_right (s.pooled ++ [i])).nodup_iff.mpr ?_
    rw [← List.append_assoc]
    exact (List.perm_append_singleton i _).nodup_iff.mpr hbefore
  · intro e he
    rcases List.mem_append.mp he with he | he
    · exact h.pools e he
    · rw [List.mem_singleton.mp he]
      exact hcarries

/-- A socket goes out of its pool and is closed. -/
theorem Inv.disconnect (h : s.Inv) {j : Nat} {e : PooledSocket} (hget : s.pools[j]? = some e)
    (c : Connection) :
    Inv { s.setConn e.sock c with pools := s.pools.eraseIdx j } := by
  obtain ⟨hj, rfl⟩ := List.getElem?_eq_some_iff.mp hget
  have hperm := (List.getElem_cons_eraseIdx_perm hj).symm
  have hnodup : (s.held ++ (s.pools[j].sock :: (s.pools.eraseIdx j).map PooledSocket.sock)).Nodup :=
    ((List.Perm.refl s.held).append (hperm.map PooledSocket.sock)).nodup_iff.mp h.nodup
  have hfirst := List.perm_middle.nodup_iff.mp hnodup
  obtain ⟨hnot, hrest⟩ := List.nodup_cons.mp hfirst
  refine ⟨hrest, ?_, ?_⟩
  · intro t pc hpc
    refine (h.workers t pc hpc).of_eq fun i hi => List.getElem?_set_ne ?_
    rintro rfl
    exact hnot (List.mem_append_left _ (List.mem_filterMap.mpr ⟨pc, List.mem_of_getElem? hpc, hi⟩))
  · intro e' he'
    refine (h.pools e' (List.mem_of_mem_eraseIdx he')).of_eq (List.getElem?_set_ne ?_)
    intro heq
    exact hnot (List.mem_append_right _ (heq ▸ List.mem_map_of_mem he'))

end Owners

end SocketPools

/-! ## The steps -/

namespace SocketPools

namespace Inv

variable {s s' : SocketPools} {t : Nat}

theorem get (h : s.Inv) {job : SocketJob} (hget : s.workers[t]? = some (.getting job))
    (connects : Bool) : (s.getStep t job connects).Inv := by
  unfold getStep
  split
  · rename_i e hfind
    obtain ⟨hkey, before, behind, hpools, hbefore⟩ := List.find?_eq_some_iff_append.mp hfind
    obtain ⟨hnode, hquery⟩ := of_decide_eq_true hkey
    refine h.take hget rfl ?_ hnode hquery
    have hskip : ∀ a ∈ before, ¬ job.inPool a = true := by
      intro a ha
      rw [Bool.not_eq_true, ← Bool.not_eq_true']
      exact hbefore a ha
    rw [hpools, List.eraseP_append_right _ hskip, List.eraseP_cons_of_pos hkey]
    exact List.perm_middle
  · split
    · exact h.connected hget rfl job
    · exact h.release hget rfl

theorem select (h : s.Inv) {job : SocketJob} {i : Nat}
    (hget : s.workers[t]? = some (.selecting job i)) (c : Connection) (arrived : Option Bool) :
    (s.selectStep t job i c arrived).Inv := by
  have hcarries : Carries s.conns i job.node job.forQuery [] := h.workers t _ hget
  cases arrived with
  | none => exact h.release hget rfl
  | some arrived =>
    unfold selectStep
    simp only
    split
    · exact h.release hget rfl
    · split
      · exact h.drop hget rfl _ rfl
      · exact h.move hget (Or.inl rfl) (fun _ _ => rfl) hcarries

theorem send (h : s.Inv) {job : SocketJob} {i : Nat} (hget : s.workers[t]? = some (.sending job i))
    {c : Connection} (hc : s.conns[i]? = some c) (raisedBehind : Option Nat) :
    (s.sendStep t job i c raisedBehind).Inv := by
  unfold sendStep
  split
  · exact h.drop hget rfl _ rfl
  · split
    · exact h.drop hget rfl _ rfl
    · -- nothing was to be read before, so what is to be read now is what has just been asked
      refine h.keep hget rfl _ rfl ⟨job.reqIds, List.Perm.refl _, ?_⟩
      obtain ⟨c', hc', hclosed, hpeer, hids⟩ := h.workers t _ hget
      rw [hc] at hc'
      cases hc'
      refine ⟨_, List.getElem?_set_self (List.getElem?_eq_some_iff.mp hc).1, hclosed, hpeer, ?_⟩
      intro hquery
      have hnil : c.answers ++ c.asked = [] := List.perm_nil.mp (hids hquery)
      obtain ⟨hanswers, hasked⟩ := List.append_eq_nil_iff.mp hnil
      show (c.answers ++ (c.asked ++ job.reqIds)).Perm job.reqIds
      rw [hanswers, hasked]
      exact List.Perm.refl _

/-- The worker reads the answer that has arrived first. -/
theorem answer (h : s.Inv) {job : SocketJob} {i : Nat} {received : List Nat}
    (hget : s.workers[t]? = some (.receiving job i received)) {c : Connection}
    (hc : s.conns[i]? = some c) (hquery : job.forQuery = true) {id : Nat} {rest : List Nat}
    (hanswers : c.answers = id :: rest) :
    ((s.setConn i { c with answers := rest }).setWorker t
      (.receiving job i (received ++ [id]))).Inv := by
  refine h.keep hget rfl _ rfl ?_
  obtain ⟨left, hleft, c', hc', hclosed, hpeer, hids⟩ := h.workers t _ hget
  rw [hc] at hc'
  cases hc'
  have houtstanding : (id :: (rest ++ c.asked)).Perm left := by
    have hids := hids hquery
    unfold Connection.outstanding at hids
    rw [hanswers] at hids
    exact hids
  refine ⟨rest ++ c.asked, ?_, _, List.getElem?_set_self (List.getElem?_eq_some_iff.mp hc).1, hclosed,
    hpeer, fun _ => List.Perm.refl _⟩
  rw [List.append_assoc]
  exact (houtstanding.append_left received).trans hleft

theorem receive (h : s.Inv) {job : SocketJob} {i : Nat} {received : List Nat}
    (hget : s.workers[t]? = some (.receiving job i received)) {c : Connection}
    (hc : s.conns[i]? = some c) {arrives parses : Bool}
    (hstep : s.receiveStep t job i received c arrives parses = some s') : s'.Inv := by
  have hset : ∀ a b : Connection, (s.setConn i a).setConn i b = s.setConn i b := by
    intro a b
    unfold setConn
    rw [List.set_set]
  obtain ⟨left, hleft, hcarries⟩ := h.workers t _ hget
  unfold receiveStep at hstep
  split at hstep
  · cases hstep
    exact h.drop hget rfl _ rfl
  · split at hstep
    · -- all responses are read, so none is left on the socket
      rename_i hall
      cases hstep
      have hnil : left = [] := by
        have hlen := hleft.length_eq
        rw [List.length_append] at hlen
        exact List.length_eq_zero_iff.mp (by omega)
      rw [hnil] at hcarries
      exact h.move hget (Or.inl rfl) (fun _ _ => rfl) hcarries
    · split at hstep
      · cases hstep
        exact h.drop hget rfl _ rfl
      · cases job with
        | sendBatch node =>
          cases hstep
          have hok : PcOk s.conns (.returning (.sendBatch node) i) := by
            obtain ⟨c', hc', hclosed, hpeer, -⟩ := hcarries
            exact ⟨c', hc', hclosed, hpeer, nofun⟩
          exact h.move hget (Or.inl rfl) (fun _ _ => rfl) hok
        | querySingle node reqId =>
          simp only at hstep
          split at hstep
          · cases hstep
          · rename_i id rest hanswers
            split at hstep
            · cases hstep
              unfold close
              rw [hset]
              exact h.drop hget rfl _ rfl
            · split at hstep
              · cases hstep
                exact h.answer hget hc rfl hanswers
              · cases hstep
                exact h.drop hget rfl _ rfl
        | queryBatch node reqIds =>
          simp only at hstep
          split at hstep
          · cases hstep
          · rename_i id rest hanswers
            split at hstep
            · cases hstep
              unfold close
              rw [hset]
              exact h.drop hget rfl _ rfl
            · cases hstep
              exact h.answer hget hc rfl hanswers

theorem worker (h : s.Inv) {a : SocketAction} (ha : a.CallbackReturns)
    (hstep : s.workerStep t a = some s') : s'.Inv := by
  unfold workerStep at hstep
  split at hstep
  · rename_i hget
    cases hstep
    exact h.release hget rfl
  · rename_i hget
    cases hstep
    exact h.get hget _
  · rename_i hget
    obtain ⟨c, -, rfl⟩ := Option.map_eq_some_iff.mp hstep
    exact h.select hget c _
  · rename_i hget
    obtain ⟨c, hc, rfl⟩ := Option.map_eq_some_iff.mp hstep
    exact h.send hget hc _
  · rename_i hget
    obtain ⟨c, hc, hreceive⟩ := Option.bind_eq_some_iff.mp hstep
    exact h.receive hget hc hreceive
  · rename_i hget
    cases hstep
    exact h.giveBack hget
  · rename_i raises hget
    have hreturns : raises = false := ha
    rw [hreturns, if_neg Bool.false_ne_true] at hstep
    cases hstep
    exact h.release hget rfl
  · cases hstep

theorem step (h : s.Inv) {a : SocketAction} (ha : a.CallbackReturns) (hstep : s.step a = some s') :
    s'.Inv := by
  cases a with
  | serve i j =>
    obtain ⟨c, hc, hmap⟩ := Option.bind_eq_some_iff.mp hstep
    obtain ⟨id, hid, rfl⟩ := Option.map_eq_some_iff.mp hmap
    obtain ⟨hj, rfl⟩ := List.getElem?_eq_some_iff.mp hid
    refine h.served hc ⟨rfl, rfl, ?_⟩
    -- the answer takes the place of its request
    show (c.answers ++ [c.asked[j]] ++ c.asked.eraseIdx j).Perm (c.answers ++ c.asked)
    rw [List.append_assoc]
    exact (List.getElem_cons_eraseIdx_perm hj).append_left c.answers
  | hangUp i =>
    obtain ⟨c, hc, rfl⟩ := Option.map_eq_some_iff.mp hstep
    exact h.served hc ⟨rfl, rfl, List.Perm.refl _⟩
  | connect node silent =>
    cases hstep
    cases silent with
    | true =>
      have hnext := h.unused (.opened (socketPeer node false))
      refine ⟨?_, hnext.workers, ?_⟩
      · have hfresh : s.conns.length ∉ s.held ++ s.pooled :=
          fun hmem => Nat.lt_irrefl _ (h.lt hmem)
        have hpooled : (s.pools ++ [PooledSocket.mk node false s.conns.length]).map PooledSocket.sock =
            s.pooled ++ [s.conns.length] := List.map_append
        show (s.held ++ (s.pools ++ [_]).map PooledSocket.sock).Nodup
        rw [hpooled, ← List.append_assoc]
        exact (List.perm_append_singleton _ _).nodup_iff.mpr (List.nodup_cons.mpr ⟨hfresh, h.nodup⟩)
      · intro e he
        rcases List.mem_append.mp he with he | he
        · exact hnext.pools e he
        · rw [List.mem_singleton.mp he]
          exact carries_opened s.conns node false
    | false => exact h.unused _
  | disconnectPop j =>
    obtain ⟨e, he, hmap⟩ := Option.bind_eq_some_iff.mp hstep
    obtain ⟨c, -, rfl⟩ := Option.map_eq_some_iff.mp hmap
    exact h.disconnect he _
  | disconnectClear =>
    cases hstep
    refine ⟨?_, h.workers, nofun⟩
    show (s.held ++ []).Nodup
    rw [List.append_nil]
    exact (List.nodup_append.mp h.nodup).1
  | start t job => exact h.worker ha hstep
  | get t connects => exact h.worker ha hstep
  | select t arrived => exact h.worker ha hstep
  | send t raisedBehind => exact h.worker ha hstep
  | receive t arrives parses => exact h.worker ha hstep
  | giveBack t => exact h.worker ha hstep
  | callback t raises => exact h.worker ha hstep

end Inv

end SocketPools

/-- In every run of the workers whose callbacks return, with every timing of the servers and every
failure: a socket is used by one worker or is in one pool, once; those in use and in the pools are
open and connected to the port their pool stands for; on a query socket in a pool there is no answer to
come; and what a worker has read, has to read and has still to be answered are together the requests it
has written itself. -/
theorem sockets_unshared {n : Nat} {as : List SocketAction} {s : SocketPools}
    (hquiet : ∀ a ∈ as, a.CallbackReturns) (hrun : run SocketPools.step (SocketPools.init n) as = some s) :
    (s.held ++ s.pooled).Nodup ∧
    (∀ e ∈ s.pools, ∃ c, s.conns[e.sock]? = some c ∧ c.closed = false ∧
      c.peer = socketPeer e.node e.forQuery ∧ (e.forQuery = true → c.outstanding = [])) ∧
    (∀ pc ∈ s.workers, ∀ job i, pc.uses = some (job, i) →
      ∃ c, s.conns[i]? = some c ∧ c.closed = false ∧ c.peer = socketPeer job.node job.forQuery) ∧
    ∀ job i received, WorkerPc.receiving job i received ∈ s.workers → job.forQuery = true →
      ∃ c, s.conns[i]? = some c ∧ (received ++ c.outstanding).Perm job.reqIds := by
  have hinv : s.Inv :=
    run_invariant (fun _ _ _ ha h hstep => h.step ha hstep) hquiet (SocketPools.inv_init n) hrun
  refine ⟨hinv.nodup, fun e he => ?_, fun pc hpc job i huses => ?_, fun job i received hpc hquery => ?_⟩
  · obtain ⟨c, hc, hclosed, hpeer, hids⟩ := hinv.pools e he
    exact ⟨c, hc, hclosed, hpeer, fun hquery => List.perm_nil.mp (hids hquery)⟩
  · obtain ⟨t, hget⟩ := List.getElem?_of_mem hpc
    obtain ⟨ids, c, hc, hclosed, hpeer, -⟩ := (hinv.workers t pc hget).of_uses huses
    exact ⟨c, hc, hclosed, hpeer⟩
  · obtain ⟨t, hget⟩ := List.getElem?_of_mem hpc
    obtain ⟨left, hleft, c, hc, -, -, hids⟩ := hinv.workers t _ hget
    exact ⟨c, hc, ((hids hquery).append_left received).trans hleft⟩

/-- The leader of a cluster of one server. -/
def loneNode : Node := ⟨"c", 1, "h", 9000⟩

/-- A query of the first worker; a batch of two of the second on the same socket, one of which is
answered; and a third one of the first worker, whose `select` raises on that socket and which tries
again with a new one. -/
def threeAttempts : List SocketAction :=
  [.start 0 (.querySingle loneNode 1), .get 0 true, .send 0 none, .serve 0 0,
    .receive 0 true true, .receive 0 true true, .giveBack 0,
    .start 1 (.queryBatch loneNode [2, 3]), .get 1 true, .select 1 (some false), .send 1 none,
    .serve 0 1, .receive 1 true true, .serve 0 0, .receive 1 true true, .receive 1 true true,
    .giveBack 1, .start 0 (.querySingle loneNode 4), .get 0 true, .select 0 none,
    .start 1 (.queryBatch loneNode [5, 6]), .get 1 true, .send 1 none, .serve 1 1,
    .receive 1 true true, .start 0 (.querySingle loneNode 4), .get 0 true]

theorem sockets_unshared_three :
    ∃ s c c', run SocketPools.step (SocketPools.init 2) threeAttempts = some s ∧
      s.workers = [.sending (.querySingle loneNode 4) 2,
        .receiving (.queryBatch loneNode [5, 6]) 1 [6]] ∧
      s.conns[1]? = some c ∧ ([6] ++ c.outstanding).Perm [5, 6] ∧
      s.conns[2]? = some c' ∧ c'.closed = false ∧ c'.peer = ("h", 10000) := by
  obtain ⟨s, hrun, hworkers⟩ : ∃ s,
      run SocketPools.step (SocketPools.init 2) threeAttempts = some s ∧
      s.workers = [.sending (.querySingle loneNode 4) 2,
        .receiving (.queryBatch loneNode [5, 6]) 1 [6]] := ⟨_, rfl, rfl⟩
  have hquiet : ∀ a ∈ threeAttempts, a.CallbackReturns := by
    simp [threeAttempts, SocketAction.CallbackReturns]
  obtain ⟨-, -, huses, hreceives⟩ := sockets_unshared hquiet hrun
  obtain ⟨c', hc', hopen, hpeer⟩ := huses _ (hworkers ▸ List.mem_cons_self) _ 2 rfl
  obtain ⟨c, hc, hids⟩ := hreceives _ 1 [6]
    (hworkers ▸ List.mem_cons_of_mem _ List.mem_cons_self) rfl
  exact ⟨s, c, c', hrun, hworkers, hc, hids, hc', hopen, hpeer⟩

/-- A callback that raises closes a socket that another worker has taken in the meantime. -/
theorem not_sockets_unshared :
    ∃ as s c, run SocketPools.step (SocketPools.init 2) as = some s ∧
      s.workers[1]? = some (.receiving (.sendBatch loneNode) 0 []) ∧ s.conns[0]? = some c ∧
      c.closed = true :=
  ⟨[.start 0 (.sendBatch loneNode), .get 0 true, .send 0 none, .receive 0 true true, .giveBack 0,
    .start 1 (.sendBatch loneNode), .get 1 true, .select 1 (some false), .send 1 none, .callback 0 true],
    _, _, rfl, rfl, rfl, rfl⟩

end RaftLsmt.Client
