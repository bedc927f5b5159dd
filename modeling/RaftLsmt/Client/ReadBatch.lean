import RaftLsmt.Client.Response
import RaftLsmt.Client.Routing
import RaftLsmt.Lib.StepMachine

/-!
# Reading a batch of queries

`read_batch` sends to each node the queries routed to it and collects the answers as they come, with
a follow-up request behind each page that was cut. `BatchRead` is the state of `_aggregate` and
`BatchRead.step` what it does with one future that is done, in any order.

The first pages are filed under the node that answered, which need not be the node that was asked: on
a failure `_query_batch_single_node` goes on to the other nodes of the cluster. `BatchRead.Right` says
when the result is right, `BatchInput.Wf` what a call starts from and `BatchRead.Answered` what the
servers send.
-/

set_option autoImplicit false

namespace RaftLsmt.Client

open RaftLsmt.Lib.OrderedDict
open RaftLsmt.Lib.StepMachine

/-! ## The nodes that are tried -/

/-- `preferred_nodes`: the node itself, the other followers, the leader. -/
def preferredNodes (nodes : List Node) (leader : Option Node) (node : Node) : List Node :=
  let preferred := nodes.filter (fun n => some n ≠ leader) ++ nodes.filter fun n => some n = leader
  if node ∈ preferred then node :: preferred.erase node else preferred

/-- What a call of `read_batch` starts from: the nodes of each cluster, the queries, the nodes each
query is routed to and its request id. `leader` is the registered leader and `fails` says which nodes
fail when the queries for a node are sent. -/
structure BatchInput where
  clusters : Dict String (List Node)
  queries : List QueryRequest
  routes : List (List Node)
  initialReqIds : List Nat
  leader : Node → Option Node
  fails : Node → Node → Bool

/-- `node_queries[node].append((idx, query))`. -/
def addQuery (nodeQueries : Dict Node (List Nat)) (idx : Nat) (node : Node) : Dict Node (List Nat) :=
  nodeQueries.set node ((nodeQueries.get node).getD [] ++ [idx])

/-- The loop that maps each node to the queries it gets. -/
def mapQueries : List (List Node) → Nat → Dict Node (List Nat) → Dict Node (List Nat)
  | [], _, nodeQueries => nodeQueries
  | nodes :: routes, idx, nodeQueries =>
    mapQueries routes (idx + 1) (nodes.foldl (fun d node => addQuery d idx node) nodeQueries)

namespace BatchInput

/-- `node_queries`. -/
def nodeQueries (input : BatchInput) : Dict Node (List Nat) := mapQueries input.routes 0 Dict.empty

/-- `initial_req_ids[idx]`. -/
def reqIdOf (input : BatchInput) (idx : Nat) : Nat := input.initialReqIds.getD idx 0

/-- The node that answers the queries for `node` in `_query_batch_single_node`. -/
def answeringNode (input : BatchInput) (node : Node) : Option Node :=
  (preferredNodes ((input.clusters.get node.clusterName).getD []) (input.leader node) node).find?
    fun n => input.fails node n = false

end BatchInput

/-- `ordered_responses`: the last response to each request; one without a response makes the caller
raise an error. -/
def orderResponses (responses : List ReadResult) : List Nat → Option (List ReadResult)
  | [] => some []
  | reqId :: reqIds =>
    match responses.reverse.find? (fun resp => resp.reqId = reqId), orderResponses responses reqIds with
    | some resp, some ordered => some (resp :: ordered)
    | _, _ => none

/-! ## The aggregation -/

/-- A future that is not done: the queries for a node, or the next page of the query `origQueryIdx`,
for the position `idx` of the node `n`. -/
inductive PendingRead where
  | batch (node : Node) (idxs : List Nat)
  | page (n : Node) (idx origQueryIdx expectedReqId : Nat) (pageQuery : QueryRequest)

/-- The variables of `_aggregate`. `raised` is set by an exception. `received` is history: the pages
received, in their order, each with the cluster it came from and the query it answers. -/
structure BatchRead where
  nodeToAccumulated : Dict Node (List ReadResult)
  activeFutures : List PendingRead
  nextReqId : Nat
  raised : Bool
  received : List (String × Nat × ReadResult)

/-- A future is done: with the responses in the order of their arrival, or with a page. -/
inductive Completion where
  | batch (k : Nat) (responses : List ReadResult)
  | page (k : Nat) (pageResponse : ReadResult)

/-- A further page of a response. -/
def addPage (resp page : ReadResult) : ReadResult :=
  { resp with
    records := resp.records ++ page.records
    recordsCount := resp.recordsCount + page.recordsCount
    recordsBytes := resp.recordsBytes + page.recordsBytes
    limitReached := page.limitReached
    maxId := page.maxId
    maxTs := page.maxTs }

/-- `resp_dict["limit_reached"] and resp_dict["max_id"] < orig_query.max_id`. -/
def QueryRequest.Unfinished (query : QueryRequest) (resp : ReadResult) : Prop :=
  resp.limitReached = true ∧ resp.maxId.toNat < query.maxId

instance (query : QueryRequest) (resp : ReadResult) : Decidable (query.Unfinished resp) :=
  inferInstanceAs (Decidable (_ ∧ _))

/-- Behind a page: ask for the next one or clear `limit_reached`. -/
def followUp (n : Node) (idx origQueryIdx : Nat) (query : QueryRequest) (resp : ReadResult)
    (nextReqId : Nat) : ReadResult × List PendingRead × Nat :=
  if query.Unfinished resp then
    (resp, [.page n idx origQueryIdx nextReqId
      { query with minId := resp.maxId.toNat + 1, minTs := 0 }], nextReqId + 1)
  else ({ resp with limitReached := false }, [], nextReqId)

/-- The loop over the responses to the queries for a node; `none` when it raises an error. -/
def firstPages (queries : List QueryRequest) (n : Node) :
    Nat → List Nat → List ReadResult → Nat → Option (List ReadResult × List PendingRead × Nat)
  | subIdx, origQueryIdx :: idxs, resp :: responses, nextReqId =>
    match queries[origQueryIdx]? with
    | none => none
    | some query =>
      if resp.limitReached = true ∧ resp.recordsCount = 0 then none
      else if resp.limitReached = true ∧ resp.maxId.toNat < query.minId then none
      else
        let (resp, page, nextReqId) := followUp n subIdx origQueryIdx query resp nextReqId
        match firstPages queries n (subIdx + 1) idxs responses nextReqId with
        | none => none
        | some (responses, pages, nextReqId) => some (resp :: responses, page ++ pages, nextReqId)
  | _, [], [], nextReqId => some ([], [], nextReqId)
  | _, _, _, _ => none

/-- The future at `k` and the others. -/
theorem exists_split_of_getElem? {α : Type} {l : List α} {k : Nat} {a : α} (h : l[k]? = some a) :
    ∃ before behind, l = before ++ a :: behind ∧ l.eraseIdx k = before ++ behind := by
  obtain ⟨hlt, rfl⟩ := List.getElem?_eq_some_iff.mp h
  refine ⟨l.take k, l.drop (k + 1), ?_, List.eraseIdx_eq_take_drop_succ l k⟩
  rw [List.getElem_cons_drop, List.take_append_drop]

namespace BatchRead

/-- The state of `_aggregate` before its loop. -/
def init (input : BatchInput) (nextReqId : Nat) : BatchRead where
  nodeToAccumulated := Dict.empty
  activeFutures := input.nodeQueries.entries.map fun p => .batch p.1 p.2
  nextReqId := nextReqId
  raised := false
  received := []

/-- The answers to the queries for a node. -/
def batchDone (input : BatchInput) (s : BatchRead) (k : Nat) (node : Node) (idxs : List Nat)
    (responses : List ReadResult) : BatchRead :=
  match input.answeringNode node, orderResponses responses (idxs.map input.reqIdOf) with
  | some n, some ordered =>
    match firstPages input.queries n 0 idxs ordered s.nextReqId with
    | none => { s with raised := true }
    | some (accumulated, pages, nextReqId) =>
      { s with
        nodeToAccumulated := s.nodeToAccumulated.set n accumulated
        activeFutures := s.activeFutures.eraseIdx k ++ pages
        nextReqId := nextReqId
        received := s.received ++
          (idxs.zip ordered).map fun p => (n.clusterName, p.1, p.2) }
  | _, _ => { s with raised := true }

/-- A further page. -/
def pageDone (input : BatchInput) (s : BatchRead) (k : Nat) (n : Node)
    (idx origQueryIdx expectedReqId : Nat) (page : ReadResult) : BatchRead :=
  if page.reqId ≠ expectedReqId then { s with raised := true }
  else if page.limitReached = true ∧ page.recordsCount = 0 then { s with raised := true }
  else
    match s.nodeToAccumulated.get n, input.queries[origQueryIdx]? with
    | some accumulated, some query =>
      match accumulated[idx]? with
      | none => { s with raised := true }
      | some resp =>
        if page.limitReached = true ∧ page.maxId < resp.maxId then { s with raised := true }
        else
          let (resp, pages, nextReqId) :=
            followUp n idx origQueryIdx query (addPage resp page) s.nextReqId
          { s with
            nodeToAccumulated := s.nodeToAccumulated.set n (accumulated.set idx resp)
            activeFutures := s.activeFutures.eraseIdx k ++ pages
            nextReqId := nextReqId
            received := s.received ++ [(n.clusterName, origQueryIdx, page)] }
    | _, _ => { s with raised := true }

/-- One turn of the loop of `_aggregate`. -/
def step (input : BatchInput) (s : BatchRead) (e : Completion) : Option BatchRead :=
  if s.raised then none
  else
    match e with
    | .batch k responses =>
      match s.activeFutures[k]? with
      | some (.batch node idxs) => some (s.batchDone input k node idxs responses)
      | _ => none
    | .page k page =>
      match s.activeFutures[k]? with
      | some (.page n idx origQueryIdx expectedReqId _) =>
        some (s.pageDone input k n idx origQueryIdx expectedReqId page)
      | _ => none

/-- All responses in `results[cluster_name]`. -/
def responsesOf (s : BatchRead) (clusterName : String) : List ReadResult :=
  (s.nodeToAccumulated.entries.filter fun p => p.1.clusterName = clusterName).flatMap Prod.snd

/-- The pages of one query from one cluster. -/
def pagesOf (s : BatchRead) (clusterName : String) (idx : Nat) : List ReadResult :=
  (s.received.filter fun p => p.1 = clusterName ∧ p.2.1 = idx).map fun p => p.2.2

end BatchRead

/-! ## What is right -/

/-- The first page and its follow-up pages in one response. -/
def accumulate : List ReadResult → Option ReadResult
  | [] => none
  | first :: pages => some (pages.foldl addPage first)

/-- The result has exactly one response for each query and each cluster it is routed to, and that
response accumulates the pages of that query from that cluster, down to the last one. -/
def BatchRead.Right (input : BatchInput) (s : BatchRead) : Prop :=
  ∀ idx nodes query, input.routes[idx]? = some nodes → input.queries[idx]? = some query →
    ∀ node ∈ nodes, ∃ resp,
      accumulate (s.pagesOf node.clusterName idx) = some resp ∧ ¬ query.Unfinished resp ∧
        (s.responsesOf node.clusterName).filter (fun r => r.reqId = input.reqIdOf idx) =
          [{ resp with limitReached := false }]

/-- The input of a call: the nodes of a cluster carry its name, a query is routed to at most one node
of each cluster, the request ids are distinct, and in each cluster asked a node is reachable. -/
structure BatchInput.Wf (input : BatchInput) : Prop where
  clusters : ∀ p ∈ input.clusters.entries, ∀ n ∈ p.2, n.clusterName = p.1
  routes : ∀ nodes ∈ input.routes, (nodes.map Node.clusterName).Nodup
  routes_length : input.routes.length = input.queries.length
  reqIds_length : input.initialReqIds.length = input.queries.length
  reqIds_nodup : input.initialReqIds.Nodup
  reachable : ∀ p ∈ input.nodeQueries.entries, ∃ n, input.answeringNode p.1 = some n

/-- The servers answer as they should: each request once, no cut page is empty, and a cut page ends
neither before the query begins nor before the page that precedes it. -/
def BatchRead.Answered (input : BatchInput) (s : BatchRead) : Completion → Prop
  | .batch k responses =>
    ∀ node idxs, s.activeFutures[k]? = some (.batch node idxs) →
      (responses.map ReadResult.reqId).Perm (idxs.map input.reqIdOf) ∧
      ∀ idx ∈ idxs, ∀ query, input.queries[idx]? = some query → ∀ resp ∈ responses,
        resp.reqId = input.reqIdOf idx → resp.limitReached = true →
          resp.recordsCount ≠ 0 ∧ query.minId ≤ resp.maxId.toNat
  | .page k page =>
    ∀ n idx origQueryIdx expectedReqId pageQuery,
      s.activeFutures[k]? = some (.page n idx origQueryIdx expectedReqId pageQuery) →
      page.reqId = expectedReqId ∧
      (page.limitReached = true → page.recordsCount ≠ 0 ∧
        ∀ resp, accumulate (s.pagesOf n.clusterName origQueryIdx) = some resp →
          resp.maxId ≤ page.maxId)

/-- No node answers the queries for two nodes. -/
def BatchInput.OwnNodes (input : BatchInput) : Prop :=
  ∀ p ∈ input.nodeQueries.entries, ∀ p' ∈ input.nodeQueries.entries,
    input.answeringNode p.1 = input.answeringNode p'.1 → p.1 = p'.1

/-! ## The queries of a node -/

/-- The queries routed to `node`. -/
def queriesOf (node : Node) : List (List Node) → Nat → List Nat
  | [], _ => []
  | nodes :: routes, idx => (if node ∈ nodes then [idx] else []) ++ queriesOf node routes (idx + 1)

theorem mem_queriesOf {node : Node} {routes : List (List Node)} {start q : Nat} :
    q ∈ queriesOf node routes start ↔
      ∃ i nodes, routes[i]? = some nodes ∧ node ∈ nodes ∧ q = start + i := by
  induction routes generalizing start with
  | nil => simp [queriesOf]
  | cons first routes ih =>
    rw [queriesOf, List.mem_append, ih]
    constructor
    · rintro (hfirst | ⟨i, nodes, hnodes, hmem, rfl⟩)
      · split at hfirst
        · rename_i hmem
          exact ⟨0, first, rfl, hmem, List.mem_singleton.mp hfirst⟩
        · cases hfirst
      · exact ⟨i + 1, nodes, hnodes, hmem, by omega⟩
    · rintro ⟨i, nodes, hnodes, hmem, rfl⟩
      cases i with
      | zero =>
        cases hnodes
        rw [if_pos hmem]
        exact Or.inl (List.mem_singleton.mpr rfl)
      | succ i => exact Or.inr ⟨i, nodes, hnodes, hmem, by omega⟩

theorem nodup_queriesOf (node : Node) (routes : List (List Node)) (start : Nat) :
    (queriesOf node routes start).Nodup := by
  induction routes generalizing start with
  | nil => exact List.nodup_nil
  | cons nodes routes ih =>
    unfold queriesOf
    split
    · rw [List.singleton_append, List.nodup_cons]
      refine ⟨fun hmem => ?_, ih (start + 1)⟩
      obtain ⟨i, -, -, -, heq⟩ := mem_queriesOf.mp hmem
      omega
    · exact ih (start + 1)

theorem get_addQuery (d : Dict Node (List Nat)) (idx : Nat) (node m : Node) :
    ((addQuery d idx node).get m).getD [] =
      (d.get m).getD [] ++ if m = node then [idx] else [] := by
  unfold addQuery
  rw [Dict.get_set]
  split
  · rename_i heq
    rw [heq, Option.getD_some]
  · rw [List.append_nil]

theorem get_addQueries {nodes : List Node} (h : nodes.Nodup) (d : Dict Node (List Nat)) (idx : Nat)
    (m : Node) : ((nodes.foldl (fun d node => addQuery d idx node) d).get m).getD [] =
      (d.get m).getD [] ++ if m ∈ nodes then [idx] else [] := by
  induction nodes generalizing d with
  | nil => simp
  | cons node nodes ih =>
    obtain ⟨hnot, hnodup⟩ := List.nodup_cons.mp h
    rw [List.foldl_cons, ih hnodup, get_addQuery]
    by_cases hm : m = node
    · subst hm
      simp [hnot]
    · simp [hm]

theorem get_mapQueries {routes : List (List Node)} (h : ∀ nodes ∈ routes, nodes.Nodup)
    (d : Dict Node (List Nat)) (start : Nat) (m : Node) :
    ((mapQueries routes start d).get m).getD [] = (d.get m).getD [] ++ queriesOf m routes start := by
  induction routes generalizing d start with
  | nil => simp [mapQueries, queriesOf]
  | cons nodes routes ih =>
    rw [mapQueries, ih (fun nodes hnodes => h nodes (List.mem_cons_of_mem _ hnodes)),
      get_addQueries (h nodes List.mem_cons_self), queriesOf, List.append_assoc]

/-- A node that is in the dictionary has a query. -/
theorem mapQueries_ne_nil {routes : List (List Node)} {start : Nat} {d : Dict Node (List Nat)}
    (hd : ∀ m idxs, d.get m = some idxs → idxs ≠ []) :
    ∀ m idxs, (mapQueries routes start d).get m = some idxs → idxs ≠ [] := by
  induction routes generalizing start d with
  | nil => exact hd
  | cons nodes routes ih =>
    rw [mapQueries]
    apply ih
    induction nodes generalizing d with
    | nil => exact hd
    | cons node nodes ih' =>
      rw [List.foldl_cons]
      apply ih'
      intro m idxs hget
      unfold addQuery at hget
      rw [Dict.get_set] at hget
      split at hget
      · cases hget
        exact List.append_ne_nil_of_right_ne_nil _ (List.cons_ne_nil _ _)
      · exact hd m idxs hget

namespace BatchInput.Wf

variable {input : BatchInput}

theorem routes_nodup (h : input.Wf) : ∀ nodes ∈ input.routes, nodes.Nodup :=
  fun nodes hnodes => (h.routes nodes hnodes).of_map

/-- The entry of a node lists the queries routed to it. -/
theorem mem_nodeQueries (h : input.Wf) {node : Node} {idxs : List Nat} :
    (node, idxs) ∈ input.nodeQueries.entries ↔
      idxs = queriesOf node input.routes 0 ∧ idxs ≠ [] := by
  have hgetD := get_mapQueries h.routes_nodup Dict.empty 0 node
  rw [Dict.get_empty, Option.getD_none, List.nil_append] at hgetD
  rw [Dict.mem_entries_iff]
  constructor
  · intro hget
    refine ⟨?_, mapQueries_ne_nil (by simp) node idxs hget⟩
    rw [← hgetD]
    show idxs = (input.nodeQueries.get node).getD []
    rw [hget]
    rfl
  · rintro ⟨heq, hne⟩
    cases hget : input.nodeQueries.get node with
    | none =>
      have hnone : (input.nodeQueries.get node).getD [] = queriesOf node input.routes 0 := hgetD
      rw [hget, Option.getD_none] at hnone
      exact absurd (heq.trans hnone.symm) hne
    | some idxs' =>
      have hsome : (input.nodeQueries.get node).getD [] = queriesOf node input.routes 0 := hgetD
      rw [hget, Option.getD_some] at hsome
      rw [heq, hsome]

theorem mem_idxs (h : input.Wf) {p : Node × List Nat} (hp : p ∈ input.nodeQueries.entries)
    {q : Nat} : q ∈ p.2 ↔ ∃ nodes, input.routes[q]? = some nodes ∧ p.1 ∈ nodes := by
  rw [(h.mem_nodeQueries.mp hp).1, mem_queriesOf]
  constructor
  · rintro ⟨i, nodes, hnodes, hmem, rfl⟩
    rw [Nat.zero_add]
    exact ⟨nodes, hnodes, hmem⟩
  · rintro ⟨nodes, hnodes, hmem⟩
    exact ⟨q, nodes, hnodes, hmem, (Nat.zero_add q).symm⟩

theorem nodup_idxs (h : input.Wf) {p : Node × List Nat} (hp : p ∈ input.nodeQueries.entries) :
    p.2.Nodup := by
  rw [(h.mem_nodeQueries.mp hp).1]
  exact nodup_queriesOf _ _ _

/-- The positions of the queries for a node are positions in the list of queries. -/
theorem queries_of_mem (h : input.Wf) {p : Node × List Nat} (hp : p ∈ input.nodeQueries.entries) :
    ∀ q ∈ p.2, ∃ query, input.queries[q]? = some query := by
  intro q hq
  obtain ⟨nodes, hnodes, -⟩ := (h.mem_idxs hp).mp hq
  have hlt := (List.getElem?_eq_some_iff.mp hnodes).1
  rw [h.routes_length] at hlt
  exact ⟨_, List.getElem?_eq_getElem hlt⟩

theorem exists_entry (h : input.Wf) {q : Nat} {nodes : List Node} {node : Node}
    (hnodes : input.routes[q]? = some nodes) (hmem : node ∈ nodes) :
    ∃ idxs, (node, idxs) ∈ input.nodeQueries.entries ∧ q ∈ idxs := by
  have hq : q ∈ queriesOf node input.routes 0 :=
    mem_queriesOf.mpr ⟨q, nodes, hnodes, hmem, (Nat.zero_add q).symm⟩
  exact ⟨_, h.mem_nodeQueries.mpr ⟨rfl, List.ne_nil_of_mem hq⟩, hq⟩

/-- A query goes to one node of a cluster. -/
theorem entry_unique (h : input.Wf) {p p' : Node × List Nat} (hp : p ∈ input.nodeQueries.entries)
    (hp' : p' ∈ input.nodeQueries.entries) {q : Nat} (hq : q ∈ p.2) (hq' : q ∈ p'.2)
    (hcluster : p.1.clusterName = p'.1.clusterName) : p = p' := by
  obtain ⟨nodes, hnodes, hmem⟩ := (h.mem_idxs hp).mp hq
  obtain ⟨nodes', hnodes', hmem'⟩ := (h.mem_idxs hp').mp hq'
  rw [hnodes] at hnodes'
  cases hnodes'
  have hnode : p.1 = p'.1 :=
    List.inj_on_of_nodup_map (h.routes nodes (List.mem_of_getElem? hnodes)) hmem hmem' hcluster
  obtain ⟨node, idxs⟩ := p
  obtain ⟨node', idxs'⟩ := p'
  cases hnode
  rw [(h.mem_nodeQueries.mp hp).1, (h.mem_nodeQueries.mp hp').1]

/-- The node that answers is one of the same cluster. -/
theorem answeringNode_clusterName (h : input.Wf) {node n : Node}
    (hn : input.answeringNode node = some n) : n.clusterName = node.clusterName := by
  have hmem := List.mem_of_find?_eq_some hn
  have hnodes : n = node ∨ n ∈ (input.clusters.get node.clusterName).getD [] := by
    unfold preferredNodes at hmem
    simp only at hmem
    split at hmem
    · rcases List.mem_cons.mp hmem with rfl | hmem
      · exact Or.inl rfl
      · have hpreferred := List.mem_of_mem_erase hmem
        rcases List.mem_append.mp hpreferred with hfollower | hleader
        · exact Or.inr (List.mem_filter.mp hfollower).1
        · exact Or.inr (List.mem_filter.mp hleader).1
    · rcases List.mem_append.mp hmem with hfollower | hleader
      · exact Or.inr (List.mem_filter.mp hfollower).1
      · exact Or.inr (List.mem_filter.mp hleader).1
  rcases hnodes with rfl | hnodes
  · rfl
  · cases hget : input.clusters.get node.clusterName with
    | none =>
      rw [hget] at hnodes
      cases hnodes
    | some nodes =>
      rw [hget] at hnodes
      exact h.clusters _ (Dict.mem_entries_iff.mpr hget) n hnodes

/-- The request ids tell the queries apart. -/
theorem reqIdOf_injective (h : input.Wf) {p p' : Node × List Nat}
    (hp : p ∈ input.nodeQueries.entries) (hp' : p' ∈ input.nodeQueries.entries) {q q' : Nat}
    (hq : q ∈ p.2) (hq' : q' ∈ p'.2) (heq : input.reqIdOf q = input.reqIdOf q') : q = q' := by
  have hlt : ∀ {p : Node × List Nat} {q : Nat}, p ∈ input.nodeQueries.entries → q ∈ p.2 →
      q < input.initialReqIds.length := by
    intro p q hp hq
    obtain ⟨nodes, hnodes, -⟩ := (h.mem_idxs hp).mp hq
    have hroutes := (List.getElem?_eq_some_iff.mp hnodes).1
    have hlength := h.routes_length
    have hids := h.reqIds_length
    omega
  have hq := hlt hp hq
  have hq' := hlt hp' hq'
  unfold reqIdOf at heq
  rw [List.getD_eq_getElem?_getD, List.getD_eq_getElem?_getD, List.getElem?_eq_getElem hq,
    List.getElem?_eq_getElem hq'] at heq
  exact (List.Nodup.getElem_inj_iff h.reqIds_nodup).mp heq

end BatchInput.Wf

end RaftLsmt.Client
