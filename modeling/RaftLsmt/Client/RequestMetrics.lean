import RaftLsmt.Client.BatchFailover

/-!
# The query a request is counted for

`_aggregate` of `read_batch` appends an entry to `_request_metrics` for each answered request. The
entry of a first response is made behind the assignment of `orig_query`. The entry of a further page
is made in front of it, so it gets the `orig_query` that the last turn has left behind.

`MetricsRead` is the loop of `read_batch` with that variable, the entries, and the requests answered.
`request_metrics_iff` says that the entries name the right queries exactly when the responses come in
such an order that each further page follows on a response to a query with the same `query_id`.
-/

set_option autoImplicit false

namespace RaftLsmt.Client

open RaftLsmt.Lib.StepMachine

/-- The `query_id` of a query of the batch. -/
def BatchInput.queryIdAt (input : BatchInput) (idx : Nat) : Option Nat :=
  input.queries[idx]?.map QueryRequest.queryId

/-- The query that a pending page belongs to. -/
def BatchRead.pageOf (s : BatchRead) (k : Nat) : Option Nat :=
  match s.activeFutures[k]? with
  | some (.page _ _ origQueryIdx _ _) => some origQueryIdx
  | _ => none

theorem BatchRead.pageOf_eq_some {s : BatchRead} {k origQueryIdx : Nat} :
    s.pageOf k = some origQueryIdx ↔ ∃ n idx reqId pageQuery,
      s.activeFutures[k]? = some (.page n idx origQueryIdx reqId pageQuery) := by
  unfold pageOf
  cases hfuture : s.activeFutures[k]? with
  | none => simp
  | some fut =>
    cases fut with
    | batch node idxs => simp
    | page n idx origQueryIdx' reqId pageQuery => simp

/-- A further page follows on a response to a query with the same `query_id`. -/
def BatchRead.FollowsQuery (input : BatchInput) (s : BatchRead) : Completion → Prop
  | .batch _ _ => True
  | .page k _ => ∀ idx ∈ s.pageOf k, ∀ last ∈ s.received.getLast?,
      input.queryIdAt last.2.1 = input.queryIdAt idx

instance (input : BatchInput) (s : BatchRead) (e : Completion) :
    Decidable (s.FollowsQuery input e) :=
  match e with
  | .batch _ _ => inferInstanceAs (Decidable True)
  | .page k _ => inferInstanceAs (Decidable (∀ idx ∈ s.pageOf k, ∀ last ∈ s.received.getLast?,
      input.queryIdAt last.2.1 = input.queryIdAt idx))

/-- `ReadRequestMetrics`, without the times. -/
structure ReadRequestMetrics where
  queryId : Nat
  reqId : Nat
  recordCount : Nat
  recordsBytes : Nat
  deriving DecidableEq

/-- The entry for a response to this query. -/
def ReadRequestMetrics.of (query : QueryRequest) (response : ReadResult) : ReadRequestMetrics where
  queryId := query.queryId
  reqId := response.reqId
  recordCount := response.recordsCount
  recordsBytes := response.recordsBytes

/-- The loop of `read_batch` with `orig_query` and `batch_request_metrics`. The last field is
history: the responses taken, each with the query its request was made for. -/
structure MetricsRead where
  read : BatchRead
  origQuery : Option QueryRequest
  batchRequestMetrics : List ReadRequestMetrics
  answered : List (QueryRequest × ReadResult)

namespace MetricsRead

/-- Before the loop: `orig_query` is not assigned yet. -/
def init (input : BatchInput) (nextReqId : Nat) : MetricsRead where
  read := BatchRead.init input nextReqId
  origQuery := none
  batchRequestMetrics := []
  answered := []

/-- The responses to the queries for a node, each with its query. -/
def queryPairs (input : BatchInput) (idxs : List Nat) (responses : List ReadResult) :
    List (QueryRequest × ReadResult) :=
  (idxs.filterMap fun idx => input.queries[idx]?).zip
    ((orderResponses responses (idxs.map input.reqIdOf)).getD [])

/-- The first response to a query: `orig_query` is assigned, then the entry is made. -/
def firstEntry (s : MetricsRead) (pair : QueryRequest × ReadResult) : MetricsRead :=
  { s with
    origQuery := some pair.1
    batchRequestMetrics := s.batchRequestMetrics ++ [.of pair.1 pair.2]
    answered := s.answered ++ [pair] }

/-- A further page: the entry is made, then `orig_query` is assigned. -/
def pageEntry (input : BatchInput) (s : MetricsRead) (origQueryIdx : Nat)
    (pageQuery origQuery : QueryRequest) (page : ReadResult) : MetricsRead :=
  { s with
    origQuery := input.queries[origQueryIdx]?
    batchRequestMetrics := s.batchRequestMetrics ++ [.of origQuery page]
    answered := s.answered ++ [(pageQuery, page)] }

/-- One turn of the loop. An error discards everything. -/
def step (input : BatchInput) (s : MetricsRead) (e : Completion) : Option MetricsRead :=
  match s.read.step input e with
  | none => none
  | some read =>
    let s' := { s with read := read }
    if read.raised then some s'
    else
      match e with
      | .batch k responses =>
        match s.read.activeFutures[k]? with
        | some (.batch _ idxs) => some ((queryPairs input idxs responses).foldl firstEntry s')
        | _ => none
      | .page k page =>
        match s.read.activeFutures[k]?, s.origQuery with
        | some (.page _ _ origQueryIdx _ pageQuery), some origQuery =>
          some (s'.pageEntry input origQueryIdx pageQuery origQuery page)
        -- a variable that is not assigned is an error
        | _, _ => some { s' with read := { read with raised := true } }

/-- There is one entry for each response taken, and it names the query its request was made for. -/
def Named (s : MetricsRead) : Prop :=
  s.batchRequestMetrics = s.answered.map fun p => .of p.1 p.2

/-- The responses taken are those that `read_batch` has received, and the `query_id` of the query that
each request was made for is that of the query it belongs to. -/
def Answers (input : BatchInput) (s : MetricsRead) : Prop :=
  s.read.received.map (fun r => (input.queryIdAt r.2.1, r.2.2)) =
    s.answered.map fun p => (some p.1.queryId, p.2)

/-- `orig_query` has the `query_id` of the request that a further page answers. -/
def NamesQuery (s : MetricsRead) : Completion → Prop
  | .batch _ _ => True
  | .page k _ => ∀ n idx origQueryIdx expectedReqId pageQuery origQuery,
      s.read.activeFutures[k]? = some (.page n idx origQueryIdx expectedReqId pageQuery) →
      s.origQuery = some origQuery → origQuery.queryId = pageQuery.queryId

variable {input : BatchInput} {s s' : MetricsRead}

theorem foldl_firstEntry (pairs : List (QueryRequest × ReadResult)) (s : MetricsRead) :
    (pairs.foldl firstEntry s).read = s.read ∧
      (pairs.foldl firstEntry s).batchRequestMetrics =
        s.batchRequestMetrics ++ pairs.map (fun p => .of p.1 p.2) ∧
      (pairs.foldl firstEntry s).answered = s.answered ++ pairs := by
  induction pairs generalizing s with
  | nil => exact ⟨rfl, (List.append_nil _).symm, (List.append_nil _).symm⟩
  | cons pair pairs ih =>
    obtain ⟨hread, hmetrics, hanswered⟩ := ih (s.firstEntry pair)
    refine ⟨hread, ?_, ?_⟩
    · rw [List.foldl_cons, hmetrics, List.map_cons, List.append_cons]
      rfl
    · rw [List.foldl_cons, hanswered, List.append_cons]
      rfl

theorem of_eq_of_iff {query query' : QueryRequest} (response : ReadResult) :
    ReadRequestMetrics.of query response = ReadRequestMetrics.of query' response ↔
      query.queryId = query'.queryId := by
  unfold ReadRequestMetrics.of
  rw [ReadRequestMetrics.mk.injEq]
  exact ⟨And.left, fun h => ⟨h, rfl, rfl, rfl⟩⟩

/-- What a turn that raises no error does: it takes the responses to the queries for a node, or a
further page. -/
inductive Stepped (input : BatchInput) (s s' : MetricsRead) (e : Completion) : Prop where
  | batch (k : Nat) (responses : List ReadResult) (node : Node) (idxs : List Nat)
    (hcompletion : e = .batch k responses)
    (hfuture : s.read.activeFutures[k]? = some (.batch node idxs))
    (heq : s' = (queryPairs input idxs responses).foldl firstEntry
      { s with read := s.read.batchDone input k node idxs responses })
  | page (k : Nat) (page : ReadResult) (n : Node) (idx origQueryIdx expectedReqId : Nat)
    (pageQuery origQuery : QueryRequest) (hcompletion : e = .page k page)
    (hfuture : s.read.activeFutures[k]? = some (.page n idx origQueryIdx expectedReqId pageQuery))
    (horig : s.origQuery = some origQuery)
    (heq : s' = pageEntry input
      { s with read := s.read.pageDone input k n idx origQueryIdx expectedReqId page }
      origQueryIdx pageQuery origQuery page)

theorem step_cases {e : Completion} (hraised : s'.read.raised = false)
    (hstep : s.step input e = some s') :
    Stepped input s s' e ∧ s.read.step input e = some s'.read := by
  unfold step at hstep
  cases hread : s.read.step input e with
  | none =>
    rw [hread] at hstep
    cases hstep
  | some read =>
    simp only [hread] at hstep
    by_cases hbad : read.raised = true
    · rw [if_pos hbad] at hstep
      cases hstep
      rw [hbad] at hraised
      cases hraised
    rw [if_neg hbad] at hstep
    unfold BatchRead.step at hread
    split at hread
    · cases hread
    cases e with
    | batch k responses =>
      cases hk : s.read.activeFutures[k]? with
      | none =>
        simp only [hk] at hread
        cases hread
      | some fut =>
        cases fut with
        | batch node idxs =>
          simp only [hk, Option.some.injEq] at hread hstep
          rw [← hread] at hstep
          refine ⟨.batch k responses node idxs rfl hk hstep.symm, ?_⟩
          rw [← hstep, (foldl_firstEntry _ _).1, hread]
        | page n idx origQueryIdx expectedReqId pageQuery =>
          simp only [hk] at hread
          cases hread
    | page k page =>
      cases hk : s.read.activeFutures[k]? with
      | none =>
        simp only [hk] at hread
        cases hread
      | some fut =>
        cases fut with
        | batch node idxs =>
          simp only [hk] at hread
          cases hread
        | page n idx origQueryIdx expectedReqId pageQuery =>
          cases horig : s.origQuery with
          | none =>
            simp only [hk, horig, Option.some.injEq] at hstep
            rw [← hstep] at hraised
            cases hraised
          | some origQuery =>
            simp only [hk, horig, Option.some.injEq] at hread hstep
            rw [← hread] at hstep
            refine ⟨.page k page n idx origQueryIdx expectedReqId pageQuery origQuery rfl hk horig ?_,
              ?_⟩
            · rw [← hstep, horig]
            · rw [← hstep, ← hread]
              rfl

/-- There are as many entries as responses, and an entry that names a wrong query stays. -/
theorem step_named (hlength : s.batchRequestMetrics.length = s.answered.length) {e : Completion}
    (hraised : s'.read.raised = false) (hstep : s.step input e = some s') :
    s'.batchRequestMetrics.length = s'.answered.length ∧
      (s'.Named ↔ s.Named ∧ s.NamesQuery e) := by
  rcases (step_cases hraised hstep).1 with ⟨k, responses, node, idxs, rfl, hk, heq⟩ |
    ⟨k, page, n, idx, origQueryIdx, expectedReqId, pageQuery, origQuery, rfl, hk, horig, heq⟩
  · -- the entries of a batch are made of the pairs that were answered
    obtain ⟨-, hmetrics, hanswered⟩ := foldl_firstEntry (queryPairs input idxs responses)
      { s with read := s.read.batchDone input k node idxs responses }
    rw [← heq] at hmetrics hanswered
    unfold Named
    rw [hmetrics, hanswered, List.map_append]
    refine ⟨?_, ?_⟩
    · rw [List.length_append, List.length_append, List.length_map]
      exact congrArg (· + _) hlength
    · rw [List.append_left_inj]
      exact ⟨fun h => ⟨h, trivial⟩, And.left⟩
  · -- the entry of a page names the query of the page
    have hnames : s.NamesQuery (.page k page) ↔ origQuery.queryId = pageQuery.queryId := by
      constructor
      · exact fun h => h n idx origQueryIdx expectedReqId pageQuery origQuery hk horig
      · intro hsame n' idx' origQueryIdx' expectedReqId' pageQuery' origQuery' hk' horig'
        rw [hk] at hk'
        cases hk'
        rw [horig] at horig'
        cases horig'
        exact hsame
    unfold Named
    rw [heq, hnames, ← of_eq_of_iff page]
    unfold pageEntry
    refine ⟨?_, ?_⟩
    · -- one entry and one response more
      rw [List.length_append, List.length_append]
      exact congrArg (· + _) hlength
    · simp only [List.map_append, List.map_singleton]
      constructor
      · intro h
        obtain ⟨hold, hnew⟩ := List.append_inj h (by rw [hlength, List.length_map])
        exact ⟨hold, List.singleton_inj.mp hnew⟩
      · rintro ⟨hold, hnew⟩
        rw [hold, hnew]

/-- The loop goes on only behind a turn that has raised no error. -/
theorem not_raised_of_step {e : Completion} (hstep : s.step input e = some s') :
    s.read.raised = false := by
  by_contra hraised
  rw [Bool.not_eq_false] at hraised
  unfold MetricsRead.step BatchRead.step at hstep
  rw [if_pos hraised] at hstep
  cases hstep

/-! ### The order of the responses -/

/-- A page that is asked for has the `query_id` of the query it belongs to. -/
def AsksFor (input : BatchInput) : PendingRead → Prop
  | .batch _ _ => True
  | .page _ _ origQueryIdx _ pageQuery => input.queryIdAt origQueryIdx = some pageQuery.queryId

theorem asksFor_followUp {idx origQueryIdx nextReqId : Nat} {n : Node} {query : QueryRequest}
    {resp : ReadResult} (hquery : input.queries[origQueryIdx]? = some query) :
    ∀ fut ∈ (followUp n idx origQueryIdx query resp nextReqId).2.1, AsksFor input fut := by
  intro fut hfut
  unfold followUp at hfut
  split at hfut
  · rw [List.mem_singleton.mp hfut]
    show input.queries[origQueryIdx]?.map QueryRequest.queryId = _
    rw [hquery]
    rfl
  · cases hfut

/-- The first pages are paired with the queries they answer, and the pages asked for have their
`query_id`. -/
theorem firstPages_queries {n : Node} {subIdx nextReqId nextReqId' : Nat} {idxs : List Nat}
    {ordered accumulated : List ReadResult} {pages : List PendingRead}
    (h : firstPages input.queries n subIdx idxs ordered nextReqId =
      some (accumulated, pages, nextReqId')) :
    ((idxs.zip ordered).map fun p => (input.queryIdAt p.1, p.2)) =
      (((idxs.filterMap fun idx => input.queries[idx]?).zip ordered).map fun p =>
        (some p.1.queryId, p.2)) ∧
      ∀ fut ∈ pages, AsksFor input fut := by
  induction idxs generalizing subIdx ordered accumulated pages nextReqId nextReqId' with
  | nil =>
    cases ordered with
    | nil =>
      cases h
      refine ⟨rfl, ?_⟩
      intro fut hfut
      cases hfut
    | cons resp ordered => cases h
  | cons q idxs ih =>
    cases ordered with
    | nil => cases h
    | cons resp ordered =>
      unfold firstPages at h
      cases hquery : input.queries[q]? with
      | none =>
        rw [hquery] at h
        cases h
      | some query =>
        rw [hquery] at h
        simp only at h
        split at h
        · cases h
        split at h
        · cases h
        split at h
        · cases h
        rename_i hrest
        cases h
        obtain ⟨hpairs, hpages⟩ := ih hrest
        refine ⟨?_, List.forall_mem_append.mpr ⟨asksFor_followUp hquery, hpages⟩⟩
        rw [List.filterMap_cons_some hquery, List.zip_cons_cons, List.zip_cons_cons, List.map_cons,
          List.map_cons, hpairs]
        refine congrArg (· :: _) (Prod.ext ?_ rfl)
        show input.queries[q]?.map QueryRequest.queryId = _
        rw [hquery]
        rfl

/-- The responses to the queries for a node, when they raise no error. -/
theorem exists_of_batchDone {r : BatchRead} {k : Nat} {node : Node} {idxs : List Nat}
    {responses : List ReadResult}
    (hraised : (r.batchDone input k node idxs responses).raised = false) :
    ∃ clusterName ordered pages,
      orderResponses responses (idxs.map input.reqIdOf) = some ordered ∧
      ((idxs.zip ordered).map fun p => (input.queryIdAt p.1, p.2)) =
        (((idxs.filterMap fun idx => input.queries[idx]?).zip ordered).map fun p =>
          (some p.1.queryId, p.2)) ∧
      (∀ fut ∈ pages, AsksFor input fut) ∧
      (r.batchDone input k node idxs responses).activeFutures = r.activeFutures.eraseIdx k ++ pages ∧
      (r.batchDone input k node idxs responses).received =
        r.received ++ (idxs.zip ordered).map fun p => (clusterName, p.1, p.2) := by
  unfold BatchRead.batchDone at hraised ⊢
  cases hn : input.answeringNode node with
  | none =>
    rw [hn] at hraised
    cases hraised
  | some n =>
    cases hordered : orderResponses responses (idxs.map input.reqIdOf) with
    | none =>
      rw [hn, hordered] at hraised
      cases hraised
    | some ordered =>
      rw [hn, hordered] at hraised
      simp only at hraised ⊢
      cases hfirst : firstPages input.queries n 0 idxs ordered r.nextReqId with
      | none =>
        rw [hfirst] at hraised
        cases hraised
      | some filed =>
        obtain ⟨accumulated, pages, nextReqId'⟩ := filed
        obtain ⟨hpairs, hpages⟩ := firstPages_queries hfirst
        exact ⟨n.clusterName, ordered, pages, rfl, hpairs, hpages, rfl, rfl⟩

/-- What the loop keeps: the pages asked for have the `query_id` of their queries, and so has what
`orig_query` was left with. -/
structure Inv (input : BatchInput) (s : MetricsRead) : Prop where
  pages : ∀ fut ∈ s.read.activeFutures, AsksFor input fut
  answers : s.Answers input
  origQuery : s.origQuery.map QueryRequest.queryId = s.answered.getLast?.map fun p => p.1.queryId

theorem inv_init (input : BatchInput) (nextReqId : Nat) : Inv input (init input nextReqId) := by
  refine ⟨?_, rfl, rfl⟩
  intro fut hfut
  obtain ⟨p, -, rfl⟩ := List.mem_map.mp hfut
  trivial

theorem origQuery_foldl (pairs : List (QueryRequest × ReadResult)) (s : MetricsRead)
    (h : s.origQuery.map QueryRequest.queryId = s.answered.getLast?.map fun p => p.1.queryId) :
    (pairs.foldl firstEntry s).origQuery.map QueryRequest.queryId =
      (pairs.foldl firstEntry s).answered.getLast?.map fun p => p.1.queryId := by
  induction pairs generalizing s with
  | nil => exact h
  | cons pair pairs ih =>
    apply ih
    show some pair.1.queryId = (s.answered ++ [pair]).getLast?.map _
    rw [List.getLast?_concat]
    rfl

/-- The last response received is to a query with the `query_id` of `orig_query`. -/
theorem Inv.namesQuery_iff (h : Inv input s) (e : Completion) :
    s.NamesQuery e ↔ s.read.FollowsQuery input e := by
  cases e with
  | batch k responses => exact Iff.rfl
  | page k page =>
    -- both sides speak of the last response
    have hlast : s.read.received.getLast?.map (fun r => input.queryIdAt r.2.1) =
        s.origQuery.map fun query => some query.queryId := by
      have hanswers := congrArg (fun l => l.getLast?.map Prod.fst) h.answers
      simp only [List.getLast?_map, Option.map_map] at hanswers
      have horig := congrArg (Option.map some) h.origQuery
      rw [Option.map_map, Option.map_map] at horig
      exact hanswers.trans horig.symm
    constructor
    · intro hnames q hq last hmem
      obtain ⟨n, idx, reqId, pageQuery, hfuture⟩ := BatchRead.pageOf_eq_some.mp hq
      have hasks : input.queryIdAt q = some pageQuery.queryId :=
        h.pages _ (List.mem_of_getElem? hfuture)
      rw [Option.mem_def.mp hmem, Option.map_some] at hlast
      obtain ⟨origQuery, horig, heq⟩ := Option.map_eq_some_iff.mp hlast.symm
      rw [← heq, hasks, hnames n idx q reqId pageQuery origQuery hfuture horig]
    · intro hfollows n idx origQueryIdx expectedReqId pageQuery origQuery hfuture horig
      have hasks : input.queryIdAt origQueryIdx = some pageQuery.queryId :=
        h.pages _ (List.mem_of_getElem? hfuture)
      rw [horig, Option.map_some] at hlast
      obtain ⟨last, hmem, heq⟩ := Option.map_eq_some_iff.mp hlast
      have hsame := hfollows origQueryIdx
        (BatchRead.pageOf_eq_some.mpr ⟨n, idx, expectedReqId, pageQuery, hfuture⟩) last hmem
      rw [heq, hasks] at hsame
      exact Option.some.inj hsame

theorem Inv.step (h : Inv input s) {e : Completion} (hraised : s'.read.raised = false)
    (hstep : s.step input e = some s') : Inv input s' := by
  rcases (step_cases hraised hstep).1 with ⟨k, responses, node, idxs, rfl, hk, heq⟩ |
    ⟨k, page, n, idx, origQueryIdx, expectedReqId, pageQuery, origQuery, rfl, hk, horig, heq⟩
  · -- the responses to the queries for a node
    obtain ⟨hread, -, hanswered⟩ := foldl_firstEntry (queryPairs input idxs responses)
      { s with read := s.read.batchDone input k node idxs responses }
    have hlast := origQuery_foldl (queryPairs input idxs responses)
      { s with read := s.read.batchDone input k node idxs responses } h.origQuery
    rw [← heq] at hread hanswered hlast
    rw [hread] at hraised
    obtain ⟨clusterName, ordered, pages, hordered, hpairs, hpages, hfutures, hreceived⟩ :=
      exists_of_batchDone hraised
    refine ⟨?_, ?_, hlast⟩
    · rw [hread, hfutures]
      exact List.forall_mem_append.mpr
        ⟨fun fut hfut => h.pages fut (List.mem_of_mem_eraseIdx hfut), hpages⟩
    · unfold Answers
      rw [hread, hreceived, hanswered]
      unfold queryPairs
      rw [hordered, Option.getD_some, List.map_append, List.map_append, List.map_map, h.answers]
      exact congrArg _ hpairs
  · -- a further page
    have hasks : input.queryIdAt origQueryIdx = some pageQuery.queryId :=
      h.pages _ (List.mem_of_getElem? hk)
    rcases BatchRead.pageDone_cases input s.read k n idx origQueryIdx expectedReqId page with
      hbad | ⟨accumulated, query, resp, -, hquery, -, hdone⟩
    · rw [heq] at hraised
      exact absurd hbad (Bool.eq_false_iff.mp hraised)
    rw [hdone] at heq
    rw [heq]
    refine ⟨?_, ?_, ?_⟩
    · exact List.forall_mem_append.mpr
        ⟨fun fut hfut => h.pages fut (List.mem_of_mem_eraseIdx hfut), asksFor_followUp hquery⟩
    · show (s.read.received ++ [(n.clusterName, origQueryIdx, page)]).map _ =
        (s.answered ++ [(pageQuery, page)]).map _
      rw [List.map_append, List.map_append, h.answers]
      exact congrArg (_ ++ [·]) (Prod.ext hasks rfl)
    · show input.queries[origQueryIdx]?.map QueryRequest.queryId =
        (s.answered ++ [(pageQuery, page)]).getLast?.map _
      rw [List.getLast?_concat]
      exact hasks

end MetricsRead

/-- In every run of `read_batch` that returns a result, with any answers and any order of completion,
there is one entry for each response received; each of them has the `query_id` of the query its
request was made for exactly when each further page is received behind a response to a query with the
same `query_id`. -/
theorem request_metrics_iff (input : BatchInput) (nextReqId : Nat) (es : List Completion)
    {s : MetricsRead}
    (hrun : run (MetricsRead.step input) (MetricsRead.init input nextReqId) es = some s)
    (hraised : s.read.raised = false) :
    s.batchRequestMetrics.length = s.read.received.length ∧ s.Answers input ∧
      (s.Named ↔ EachStep (BatchRead.step input) (BatchRead.FollowsQuery input)
        (BatchRead.init input nextReqId) es) := by
  have hgood := eachStep_of_final (P := fun t : MetricsRead => t.read.raised = false)
    (fun _ _ _ => MetricsRead.not_raised_of_step) hrun hraised
  obtain ⟨hlength, hiff⟩ := run_iff_eachStep
    (I := fun t : MetricsRead => t.batchRequestMetrics.length = t.answered.length)
    (P := MetricsRead.Named) (fun t e t' ht hR hstep => t.step_named ht (hR t' hstep) hstep) rfl
    hgood hrun
  obtain ⟨hinv, horder⟩ := eachStep_map MetricsRead.read (G := BatchRead.FollowsQuery input)
    (fun t e t' (ht : MetricsRead.Inv input t) hR hstep =>
      ⟨ht.step (hR t' hstep) hstep, (MetricsRead.step_cases (hR t' hstep) hstep).2,
        ht.namesQuery_iff e⟩)
    (MetricsRead.inv_init input nextReqId) hgood hrun
  refine ⟨?_, hinv.answers, ?_⟩
  · have hcount := congrArg List.length hinv.answers
    rw [List.length_map, List.length_map] at hcount
    rw [hlength, hcount]
  · rw [hiff]
    exact ⟨fun h => horder.mp h.2, fun h => ⟨rfl, horder.mpr h⟩⟩

/-- Two queries of one cluster, whose nodes take turns. -/
def twoOverlapping : BatchInput := batchOfThree [⟨1, 0, 9, 0, 7⟩, ⟨1, 0, 9, 0, 8⟩] fun _ _ => false

/-- Each of the two is answered in two pages that come one behind the other: all the entries name
their queries. -/
theorem request_metrics_iff_one : ∃ s,
    run (MetricsRead.step twoOverlapping) (MetricsRead.init twoOverlapping 2)
      [.batch 0 [⟨0, true, 3, 0, 4, 0, 96, 2, []⟩], .page 1 ⟨2, false, 6, 0, 6, 0, 48, 1, []⟩,
        .batch 0 [⟨1, true, 3, 0, 4, 0, 96, 2, []⟩], .page 0 ⟨3, false, 6, 0, 6, 0, 48, 1, []⟩] =
          some s ∧
    s.batchRequestMetrics.length = 4 ∧ s.Answers twoOverlapping ∧ s.Named := by
  obtain ⟨hlength, hanswers, hiff⟩ := request_metrics_iff twoOverlapping 2
    [.batch 0 [⟨0, true, 3, 0, 4, 0, 96, 2, []⟩], .page 1 ⟨2, false, 6, 0, 6, 0, 48, 1, []⟩,
      .batch 0 [⟨1, true, 3, 0, 4, 0, 96, 2, []⟩], .page 0 ⟨3, false, 6, 0, 6, 0, 48, 1, []⟩] rfl rfl
  refine ⟨_, rfl, hlength, hanswers, hiff.mpr ?_⟩
  exact eachStep_of_allSteps (q := fun s e => decide (s.FollowsQuery twoOverlapping e))
    (fun _ _ => of_decide_eq_true) (by decide)

/-- The page of the first query comes behind the response to the second one and is counted for it. -/
theorem not_request_metrics : ¬ ∀ (input : BatchInput) (nextReqId : Nat) (es : List Completion)
    (s : MetricsRead), run (MetricsRead.step input) (MetricsRead.init input nextReqId) es = some s →
    s.read.raised = false → s.Named := by
  intro hclaim
  have hnamed := hclaim twoOverlapping 2
    [.batch 0 [⟨0, true, 3, 0, 4, 0, 96, 2, []⟩], .batch 0 [⟨1, false, 3, 0, 4, 0, 96, 2, []⟩],
      .page 0 ⟨2, false, 6, 0, 6, 0, 48, 1, []⟩] _ rfl rfl
  revert hnamed
  unfold MetricsRead.Named
  decide

end RaftLsmt.Client
