import Mathlib.Data.List.Perm.Basic
import RaftLsmt.Client.ReadBatch

/-!
# Failover while a batch is read

`read_batch_iff` compares the result of `read_batch` with what the nodes sent, over every order in
which the futures complete. The result is right exactly when no node answers the queries for two
nodes: then the list filed under a node is written by one batch future and by the pages behind it.
When a node does answer for two, the list of one of them is lost.
-/

set_option autoImplicit false

namespace RaftLsmt.Client

open RaftLsmt.Lib.OrderedDict
open RaftLsmt.Lib.StepMachine

/-! ## The responses in the order of the queries -/

theorem orderResponses_reqIds {responses : List ReadResult} {reqIds : List Nat}
    {ordered : List ReadResult} (h : orderResponses responses reqIds = some ordered) :
    ordered.map ReadResult.reqId = reqIds ∧ ∀ resp ∈ ordered, resp ∈ responses := by
  induction reqIds generalizing ordered with
  | nil =>
    cases h
    exact ⟨rfl, fun resp hresp => by cases hresp⟩
  | cons reqId reqIds ih =>
    unfold orderResponses at h
    split at h
    · rename_i first rest hfirst hrest
      cases h
      obtain ⟨hids, hmem⟩ := ih hrest
      have hid : first.reqId = reqId := by simpa using List.find?_some hfirst
      refine ⟨by rw [List.map_cons, hids, hid], ?_⟩
      intro resp hresp
      rcases List.mem_cons.mp hresp with rfl | hresp
      · exact List.mem_reverse.mp (List.mem_of_find?_eq_some hfirst)
      · exact hmem resp hresp
    · cases h

/-- When each request has a response, no place stays empty. -/
theorem orderResponses_of_mem {responses : List ReadResult} {reqIds : List Nat}
    (h : ∀ reqId ∈ reqIds, reqId ∈ responses.map ReadResult.reqId) :
    ∃ ordered, orderResponses responses reqIds = some ordered := by
  induction reqIds with
  | nil => exact ⟨[], rfl⟩
  | cons reqId reqIds ih =>
    obtain ⟨rest, hrest⟩ := ih fun id hid => h id (List.mem_cons_of_mem _ hid)
    obtain ⟨resp, hresp, hid⟩ := List.mem_map.mp (h reqId List.mem_cons_self)
    have hsome : (responses.reverse.find? fun resp => resp.reqId = reqId).isSome := by
      rw [List.find?_isSome]
      exact ⟨resp, List.mem_reverse.mpr hresp, by simpa using hid⟩
    obtain ⟨first, hfirst⟩ := Option.isSome_iff_exists.mp hsome
    refine ⟨first :: rest, ?_⟩
    rw [orderResponses, hfirst, hrest]

/-! ## Behind a page -/

/-- What `followUp` makes of a response: the flag stays while a page is to come. -/
def settle (query : QueryRequest) (resp : ReadResult) : ReadResult :=
  if query.Unfinished resp then resp else { resp with limitReached := false }

@[simp]
theorem settle_reqId (query : QueryRequest) (resp : ReadResult) :
    (settle query resp).reqId = resp.reqId := by
  unfold settle
  split <;> rfl

@[simp]
theorem settle_maxId (query : QueryRequest) (resp : ReadResult) :
    (settle query resp).maxId = resp.maxId := by
  unfold settle
  split <;> rfl

@[simp]
theorem addPage_settle (query : QueryRequest) (resp page : ReadResult) :
    addPage (settle query resp) page = addPage resp page := by
  unfold settle
  split <;> rfl

theorem settle_of_not {query : QueryRequest} {resp : ReadResult} (h : ¬ query.Unfinished resp) :
    settle query resp = { resp with limitReached := false } := if_neg h

/-- The response that is filed and the page that is asked for. -/
theorem followUp_spec (n : Node) (idx origQueryIdx : Nat) (query : QueryRequest)
    (resp : ReadResult) (nextReqId : Nat) :
    (followUp n idx origQueryIdx query resp nextReqId).1 = settle query resp ∧
    (∀ fut ∈ (followUp n idx origQueryIdx query resp nextReqId).2.1,
      ∃ reqId pageQuery, fut = .page n idx origQueryIdx reqId pageQuery) ∧
    (query.Unfinished resp → ∃ reqId pageQuery,
      .page n idx origQueryIdx reqId pageQuery ∈
        (followUp n idx origQueryIdx query resp nextReqId).2.1) := by
  unfold followUp settle
  by_cases h : query.Unfinished resp
  · rw [if_pos h, if_pos h]
    refine ⟨rfl, ?_, fun _ => ⟨_, _, List.mem_singleton.mpr rfl⟩⟩
    intro fut hfut
    exact ⟨_, _, List.mem_singleton.mp hfut⟩
  · rw [if_neg h, if_neg h]
    refine ⟨rfl, ?_, fun hunfinished => absurd hunfinished h⟩
    intro fut hfut
    cases hfut

/-- What `firstPages` files: the settled response to each query, with a page behind those that are
unfinished. -/
structure FirstPages (queries : List QueryRequest) (n : Node) (subIdx : Nat) (idxs : List Nat)
    (ordered accumulated : List ReadResult) (pages : List PendingRead) : Prop where
  length : accumulated.length = idxs.length
  reqIds : accumulated.map ReadResult.reqId = ordered.map ReadResult.reqId
  filed : ∀ i q : Nat, idxs[i]? = some q → ∀ query, queries[q]? = some query → ∃ resp,
    ordered[i]? = some resp ∧ accumulated[i]? = some (settle query resp) ∧
      (query.Unfinished resp → ∃ reqId pageQuery, .page n (subIdx + i) q reqId pageQuery ∈ pages)
  pages : ∀ fut ∈ pages, ∃ i q reqId pageQuery, idxs[i]? = some q ∧
    fut = .page n (subIdx + i) q reqId pageQuery

theorem firstPages_spec {queries : List QueryRequest} {n : Node} {subIdx : Nat} {idxs : List Nat}
    {ordered accumulated : List ReadResult} {pages : List PendingRead} {nextReqId nextReqId' : Nat}
    (h : firstPages queries n subIdx idxs ordered nextReqId =
      some (accumulated, pages, nextReqId')) :
    FirstPages queries n subIdx idxs ordered accumulated pages := by
  induction idxs generalizing subIdx ordered accumulated pages nextReqId nextReqId' with
  -- no query is left, and no response must be either
  | nil =>
    cases ordered with
    | nil =>
      cases h
      refine ⟨rfl, rfl, ?_, ?_⟩
      · intro i q hq
        cases hq
      · intro fut hfut
        cases hfut
    | cons resp ordered => cases h
  -- the response to the query is filed first, with a page for it if it is unfinished
  | cons q idxs ih =>
    cases ordered with
    | nil => cases h
    | cons resp ordered =>
      unfold firstPages at h
      cases hquery : queries[q]? with
      | none =>
        rw [hquery] at h
        cases h
      | some query =>
        obtain ⟨hsettled, hpage, hpending⟩ := followUp_spec n subIdx q query resp nextReqId
        rw [hquery] at h
        simp only at h
        split at h
        · cases h
        split at h
        · cases h
        split at h
        · cases h
        rename_i hrest
        cases h
        have hspec := ih hrest
        refine ⟨by simp [hspec.length], by simp [hspec.reqIds, hsettled], ?_, ?_⟩
        · -- its place is the first, the places of the others are one further
          intro i q' hq' query' hquery'
          cases i with
          | zero =>
            cases hq'
            rw [hquery] at hquery'
            cases hquery'
            refine ⟨resp, rfl, congrArg some hsettled, fun hunfinished => ?_⟩
            obtain ⟨reqId, pageQuery, hmem⟩ := hpending hunfinished
            exact ⟨reqId, pageQuery, List.mem_append_left _ hmem⟩
          | succ i =>
            obtain ⟨resp', hresp', hfiled, hunfinished⟩ := hspec.filed i q' hq' query' hquery'
            refine ⟨resp', hresp', hfiled, fun hun => ?_⟩
            obtain ⟨reqId, pageQuery, hmem⟩ := hunfinished hun
            rw [Nat.add_assoc, Nat.add_comm 1] at hmem
            exact ⟨reqId, pageQuery, List.mem_append_right _ hmem⟩
        · intro fut hfut
          rcases List.mem_append.mp hfut with hfut | hfut
          · obtain ⟨reqId, pageQuery, rfl⟩ := hpage fut hfut
            exact ⟨0, q, reqId, pageQuery, rfl, rfl⟩
          · obtain ⟨i, q', reqId, pageQuery, hq', rfl⟩ := hspec.pages fut hfut
            refine ⟨i + 1, q', reqId, pageQuery, hq', ?_⟩
            rw [Nat.add_assoc, Nat.add_comm 1]

/-- Responses that a server may send pass the checks. -/
theorem firstPages_of_answered {queries : List QueryRequest} {n : Node} {subIdx : Nat}
    {idxs : List Nat} {ordered : List ReadResult} {nextReqId : Nat}
    (hlength : ordered.length = idxs.length)
    (hqueries : ∀ q ∈ idxs, ∃ query, queries[q]? = some query)
    (hanswered : ∀ i q : Nat, idxs[i]? = some q → ∀ query, queries[q]? = some query → ∀ resp,
      ordered[i]? = some resp → resp.limitReached = true →
        resp.recordsCount ≠ 0 ∧ query.minId ≤ resp.maxId.toNat) :
    ∃ accumulated pages nextReqId', firstPages queries n subIdx idxs ordered nextReqId =
      some (accumulated, pages, nextReqId') := by
  induction idxs generalizing subIdx ordered nextReqId with
  | nil =>
    rw [List.length_nil, List.length_eq_zero_iff] at hlength
    rw [hlength]
    exact ⟨_, _, _, rfl⟩
  | cons q idxs ih =>
    cases ordered with
    | nil => cases hlength
    | cons resp ordered =>
      obtain ⟨query, hquery⟩ := hqueries q List.mem_cons_self
      have hcuts : resp.limitReached = true →
          resp.recordsCount ≠ 0 ∧ query.minId ≤ resp.maxId.toNat :=
        hanswered 0 q rfl query hquery resp rfl
      obtain ⟨accumulated, pages, nextReqId', hrest⟩ : ∃ accumulated pages nextReqId',
          firstPages queries n (subIdx + 1) idxs ordered
            (followUp n subIdx q query resp nextReqId).2.2 = some (accumulated, pages, nextReqId') :=
        ih (Nat.succ.inj hlength) (fun q' hq' => hqueries q' (List.mem_cons_of_mem _ hq'))
          (fun i => hanswered (i + 1))
      have hcount : ¬ (resp.limitReached = true ∧ resp.recordsCount = 0) :=
        fun hcut => (hcuts hcut.1).1 hcut.2
      have hmax : ¬ (resp.limitReached = true ∧ resp.maxId.toNat < query.minId) :=
        fun hcut => Nat.not_lt.mpr (hcuts hcut.1).2 hcut.2
      unfold firstPages
      rw [hquery]
      simp only [if_neg hcount, if_neg hmax, hrest]
      exact ⟨_, _, _, rfl⟩

/-! ## The pages received -/

theorem accumulate_append {pages : List ReadResult} {resp : ReadResult}
    (h : accumulate pages = some resp) (page : ReadResult) :
    accumulate (pages ++ [page]) = some (addPage resp page) := by
  cases pages with
  | nil => cases h
  | cons first pages =>
    cases h
    show some ((pages ++ [page]).foldl addPage first) = _
    rw [List.foldl_append]
    rfl

/-- What `pagesOf` reads from a list of received pages. -/
def pagesIn (received : List (String × Nat × ReadResult)) (clusterName : String) (idx : Nat) :
    List ReadResult :=
  (received.filter fun p => p.1 = clusterName ∧ p.2.1 = idx).map fun p => p.2.2

theorem pagesIn_append (received more : List (String × Nat × ReadResult)) (clusterName : String)
    (idx : Nat) : pagesIn (received ++ more) clusterName idx =
      pagesIn received clusterName idx ++ pagesIn more clusterName idx := by
  unfold pagesIn
  rw [List.filter_append, List.map_append]

theorem pagesIn_of_not {received : List (String × Nat × ReadResult)} {clusterName : String}
    {idx : Nat} (h : ∀ p ∈ received, p.1 = clusterName → p.2.1 ≠ idx) :
    pagesIn received clusterName idx = [] := by
  unfold pagesIn
  rw [List.map_eq_nil_iff, List.filter_eq_nil_iff]
  intro p hp hcond
  have hcond := of_decide_eq_true hcond
  exact h p hp hcond.1 hcond.2

/-- The first pages: each query of the node gets its own. -/
theorem pagesIn_zip {clusterName : String} {idxs : List Nat} {ordered : List ReadResult}
    (hnodup : idxs.Nodup) {i q : Nat} {resp : ReadResult} (hq : idxs[i]? = some q)
    (hresp : ordered[i]? = some resp) :
    pagesIn ((idxs.zip ordered).map fun p => (clusterName, p.1, p.2)) clusterName q = [resp] := by
  induction idxs generalizing ordered i with
  | nil => cases hq
  | cons q' idxs ih =>
    obtain ⟨hnot, hnodup⟩ := List.nodup_cons.mp hnodup
    cases ordered with
    | nil => cases hresp
    | cons resp' ordered =>
      rw [List.zip_cons_cons, List.map_cons, ← List.singleton_append, pagesIn_append]
      cases i with
      | zero =>
        cases hq
        cases hresp
        have hrest : pagesIn ((idxs.zip ordered).map fun p => (clusterName, p.1, p.2))
            clusterName q = [] := by
          apply pagesIn_of_not
          intro p hp _ heq
          obtain ⟨pair, hpair, rfl⟩ := List.mem_map.mp hp
          exact hnot (heq ▸ (List.of_mem_zip hpair).1)
        rw [hrest]
        simp [pagesIn]
      | succ i =>
        have hne : q' ≠ q := by
          rintro rfl
          exact hnot (List.mem_of_getElem? hq)
        rw [ih hnodup hq hresp]
        simp [pagesIn, hne]

/-! ## What is left of the futures -/

theorem mem_eraseIdx_of_ne {α : Type} {l : List α} {k : Nat} {a b : α} (h : l[k]? = some a)
    (hb : b ∈ l) (hne : b ≠ a) : b ∈ l.eraseIdx k := by
  obtain ⟨before, behind, hl, herase⟩ := exists_split_of_getElem? h
  rw [hl, List.mem_append, List.mem_cons] at hb
  rw [herase, List.mem_append]
  rcases hb with hb | hb | hb
  · exact Or.inl hb
  · exact absurd hb hne
  · exact Or.inr hb

/-- The node of a batch future. -/
def PendingRead.batchNode : PendingRead → Option Node
  | .batch node _ => some node
  | .page _ _ _ _ _ => none

/-- Whether a future is for the queries of `node`, which `n` answers. -/
def PendingRead.IsFor (node n : Node) : PendingRead → Prop
  | .batch node' _ => node' = node
  | .page n' _ _ _ _ => n' = n

/-- The batch future that is done was the only one of its node. -/
theorem batch_not_mem_eraseIdx {l : List PendingRead} {k : Nat} {node : Node} {idxs : List Nat}
    (hnodup : (l.filterMap PendingRead.batchNode).Nodup) (h : l[k]? = some (.batch node idxs))
    (idxs' : List Nat) : .batch node idxs' ∉ l.eraseIdx k := by
  obtain ⟨before, behind, hl, herase⟩ := exists_split_of_getElem? h
  rw [hl, List.filterMap_append, List.filterMap_cons_some (show
    PendingRead.batchNode (.batch node idxs) = some node from rfl), List.nodup_middle,
    List.nodup_cons, ← List.filterMap_append] at hnodup
  rw [herase]
  intro hmem
  exact hnodup.1 (List.mem_filterMap.mpr ⟨_, hmem, rfl⟩)

/-! ## What a step does -/

namespace BatchRead

variable {input : BatchInput} {s : BatchRead} {k : Nat}

/-- The answers to the queries for a node raise an error or are filed under the node that sent
them. -/
theorem batchDone_cases (input : BatchInput) (s : BatchRead) (k : Nat) (node : Node)
    (idxs : List Nat) (responses : List ReadResult) :
    (s.batchDone input k node idxs responses).raised = true ∨
    ∃ n ordered accumulated pages nextReqId', input.answeringNode node = some n ∧
      ordered.map ReadResult.reqId = idxs.map input.reqIdOf ∧
      FirstPages input.queries n 0 idxs ordered accumulated pages ∧
      s.batchDone input k node idxs responses =
        { s with
          nodeToAccumulated := s.nodeToAccumulated.set n accumulated
          activeFutures := s.activeFutures.eraseIdx k ++ pages
          nextReqId := nextReqId'
          received := s.received ++ (idxs.zip ordered).map fun p => (n.clusterName, p.1, p.2) } := by
  unfold batchDone
  split
  · rename_i n ordered hn hordered
    split
    · exact Or.inl rfl
    · rename_i accumulated pages nextReqId' hfirst
      exact Or.inr ⟨n, ordered, accumulated, pages, nextReqId', hn,
        (orderResponses_reqIds hordered).1, firstPages_spec hfirst, rfl⟩
  · exact Or.inl rfl

/-- Right answers raise no error. -/
theorem raised_batchDone {node : Node} {idxs : List Nat} {responses : List ReadResult} {n : Node}
    (hn : input.answeringNode node = some n)
    (hqueries : ∀ q ∈ idxs, ∃ query, input.queries[q]? = some query)
    (hk : s.activeFutures[k]? = some (.batch node idxs))
    (hanswered : s.Answered input (.batch k responses)) :
    (s.batchDone input k node idxs responses).raised = s.raised := by
  obtain ⟨hperm, hcuts⟩ := hanswered node idxs hk
  obtain ⟨ordered, hordered⟩ := orderResponses_of_mem
    fun reqId (hreqId : reqId ∈ idxs.map input.reqIdOf) => hperm.mem_iff.mpr hreqId
  obtain ⟨hids, hmem⟩ := orderResponses_reqIds hordered
  have hlength : ordered.length = idxs.length := by simpa using congrArg List.length hids
  obtain ⟨accumulated, pages, nextReqId', hfirst⟩ : ∃ accumulated pages nextReqId',
      firstPages input.queries n 0 idxs ordered s.nextReqId =
        some (accumulated, pages, nextReqId') := by
    apply firstPages_of_answered hlength hqueries
    intro i q hq query hquery resp hresp
    apply hcuts q (List.mem_of_getElem? hq) query hquery resp (hmem resp (List.mem_of_getElem? hresp))
    have hi := congrArg (fun l => l[i]?) hids
    simpa [hq, hresp] using hi
  unfold batchDone
  rw [hn, hordered]
  simp only [hfirst]

/-- A further page raises an error or is added to the response at its place. -/
theorem pageDone_cases (input : BatchInput) (s : BatchRead) (k : Nat) (n : Node)
    (idx origQueryIdx expectedReqId : Nat) (page : ReadResult) :
    (s.pageDone input k n idx origQueryIdx expectedReqId page).raised = true ∨
    ∃ accumulated query resp, s.nodeToAccumulated.get n = some accumulated ∧
      input.queries[origQueryIdx]? = some query ∧ accumulated[idx]? = some resp ∧
      s.pageDone input k n idx origQueryIdx expectedReqId page =
        { s with
          nodeToAccumulated :=
            s.nodeToAccumulated.set n (accumulated.set idx (settle query (addPage resp page)))
          activeFutures := s.activeFutures.eraseIdx k ++
            (followUp n idx origQueryIdx query (addPage resp page) s.nextReqId).2.1
          nextReqId := (followUp n idx origQueryIdx query (addPage resp page) s.nextReqId).2.2
          received := s.received ++ [(n.clusterName, origQueryIdx, page)] } := by
  unfold pageDone
  split
  · exact Or.inl rfl
  split
  · exact Or.inl rfl
  split
  · rename_i accumulated query hget hquery
    split
    · exact Or.inl rfl
    · rename_i resp hresp
      split
      · exact Or.inl rfl
      · refine Or.inr ⟨accumulated, query, resp, hget, hquery, hresp, ?_⟩
        rw [← (followUp_spec n idx origQueryIdx query (addPage resp page) s.nextReqId).1]
  · exact Or.inl rfl

/-- A right page raises no error when its place is there. -/
theorem raised_pageDone {n : Node} {idx origQueryIdx expectedReqId : Nat}
    {page resp raw : ReadResult} {pageQuery query : QueryRequest} {accumulated : List ReadResult}
    (hk : s.activeFutures[k]? = some (.page n idx origQueryIdx expectedReqId pageQuery))
    (hanswered : s.Answered input (.page k page))
    (hget : s.nodeToAccumulated.get n = some accumulated)
    (hquery : input.queries[origQueryIdx]? = some query) (hresp : accumulated[idx]? = some resp)
    (hraw : accumulate (s.pagesOf n.clusterName origQueryIdx) = some raw)
    (hmaxId : resp.maxId = raw.maxId) :
    (s.pageDone input k n idx origQueryIdx expectedReqId page).raised = s.raised := by
  obtain ⟨hreqId, hcut⟩ := hanswered n idx origQueryIdx expectedReqId pageQuery hk
  have hcount : ¬ (page.limitReached = true ∧ page.recordsCount = 0) :=
    fun h => (hcut h.1).1 h.2
  have hmax : ¬ (page.limitReached = true ∧ page.maxId < resp.maxId) := by
    rintro ⟨hlimit, hlt⟩
    rw [hmaxId] at hlt
    exact absurd hlt (UInt64.not_lt.mpr ((hcut hlimit).2 raw hraw))
  unfold pageDone
  rw [if_neg (fun h => h hreqId), if_neg hcount, hget, hquery]
  simp only [hresp, if_neg hmax]

/-! ## Nodes that answer for themselves -/

/-- The list filed under `n` for the queries `idxs`: at each place the response that accumulates the
pages of its query, with the next page on its way when it is unfinished. -/
structure Filed (input : BatchInput) (s : BatchRead) (n : Node) (idxs : List Nat)
    (accumulated : List ReadResult) : Prop where
  length : accumulated.length = idxs.length
  filed : ∀ i q : Nat, idxs[i]? = some q → ∀ query, input.queries[q]? = some query → ∃ resp,
    accumulate (s.pagesOf n.clusterName q) = some resp ∧ resp.reqId = input.reqIdOf q ∧
      accumulated[i]? = some (settle query resp) ∧
      (query.Unfinished resp → ∃ reqId pageQuery, .page n i q reqId pageQuery ∈ s.activeFutures)

/-- A step for other queries leaves the list right. -/
theorem Filed.frame {s' : BatchRead} {n : Node} {idxs : List Nat} {accumulated : List ReadResult}
    (h : Filed input s n idxs accumulated)
    (hpages : ∀ q ∈ idxs, s'.pagesOf n.clusterName q = s.pagesOf n.clusterName q)
    (hactive : ∀ i q reqId pageQuery, .page n i q reqId pageQuery ∈ s.activeFutures →
      .page n i q reqId pageQuery ∈ s'.activeFutures) :
    Filed input s' n idxs accumulated := by
  refine ⟨h.length, fun i q hq query hquery => ?_⟩
  obtain ⟨resp, hresp, hreqId, hfiled, hpending⟩ := h.filed i q hq query hquery
  rw [hpages q (List.mem_of_getElem? hq)]
  refine ⟨resp, hresp, hreqId, hfiled, fun hunfinished => ?_⟩
  obtain ⟨reqId, pageQuery, hmem⟩ := hpending hunfinished
  exact ⟨reqId, pageQuery, hactive i q reqId pageQuery hmem⟩

/-- The queries for `node` have been answered by `n`. -/
structure Settled (input : BatchInput) (s : BatchRead) (node : Node) (idxs : List Nat) (n : Node) :
    Prop where
  entry : (node, idxs) ∈ input.nodeQueries.entries
  answered : input.answeringNode node = some n
  done : ∀ idxs', .batch node idxs' ∉ s.activeFutures
  filed : ∃ accumulated, s.nodeToAccumulated.get n = some accumulated ∧
    Filed input s n idxs accumulated

/-- While each node answers for one: the queries for a node either wait, with no page received, or
are settled, and nothing else is filed or asked for. -/
structure Inv (input : BatchInput) (s : BatchRead) : Prop where
  raised : s.raised = false
  nodup : (s.activeFutures.filterMap PendingRead.batchNode).Nodup
  waiting : ∀ node idxs, .batch node idxs ∈ s.activeFutures →
    (node, idxs) ∈ input.nodeQueries.entries ∧ ∀ q ∈ idxs, s.pagesOf node.clusterName q = []
  settled : ∀ node idxs, (node, idxs) ∈ input.nodeQueries.entries →
    .batch node idxs ∈ s.activeFutures ∨ ∃ n, Settled input s node idxs n
  pages : ∀ n i q reqId pageQuery, .page n i q reqId pageQuery ∈ s.activeFutures →
    ∃ node idxs, Settled input s node idxs n ∧ idxs[i]? = some q
  keys : ∀ n accumulated, s.nodeToAccumulated.get n = some accumulated →
    ∃ node idxs, Settled input s node idxs n

theorem pagesOf_eq (s : BatchRead) (clusterName : String) (idx : Nat) :
    s.pagesOf clusterName idx = pagesIn s.received clusterName idx := rfl

theorem inv_init (input : BatchInput) (nextReqId : Nat) : Inv input (init input nextReqId) where
  raised := rfl
  nodup := by
    have hnodes : ∀ entries : List (Node × List Nat),
        (entries.map fun p => PendingRead.batch p.1 p.2).filterMap PendingRead.batchNode =
          entries.map Prod.fst := by
      intro entries
      rw [List.filterMap_map]
      exact List.filterMap_eq_map' ▸ rfl
    rw [init, hnodes]
    exact input.nodeQueries.nodup
  waiting := by
    intro node idxs hmem
    obtain ⟨p, hp, heq⟩ := List.mem_map.mp hmem
    cases heq
    exact ⟨hp, fun q _ => rfl⟩
  settled := by
    intro node idxs hentry
    exact Or.inl (List.mem_map.mpr ⟨(node, idxs), hentry, rfl⟩)
  pages := by
    intro n i q reqId pageQuery hmem
    obtain ⟨p, -, heq⟩ := List.mem_map.mp hmem
    cases heq
  keys := by
    intro n accumulated hget
    cases hget

/-- A step of other nodes leaves the queries settled. -/
theorem Settled.frame {s' : BatchRead} {node n : Node} {idxs : List Nat}
    (h : Settled input s node idxs n)
    (hbatches : ∀ idxs', .batch node idxs' ∈ s'.activeFutures → .batch node idxs' ∈ s.activeFutures)
    (hget : s'.nodeToAccumulated.get n = s.nodeToAccumulated.get n)
    (hpages : ∀ q ∈ idxs, s'.pagesOf n.clusterName q = s.pagesOf n.clusterName q)
    (hactive : ∀ i q reqId pageQuery, .page n i q reqId pageQuery ∈ s.activeFutures →
      .page n i q reqId pageQuery ∈ s'.activeFutures) :
    Settled input s' node idxs n := by
  obtain ⟨accumulated, hgot, hfiled⟩ := h.filed
  refine ⟨h.entry, h.answered, fun idxs' hmem => h.done idxs' (hbatches idxs' hmem), accumulated, ?_,
    hfiled.frame hpages hactive⟩
  rw [hget, hgot]

/-- What a step does when the future at `k` is one for `node` and `n` answers: it files a list under
`n` and receives pages and asks for pages of the queries `idxs`. -/
structure Change (s s' : BatchRead) (k : Nat) (node n : Node) (idxs : List Nat) : Prop where
  fut : ∃ fut, s.activeFutures[k]? = some fut ∧ fut.IsFor node n
  dict : ∃ accumulated, s'.nodeToAccumulated = s.nodeToAccumulated.set n accumulated
  received : ∃ received, s'.received = s.received ++ received ∧
    ∀ p ∈ received, p.1 = n.clusterName ∧ p.2.1 ∈ idxs
  active : ∃ futures, s'.activeFutures = s.activeFutures.eraseIdx k ++ futures ∧
    ∀ fut ∈ futures, ∃ i q reqId pageQuery, idxs[i]? = some q ∧
      fut = .page n i q reqId pageQuery

variable {s' : BatchRead}

/-- No step submits a batch. -/
theorem Change.mem_of_batch {node n node' : Node} {idxs idxs' : List Nat}
    (h : Change s s' k node n idxs) (hmem : .batch node' idxs' ∈ s'.activeFutures) :
    .batch node' idxs' ∈ s.activeFutures := by
  obtain ⟨futures, hactive, hpages⟩ := h.active
  rw [hactive] at hmem
  rcases List.mem_append.mp hmem with hmem | hmem
  · exact List.mem_of_mem_eraseIdx hmem
  · obtain ⟨i, q, reqId, pageQuery, -, heq⟩ := hpages _ hmem
    cases heq

section OwnNodes

variable (hinput : input.Wf) (hown : input.OwnNodes)

include hinput in
/-- Pages from the queries for another node are not pages of this one's. -/
theorem pagesIn_of_entry {node node' n : Node} {idxs idxs' : List Nat} {q : Nat}
    (hentry : (node, idxs) ∈ input.nodeQueries.entries)
    (hentry' : (node', idxs') ∈ input.nodeQueries.entries) (hne : node' ≠ node)
    (hn : n.clusterName = node.clusterName) (hq : q ∈ idxs')
    {received : List (String × Nat × ReadResult)}
    (hreceived : ∀ p ∈ received, p.1 = n.clusterName ∧ p.2.1 ∈ idxs) :
    pagesIn received node'.clusterName q = [] := by
  apply pagesIn_of_not
  rintro p hp hcluster rfl
  obtain ⟨hname, hidx⟩ := hreceived p hp
  apply hne
  have heq : (node', idxs') = (node, idxs) :=
    hinput.entry_unique hentry' hentry hq hidx (by rw [← hcluster, hname, hn])
  exact congrArg Prod.fst heq

include hinput hown in
/-- Settled queries for another node stay so. -/
theorem Settled.other {node node' n n' : Node} {idxs idxs' : List Nat}
    (h : Settled input s node' idxs' n') (hchange : Change s s' k node n idxs)
    (hentry : (node, idxs) ∈ input.nodeQueries.entries) (hn : input.answeringNode node = some n)
    (hne : node' ≠ node) : Settled input s' node' idxs' n' := by
  have hn' : n' ≠ n := by
    rintro rfl
    exact hne (hown _ h.entry _ hentry (h.answered.trans hn.symm))
  obtain ⟨fut, hk, hfut⟩ := hchange.fut
  obtain ⟨accumulated, hdict⟩ := hchange.dict
  obtain ⟨received, hreceived, hfor⟩ := hchange.received
  obtain ⟨futures, hactive, -⟩ := hchange.active
  apply h.frame
  · exact fun idxs'' => hchange.mem_of_batch
  · rw [hdict, Dict.get_set_of_ne hn']
  · intro q hq
    rw [pagesOf_eq, pagesOf_eq, hreceived, pagesIn_append,
      hinput.answeringNode_clusterName h.answered,
      pagesIn_of_entry hinput hentry h.entry hne (hinput.answeringNode_clusterName hn) hq hfor,
      List.append_nil]
  · intro i q reqId pageQuery hmem
    rw [hactive]
    apply List.mem_append_left
    apply mem_eraseIdx_of_ne hk hmem
    rintro rfl
    exact hn' hfut

include hinput hown in
/-- A step that settles the queries for its node keeps the invariant. -/
theorem Inv.change (h : Inv input s) {node n : Node} {idxs : List Nat}
    (hchange : Change s s' k node n idxs) (hraised : s'.raised = false)
    (hself : Settled input s' node idxs n) : Inv input s' := by
  -- nothing that is settled for another node is touched
  have hother : ∀ {node' n' : Node} {idxs' : List Nat}, Settled input s node' idxs' n' →
      node' ≠ node → Settled input s' node' idxs' n' :=
    fun hsettled hne => hsettled.other hinput hown hchange hself.entry hself.answered hne
  -- the queries for the node of the step and those for another
  have hsettled : ∀ {node' n' : Node} {idxs' : List Nat}, Settled input s node' idxs' n' →
      Settled input s' node' idxs' n' := by
    intro node' n' idxs' hsettled
    by_cases hne : node' = node
    · subst hne
      have hidxs : idxs' = idxs := by
        rw [(hinput.mem_nodeQueries.mp hsettled.entry).1, (hinput.mem_nodeQueries.mp hself.entry).1]
      have hn : n' = n := Option.some.inj (hsettled.answered.symm.trans hself.answered)
      rw [hidxs, hn]
      exact hself
    · exact hother hsettled hne
  obtain ⟨fut, hk, hfut⟩ := hchange.fut
  obtain ⟨accumulated, hdict⟩ := hchange.dict
  obtain ⟨received, hreceived, hfor⟩ := hchange.received
  obtain ⟨futures, hactive, hpages⟩ := hchange.active
  refine ⟨hraised, ?_, ?_, ?_, ?_, ?_⟩
  · -- only pages are new, so no batch is sent twice
    have hnil : futures.filterMap PendingRead.batchNode = [] := by
      rw [List.filterMap_eq_nil_iff]
      intro fut hmem
      obtain ⟨i, q, reqId, pageQuery, -, rfl⟩ := hpages fut hmem
      rfl
    rw [hactive, List.filterMap_append, hnil, List.append_nil]
    exact h.nodup.sublist ((List.eraseIdx_sublist _ k).filterMap _)
  · -- a batch that waits is of another node and has received nothing
    intro node' idxs' hmem
    obtain ⟨hentry, hwait⟩ := h.waiting node' idxs' (hchange.mem_of_batch hmem)
    refine ⟨hentry, fun q hq => ?_⟩
    have hne : node' ≠ node := by
      rintro rfl
      exact hself.done idxs' hmem
    rw [pagesOf_eq, hreceived, pagesIn_append,
      pagesIn_of_entry hinput hself.entry hentry hne
        (hinput.answeringNode_clusterName hself.answered) hq hfor, List.append_nil]
    exact hwait q hq
  · -- each entry waits or is settled
    intro node' idxs' hentry
    by_cases hne : node' = node
    · subst hne
      rw [(hinput.mem_nodeQueries.mp hentry).1, ← (hinput.mem_nodeQueries.mp hself.entry).1]
      exact Or.inr ⟨n, hself⟩
    · rcases h.settled node' idxs' hentry with hmem | ⟨n', hdone⟩
      · left
        rw [hactive]
        apply List.mem_append_left
        apply mem_eraseIdx_of_ne hk hmem
        rintro rfl
        exact hne hfut
      · exact Or.inr ⟨n', hsettled hdone⟩
  · -- a page belongs to a settled entry
    intro n' i q reqId pageQuery hmem
    rw [hactive] at hmem
    rcases List.mem_append.mp hmem with hmem | hmem
    · obtain ⟨node', idxs', hdone, hq⟩ :=
        h.pages n' i q reqId pageQuery (List.mem_of_mem_eraseIdx hmem)
      exact ⟨node', idxs', hsettled hdone, hq⟩
    · obtain ⟨i', q', reqId', pageQuery', hq, heq⟩ := hpages _ hmem
      cases heq
      exact ⟨node, idxs, hself, hq⟩
  · -- each list of responses belongs to a settled entry
    intro n' accumulated' hget
    by_cases hn' : n' = n
    · subst hn'
      exact ⟨node, idxs, hself⟩
    · rw [hdict, Dict.get_set_of_ne hn'] at hget
      obtain ⟨node', idxs', hdone⟩ := h.keys n' accumulated' hget
      exact ⟨node', idxs', hsettled hdone⟩

include hinput hown in
/-- The queries for a node are answered. -/
theorem Inv.batchDone (h : Inv input s) {node : Node} {idxs : List Nat}
    {responses : List ReadResult} (hk : s.activeFutures[k]? = some (.batch node idxs))
    (hanswered : s.Answered input (.batch k responses)) :
    Inv input (s.batchDone input k node idxs responses) := by
  obtain ⟨hentry, hwait⟩ := h.waiting node idxs (List.mem_of_getElem? hk)
  -- the node is reachable, so the step raises no error
  obtain ⟨n₀, hn₀⟩ := hinput.reachable _ hentry
  have hraised : (s.batchDone input k node idxs responses).raised = false := by
    rw [raised_batchDone hn₀ (hinput.queries_of_mem hentry) hk hanswered]
    exact h.raised
  rcases batchDone_cases input s k node idxs responses with hbad |
    ⟨n, ordered, accumulated, pages, nextReqId', hn, hids, hfirst, heq⟩
  · rw [hbad] at hraised
    cases hraised
  -- the pages asked for are pages of the queries of this entry
  have hpages : ∀ fut ∈ pages, ∃ i q reqId pageQuery, idxs[i]? = some q ∧
      fut = .page n i q reqId pageQuery := by
    intro fut hfut
    obtain ⟨i, q, reqId, pageQuery, hq, hpage⟩ := hfirst.pages fut hfut
    rw [Nat.zero_add] at hpage
    exact ⟨i, q, reqId, pageQuery, hq, hpage⟩
  rw [heq] at hraised ⊢
  refine h.change hinput hown (?_ : Change s _ k node n idxs) hraised ?_
  · refine ⟨⟨_, hk, rfl⟩, ⟨accumulated, rfl⟩, ⟨_, rfl, ?_⟩, ⟨pages, rfl, hpages⟩⟩
    intro p hp
    obtain ⟨pair, hpair, rfl⟩ := List.mem_map.mp hp
    exact ⟨rfl, (List.of_mem_zip hpair).1⟩
  · refine ⟨hentry, hn, ?_, accumulated, Dict.get_set_self, hfirst.length, ?_⟩
    · intro idxs' hmem
      rcases List.mem_append.mp hmem with hmem | hmem
      · exact batch_not_mem_eraseIdx h.nodup hk idxs' hmem
      · obtain ⟨i, q, reqId, pageQuery, -, hpage⟩ := hpages _ hmem
        cases hpage
    · intro i q hq query hquery
      obtain ⟨resp, hresp, hfiled, hpending⟩ := hfirst.filed i q hq query hquery
      refine ⟨resp, ?_, ?_, hfiled, fun hunfinished => ?_⟩
      · rw [pagesOf_eq, pagesIn_append, pagesIn_zip (hinput.nodup_idxs hentry) hq hresp,
          hinput.answeringNode_clusterName hn,
          show pagesIn s.received node.clusterName q = [] from hwait q (List.mem_of_getElem? hq)]
        rfl
      · have hi := congrArg (fun l => l[i]?) hids
        simpa [hq, hresp] using hi
      · obtain ⟨reqId, pageQuery, hmem⟩ := hpending hunfinished
        rw [Nat.zero_add] at hmem
        exact ⟨reqId, pageQuery, List.mem_append_right _ hmem⟩

include hinput hown in
/-- A further page has come. -/
theorem Inv.pageDone (h : Inv input s) {n : Node} {idx origQueryIdx expectedReqId : Nat}
    {pageQuery : QueryRequest} {page : ReadResult}
    (hk : s.activeFutures[k]? = some (.page n idx origQueryIdx expectedReqId pageQuery))
    (hanswered : s.Answered input (.page k page)) :
    Inv input (s.pageDone input k n idx origQueryIdx expectedReqId page) := by
  obtain ⟨node, idxs, hsettled, hidx⟩ := h.pages n idx origQueryIdx _ _ (List.mem_of_getElem? hk)
  obtain ⟨accumulated, hget, hfiled⟩ := hsettled.filed
  obtain ⟨query, hquery⟩ := hinput.queries_of_mem hsettled.entry _ (List.mem_of_getElem? hidx)
  obtain ⟨raw, hraw, hreqId, hresp, -⟩ := hfiled.filed idx origQueryIdx hidx query hquery
  -- the page belongs to a settled entry, so it is accepted
  have hraised : (s.pageDone input k n idx origQueryIdx expectedReqId page).raised = false := by
    rw [raised_pageDone hk hanswered hget hquery hresp hraw (settle_maxId query raw)]
    exact h.raised
  rcases pageDone_cases input s k n idx origQueryIdx expectedReqId page with hbad |
    ⟨accumulated', query', resp, hget', hquery', hresp', heq⟩
  · rw [hbad] at hraised
    cases hraised
  rw [hget] at hget'
  cases hget'
  rw [hquery] at hquery'
  cases hquery'
  rw [hresp] at hresp'
  cases hresp'
  rw [addPage_settle] at heq
  obtain ⟨-, hpages, hpending⟩ :=
    followUp_spec n idx origQueryIdx query (addPage raw page) s.nextReqId
  rw [heq] at hraised ⊢
  refine h.change hinput hown (?_ : Change s _ k node n idxs) hraised ?_
  · refine ⟨⟨_, hk, rfl⟩, ⟨_, rfl⟩, ⟨_, rfl, ?_⟩, ⟨_, rfl, ?_⟩⟩
    · intro p hp
      rw [List.mem_singleton] at hp
      rw [hp]
      exact ⟨rfl, List.mem_of_getElem? hidx⟩
    · intro fut hfut
      obtain ⟨reqId, pageQuery, hpage⟩ := hpages fut hfut
      exact ⟨idx, origQueryIdx, reqId, pageQuery, hidx, hpage⟩
  · refine ⟨hsettled.entry, hsettled.answered, ?_, _, Dict.get_set_self, ?_, ?_⟩
    · intro idxs' hmem
      rcases List.mem_append.mp hmem with hmem | hmem
      · exact hsettled.done idxs' (List.mem_of_mem_eraseIdx hmem)
      · obtain ⟨reqId, pageQuery, hpage⟩ := hpages _ hmem
        cases hpage
    · rw [List.length_set]
      exact hfiled.length
    · intro i q hq query' hquery'
      -- the query of the page gets the longer response
      by_cases hi : i = idx
      · subst hi
        rw [hidx] at hq
        cases hq
        rw [hquery] at hquery'
        cases hquery'
        refine ⟨addPage raw page, ?_, hreqId, ?_, fun hunfinished => ?_⟩
        · rw [pagesOf_eq, pagesIn_append, show pagesIn [(n.clusterName, origQueryIdx, page)]
            n.clusterName origQueryIdx = [page] by simp [pagesIn]]
          exact accumulate_append hraw page
        · rw [List.getElem?_set_self (List.getElem?_eq_some_iff.mp hresp).1]
        · obtain ⟨reqId, pageQuery, hmem⟩ := hpending hunfinished
          exact ⟨reqId, pageQuery, List.mem_append_right _ hmem⟩
      · -- the page of another query of the node
        have hne : origQueryIdx ≠ q := by
          rintro rfl
          apply hi
          have hnodup := hinput.nodup_idxs hsettled.entry
          exact (List.getElem?_inj (List.getElem?_eq_some_iff.mp hq).1 hnodup).mp (hq.trans hidx.symm)
        obtain ⟨resp, hresp, hreqId, hplace, hnext⟩ := hfiled.filed i q hq query' hquery'
        refine ⟨resp, ?_, hreqId, ?_, fun hunfinished => ?_⟩
        · rw [pagesOf_eq, pagesIn_append, show pagesIn [(n.clusterName, origQueryIdx, page)]
            n.clusterName q = [] by simp [pagesIn, hne], List.append_nil]
          exact hresp
        · rw [List.getElem?_set_ne (Ne.symm hi)]
          exact hplace
        · obtain ⟨reqId, pageQuery, hmem⟩ := hnext hunfinished
          refine ⟨reqId, pageQuery, List.mem_append_left _ (mem_eraseIdx_of_ne hk hmem ?_)⟩
          intro hpage
          cases hpage
          exact hi rfl

include hinput hown in
theorem Inv.step (h : Inv input s) {e : Completion} (hanswered : s.Answered input e)
    (hstep : BatchRead.step input s e = some s') : Inv input s' := by
  unfold BatchRead.step at hstep
  rw [h.raised] at hstep
  cases e with
  | batch k responses =>
    simp only [Bool.false_eq_true, if_false] at hstep
    split at hstep
    · rename_i node idxs hk
      cases hstep
      exact h.batchDone hinput hown hk hanswered
    · cases hstep
  | page k page =>
    simp only [Bool.false_eq_true, if_false] at hstep
    split at hstep
    · rename_i n idx origQueryIdx expectedReqId pageQuery hk
      cases hstep
      exact h.pageDone hinput hown hk hanswered
    · cases hstep

include hinput in
/-- When all futures are done the result is right. -/
theorem Inv.right (h : Inv input s) (hend : s.activeFutures = []) : s.Right input := by
  intro idx nodes query hnodes hquery node hnode
  obtain ⟨idxs, hentry, hidx⟩ := hinput.exists_entry hnodes hnode
  -- no future is left, so every entry is settled
  have hdone : ∀ {node : Node} {idxs : List Nat}, (node, idxs) ∈ input.nodeQueries.entries →
      ∃ n, Settled input s node idxs n := by
    intro node idxs hentry
    rcases h.settled node idxs hentry with hmem | hsettled
    · rw [hend] at hmem
      cases hmem
    · exact hsettled
  obtain ⟨n, hsettled⟩ := hdone hentry
  obtain ⟨accumulated, hget, hfiled⟩ := hsettled.filed
  obtain ⟨i, hi⟩ := List.mem_iff_getElem?.mp hidx
  obtain ⟨resp, hresp, hreqId, hplace, hpending⟩ := hfiled.filed i idx hi query hquery
  have hcluster := hinput.answeringNode_clusterName hsettled.answered
  -- an unfinished query would have a page on its way
  have hfinished : ¬ query.Unfinished resp := by
    intro hunfinished
    obtain ⟨reqId, pageQuery, hmem⟩ := hpending hunfinished
    rw [hend] at hmem
    cases hmem
  rw [settle_of_not hfinished] at hplace
  -- a response with the request id of the query stands at the place of the query
  have honly : ∀ {n' : Node} {accumulated' : List ReadResult} {j : Nat} {resp' : ReadResult},
      s.nodeToAccumulated.get n' = some accumulated' → n'.clusterName = node.clusterName →
      accumulated'[j]? = some resp' → resp'.reqId = input.reqIdOf idx → n' = n ∧ j = i := by
    intro n' accumulated' j resp' hget' hcluster' hj hid
    obtain ⟨node', idxs', hsettled'⟩ := h.keys n' accumulated' hget'
    obtain ⟨acc, hacc, hfiled'⟩ := hsettled'.filed
    rw [hget'] at hacc
    cases hacc
    have hlt : j < idxs'.length := by
      rw [← hfiled'.length]
      exact (List.getElem?_eq_some_iff.mp hj).1
    have hq := List.getElem?_eq_getElem hlt
    obtain ⟨query', hquery'⟩ := hinput.queries_of_mem hsettled'.entry _ (List.mem_of_getElem? hq)
    obtain ⟨raw, -, hrawId, hraw, -⟩ := hfiled'.filed j _ hq query' hquery'
    rw [hj] at hraw
    cases hraw
    rw [settle_reqId, hrawId] at hid
    have hidx' := hinput.reqIdOf_injective hsettled'.entry hentry (List.mem_of_getElem? hq) hidx hid
    have hname := hinput.answeringNode_clusterName hsettled'.answered
    have hsame := hinput.entry_unique hsettled'.entry hentry (List.mem_of_getElem? hq)
      (by rw [hidx']; exact hidx) (by rw [← hname, hcluster'])
    cases hsame
    refine ⟨Option.some.inj (hsettled'.answered.symm.trans hsettled.answered), ?_⟩
    rw [hidx'] at hq
    exact (List.getElem?_inj hlt (hinput.nodup_idxs hentry)).mp (hq.trans hi.symm)
  refine ⟨resp, ?_, hfinished, ?_⟩
  · rw [← hcluster]
    exact hresp
  · apply Dict.filter_flatMap_eq_singleton (fun n => decide (n.clusterName = node.clusterName))
      hget (decide_eq_true hcluster) hplace (decide_eq_true hreqId)
    intro n' accumulated' j resp' hget' hcluster' hj hid
    exact honly hget' (of_decide_eq_true hcluster') hj (of_decide_eq_true hid)

end OwnNodes

/-! ## A node that answers for two -/

/-- Each list filed is that of one node's queries. -/
structure Keyed (input : BatchInput) (s : BatchRead) : Prop where
  filed : ∀ n accumulated, s.nodeToAccumulated.get n = some accumulated →
    ∃ p ∈ input.nodeQueries.entries, input.answeringNode p.1 = some n ∧
      accumulated.map ReadResult.reqId = p.2.map input.reqIdOf
  batches : ∀ node idxs, .batch node idxs ∈ s.activeFutures →
    (node, idxs) ∈ input.nodeQueries.entries

theorem keyed_init (input : BatchInput) (nextReqId : Nat) : Keyed input (init input nextReqId) where
  filed := by
    intro n accumulated hget
    cases hget
  batches := fun node idxs hmem => ((inv_init input nextReqId).waiting node idxs hmem).1

theorem Keyed.batchDone (h : Keyed input s) {node : Node} {idxs : List Nat}
    {responses : List ReadResult} (hk : s.activeFutures[k]? = some (.batch node idxs))
    (hraised : (s.batchDone input k node idxs responses).raised = false) :
    Keyed input (s.batchDone input k node idxs responses) := by
  rcases batchDone_cases input s k node idxs responses with hbad |
    ⟨n, ordered, accumulated, pages, nextReqId', hn, hids, hfirst, heq⟩
  · rw [hbad] at hraised
    cases hraised
  rw [heq]
  refine ⟨?_, ?_⟩
  · intro n' accumulated' hget
    rw [Dict.get_set] at hget
    split at hget
    · rename_i hsame
      cases hget
      exact ⟨_, h.batches node idxs (List.mem_of_getElem? hk), hsame ▸ hn, hfirst.reqIds.trans hids⟩
    · exact h.filed n' accumulated' hget
  · intro node' idxs' hmem
    rcases List.mem_append.mp hmem with hmem | hmem
    · exact h.batches node' idxs' (List.mem_of_mem_eraseIdx hmem)
    · obtain ⟨i, q, reqId, pageQuery, -, hpage⟩ := hfirst.pages _ hmem
      cases hpage

theorem Keyed.pageDone (h : Keyed input s) {n : Node} {idx origQueryIdx expectedReqId : Nat}
    {page : ReadResult}
    (hraised : (s.pageDone input k n idx origQueryIdx expectedReqId page).raised = false) :
    Keyed input (s.pageDone input k n idx origQueryIdx expectedReqId page) := by
  rcases pageDone_cases input s k n idx origQueryIdx expectedReqId page with hbad |
    ⟨accumulated, query, resp, hget, hquery, hresp, heq⟩
  · rw [hbad] at hraised
    cases hraised
  rw [heq]
  refine ⟨?_, ?_⟩
  · intro n' accumulated' hget'
    rw [Dict.get_set] at hget'
    split at hget'
    · rename_i hsame
      cases hget'
      obtain ⟨p, hp, hn, hids⟩ := h.filed n accumulated hget
      refine ⟨p, hp, hsame ▸ hn, ?_⟩
      have hplace : (accumulated.map ReadResult.reqId)[idx]? = some resp.reqId := by
        rw [List.getElem?_map, hresp, Option.map_some]
      obtain ⟨hlt, hget⟩ := List.getElem?_eq_some_iff.mp hplace
      rw [List.map_set, settle_reqId, ← hids]
      show (accumulated.map ReadResult.reqId).set idx resp.reqId = _
      rw [← hget, List.set_getElem_self]
    · exact h.filed n' accumulated' hget'
  · intro node' idxs' hmem
    rcases List.mem_append.mp hmem with hmem | hmem
    · exact h.batches node' idxs' (List.mem_of_mem_eraseIdx hmem)
    · obtain ⟨reqId, pageQuery, hpage⟩ := (followUp_spec n idx origQueryIdx query
        (addPage resp page) s.nextReqId).2.1 _ hmem
      cases hpage

theorem Keyed.step (h : s.raised = false → Keyed input s) {e : Completion}
    (hstep : BatchRead.step input s e = some s') (hraised : s'.raised = false) :
    Keyed input s' := by
  unfold BatchRead.step at hstep
  split at hstep
  · cases hstep
  rename_i hgood
  have hkeyed := h (Bool.eq_false_iff.mpr hgood)
  cases e with
  | batch k responses =>
    simp only at hstep
    split at hstep
    · rename_i node idxs hk
      cases hstep
      exact hkeyed.batchDone hk hraised
    · cases hstep
  | page k page =>
    simp only at hstep
    split at hstep
    · cases hstep
      exact hkeyed.pageDone hraised
    · cases hstep

/-- A right result has a list for the queries of each node, so no two share one. -/
theorem Keyed.ownNodes (hinput : input.Wf) (h : Keyed input s) (hright : s.Right input) :
    input.OwnNodes := by
  -- the list that has the response to a query
  have hlist : ∀ p ∈ input.nodeQueries.entries, ∀ n, input.answeringNode p.1 = some n →
      ∃ accumulated, s.nodeToAccumulated.get n = some accumulated ∧
        accumulated.map ReadResult.reqId = p.2.map input.reqIdOf := by
    intro p hp n hn
    obtain ⟨q, hq⟩ := List.exists_mem_of_ne_nil _ (hinput.mem_nodeQueries.mp hp).2
    obtain ⟨nodes, hnodes, hnode⟩ := (hinput.mem_idxs hp).mp hq
    obtain ⟨query, hquery⟩ := hinput.queries_of_mem hp q hq
    obtain ⟨resp, -, -, hone⟩ := hright q nodes query hnodes hquery p.1 hnode
    have hmem := List.mem_singleton_self { resp with limitReached := false }
    rw [← hone] at hmem
    obtain ⟨hmem, hid⟩ := List.mem_filter.mp hmem
    obtain ⟨⟨n', accumulated⟩, hentry, hresp⟩ := List.mem_flatMap.mp hmem
    obtain ⟨hentry, hcluster⟩ := List.mem_filter.mp hentry
    have hget := Dict.mem_entries_iff.mp hentry
    obtain ⟨p', hp', hn', hids⟩ := h.filed n' accumulated hget
    have hq' : ∃ q' ∈ p'.2, input.reqIdOf q' = input.reqIdOf q := by
      rw [← List.mem_map, ← hids, ← of_decide_eq_true hid]
      exact List.mem_map_of_mem hresp
    obtain ⟨q', hq', heq⟩ := hq'
    -- within a cluster the request id tells the query
    have hsame := hinput.reqIdOf_injective hp' hp hq' hq heq
    rw [hsame] at hq'
    have hname := hinput.answeringNode_clusterName hn'
    have hpp := hinput.entry_unique hp' hp hq' hq (by
      rw [← hname]
      exact of_decide_eq_true hcluster)
    rw [hpp, hn] at hn'
    cases hn'
    rw [hpp] at hids
    exact ⟨accumulated, hget, hids⟩
  -- two entries answered by one node would share its list
  intro p hp p' hp' hsame
  obtain ⟨n, hn⟩ := hinput.reachable p hp
  have hn' : input.answeringNode p'.1 = some n := by rw [← hsame, hn]
  obtain ⟨accumulated, hget, hids⟩ := hlist p hp n hn
  obtain ⟨accumulated', hget', hids'⟩ := hlist p' hp' n hn'
  rw [hget] at hget'
  cases hget'
  obtain ⟨q, hq⟩ := List.exists_mem_of_ne_nil _ (hinput.mem_nodeQueries.mp hp).2
  have hmem : input.reqIdOf q ∈ p'.2.map input.reqIdOf := by
    rw [← hids', hids]
    exact List.mem_map_of_mem hq
  obtain ⟨q', hq', heq⟩ := List.mem_map.mp hmem
  have hqq := hinput.reqIdOf_injective hp' hp hq' hq heq
  rw [hqq] at hq'
  have hcluster : p.1.clusterName = p'.1.clusterName := by
    rw [← hinput.answeringNode_clusterName hn, ← hinput.answeringNode_clusterName hn']
  rw [hinput.entry_unique hp hp' hq hq' hcluster]

end BatchRead

/-! ## The result -/

/-- The result of `read_batch` is right exactly when no node answers the queries for two. -/
theorem read_batch_iff {input : BatchInput} (hinput : input.Wf) (nextReqId : Nat)
    (es : List Completion) {s : BatchRead}
    (hrun : run (BatchRead.step input) (BatchRead.init input nextReqId) es = some s)
    (hanswered : EachStep (BatchRead.step input) (fun t e => t.Answered input e)
      (BatchRead.init input nextReqId) es)
    (hend : s.raised = true ∨ s.activeFutures = []) :
    s.raised = false ∧ s.Right input ↔ input.OwnNodes := by
  constructor
  · rintro ⟨hraised, hright⟩
    have hkeyed : s.raised = false → BatchRead.Keyed input s := by
      refine run_invariant (P := fun t => t.raised = false → BatchRead.Keyed input t) ?_
        (fun e _ => trivial) (fun _ => BatchRead.keyed_init input nextReqId) hrun
      intro t e t' _ ht hstep
      exact BatchRead.Keyed.step ht hstep
    exact (hkeyed hraised).ownNodes hinput hright
  · intro hown
    have halways : Always (BatchRead.step input) (BatchRead.Inv input)
        (BatchRead.init input nextReqId) es := by
      apply always_of_eachStep (BatchRead.inv_init input nextReqId)
      intro pre e post t has ht t' hinv hstep
      exact hinv.step hinput hown (hanswered pre e post t has ht) hstep
    have hinv := halways es [] s (List.append_nil es).symm hrun
    have hdone : s.activeFutures = [] := by
      rcases hend with hraised | hdone
      · rw [hinv.raised] at hraised
        cases hraised
      · exact hdone
    exact ⟨hinv.raised, hinv.right hinput hdone⟩

/-- A cluster of a leader and two followers. -/
def threeNodes : Dict String (List Node) :=
  ⟨[("c", [⟨"c", 0, "h", 0⟩, ⟨"c", 1, "h", 1⟩, ⟨"c", 2, "h", 2⟩])], List.nodup_singleton _⟩

/-- A batch of queries for one cluster, whose followers take turns. -/
def batchOfThree (queries : List QueryRequest) (fails : Node → Node → Bool) : BatchInput where
  clusters := threeNodes
  queries := queries
  routes := routeQueries (fun c => some ⟨c, 0, "h", 0⟩) (fun _ => threeNodes) queries Dict.empty
  initialReqIds := List.range queries.length
  leader := fun _ => some ⟨"c", 0, "h", 0⟩
  fails := fails

theorem wf_batchOfThree {queries : List QueryRequest} {fails : Node → Node → Bool}
    (hreachable : ∀ p ∈ (batchOfThree queries fails).nodeQueries.entries,
      ((batchOfThree queries fails).answeringNode p.1).isSome) :
    (batchOfThree queries fails).Wf where
  clusters := by
    show ∀ p ∈ threeNodes.entries, ∀ n ∈ p.2, n.clusterName = p.1
    decide
  routes := by
    apply nodup_routeQueries
    · intro clusterName n hn
      cases hn
      rfl
    · intro _
      decide
  routes_length := length_routeQueries _ _ _ _
  reqIds_length := List.length_range
  reqIds_nodup := List.nodup_range
  reachable := fun p hp => Option.isSome_iff_exists.mp (hreachable p hp)

/-- Three queries, of which the first follower gets two. The leader answers these, since neither
follower does. -/
def failingOver : BatchInput :=
  batchOfThree [⟨1, 0, 9, 0, 7⟩, ⟨1, 0, 5, 0, 8⟩, ⟨2, 0, 3, 0, 9⟩]
    fun node n => decide (node.id = 1 ∧ n.id ≠ 0)

/-- The second follower answers first. The answers of the leader come in the other order, and one of
them is cut. -/
def failedOver : List Completion :=
  [.batch 1 [⟨1, false, 3, 0, 4, 0, 96, 2, []⟩],
    .batch 0 [⟨2, false, 2, 0, 3, 0, 96, 2, []⟩, ⟨0, true, 3, 0, 4, 0, 96, 2, []⟩],
    .page 0 ⟨3, false, 6, 0, 6, 0, 48, 1, []⟩]

/-- No node answers for two here, so the result is right. -/
theorem read_batch_iff_one : ∃ s,
    run (BatchRead.step failingOver) (BatchRead.init failingOver 3) failedOver = some s ∧
    s.raised = false ∧ s.Right failingOver := by
  refine ⟨_, rfl, (read_batch_iff (wf_batchOfThree (by decide)) 3 failedOver rfl ?_
    (Or.inr rfl)).mpr ?_⟩
  · refine eachStep_cons.mpr ⟨?_, fun t ht => ?_⟩
    · intro node idxs hfuture
      cases hfuture
      refine ⟨by decide, ?_⟩
      intro idx _ query _ resp hresp _ hlimit
      rw [List.mem_singleton.mp hresp] at hlimit
      cases hlimit
    cases ht
    refine eachStep_cons.mpr ⟨?_, fun t ht => ?_⟩
    · intro node idxs hfuture
      cases hfuture
      refine ⟨by decide, ?_⟩
      intro idx hidx query hquery resp hresp hreqId hlimit
      rcases List.mem_cons.mp hresp with rfl | hresp
      · cases hlimit
      -- only the answer to the first query is cut
      cases List.mem_singleton.mp hresp
      rcases List.mem_cons.mp hidx with rfl | hidx
      · cases hquery
        decide
      · cases List.mem_singleton.mp hidx
        exact absurd hreqId (by decide)
    cases ht
    refine eachStep_cons.mpr ⟨?_, fun t _ => eachStep_nil _ _ _⟩
    intro n idx origQueryIdx expectedReqId pageQuery hfuture
    cases hfuture
    refine ⟨rfl, ?_⟩
    intro hlimit
    cases hlimit
  · unfold BatchInput.OwnNodes
    decide

/-- The first follower fails and the second answers its query as well: its own answer takes the place
of that one. -/
theorem not_read_batch_complete : ¬ ∀ (input : BatchInput) (nextReqId : Nat) (es : List Completion)
    (s : BatchRead), input.Wf →
    run (BatchRead.step input) (BatchRead.init input nextReqId) es = some s →
    EachStep (BatchRead.step input) (fun t e => t.Answered input e)
      (BatchRead.init input nextReqId) es →
    s.raised = true ∨ s.activeFutures = [] → s.raised = false ∧ s.Right input := by
  intro hclaim
  have hright := hclaim
    (batchOfThree [⟨1, 0, 9, 0, 7⟩, ⟨1, 0, 9, 0, 8⟩] fun _ n => n.id = 1) 2
    [.batch 0 [⟨0, false, 3, 0, 4, 0, 96, 2, []⟩], .batch 0 [⟨1, false, 3, 0, 4, 0, 96, 2, []⟩]] _
    (wf_batchOfThree (by decide)) rfl ?_ (Or.inr rfl)
  · obtain ⟨resp, -, -, hresp⟩ := hright.2 0 [⟨"c", 1, "h", 1⟩] _ rfl rfl _ (List.mem_singleton_self _)
    cases hresp
  have hanswered : ∀ (k : Nat) (reqId : Nat) (t : BatchRead), t.activeFutures[k]? =
      some (.batch ⟨"c", reqId + 1, "h", reqId + 1⟩ [reqId]) → reqId < 2 →
      t.Answered (batchOfThree [⟨1, 0, 9, 0, 7⟩, ⟨1, 0, 9, 0, 8⟩] fun _ n => n.id = 1)
        (.batch k [⟨reqId, false, 3, 0, 4, 0, 96, 2, []⟩]) := by
    intro k reqId t hfuture hlt node idxs hfuture'
    rw [hfuture] at hfuture'
    cases hfuture'
    refine ⟨?_, ?_⟩
    · have hid : (List.range 2).getD reqId 0 = reqId := by
        interval_cases reqId <;> rfl
      show List.Perm [reqId] [(List.range 2).getD reqId 0]
      rw [hid]
    · intro idx _ query _ resp hresp _ hlimit
      rw [List.mem_singleton] at hresp
      rw [hresp] at hlimit
      cases hlimit
  refine eachStep_cons.mpr ⟨hanswered 0 0 _ rfl (by decide), ?_⟩
  intro t ht
  cases ht
  refine eachStep_cons.mpr ⟨hanswered 0 1 _ rfl (by decide), ?_⟩
  intro t _
  exact eachStep_nil _ _ _

end RaftLsmt.Client
