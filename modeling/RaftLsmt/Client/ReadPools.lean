import RaftLsmt.Client.PageProgress
import RaftLsmt.Lib.TwoPools

/-!
# The two pools of the client

`read` and `read_batch` submit their first requests to `io_pool` and their `_aggregate` to
`aggregator_pool`, where it waits for the requests and submits one for each page that was cut, with
priority -1. `_send_batch` runs on `io_pool` as well. `PriorityWorkQueue` hands out the work items of
`io_pool` by priority and count.

`readPools` are the pools of `Lib.TwoPools` with these sizes and priorities, and `aggregator` is what
`_aggregate` does in them: a turn of `PagedRead` or of `BatchRead`. Nobody in the pools waits for a
batch of records, and what it ends with is open. Each REDIRECT that `_send_batch` follows lets it begin
again, and of these there is no bound. `reads_return` is the result; `reads_held_up` says what a batch
that is redirected for ever does to it.
-/

set_option autoImplicit false

namespace RaftLsmt.Client

open RaftLsmt.Lib.OrderedDict
open RaftLsmt.Lib.RankedQueue
open RaftLsmt.Lib.StepMachine
open RaftLsmt.Lib.TwoPools

/-- What an attempt of `_query_single_node` or `_query_batch_single_node` returns. -/
inductive PoolAnswer where
  | page (response : ReadResult)
  | batch (responses : List ReadResult)

/-- A call of `read` or of `read_batch`. -/
inductive ReadCall where
  | read (input : ReadInput) (nextReqId : Nat)
  | readBatch (input : BatchInput) (nextReqId : Nat)

/-- The `_aggregate` of a call. -/
inductive Aggregation where
  | read (input : ReadInput) (s : PagedRead)
  | readBatch (input : BatchInput) (s : BatchRead)

/-- The pages that the loop over the first responses of a node asks for, down to an error. -/
def firstPagesAsked (queries : List QueryRequest) : List Nat → List ReadResult → Nat
  | origQueryIdx :: idxs, resp :: responses =>
    match queries[origQueryIdx]? with
    | none => 0
    | some query =>
      if resp.limitReached = true ∧ resp.recordsCount = 0 then 0
      else if resp.limitReached = true ∧ resp.maxId.toNat < query.minId then 0
      else (if query.Unfinished resp then 1 else 0) + firstPagesAsked queries idxs responses
  | _, _ => 0

namespace Aggregation

/-- `active_futures` before the loop. -/
def start : ReadCall → Aggregation
  | .read input nextReqId => .read input (PagedRead.init input nextReqId)
  | .readBatch input nextReqId => .readBatch input (BatchRead.init input nextReqId)

def waits : Aggregation → Nat
  | .read _ s => s.activeFutures.length
  | .readBatch _ s => s.activeFutures.length

def raised : Aggregation → Bool
  | .read _ s => s.raised
  | .readBatch _ s => s.raised

/-- The exception of a future, or one of the loop itself. -/
def raise : Aggregation → Aggregation
  | .read input s => .read input { s with raised := true }
  | .readBatch input s => .readBatch input { s with raised := true }

/-- The requests of a turn that ends in `s'`: one at most, behind a page. -/
def pageAsked (raised : Bool) (before behind : Nat) : Nat :=
  if raised then 0 else behind + 1 - before

/-- The requests of a turn that takes the first responses of a node. -/
def batchAsked (input : BatchInput) (s : BatchRead) (k : Nat) (responses : List ReadResult) : Nat :=
  match s.activeFutures[k]? with
  | some (.batch node idxs) =>
    match input.answeringNode node, orderResponses responses (idxs.map input.reqIdOf) with
    | some _, some ordered => firstPagesAsked input.queries idxs ordered
    | _, _ => 0
  | _ => 0

/-- A turn of the loop of `_aggregate` and the number of requests it submits. `none` is a future with
an exception. -/
def turn (agg : Aggregation) (k : Nat) (result : Option PoolAnswer) : Aggregation × Nat :=
  match agg, result with
  | .read input s, some (.page response) =>
    match s.step input (k, response) with
    | some s' => (.read input s', pageAsked s'.raised s.activeFutures.length s'.activeFutures.length)
    | none => (agg.raise, 0)
  | .readBatch input s, some (.page response) =>
    match s.step input (.page k response) with
    | some s' =>
      (.readBatch input s', pageAsked s'.raised s.activeFutures.length s'.activeFutures.length)
    | none => (agg.raise, 0)
  | .readBatch input s, some (.batch responses) =>
    match s.step input (.batch k responses) with
    | some s' => (.readBatch input s', batchAsked input s k responses)
    | none => (agg.raise, 0)
  | _, _ => (agg.raise, 0)

/-- A page that was cut, and not empty, does not end in front of the range it was asked for. -/
def Advances (agg : Aggregation) (k : Nat) (result : Option PoolAnswer) : Prop :=
  match agg, result with
  | .read _ s, some (.page page) =>
    ∀ n reqId pageQuery, s.activeFutures[k]? = some (.page n reqId pageQuery) →
      page.limitReached = true → page.recordsCount ≠ 0 → pageQuery.minId ≤ page.maxId.toNat
  | .readBatch _ s, some (.page page) =>
    ∀ n idx origQueryIdx reqId pageQuery,
      s.activeFutures[k]? = some (.page n idx origQueryIdx reqId pageQuery) →
        page.limitReached = true → page.recordsCount ≠ 0 → pageQuery.minId ≤ page.maxId.toNat
  | _, _ => True

end Aggregation

/-- `_aggregate` as a job of `aggregator_pool`. -/
def aggregator : Machine ReadCall Aggregation (Option PoolAnswer) where
  start := Aggregation.start
  waits := Aggregation.waits
  failed := Aggregation.raised
  turn := Aggregation.turn

/-- The pools of `DbClient.__init__`; an executor without workers raises an error. -/
def readPools (threadPoolSize : Nat) : Option (Config Int) :=
  if 0 < threadPoolSize ∧ 0 < threadPoolSize / 2 then
    some {
      taskWorkers := threadPoolSize
      jobWorkers := threadPoolSize / 2
      firstRank := 0
      nextRank := -1
      postRank := 0 }
  else none

/-! ## What a turn does -/

/-- The end of the range of a query. -/
def maxIdOf (queries : List QueryRequest) (idx : Nat) : Nat :=
  ((queries[idx]?).map QueryRequest.maxId).getD 0

/-- What the first responses of a node may still ask for. -/
def firstLeft (queries : List QueryRequest) (idxs : List Nat) : Nat :=
  (idxs.map fun idx => maxIdOf queries idx + 2).sum

/-- What a future of `read_batch` may still ask for. -/
def PendingRead.left (queries : List QueryRequest) : PendingRead → Nat
  | .batch _ idxs => firstLeft queries idxs + 1
  | .page _ _ origQueryIdx _ pageQuery => maxIdOf queries origQueryIdx - pageQuery.minId + 1

/-- What all active futures may still ask for. -/
def BatchRead.left (input : BatchInput) (s : BatchRead) : Nat :=
  if s.raised then 0 else (s.activeFutures.map (PendingRead.left input.queries)).sum

/-- What an aggregation may still ask for, twice: a turn submits less than it uses up. -/
def Aggregation.left : Aggregation → Nat
  | .read input s => 2 * s.left input
  | .readBatch input s => 2 * s.left input

/-- What a turn comes to: an error, or as many futures as it has asked for in place of one. -/
structure Aggregation.TurnSpec (agg next : Aggregation) (asked : Nat) (advances : Prop) : Prop where
  waits : next.raised = false → next.waits + 1 = agg.waits + asked
  spends : advances → asked + next.left < agg.left

section Read

variable {input : ReadInput} {s s' : PagedRead} {k : Nat} {fut : ReadFuture} {page : ReadResult}

/-- A turn of `read` raises an error or files a response with the end of the page. -/
theorem PagedRead.step_filed (hraised : s.raised = false) (hk : s.activeFutures[k]? = some fut) :
    s.step input (k, page) = some { s with raised := true } ∨
      ∃ n resp, s.step input (k, page) = some (s.file input k n resp) ∧
        resp.limitReached = page.limitReached ∧ resp.maxId = page.maxId ∧
        (page.limitReached = true → page.recordsCount ≠ 0) := by
  unfold PagedRead.step
  simp only [hraised, hk, Bool.false_eq_true, if_false]
  split
  · exact Or.inl rfl
  · rename_i node _
    unfold PagedRead.firstDone
    split
    · exact Or.inl rfl
    · rename_i hcount
      split
      · exact Or.inl rfl
      · exact Or.inr ⟨node, page, rfl, rfl, rfl, fun hlimit hzero => hcount ⟨hlimit, hzero⟩⟩
  · rename_i n reqId pageQuery _
    unfold PagedRead.pageDone
    split
    · exact Or.inl rfl
    · split
      · exact Or.inl rfl
      · rename_i hcount
        split
        · exact Or.inl rfl
        · rename_i resp _
          split
          · exact Or.inl rfl
          · exact Or.inr ⟨n, addPage resp page, rfl, rfl, rfl,
              fun hlimit hzero => hcount ⟨hlimit, hzero⟩⟩

/-- Filing takes one future off and asks for one page at most. -/
theorem PagedRead.file_spec (input : ReadInput) (hraised : s.raised = false) (hk : s.activeFutures[k]? = some fut)
    (n : Node) (resp : ReadResult) : (s.file input k n resp).raised = false ∧
      s.activeFutures.length ≤ (s.file input k n resp).activeFutures.length + 1 ∧
      (s.file input k n resp).activeFutures.length ≤ s.activeFutures.length := by
  have hlt : k < s.activeFutures.length := (List.getElem?_eq_some_iff.mp hk).1
  unfold PagedRead.file
  split
  · refine ⟨hraised, ?_, ?_⟩ <;>
      · dsimp only
        rw [List.length_append, List.length_eraseIdx_of_lt hlt, List.length_singleton]
        omega
  · refine ⟨hraised, ?_, ?_⟩ <;>
      · dsimp only
        rw [List.length_eraseIdx_of_lt hlt]
        omega

/-- A turn of `read`. -/
theorem PagedRead.turn_spec (input : ReadInput) (page : ReadResult) (hraised : s.raised = false) (hk : s.activeFutures[k]? = some fut) :
    ∃ s', s.step input (k, page) = some s' ∧
      Aggregation.TurnSpec (.read input s) (.read input s')
        (Aggregation.pageAsked s'.raised s.activeFutures.length s'.activeFutures.length)
        (Aggregation.Advances (.read input s) k (some (.page page))) := by
  have hactive : s.activeFutures ≠ [] := by
    intro hnil
    rw [hnil] at hk
    cases hk
  rcases step_filed hraised hk with hstep | ⟨n, resp, hstep, hlimit, hmaxId, hcount⟩
  · refine ⟨_, hstep, ?_⟩
    constructor
    · intro h
      cases h
    · intro _
      have hless : left input { s with raised := true } < s.left input := left_raised hraised hactive rfl
      show 0 + 2 * left input { s with raised := true } < 2 * s.left input
      omega
  · obtain ⟨hok, hle, hge⟩ := file_spec input hraised hk n resp
    refine ⟨_, hstep, ?_⟩
    rw [hok]
    show Aggregation.TurnSpec _ _
      ((s.file input k n resp).activeFutures.length + 1 - s.activeFutures.length) _
    constructor
    · intro _
      show (s.file input k n resp).activeFutures.length + 1 = s.activeFutures.length + _
      omega
    · intro hadvances
      have hless : (s.file input k n resp).left input < s.left input := by
        refine left_file hraised hk n fun hunfinished => ?_
        have hmax := hunfinished.2
        cases fut with
        | first node =>
          show _ < input.query.maxId + 2
          omega
        | page m reqId pageQuery =>
          have hcut := hlimit.symm.trans hunfinished.1
          have hmin := hadvances m reqId pageQuery hk hcut (hcount hcut)
          show input.query.maxId - resp.maxId.toNat < input.query.maxId - pageQuery.minId + 1
          rw [hmaxId]
          omega
      show _ + 2 * (s.file input k n resp).left input < 2 * s.left input
      omega

end Read

section Batch

variable {queries : List QueryRequest}

theorem PendingRead.left_pos (queries : List QueryRequest) (fut : PendingRead) :
    0 < fut.left queries := by
  cases fut with
  | batch node idxs => exact Nat.succ_pos _
  | page n idx origQueryIdx reqId pageQuery => exact Nat.succ_pos _

theorem maxIdOf_eq {idx : Nat} {query : QueryRequest} (h : queries[idx]? = some query) :
    maxIdOf queries idx = query.maxId := by
  unfold maxIdOf
  rw [h]
  rfl

theorem firstLeft_cons (queries : List QueryRequest) (idx : Nat) (idxs : List Nat) :
    firstLeft queries (idx :: idxs) = maxIdOf queries idx + 2 + firstLeft queries idxs := by
  unfold firstLeft
  rw [List.map_cons, List.sum_cons]

theorem firstPagesAsked_le (queries : List QueryRequest) (idxs : List Nat)
    (responses : List ReadResult) :
    2 * firstPagesAsked queries idxs responses ≤ firstLeft queries idxs := by
  induction idxs generalizing responses with
  | nil => exact Nat.zero_le _
  | cons idx idxs ih =>
    cases responses with
    | nil => exact Nat.zero_le _
    | cons resp responses =>
      have hrest := ih responses
      unfold firstPagesAsked
      split
      · exact Nat.zero_le _
      · split
        · exact Nat.zero_le _
        · split
          · exact Nat.zero_le _
          · rw [firstLeft_cons]
            split <;> omega

/-- The page behind a response, if there is one, is in front of the end of the range. -/
theorem followUp_left {origQueryIdx : Nat} {query : QueryRequest}
    (hquery : queries[origQueryIdx]? = some query) (n : Node) (idx : Nat) (resp : ReadResult)
    (nextReqId : Nat) :
    (followUp n idx origQueryIdx query resp nextReqId).2.1.length =
        (if query.Unfinished resp then 1 else 0) ∧
      ((followUp n idx origQueryIdx query resp nextReqId).2.1.map (PendingRead.left queries)).sum =
        (if query.Unfinished resp then query.maxId - resp.maxId.toNat else 0) := by
  unfold followUp
  by_cases hunfinished : query.Unfinished resp
  · have hlt := hunfinished.2
    have hpage : PendingRead.left queries (.page n idx origQueryIdx nextReqId
        { query with minId := resp.maxId.toNat + 1, minTs := 0 }) =
        query.maxId - (resp.maxId.toNat + 1) + 1 := by
      show maxIdOf queries origQueryIdx - (resp.maxId.toNat + 1) + 1 = _
      rw [maxIdOf_eq hquery]
    rw [if_pos hunfinished, if_pos hunfinished, if_pos hunfinished, List.map_singleton,
      List.sum_singleton, hpage]
    exact ⟨rfl, by omega⟩
  · rw [if_neg hunfinished, if_neg hunfinished, if_neg hunfinished]
    exact ⟨rfl, rfl⟩

theorem firstPages_left {n : Node} {idxs : List Nat} {subIdx : Nat} {responses accumulated : List ReadResult}
    {nextReqId nextReqId' : Nat} {pages : List PendingRead}
    (h : firstPages queries n subIdx idxs responses nextReqId = some (accumulated, pages, nextReqId')) :
    pages.length = firstPagesAsked queries idxs responses ∧
      (pages.map (PendingRead.left queries)).sum + 2 * pages.length ≤ firstLeft queries idxs := by
  induction idxs generalizing subIdx responses nextReqId accumulated pages nextReqId' with
  | nil =>
    cases responses with
    | nil =>
      cases h
      exact ⟨rfl, Nat.le_refl _⟩
    | cons resp responses => cases h
  | cons idx idxs ih =>
    cases responses with
    | nil => cases h
    | cons resp responses =>
      unfold firstPages at h
      unfold firstPagesAsked
      cases hquery : queries[idx]? with
      | none =>
        simp only [hquery] at h
        cases h
      | some query =>
        simp only [hquery] at h ⊢
        split at h
        · cases h
        · rename_i hcount
          rw [if_neg hcount]
          split at h
          · cases h
          · rename_i hmin
            rw [if_neg hmin]
            obtain ⟨hlength, hsum⟩ := followUp_left hquery n subIdx resp nextReqId
            generalize followUp n subIdx idx query resp nextReqId = follow at h hlength hsum
            obtain ⟨resp', page, nextReqId₁⟩ := follow
            dsimp only at h hlength hsum
            split at h
            · cases h
            · rename_i accumulated₁ pages₁ nextReqId₂ hrest
              cases h
              obtain ⟨hlength₁, hsum₁⟩ := ih hrest
              rw [List.map_append, List.sum_append, List.length_append, firstLeft_cons,
                maxIdOf_eq hquery]
              by_cases hunfinished : query.Unfinished resp
              · rw [if_pos hunfinished] at hlength hsum ⊢
                omega
              · rw [if_neg hunfinished] at hlength hsum ⊢
                omega

variable {input : BatchInput} {s s' : BatchRead} {k : Nat} {fut : PendingRead}

/-- A future gives way to some pages that ask for less. -/
theorem BatchRead.left_replace (input : BatchInput) (hraised : s.raised = false) (hk : s.activeFutures[k]? = some fut)
    {pages : List PendingRead} (hactive : s'.activeFutures = s.activeFutures.eraseIdx k ++ pages) :
    s'.left input + fut.left input.queries ≤
      s.left input + (pages.map (PendingRead.left input.queries)).sum := by
  obtain ⟨before, behind, hsplit, herase⟩ := exists_split_of_getElem? hk
  have hold : s.left input = (before.map (PendingRead.left input.queries)).sum +
      (fut.left input.queries + (behind.map (PendingRead.left input.queries)).sum) := by
    rw [left, hraised, hsplit]
    simp
  have hnew : s'.left input ≤ ((before ++ behind ++ pages).map (PendingRead.left input.queries)).sum := by
    rw [left, hactive, herase]
    split
    · exact Nat.zero_le _
    · exact Nat.le_refl _
  rw [List.map_append, List.map_append, List.sum_append, List.sum_append] at hnew
  omega

theorem BatchRead.left_raised (hraised : s'.raised = true) : s'.left input = 0 := by
  unfold left
  rw [if_pos hraised]

theorem BatchRead.fut_left_le (input : BatchInput) (hraised : s.raised = false) (hk : s.activeFutures[k]? = some fut) :
    fut.left input.queries ≤ s.left input := by
  obtain ⟨before, behind, hsplit, -⟩ := exists_split_of_getElem? hk
  rw [left, hraised, hsplit]
  simp only [Bool.false_eq_true, if_false, List.map_append, List.map_cons, List.sum_append,
    List.sum_cons]
  omega

/-- The same for the loop of `read_batch`. -/
structure BatchRead.TurnSpec (input : BatchInput) (s s' : BatchRead) (asked : Nat)
    (advances : Prop) : Prop where
  waits : s'.raised = false → s'.activeFutures.length + 1 = s.activeFutures.length + asked
  spends : advances → asked + 2 * s'.left input < 2 * s.left input

theorem BatchRead.TurnSpec.raised {asked : Nat} (hless : asked < 2 * s.left input)
    (advances : Prop) : TurnSpec input s { s with raised := true } asked advances := by
  have hzero : left input { s with raised := true } = 0 := left_raised rfl
  refine ⟨?_, fun _ => by omega⟩
  intro h
  cases h

theorem batchAsked_eq {node n : Node} {idxs : List Nat} {responses ordered : List ReadResult}
    (hk : s.activeFutures[k]? = some (.batch node idxs)) (hnode : input.answeringNode node = some n)
    (hordered : orderResponses responses (idxs.map input.reqIdOf) = some ordered) :
    Aggregation.batchAsked input s k responses = firstPagesAsked input.queries idxs ordered := by
  unfold Aggregation.batchAsked
  simp only [hk, hnode, hordered]

theorem batchAsked_le (input : BatchInput) {node : Node} {idxs : List Nat} (responses : List ReadResult)
    (hk : s.activeFutures[k]? = some (.batch node idxs)) :
    2 * Aggregation.batchAsked input s k responses ≤ firstLeft input.queries idxs := by
  unfold Aggregation.batchAsked
  rw [hk]
  dsimp only
  split
  · exact firstPagesAsked_le input.queries idxs _
  · exact Nat.zero_le _

/-- The turn that takes the first responses of a node. -/
theorem BatchRead.batch_spec {node : Node} {idxs : List Nat} {responses : List ReadResult}
    (hraised : s.raised = false) (hk : s.activeFutures[k]? = some (.batch node idxs))
    (hstep : s.step input (.batch k responses) = some s') :
    TurnSpec input s s' (Aggregation.batchAsked input s k responses) True := by
  have hlt : k < s.activeFutures.length := (List.getElem?_eq_some_iff.mp hk).1
  have hfut : firstLeft input.queries idxs + 1 ≤ s.left input := fut_left_le input hraised hk
  have hle := batchAsked_le input responses hk
  have hfails : TurnSpec input s { s with raised := true }
      (Aggregation.batchAsked input s k responses) True := TurnSpec.raised (by omega) True
  unfold step at hstep
  simp only [hraised, Bool.false_eq_true, if_false, hk, Option.some.injEq] at hstep
  subst hstep
  unfold batchDone
  split
  · rename_i n ordered hnode hordered
    split
    · exact hfails
    · rename_i accumulated pages nextReqId hpages
      obtain ⟨hlength, hsum⟩ := firstPages_left hpages
      have hasked := batchAsked_eq hk hnode hordered
      constructor
      · intro _
        dsimp only
        rw [List.length_append, List.length_eraseIdx_of_lt hlt, hasked, ← hlength]
        omega
      · have hreplace := left_replace input hraised hk (show BatchRead.activeFutures { s with
            nodeToAccumulated := s.nodeToAccumulated.set n accumulated
            activeFutures := s.activeFutures.eraseIdx k ++ pages
            nextReqId := nextReqId
            received := s.received ++ (idxs.zip ordered).map fun p => (n.clusterName, p.1, p.2) } =
          s.activeFutures.eraseIdx k ++ pages from rfl)
        intro _
        have hbatch : PendingRead.left input.queries (.batch node idxs) =
            firstLeft input.queries idxs + 1 := rfl
        omega
  · exact hfails

/-- The turn that takes a further page. -/
theorem BatchRead.page_spec (input : BatchInput) (page : ReadResult) (hraised : s.raised = false)
    {n : Node} {idx origQueryIdx reqId : Nat} {pageQuery : QueryRequest}
    (hk : s.activeFutures[k]? = some (.page n idx origQueryIdx reqId pageQuery)) :
    ∃ s', s.step input (.page k page) = some s' ∧ TurnSpec input s s'
      (Aggregation.pageAsked s'.raised s.activeFutures.length s'.activeFutures.length)
      (page.limitReached = true → page.recordsCount ≠ 0 → pageQuery.minId ≤ page.maxId.toNat) := by
  have hlt : k < s.activeFutures.length := (List.getElem?_eq_some_iff.mp hk).1
  have hfut := fut_left_le input hraised hk
  have hpos := PendingRead.left_pos input.queries (.page n idx origQueryIdx reqId pageQuery)
  have hzero : Aggregation.pageAsked true s.activeFutures.length s.activeFutures.length <
      2 * s.left input := by
    show 0 < 2 * s.left input
    omega
  have hfails := TurnSpec.raised hzero
    (page.limitReached = true → page.recordsCount ≠ 0 → pageQuery.minId ≤ page.maxId.toNat)
  unfold step
  simp only [hraised, Bool.false_eq_true, if_false, hk, Option.some.injEq]
  refine ⟨_, rfl, ?_⟩
  unfold pageDone
  split
  · exact hfails
  · split
    · exact hfails
    · rename_i hcount
      split
      · rename_i accumulated query haccumulated hquery
        split
        · exact hfails
        · rename_i resp hresp
          split
          · exact hfails
          · rename_i hbefore
            split
            rename_i resp' pages nextReqId hfollow
            obtain ⟨hlength, hsum⟩ := followUp_left hquery n idx (addPage resp page) s.nextReqId
            rw [hfollow] at hlength hsum
            dsimp only at hlength hsum
            have hactive : ∀ s' : BatchRead, s'.raised = s.raised →
                s'.activeFutures = s.activeFutures.eraseIdx k ++ pages →
                TurnSpec input s s' (Aggregation.pageAsked s'.raised s.activeFutures.length
                  s'.activeFutures.length) (page.limitReached = true → page.recordsCount ≠ 0 →
                    pageQuery.minId ≤ page.maxId.toNat) := by
              intro s' hsame heq
              have hreplace := left_replace input hraised hk heq
              have hpage : PendingRead.left input.queries
                  (.page n idx origQueryIdx reqId pageQuery) =
                  query.maxId - pageQuery.minId + 1 := by
                show maxIdOf input.queries origQueryIdx - pageQuery.minId + 1 = _
                rw [maxIdOf_eq hquery]
              have hmaxId : (addPage resp page).maxId = page.maxId := rfl
              have hcounted : s'.activeFutures.length + 1 = s.activeFutures.length + pages.length := by
                rw [heq, List.length_append, List.length_eraseIdx_of_lt hlt]
                omega
              rw [hsame, hraised]
              show TurnSpec input s s' (s'.activeFutures.length + 1 - s.activeFutures.length) _
              refine ⟨fun _ => by omega, fun hadvances => ?_⟩
              by_cases hunfinished : query.Unfinished (addPage resp page)
              · have hmin := hadvances hunfinished.1 fun hzero => hcount ⟨hunfinished.1, hzero⟩
                have hmax := hunfinished.2
                rw [if_pos hunfinished] at hlength hsum
                rw [hmaxId] at hmax hsum
                omega
              · rw [if_neg hunfinished] at hlength hsum
                omega
            exact hactive _ rfl rfl
      · exact hfails

end Batch

/-! ## The pools -/

theorem Aggregation.TurnSpec.raise {agg : Aggregation} (hok : agg.raised = false) {k : Nat}
    (hk : k < agg.waits) (advances : Prop) : TurnSpec agg agg.raise 0 advances := by
  cases agg with
  | read input s =>
    have hactive : s.activeFutures ≠ [] := List.ne_nil_of_length_pos (Nat.zero_lt_of_lt hk)
    have hless : PagedRead.left input { s with raised := true } < s.left input :=
      PagedRead.left_raised hok hactive rfl
    refine ⟨fun h => absurd h Bool.noConfusion, fun _ => ?_⟩
    show 0 + 2 * PagedRead.left input { s with raised := true } < 2 * s.left input
    omega
  | readBatch input s =>
    obtain ⟨fut, hfut⟩ : ∃ fut, s.activeFutures[k]? = some fut := ⟨_, List.getElem?_eq_getElem hk⟩
    have hle := BatchRead.fut_left_le input hok hfut
    have hpos := fut.left_pos input.queries
    have hless : 0 < 2 * s.left input := by omega
    obtain ⟨hwaits, hspends⟩ := BatchRead.TurnSpec.raised hless advances
    exact ⟨hwaits, hspends⟩

theorem Aggregation.turn_spec {agg : Aggregation} (hok : agg.raised = false) {k : Nat}
    (hk : k < agg.waits) (result : Option PoolAnswer) :
    TurnSpec agg (agg.turn k result).1 (agg.turn k result).2 (agg.Advances k result) := by
  have hraise := TurnSpec.raise hok hk (agg.Advances k result)
  cases agg with
  | read input s =>
    cases result with
    | none => exact hraise
    | some answer =>
      cases answer with
      | batch responses => exact hraise
      | page response =>
        obtain ⟨s', hstep, hspec⟩ := PagedRead.turn_spec input response hok
          (List.getElem?_eq_getElem hk)
        unfold turn
        simp only [hstep]
        exact hspec
  | readBatch input s =>
    obtain ⟨fut, hfut⟩ : ∃ fut, s.activeFutures[k]? = some fut := ⟨_, List.getElem?_eq_getElem hk⟩
    have hactive : s.raised = false := hok
    cases result with
    | none => exact hraise
    | some answer =>
      cases answer with
      | batch responses =>
        unfold turn
        dsimp only
        split
        · rename_i s' hstep
          cases fut with
          | batch node idxs =>
            obtain ⟨hwaits, hspends⟩ := BatchRead.batch_spec hok hfut hstep
            exact ⟨hwaits, hspends⟩
          | page n idx origQueryIdx reqId pageQuery =>
            simp [BatchRead.step, hactive, hfut] at hstep
        · exact hraise
      | page response =>
        cases fut with
        | batch node idxs =>
          have hstep : s.step input (.page k response) = none := by
            simp only [BatchRead.step, hactive, hfut, Bool.false_eq_true, if_false]
          unfold turn
          simp only [hstep]
          exact hraise
        | page n idx origQueryIdx reqId pageQuery =>
          obtain ⟨s', hstep, hwaits, hspends⟩ :=
            BatchRead.page_spec input response hok hfut
          unfold turn
          simp only [hstep]
          refine ⟨hwaits, fun hadvances => hspends ?_⟩
          exact hadvances n idx origQueryIdx reqId pageQuery hfut

theorem aggregator_lawful : aggregator.Lawful where
  start_ok := by
    intro call
    cases call <;> rfl
  waits_turn := fun _ _ r hok hk => (Aggregation.turn_spec hok hk r).waits

theorem aggregator_spends : aggregator.Spends Aggregation.left Aggregation.Advances :=
  fun _ _ r hok hk => (Aggregation.turn_spec hok hk r).spends

/-- The aggregation has come to where it is by a run of the loop of `read` or of `read_batch`. -/
def Aggregation.Runs : Aggregation → Prop
  | .read input s =>
    ∃ nextReqId es, run (PagedRead.step input) (PagedRead.init input nextReqId) es = some s
  | .readBatch input s =>
    ∃ nextReqId es, run (BatchRead.step input) (BatchRead.init input nextReqId) es = some s

theorem run_concat {S A : Type} {step : S → A → Option S} {s t u : S} {as : List A} {a : A}
    (hrun : run step s as = some t) (hstep : step t a = some u) : run step s (as ++ [a]) = some u :=
  run_append_eq_some.mpr ⟨t, hrun, run_cons_eq_some.mpr ⟨u, hstep, rfl⟩⟩

/-- A turn without an error is one of the loop. -/
theorem Aggregation.Runs.turn {agg : Aggregation} (h : agg.Runs) {k : Nat}
    {result : Option PoolAnswer} (hok : (agg.turn k result).1.raised = false) :
    (agg.turn k result).1.Runs := by
  cases agg with
  | read input s =>
    obtain ⟨nextReqId, es, hes⟩ := h
    cases result with
    | none => cases hok
    | some answer =>
      cases answer with
      | batch responses => cases hok
      | page response =>
        unfold Aggregation.turn at hok ⊢
        cases hstep : s.step input (k, response) with
        | none =>
          simp only [hstep] at hok
          cases hok
        | some s' =>
          simp only [hstep]
          exact ⟨nextReqId, es ++ [(k, response)], run_concat hes hstep⟩
  | readBatch input s =>
    obtain ⟨nextReqId, es, hes⟩ := h
    cases result with
    | none => cases hok
    | some answer =>
      cases answer with
      | batch responses =>
        unfold Aggregation.turn at hok ⊢
        cases hstep : s.step input (.batch k responses) with
        | none =>
          simp only [hstep] at hok
          cases hok
        | some s' =>
          simp only [hstep]
          exact ⟨nextReqId, es ++ [.batch k responses], run_concat hes hstep⟩
      | page response =>
        unfold Aggregation.turn at hok ⊢
        cases hstep : s.step input (.page k response) with
        | none =>
          simp only [hstep] at hok
          cases hok
        | some s' =>
          simp only [hstep]
          exact ⟨nextReqId, es ++ [.page k response], run_concat hes hstep⟩

theorem Aggregation.runs_of_reached {agg : Aggregation} (h : aggregator.Reached agg)
    (hok : agg.raised = false) : agg.Runs := by
  induction h with
  | start call =>
    cases call with
    | read input nextReqId => exact ⟨nextReqId, [], rfl⟩
    | readBatch input nextReqId => exact ⟨nextReqId, [], rfl⟩
  | turn r _ hbefore _ ih => exact (ih hbefore).turn hok

/-- The executors of a client, with the calls there have been. -/
abbrev ClientPools : Type := World Int Aggregation (Option PoolAnswer)

/-- In every run of any number of calls of `read`, `read_batch` and `write` on the executors of a client:
what is still to be done without new calls is bounded, but for the redirects that batches of records
follow, when no page that was cut ends in front of the range it was asked for; where nobody can go on,
each call has returned, by an error or with all its pages, and no request is left; what a call without
an error has taken is what the loop of `_aggregate` takes in a run of its own; and the next request to
begin comes before all that wait. -/
theorem reads_return {threadPoolSize : Nat} {config : Config Int}
    (hnew : readPools threadPoolSize = some config) {as : List (Action ReadCall (Option PoolAnswer))}
    {w : ClientPools} (hrun : run (World.step aggregator config) World.init as = some w) :
    (∀ bs (w' : ClientPools),
      EachStep (World.step aggregator config)
        (fun w b => b.Internal ∧ w.Advances Aggregation.Advances b) w bs →
      run (World.step aggregator config) w bs = some w' →
        bs.countP (fun b => !b.isAgain) ≤ w.work Aggregation.left) ∧
    (w.Stuck aggregator config → w.AtRest aggregator) ∧
    (∀ j ∈ w.jobs, j.state.raised = false → j.state.Runs) ∧
    ∀ e queue, w.queue.get = some (e, queue) → ∀ e' ∈ queue.entries, e.Before e' := by
  have hstart : Inv aggregator (World.init : ClientPools) ∧
      ∀ j ∈ (World.init : ClientPools).jobs, aggregator.Reached j.state :=
    ⟨Inv.init aggregator, fun j hj => absurd hj List.not_mem_nil⟩
  obtain ⟨hinv, hreached⟩ := run_invariant
    (P := fun w : ClientPools => Inv aggregator w ∧ ∀ j ∈ w.jobs, aggregator.Reached j.state)
    (fun _ _ _ (_ : True) h hstep => ⟨h.1.step aggregator_lawful hstep, h.1.reached h.2 hstep⟩)
    (fun _ _ => trivial) hstart hrun
  have hworkers : 0 < config.taskWorkers ∧ 0 < config.jobWorkers := by
    unfold readPools at hnew
    split at hnew
    · rename_i hsize
      cases hnew
      exact hsize
    · cases hnew
  refine ⟨fun bs w' hbs hrun' => ?_, hinv.atRest hworkers.1 hworkers.2, fun j hj hok => ?_, ?_⟩
  · exact countP_le_work aggregator_lawful aggregator_spends hinv hbs hrun'
  · exact Aggregation.runs_of_reached (hreached j hj) hok
  · intro e queue hget
    exact (Queue.get_spec hinv.tasks.ok hget).2.2

/-- The pools of a client with two threads. -/
def twoThreads : Config Int := ⟨2, 1, 0, -1, 0⟩

/-- A batch of records, and a read of one node. -/
def writeAndRead : List (Action ReadCall (Option PoolAnswer)) :=
  [.post, .call (.read oneNodeRead 1)]

/-- The batch follows two redirects, two pages are cut, behind the ids 1 and 2, and all come to an end. -/
def cutPages : List (Action ReadCall (Option PoolAnswer)) :=
  [.takeTask, .again 0, .submit 0, .submit 0, .takeTask,
    .finish 1 (some (.page (answerOf 0 true [⟨1, 5, .int 7⟩]))), .takeJob, .turn 0 0, .again 0, .takeTask,
    .finish 2 (some (.page (answerOf 1 true [⟨2, 0, .int 8⟩]))), .turn 0 0, .takeTask, .finish 0 none,
    .finish 3 (some (.page (answerOf 2 false [⟨3, 0, .int 9⟩]))), .turn 0 0, .complete 0]

/-- The cut pages end inside the range they were asked for. -/
theorem eachStep_cutPages {w : ClientPools}
    (hrun : run (World.step aggregator twoThreads) World.init writeAndRead = some w) :
    EachStep (World.step aggregator twoThreads)
      (fun w b => b.Internal ∧ w.Advances Aggregation.Advances b) w cutPages := by
  cases hrun
  iterate 7
    refine eachStep_cons.mpr ⟨⟨trivial, trivial⟩, ?_⟩
    rintro _ ⟨⟩
  -- the first request of a read may be cut anywhere
  refine eachStep_cons.mpr ⟨⟨trivial, ?_⟩, ?_⟩
  · rintro j t owner r ⟨⟩ ⟨⟩ ⟨⟩ n reqId pageQuery ⟨⟩
  rintro _ ⟨⟩
  iterate 3
    refine eachStep_cons.mpr ⟨⟨trivial, trivial⟩, ?_⟩
    rintro _ ⟨⟩
  refine eachStep_cons.mpr ⟨⟨trivial, ?_⟩, ?_⟩
  · rintro j t owner r ⟨⟩ ⟨⟩ ⟨⟩ n reqId pageQuery ⟨⟩ - -
    decide
  rintro _ ⟨⟩
  iterate 3
    refine eachStep_cons.mpr ⟨⟨trivial, trivial⟩, ?_⟩
    rintro _ ⟨⟩
  refine eachStep_cons.mpr ⟨⟨trivial, ?_⟩, ?_⟩
  · rintro j t owner r ⟨⟩ ⟨⟩ ⟨⟩ n reqId pageQuery ⟨⟩ ⟨⟩
  rintro _ ⟨⟩
  refine eachStep_cons.mpr ⟨⟨trivial, trivial⟩, ?_⟩
  rintro _ ⟨⟩
  exact eachStep_nil _ _ _

theorem reads_return_cutPages :
    ∃ w w', run (World.step aggregator twoThreads) World.init writeAndRead = some w ∧
      run (World.step aggregator twoThreads) w cutPages = some w' ∧
      cutPages.countP (fun b => !b.isAgain) ≤ w.work Aggregation.left ∧
      w'.AtRest aggregator ∧ w'.jobs.map (fun j => j.state.raised) = [false] := by
  obtain ⟨w, hrun⟩ : ∃ w, run (World.step aggregator twoThreads) World.init writeAndRead = some w :=
    ⟨_, rfl⟩
  obtain ⟨w', hrun', hstuck, hraised⟩ : ∃ w',
      run (World.step aggregator twoThreads) w cutPages = some w' ∧
      w'.Stuck aggregator twoThreads ∧ w'.jobs.map (fun j => j.state.raised) = [false] := by
    cases hrun
    refine ⟨_, rfl, ?_, rfl⟩
    intro a ha
    cases a with
    | call call => exact ha.elim
    | post => exact ha.elim
    | takeTask => rfl
    | takeJob => rfl
    | submit i => rcases i with _ | i <;> rfl
    | complete i => rcases i with _ | i <;> rfl
    | turn i k => rcases i with _ | i <;> rfl
    | again t => rcases t with _ | _ | _ | _ | t <;> rfl
    | finish t result => rcases t with _ | _ | _ | _ | t <;> rfl
  have hpools : readPools 2 = some twoThreads := rfl
  have hbound := (reads_return hpools hrun).1 cutPages w' (eachStep_cutPages hrun) hrun'
  have hrest := (reads_return hpools (run_append_eq_some.mpr ⟨w, hrun, hrun'⟩)).2.1 hstuck
  exact ⟨w, w', hrun, hrun', hbound, hrest, hraised⟩

/-- Two batches that are redirected for ever keep both threads, and the read makes no request. -/
theorem reads_held_up : ∃ w, run (World.step aggregator twoThreads) World.init
      [.post, .post, .takeTask, .takeTask, .call (.read oneNodeRead 1), .submit 0, .submit 0,
        .takeJob] = some w ∧
    w.step aggregator twoThreads .takeTask = none ∧ (∀ k, w.step aggregator twoThreads (.turn 0 k) = none) ∧
    ∀ n, run (World.step aggregator twoThreads) w (List.replicate n (.again 0)) = some w := by
  refine ⟨_, rfl, rfl, fun k => ?_, fun n => ?_⟩
  · rcases k with _ | _ | k <;> rfl
  · induction n with
    | zero => rfl
    | succ n ih => exact run_cons_eq_some.mpr ⟨_, rfl, ih⟩

end RaftLsmt.Client
