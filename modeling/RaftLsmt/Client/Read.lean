import RaftLsmt.Client.ReadBatch
import RaftLsmt.Lib.RunBound
import RaftLsmt.Lib.SortedMerge

/-!
# Reading a range in pages

`read` asks one node of each cluster and follows each page that was cut with a request for the rest.
`PagedRead` is the state of its `_aggregate`, `PagedRead.step` what it does with one future that is
done, in any order. A request for the rest begins at the id behind the last one received, with
timestamp 0, and there is none when that id is the last of the query.

`read_exact_iff` says over every content of the nodes and every way they cut their answers that the
loop ends, and that the pages of each node add up to its records in range exactly when no answer is
cut inside an id.
-/

set_option autoImplicit false

namespace RaftLsmt.Client

open RaftLsmt.Lib.OrderedDict
open RaftLsmt.Lib.RunBound
open RaftLsmt.Lib.SortedMerge
open RaftLsmt.Lib.StepMachine
open RaftLsmt.Lsmt

/-- The key of a record on its node. -/
def Record.key (r : Record) : SlUint128 := ⟨r.keyId, r.timestamp⟩

/-- `struct.pack("<QQ", id, ts)`, which raises an error on larger numbers. -/
def packKey (id ts : Nat) : Option SlUint128 :=
  if id < 2 ^ 64 ∧ ts < 2 ^ 64 then some ⟨UInt64.ofNat id, UInt64.ofNat ts⟩ else none

/-- `start_key` and `end_key` of a request. -/
def QueryRequest.range (query : QueryRequest) : Option (SlUint128 × SlUint128) :=
  match packKey query.minId query.minTs, packKey query.maxId query.maxTs with
  | some startKey, some endKey => some (startKey, endKey)
  | _, _ => none

/-- The query and the nodes it is routed to. -/
structure ReadInput where
  query : QueryRequest
  nodes : List Node
  initialReqId : Nat

/-- A future that is not done: the query at a node, or a page behind it. -/
inductive ReadFuture where
  | first (node : Node)
  | page (n : Node) (expectedReqId : Nat) (pageQuery : QueryRequest)
  deriving DecidableEq

namespace ReadFuture

/-- The node that is asked. -/
def node : ReadFuture → Node
  | .first node => node
  | .page n _ _ => n

@[simp]
theorem node_first (n : Node) : (ReadFuture.first n).node = n := rfl

@[simp]
theorem node_page (n : Node) (expectedReqId : Nat) (pageQuery : QueryRequest) :
    (ReadFuture.page n expectedReqId pageQuery).node = n := rfl

/-- What it is asked. -/
def request (input : ReadInput) : ReadFuture → QueryRequest
  | .first _ => input.query
  | .page _ _ pageQuery => pageQuery

/-- The request id. -/
def reqId (input : ReadInput) : ReadFuture → Nat
  | .first _ => input.initialReqId
  | .page _ expectedReqId _ => expectedReqId

end ReadFuture

/-- The variables of `_aggregate`. `raised` is set by an exception. -/
structure PagedRead where
  nodeToAccumulated : Dict Node ReadResult
  activeFutures : List ReadFuture
  nextReqId : Nat
  raised : Bool

/-- The request for the records behind `resp`. -/
def QueryRequest.next (query : QueryRequest) (resp : ReadResult) : QueryRequest :=
  { query with minId := resp.maxId.toNat + 1, minTs := 0 }

namespace PagedRead

/-- The state of `_aggregate` before its loop. -/
def init (input : ReadInput) (nextReqId : Nat) : PagedRead where
  nodeToAccumulated := Dict.empty
  activeFutures := input.nodes.map .first
  nextReqId := nextReqId
  raised := false

/-- File `resp` under `n` and ask for the next page or clear `limit_reached`. -/
def file (input : ReadInput) (s : PagedRead) (k : Nat) (n : Node) (resp : ReadResult) : PagedRead :=
  if input.query.Unfinished resp then
    { s with
      nodeToAccumulated := s.nodeToAccumulated.set n resp
      activeFutures :=
        s.activeFutures.eraseIdx k ++ [.page n s.nextReqId (input.query.next resp)]
      nextReqId := s.nextReqId + 1 }
  else
    { s with
      nodeToAccumulated := s.nodeToAccumulated.set n { resp with limitReached := false }
      activeFutures := s.activeFutures.eraseIdx k }

/-- The first response of a node. -/
def firstDone (input : ReadInput) (s : PagedRead) (k : Nat) (n : Node) (response : ReadResult) :
    PagedRead :=
  if response.limitReached = true ∧ response.recordsCount = 0 then { s with raised := true }
  else if response.limitReached = true ∧ response.maxId.toNat < input.query.minId then
    { s with raised := true }
  else s.file input k n response

/-- A further page. -/
def pageDone (input : ReadInput) (s : PagedRead) (k : Nat) (n : Node) (expectedReqId : Nat)
    (page : ReadResult) : PagedRead :=
  if page.reqId ≠ expectedReqId then { s with raised := true }
  else if page.limitReached = true ∧ page.recordsCount = 0 then { s with raised := true }
  else
    match s.nodeToAccumulated.get n with
    | none => { s with raised := true }
    | some resp =>
      if page.limitReached = true ∧ page.maxId < resp.maxId then { s with raised := true }
      else s.file input k n (addPage resp page)

/-- One turn of the loop of `_aggregate`: the future at `k` is done with `response`, or it has failed
because its request cannot be packed. -/
def step (input : ReadInput) (s : PagedRead) (e : Nat × ReadResult) : Option PagedRead :=
  if s.raised then none
  else
    match s.activeFutures[e.1]? with
    | none => none
    | some fut =>
      match (fut.request input).range, fut with
      | none, _ => some { s with raised := true }
      | some _, .first node => some (s.firstDone input e.1 node e.2)
      | some _, .page n expectedReqId _ => some (s.pageDone input e.1 n expectedReqId e.2)

/-- The loop has ended, by an exception or because nothing is left to wait for. -/
def Done (s : PagedRead) : Prop := s.raised = true ∨ s.activeFutures = []

end PagedRead

/-! ## What the nodes send -/

/-- The records of a node in the range of a query, in key order. -/
def recordsIn (db : Node → List Record) (n : Node) (query : QueryRequest) : List Record :=
  match query.range with
  | none => []
  | some (startKey, endKey) => rangeFilter Record.key startKey endKey (db n)

/-- An answer to a query for the records `L`: a prefix, that is not empty when it was cut. -/
structure IsAnswer (L : List Record) (reqId : Nat) (response : ReadResult) : Prop where
  reqId_eq : response.reqId = reqId
  isPrefix : response.records <+: L
  count_eq : response.recordsCount = response.records.length
  maxId_eq : ∀ r ∈ response.records.getLast?, response.maxId = r.keyId
  complete : response.limitReached = false → response.records = L
  nonempty : response.limitReached = true → response.records ≠ []

/-- The node that is asked answers with a page of its records in the range. -/
def PagedRead.Serves (db : Node → List Record) (input : ReadInput) (s : PagedRead)
    (e : Nat × ReadResult) : Prop :=
  ∀ fut, s.activeFutures[e.1]? = some fut →
    IsAnswer (recordsIn db fut.node (fut.request input)) (fut.reqId input) e.2

/-- The record behind an answer that was cut has another id than its last one. -/
def PagedRead.CutsBetweenIds (db : Node → List Record) (input : ReadInput) (s : PagedRead)
    (e : Nat × ReadResult) : Prop :=
  ∀ fut, s.activeFutures[e.1]? = some fut → e.2.limitReached = true →
    ∀ r, (recordsIn db fut.node (fut.request input))[e.2.records.length]? = some r →
      r.keyId ≠ e.2.maxId

/-! ## Records in a range -/

/-- `(min_id, min_ts) <= (key_id, timestamp) <= (max_id, max_ts)`. -/
def QueryRequest.Wants (query : QueryRequest) (r : Record) : Prop :=
  (query.minId < r.keyId.toNat ∨ query.minId = r.keyId.toNat ∧ query.minTs ≤ r.timestamp.toNat) ∧
    (r.keyId.toNat < query.maxId ∨ r.keyId.toNat = query.maxId ∧ r.timestamp.toNat ≤ query.maxTs)

instance (query : QueryRequest) (r : Record) : Decidable (query.Wants r) :=
  inferInstanceAs (Decidable (_ ∧ _))

theorem packKey_eq_some {id ts : Nat} {key : SlUint128} (h : packKey id ts = some key) :
    key.id.toNat = id ∧ key.timestamp.toNat = ts := by
  unfold packKey at h
  split at h
  · rename_i hlt
    cases h
    exact ⟨UInt64.toNat_ofNat_of_lt' hlt.1, UInt64.toNat_ofNat_of_lt' hlt.2⟩
  · cases h

theorem QueryRequest.range_eq_some {query : QueryRequest} {startKey endKey : SlUint128} :
    query.range = some (startKey, endKey) ↔
      packKey query.minId query.minTs = some startKey ∧
        packKey query.maxId query.maxTs = some endKey := by
  unfold QueryRequest.range
  split
  · rename_i hstart hend
    rw [hstart, hend, Option.some.injEq, Prod.mk.injEq, Option.some.injEq, Option.some.injEq]
  · rename_i hnone
    constructor
    · intro h
      cases h
    · rintro ⟨hstart, hend⟩
      exact (hnone _ _ hstart hend).elim

/-- The records in range are those the query wants. -/
theorem recordsIn_eq_filter {db : Node → List Record} {n : Node} {query : QueryRequest}
    (h : query.range.isSome) : recordsIn db n query = (db n).filter fun r => query.Wants r := by
  obtain ⟨⟨startKey, endKey⟩, hrange⟩ := Option.isSome_iff_exists.mp h
  obtain ⟨hstart, hend⟩ := QueryRequest.range_eq_some.mp hrange
  obtain ⟨hstartId, hstartTs⟩ := packKey_eq_some hstart
  obtain ⟨hendId, hendTs⟩ := packKey_eq_some hend
  unfold recordsIn
  rw [hrange]
  apply List.filter_congr
  intro r _
  rw [decide_eq_decide]
  unfold InRange QueryRequest.Wants
  rw [SlUint128.le_iff_val, SlUint128.le_iff_val]
  simp only [SlUint128.val, Record.key, hstartId, hstartTs, hendId, hendTs]
  have hts := r.timestamp.toNat_lt
  have hstartLt := startKey.timestamp.toNat_lt
  have hendLt := endKey.timestamp.toNat_lt
  omega

/-- A request that is packed can go on behind every answer before its end. -/
theorem QueryRequest.next_range_isSome {query : QueryRequest} {resp : ReadResult}
    (h : query.range.isSome) (hlt : resp.maxId.toNat < query.maxId) :
    (query.next resp).range.isSome := by
  obtain ⟨⟨startKey, endKey⟩, hrange⟩ := Option.isSome_iff_exists.mp h
  obtain ⟨-, hend⟩ := QueryRequest.range_eq_some.mp hrange
  have hid := (packKey_eq_some hend).1
  have hend64 := endKey.id.toNat_lt
  have hstart : packKey (resp.maxId.toNat + 1) 0 = some ⟨UInt64.ofNat (resp.maxId.toNat + 1), 0⟩ := by
    unfold packKey
    rw [if_pos ⟨by omega, by decide⟩]
    rfl
  rw [Option.isSome_iff_exists]
  exact ⟨_, QueryRequest.range_eq_some.mpr ⟨hstart, hend⟩⟩

theorem Record.keyId_le_of_key_lt {r r' : Record} (h : r.key < r'.key) :
    r.keyId.toNat ≤ r'.keyId.toNat := by
  rw [SlUint128.lt_iff_val] at h
  simp only [SlUint128.val, Record.key] at h
  have hts := r'.timestamp.toNat_lt
  omega

/-- The record an answer ends with. -/
theorem exists_last {P : List Record} {m : UInt64} (hm : ∀ r ∈ P.getLast?, m = r.keyId)
    (hP : P ≠ []) : ∃ P' last, P = P' ++ [last] ∧ m = last.keyId := by
  obtain ⟨P', last, hlast⟩ := List.eq_nil_or_concat P |>.resolve_left hP
  rw [List.concat_eq_append] at hlast
  refine ⟨P', last, hlast, hm last ?_⟩
  rw [hlast, List.getLast?_concat]
  rfl

/-- What is left of a range for the request that follows an answer `P` with the last id `m`. -/
theorem filter_behind {L P R : List Record} {m : UInt64} (hL : StrictBy Record.key L)
    (hsplit : L = P ++ R) (hm : ∀ r ∈ P.getLast?, m = r.keyId) (hP : P ≠ []) :
    (L.filter fun r => m.toNat < r.keyId.toNat) = R.filter fun r => m.toNat < r.keyId.toNat := by
  rw [hsplit, List.filter_append]
  have hnone : (P.filter fun r => m.toNat < r.keyId.toNat) = [] := by
    rw [List.filter_eq_nil_iff]
    intro r hr
    obtain ⟨P', last, hlast, hmlast⟩ := exists_last hm hP
    have hle : r.keyId.toNat ≤ last.keyId.toNat := by
      rw [hlast] at hr
      rcases List.mem_append.mp hr with hr | hr
      · have hpair : StrictBy Record.key (P' ++ [last]) := by
          rw [← hlast]
          exact hL.sublist (hsplit ▸ List.sublist_append_left P R)
        exact Record.keyId_le_of_key_lt
          ((List.pairwise_append.mp hpair).2.2 r hr last (List.mem_singleton_self last))
      · rw [List.mem_singleton.mp hr]
    rw [hmlast]
    simpa using hle
  rw [hnone, List.nil_append]

/-- Nothing is lost behind an answer exactly when the record behind it has another id. -/
theorem filter_eq_self_iff {L P R : List Record} {m : UInt64} (hL : StrictBy Record.key L)
    (hsplit : L = P ++ R) (hm : ∀ r ∈ P.getLast?, m = r.keyId) (hP : P ≠ []) :
    (R.filter fun r => m.toNat < r.keyId.toNat) = R ↔
      ∀ r, L[P.length]? = some r → r.keyId ≠ m := by
  have hhead : L[P.length]? = R.head? := by
    rw [hsplit, List.getElem?_append_right (Nat.le_refl _), Nat.sub_self, List.head?_eq_getElem?]
  rw [hhead]
  constructor
  · intro hself r hr heq
    have hmem := List.mem_of_mem_head? hr
    rw [← hself] at hmem
    have hlt := of_decide_eq_true (List.mem_filter.mp hmem).2
    rw [heq] at hlt
    exact Nat.lt_irrefl _ hlt
  · intro hhead
    rw [List.filter_eq_self]
    -- the ids never decrease, so those of `R` are all above `m`
    obtain ⟨P', last, hlast, hmlast⟩ := exists_last hm hP
    rw [hsplit] at hL
    obtain ⟨-, hR, hcross⟩ := List.pairwise_append.mp hL
    cases R with
    | nil =>
      intro r hr
      cases hr
    | cons first R =>
      have hfirst : m.toNat < first.keyId.toNat := by
        have hle := Record.keyId_le_of_key_lt (hcross last (by simp [hlast]) first List.mem_cons_self)
        have hne : first.keyId.toNat ≠ m.toNat := fun h => hhead first rfl (UInt64.toNat_inj.mp h)
        rw [hmlast] at hne ⊢
        omega
      intro r hr
      rw [decide_eq_true_eq]
      rcases List.mem_cons.mp hr with rfl | hr
      · exact hfirst
      · exact Nat.lt_of_lt_of_le hfirst
          (Record.keyId_le_of_key_lt ((List.pairwise_cons.mp hR).1 r hr))

/-- What the client asks for behind an answer. -/
def restBehind (db : Node → List Record) (n : Node) (query : QueryRequest) (resp : ReadResult) :
    List Record :=
  if query.Unfinished resp then recordsIn db n (query.next resp) else []

theorem restBehind_congr (db : Node → List Record) (n : Node) (query : QueryRequest)
    {resp resp' : ReadResult} (hlimit : resp.limitReached = resp'.limitReached)
    (hmaxId : resp.maxId = resp'.maxId) :
    restBehind db n query resp = restBehind db n query resp' := by
  obtain ⟨⟩ := resp
  obtain ⟨⟩ := resp'
  cases hlimit
  cases hmaxId
  rfl

/-- A cut answer passes the checks of the client. -/
theorem IsAnswer.checked {db : Node → List Record} {n : Node} {request : QueryRequest} {reqId : Nat}
    {resp : ReadResult} (h : IsAnswer (recordsIn db n request) reqId resp)
    (hrange : request.range.isSome) (hlimit : resp.limitReached = true) :
    resp.recordsCount ≠ 0 ∧ request.minId ≤ resp.maxId.toNat := by
  have hne := h.nonempty hlimit
  obtain ⟨P', last, hlast, hmaxId⟩ := exists_last h.maxId_eq hne
  refine ⟨?_, ?_⟩
  · rw [h.count_eq, hlast]
    simp
  · have hmem : last ∈ recordsIn db n request := h.isPrefix.subset (by simp [hlast])
    rw [recordsIn_eq_filter hrange] at hmem
    have hwants := of_decide_eq_true (List.mem_filter.mp hmem).2
    unfold QueryRequest.Wants at hwants
    rw [hmaxId]
    omega

/-- The client asks for what stands behind an answer, without the records that have its last id. -/
theorem restBehind_spec {db : Node → List Record} (hdb : ∀ n, StrictBy Record.key (db n)) {n : Node}
    {query request : QueryRequest} (hquery : query.range.isSome) (hrequest : request.range.isSome)
    (hmaxId : request.maxId = query.maxId) (hmaxTs : request.maxTs = query.maxTs) {reqId : Nat}
    {resp : ReadResult} (hanswer : IsAnswer (recordsIn db n request) reqId resp) :
    ∃ R, recordsIn db n request = resp.records ++ R ∧
      (restBehind db n query resp).Sublist R ∧
      (restBehind db n query resp = R ↔ (resp.limitReached = true → ∀ r,
        (recordsIn db n request)[resp.records.length]? = some r → r.keyId ≠ resp.maxId)) := by
  have hL : StrictBy Record.key (recordsIn db n request) := by
    rw [recordsIn_eq_filter hrequest]
    exact (hdb n).sublist List.filter_sublist
  obtain ⟨R, hR⟩ := hanswer.isPrefix
  -- nothing is asked for behind the last id of the range
  refine ⟨R, hR.symm, ?_⟩
  cases hlimit : resp.limitReached with
  | false =>
    -- the answer is complete
    have hnil : R = [] := by
      have hlength := congrArg List.length (hanswer.complete hlimit)
      rw [← hR, List.length_append] at hlength
      exact List.length_eq_zero_iff.mp (by omega)
    have hrest : restBehind db n query resp = [] := by
      unfold restBehind
      rw [if_neg]
      rintro ⟨htrue, -⟩
      rw [hlimit] at htrue
      cases htrue
    rw [hrest, hnil]
    refine ⟨List.Sublist.refl _, fun _ h => ?_, fun _ => rfl⟩
    cases h
  | true =>
    have hP := hanswer.nonempty hlimit
    have hm := hanswer.maxId_eq
    obtain ⟨P', last, hlast, hmlast⟩ := exists_last hm hP
    have hmem : last ∈ recordsIn db n request := by
      rw [← hR, hlast]
      simp
    -- the next request wants what this one wants, from the next id on
    have hrest : restBehind db n query resp =
        R.filter fun r => resp.maxId.toNat < r.keyId.toNat := by
      rw [← filter_behind hL hR.symm hm hP]
      rw [recordsIn_eq_filter hrequest, List.mem_filter, decide_eq_true_eq] at hmem
      rw [recordsIn_eq_filter hrequest, List.filter_filter]
      have hwants := hmem.2
      unfold QueryRequest.Wants at hwants
      rw [← hmlast] at hwants
      unfold restBehind
      split
      · rename_i hunfinished
        rw [recordsIn_eq_filter (QueryRequest.next_range_isSome hquery hunfinished.2)]
        apply List.filter_congr
        intro r _
        rw [← Bool.decide_and, decide_eq_decide]
        unfold QueryRequest.Wants QueryRequest.next
        simp only
        omega
      · rename_i hfinished
        symm
        rw [List.filter_eq_nil_iff]
        intro r _
        rw [← Bool.decide_and, decide_eq_true_eq]
        have hend : query.maxId ≤ resp.maxId.toNat := by
          by_contra hlt
          exact hfinished ⟨hlimit, by omega⟩
        unfold QueryRequest.Wants
        omega
    rw [hrest]
    refine ⟨List.filter_sublist, ?_⟩
    rw [filter_eq_self_iff hL hR.symm hm hP]
    exact ⟨fun h _ => h, fun h => h rfl⟩

/-! ## What is collected and what is to come -/

namespace PagedRead

variable {input : ReadInput} {db : Node → List Record} {s s' : PagedRead} {k : Nat}

/-- The records of a node so far. -/
def collected (s : PagedRead) (n : Node) : List Record :=
  ((s.nodeToAccumulated.get n).map ReadResult.records).getD []

/-- The records asked for. -/
def outstanding (db : Node → List Record) (input : ReadInput) (s : PagedRead) (n : Node) :
    List Record :=
  s.activeFutures.flatMap fun fut =>
    if fut.node = n then recordsIn db n (fut.request input) else []

/-- Nothing has been lost. -/
def Lossless (db : Node → List Record) (input : ReadInput) (s : PagedRead) : Prop :=
  ∀ n ∈ input.nodes, s.collected n ++ s.outstanding db input n = recordsIn db n input.query

/-- Each node has one future until it is done, and a future for a page begins behind the response of
its node. What is collected and what is to come are in the range, in order. -/
structure Inv (db : Node → List Record) (input : ReadInput) (s : PagedRead) : Prop where
  raised : s.raised = false
  nodup : (s.activeFutures.map ReadFuture.node).Nodup
  asked : ∀ fut ∈ s.activeFutures, fut.node ∈ input.nodes
  first : ∀ n, .first n ∈ s.activeFutures → s.nodeToAccumulated.get n = none
  page : ∀ n reqId pageQuery, .page n reqId pageQuery ∈ s.activeFutures → ∃ resp,
    s.nodeToAccumulated.get n = some resp ∧ pageQuery = input.query.next resp ∧
      resp.maxId.toNat < input.query.maxId
  answered : ∀ n ∈ input.nodes, (∃ fut ∈ s.activeFutures, fut.node = n) ∨
    (s.nodeToAccumulated.get n).isSome
  sublist : ∀ n ∈ input.nodes, (s.collected n ++ s.outstanding db input n).Sublist
    (recordsIn db n input.query)

theorem outstanding_of_forall_ne {futures : List ReadFuture} {n : Node}
    (h : ∀ fut ∈ futures, fut.node ≠ n) : (futures.flatMap fun fut =>
      if fut.node = n then recordsIn db n (fut.request input) else []) = [] := by
  rw [List.flatMap_eq_nil_iff]
  intro fut hfut
  exact if_neg (h fut hfut)

theorem inv_init (db : Node → List Record) (hnodes : input.nodes.Nodup) (nextReqId : Nat) :
    Inv db input (init input nextReqId) ∧ Lossless db input (init input nextReqId) := by
  have hnode : input.nodes.map (fun n => (ReadFuture.first n).node) = input.nodes :=
    List.map_id _
  have hlossless : Lossless db input (init input nextReqId) := by
    intro n hn
    obtain ⟨before, behind, hsplit⟩ := List.append_of_mem hn
    have hnodup := hnodes
    rw [hsplit, List.nodup_middle, List.nodup_cons] at hnodup
    have hne : ∀ futures : List Node, (∀ m ∈ futures, m ∈ before ++ behind) →
        ((futures.map ReadFuture.first).flatMap fun fut =>
          if fut.node = n then recordsIn db n (fut.request input) else []) = [] := by
      intro futures hfutures
      apply outstanding_of_forall_ne
      rintro fut hfut rfl
      obtain ⟨m, hm, rfl⟩ := List.mem_map.mp hfut
      exact hnodup.1 (hfutures m hm)
    show [] ++ ((input.nodes.map ReadFuture.first).flatMap fun fut =>
      if fut.node = n then recordsIn db n (fut.request input) else []) = _
    rw [hsplit, List.map_append, List.map_cons, List.flatMap_append, List.flatMap_cons,
      hne before fun m hm => List.mem_append_left _ hm,
      hne behind fun m hm => List.mem_append_right _ hm]
    simp [ReadFuture.request]
  refine ⟨⟨rfl, ?_, ?_, ?_, ?_, ?_, ?_⟩, hlossless⟩
  · show ((input.nodes.map ReadFuture.first).map ReadFuture.node).Nodup
    rw [List.map_map]
    exact hnode.symm ▸ hnodes
  · intro fut hfut
    obtain ⟨n, hn, rfl⟩ := List.mem_map.mp hfut
    exact hn
  · intro n _
    rfl
  · intro n reqId pageQuery hmem
    obtain ⟨m, -, heq⟩ := List.mem_map.mp hmem
    cases heq
  · intro n hn
    exact Or.inl ⟨.first n, List.mem_map_of_mem hn, rfl⟩
  · intro n hn
    rw [hlossless n hn]

theorem collected_file (input : ReadInput) (s : PagedRead) (k : Nat) (n m : Node)
    (resp : ReadResult) :
    (s.file input k n resp).collected m = if m = n then resp.records else s.collected m := by
  unfold collected file
  split
  · rw [Dict.get_set]
    split <;> rfl
  · rw [Dict.get_set]
    split <;> rfl

/-- The futures that are left and the one for what stands behind the response. -/
theorem activeFutures_file (input : ReadInput) (s : PagedRead) (k : Nat) (n : Node)
    (resp : ReadResult) : (s.file input k n resp).activeFutures = s.activeFutures.eraseIdx k ++
      if input.query.Unfinished resp then [.page n s.nextReqId (input.query.next resp)] else [] := by
  unfold file
  split
  · rfl
  · rw [List.append_nil]

/-- One turn that does not raise an error files a first response or one with a further page. -/
theorem step_of_not_raised {fut : ReadFuture} {answer : ReadResult}
    (hk : s.activeFutures[k]? = some fut) (hstep : s.step input (k, answer) = some s')
    (hraised : s'.raised = false) :
    (∃ n, fut = .first n ∧ s' = s.file input k n answer ∧
      (answer.limitReached = true → answer.recordsCount ≠ 0)) ∨
    ∃ n reqId pageQuery resp, fut = .page n reqId pageQuery ∧
      s.nodeToAccumulated.get n = some resp ∧ s' = s.file input k n (addPage resp answer) ∧
      (answer.limitReached = true → answer.recordsCount ≠ 0) := by
  -- each branch that raises an error is ruled out at once
  have hstopped : ∀ {t : PagedRead}, { t with raised := true } = s' → False := by
    rintro t rfl
    cases hraised
  unfold step at hstep
  simp only [hk] at hstep
  split at hstep
  · cases hstep
  · split at hstep
    · exact (hstopped (Option.some.inj hstep)).elim
    · rename_i n _
      have hdone := Option.some.inj hstep
      -- a first response: no error page, and not cut short without a record
      unfold firstDone at hdone
      split at hdone
      · exact (hstopped hdone).elim
      · rename_i hcut
        split at hdone
        · exact (hstopped hdone).elim
        · exact Or.inl ⟨n, rfl, hdone.symm, fun hlimit hzero => hcut ⟨hlimit, hzero⟩⟩
    · rename_i n reqId pageQuery _
      have hdone := Option.some.inj hstep
      -- a further page: its node has answered before, with the same header
      unfold pageDone at hdone
      split at hdone
      · exact (hstopped hdone).elim
      · split at hdone
        · exact (hstopped hdone).elim
        · rename_i hcut
          split at hdone
          · exact (hstopped hdone).elim
          · rename_i resp hget
            split at hdone
            · exact (hstopped hdone).elim
            · exact Or.inr ⟨n, reqId, pageQuery, resp, rfl, hget, hdone.symm,
                fun hlimit hzero => hcut ⟨hlimit, hzero⟩⟩

section Future

variable {fut : ReadFuture} (hnodup : (s.activeFutures.map ReadFuture.node).Nodup)
  (hk : s.activeFutures[k]? = some fut)

include hnodup hk

/-- The futures of other nodes stand around the one at `k`. -/
theorem exists_split : ∃ before behind, s.activeFutures = before ++ fut :: behind ∧
    s.activeFutures.eraseIdx k = before ++ behind ∧ ∀ other ∈ before ++ behind,
      other.node ≠ fut.node := by
  obtain ⟨before, behind, hsplit, herase⟩ := exists_split_of_getElem? hk
  refine ⟨before, behind, hsplit, herase, ?_⟩
  rw [hsplit, List.map_append, List.map_cons, List.nodup_middle, List.nodup_cons,
    ← List.map_append] at hnodup
  intro other hother heq
  exact hnodup.1 (heq ▸ List.mem_map_of_mem hother)

theorem outstanding_self :
    s.outstanding db input fut.node = recordsIn db fut.node (fut.request input) := by
  obtain ⟨before, behind, hsplit, -, hne⟩ := exists_split hnodup hk
  unfold outstanding
  rw [hsplit, List.flatMap_append, List.flatMap_cons,
    outstanding_of_forall_ne fun other h => hne other (List.mem_append_left _ h),
    outstanding_of_forall_ne fun other h => hne other (List.mem_append_right _ h)]
  simp

theorem outstanding_file (resp : ReadResult) (n : Node) :
    (s.file input k fut.node resp).outstanding db input n =
      if n = fut.node then restBehind db n input.query resp else s.outstanding db input n := by
  obtain ⟨before, behind, hsplit, herase, hne⟩ := exists_split hnodup hk
  unfold outstanding
  rw [activeFutures_file, herase, hsplit, List.flatMap_append, List.flatMap_append,
    List.flatMap_append, List.flatMap_cons]
  by_cases hn : n = fut.node
  · subst hn
    rw [outstanding_of_forall_ne fun other h => hne other (List.mem_append_left _ h),
      outstanding_of_forall_ne fun other h => hne other (List.mem_append_right _ h), if_pos rfl]
    unfold restBehind
    split <;> simp [ReadFuture.request]
  · have hother : ¬ fut.node = n := fun h => hn h.symm
    rw [if_neg hn, if_neg hother]
    split <;> simp [hother]

/-- A future behind the filing of a response is another node's, or the next page's. -/
theorem mem_activeFutures_file {resp : ReadResult} {other : ReadFuture}
    (h : other ∈ (s.file input k fut.node resp).activeFutures) :
    (other ∈ s.activeFutures ∧ other.node ≠ fut.node) ∨
      (input.query.Unfinished resp ∧
        other = .page fut.node s.nextReqId (input.query.next resp)) := by
  obtain ⟨before, behind, hsplit, herase, hne⟩ := exists_split hnodup hk
  rw [activeFutures_file, herase] at h
  rcases List.mem_append.mp h with h | h
  · refine Or.inl ⟨?_, hne other h⟩
    rw [hsplit]
    rcases List.mem_append.mp h with h | h
    · exact List.mem_append_left _ h
    · exact List.mem_append_right _ (List.mem_cons_of_mem _ h)
  · split at h
    · rename_i hunfinished
      exact Or.inr ⟨hunfinished, List.mem_singleton.mp h⟩
    · cases h

theorem nodup_file (resp : ReadResult) :
    ((s.file input k fut.node resp).activeFutures.map ReadFuture.node).Nodup := by
  obtain ⟨before, behind, -, herase, hne⟩ := exists_split hnodup hk
  have hothers : ((before ++ behind).map ReadFuture.node).Nodup := by
    rw [← herase]
    exact hnodup.sublist ((List.eraseIdx_sublist _ k).map _)
  rw [activeFutures_file, herase]
  split
  · rw [List.map_append, List.map_singleton, ← List.concat_eq_append, List.nodup_concat]
    refine ⟨?_, hothers⟩
    intro hin
    obtain ⟨other, hother, heq⟩ := List.mem_map.mp hin
    exact hne other hother heq
  · rw [List.append_nil]
    exact hothers

/-- Filing a response keeps the invariant. -/
theorem Inv.file (h : Inv db input s) {resp : ReadResult}
    (hsublist : (resp.records ++ restBehind db fut.node input.query resp).Sublist
      (recordsIn db fut.node input.query)) :
    Inv db input (s.file input k fut.node resp) := by
  -- the future that is done leaves the list, and no other one is of its node
  obtain ⟨before, behind, hsplit, herase, hne⟩ := exists_split hnodup hk
  have hmem : ∀ other ∈ before ++ behind, other ∈ s.activeFutures := by
    intro other hother
    rw [hsplit]
    rcases List.mem_append.mp hother with hother | hother
    · exact List.mem_append_left _ hother
    · exact List.mem_append_right _ (List.mem_cons_of_mem _ hother)
  -- the other nodes keep what they have accumulated
  have hget : ∀ other ∈ before ++ behind,
      (s.file input k fut.node resp).nodeToAccumulated.get other.node =
        s.nodeToAccumulated.get other.node := by
    intro other hother
    unfold PagedRead.file
    split <;> exact Dict.get_set_of_ne (hne other hother)
  have hactive := activeFutures_file input s k fut.node resp
  rw [herase] at hactive
  have hfut := h.asked fut (List.mem_of_getElem? hk)
  refine ⟨?_, ?_, ?_, ?_, ?_, ?_, ?_⟩
  · unfold PagedRead.file
    split <;> exact h.raised
  · exact nodup_file hnodup hk resp
  · intro other hother
    rw [hactive] at hother
    rcases List.mem_append.mp hother with hother | hother
    · exact h.asked other (hmem other hother)
    · split at hother
      · rw [List.mem_singleton.mp hother]
        exact hfut
      · cases hother
  · intro n hother
    rw [hactive] at hother
    rcases List.mem_append.mp hother with hother | hother
    · exact (hget _ hother).trans (h.first n (hmem _ hother))
    · split at hother
      · cases List.mem_singleton.mp hother
      · cases hother
  · intro n reqId pageQuery hother
    rw [hactive] at hother
    rcases List.mem_append.mp hother with hother | hother
    · obtain ⟨resp', hresp', hpage⟩ := h.page n reqId pageQuery (hmem _ hother)
      exact ⟨resp', (hget _ hother).trans hresp', hpage⟩
    · split at hother
      · rename_i hunfinished
        cases List.mem_singleton.mp hother
        refine ⟨resp, ?_, rfl, hunfinished.2⟩
        unfold PagedRead.file
        -- the next page is asked for behind the last id of this one
        rw [if_pos hunfinished]
        exact Dict.get_set_self
      · cases hother
  · intro n hn
    -- the node of this answer has one now; the others are as before
    by_cases hself : n = fut.node
    · right
      unfold PagedRead.file
      split <;> simp [hself]
    · rcases h.answered n hn with ⟨other, hother, rfl⟩ | hsome
      · left
        refine ⟨other, ?_, rfl⟩
        rw [hsplit] at hother
        rw [hactive]
        apply List.mem_append_left
        rcases List.mem_append.mp hother with hother | hother
        · exact List.mem_append_left _ hother
        · rcases List.mem_cons.mp hother with rfl | hother
          · exact absurd rfl hself
          · exact List.mem_append_right _ hother
      · right
        unfold PagedRead.file
        split <;> simpa [Dict.get_set, hself] using hsome
  · intro n hn
    rw [collected_file, outstanding_file hnodup hk]
    -- what is collected and outstanding changes for this node only
    by_cases hself : n = fut.node
    · rw [if_pos hself, if_pos hself, hself]
      exact hsublist
    · rw [if_neg hself, if_neg hself]
      exact h.sublist n hn

end Future

/-- A right first answer is filed. -/
theorem Inv.firstDone (h : Inv db input s) {n : Node} {answer : ReadResult}
    (hmem : .first n ∈ s.activeFutures) (hrange : input.query.range.isSome) {reqId : Nat}
    (hanswer : IsAnswer (recordsIn db n input.query) reqId answer)
    (hs' : s' = s.firstDone input k n answer) :
    ∃ resp : ReadResult, resp.records = s.collected n ++ answer.records ∧
      resp.limitReached = answer.limitReached ∧ resp.maxId = answer.maxId ∧
      s' = s.file input k n resp := by
  have hcollected : s.collected n = [] := by
    unfold collected
    rw [h.first n hmem]
    rfl
  refine ⟨answer, by rw [hcollected, List.nil_append], rfl, rfl, ?_⟩
  rw [hs', PagedRead.firstDone, if_neg, if_neg]
  · rintro ⟨hlimit, hlt⟩
    exact Nat.not_lt.mpr (hanswer.checked hrange hlimit).2 hlt
  · rintro ⟨hlimit, hcount⟩
    exact (hanswer.checked hrange hlimit).1 hcount

/-- A right page is added to the response of its node. -/
theorem Inv.pageDone (h : Inv db input s) {n : Node} {reqId : Nat} {pageQuery : QueryRequest}
    {page : ReadResult} (hmem : .page n reqId pageQuery ∈ s.activeFutures)
    (hrange : pageQuery.range.isSome) (hanswer : IsAnswer (recordsIn db n pageQuery) reqId page)
    (hs' : s' = s.pageDone input k n reqId page) :
    ∃ resp : ReadResult, resp.records = s.collected n ++ page.records ∧
      resp.limitReached = page.limitReached ∧ resp.maxId = page.maxId ∧
      s' = s.file input k n resp := by
  obtain ⟨resp, hget, hpage, -⟩ := h.page n reqId pageQuery hmem
  have hcollected : s.collected n = resp.records := by
    unfold collected
    rw [hget]
    rfl
  refine ⟨addPage resp page, by rw [hcollected]; rfl, rfl, rfl, ?_⟩
  rw [hs', PagedRead.pageDone, if_neg (fun hne => hne hanswer.reqId_eq), if_neg, hget]
  · simp only
    rw [if_neg]
    rintro ⟨hlimit, hlt⟩
    have hmin := (hanswer.checked hrange hlimit).2
    rw [UInt64.lt_iff_toNat_lt] at hlt
    rw [hpage] at hmin
    have hnext : (input.query.next resp).minId = resp.maxId.toNat + 1 := rfl
    omega
  · rintro ⟨hlimit, hcount⟩
    exact (hanswer.checked hrange hlimit).1 hcount

/-- What one step does to the records of the node that answers, and to those of the others. -/
theorem Inv.step (hdb : ∀ n, StrictBy Record.key (db n)) (hquery : input.query.range.isSome)
    (h : Inv db input s) {e : Nat × ReadResult} (hserves : s.Serves db input e)
    (hstep : PagedRead.step input s e = some s') :
    Inv db input s' ∧ (s'.Lossless db input ↔ s.Lossless db input ∧ s.CutsBetweenIds db input e) := by
  obtain ⟨k, answer⟩ := e
  unfold PagedRead.step at hstep
  rw [h.raised] at hstep
  simp only [Bool.false_eq_true, if_false] at hstep
  cases hk : s.activeFutures[k]? with
  | none =>
    rw [hk] at hstep
    cases hstep
  | some fut =>
    have hmem := List.mem_of_getElem? hk
    have hanswer : IsAnswer (recordsIn db fut.node (fut.request input)) (fut.reqId input) answer :=
      hserves fut hk
    have hself : s.outstanding db input fut.node = recordsIn db fut.node (fut.request input) :=
      outstanding_self h.nodup hk
    -- the request is packed and ends where the query ends
    have hrequest : (fut.request input).range.isSome ∧
        (fut.request input).maxId = input.query.maxId ∧
        (fut.request input).maxTs = input.query.maxTs := by
      cases fut with
      | first n => exact ⟨hquery, rfl, rfl⟩
      | page n reqId pageQuery =>
        obtain ⟨resp, -, hpage, hlt⟩ := h.page n reqId pageQuery hmem
        show pageQuery.range.isSome ∧ pageQuery.maxId = _ ∧ pageQuery.maxTs = _
        rw [hpage]
        exact ⟨QueryRequest.next_range_isSome hquery hlt, rfl, rfl⟩
    -- both kinds of answers file the records collected so far with the new ones
    obtain ⟨resp, hrecords, hlimit, hmaxId, hfile⟩ :
        ∃ resp : ReadResult, resp.records = s.collected fut.node ++ answer.records ∧
          resp.limitReached = answer.limitReached ∧ resp.maxId = answer.maxId ∧
          s' = s.file input k fut.node resp := by
      rw [hk] at hstep
      obtain ⟨⟨startKey, endKey⟩, hrange⟩ := Option.isSome_iff_exists.mp hrequest.1
      cases fut with
      | first n =>
        simp only [hrange, Option.some.injEq] at hstep
        exact h.firstDone hmem hrequest.1 hanswer hstep.symm
      | page n reqId pageQuery =>
        simp only [hrange, Option.some.injEq] at hstep
        exact h.pageDone hmem hrequest.1 hanswer hstep.symm
    have hrest := restBehind_congr db fut.node input.query hlimit hmaxId
    obtain ⟨R, hsplit, hsublist, hcut⟩ :=
      restBehind_spec hdb hquery hrequest.1 hrequest.2.1 hrequest.2.2 hanswer
    have hnode := h.asked fut hmem
    have hbound := h.sublist fut.node hnode
    rw [hself, hsplit, ← List.append_assoc] at hbound
    -- behind the step the node has the answer collected and asks for what stands behind it
    have hfiled : s'.collected fut.node ++ s'.outstanding db input fut.node =
        s.collected fut.node ++ answer.records ++ restBehind db fut.node input.query answer := by
      rw [hfile, collected_file, outstanding_file h.nodup hk, if_pos rfl, if_pos rfl, hrest, hrecords]
    -- no other node is concerned
    have hother : ∀ n, n ≠ fut.node →
        s'.collected n ++ s'.outstanding db input n = s.collected n ++ s.outstanding db input n := by
      intro n hn
      rw [hfile, collected_file, outstanding_file h.nodup hk, if_neg hn, if_neg hn]
    refine ⟨?_, ?_⟩
    · rw [hfile]
      apply Inv.file h.nodup hk h
      rw [hrest, hrecords]
      exact (List.Sublist.append_left hsublist _).trans hbound
    · have hcuts : s.CutsBetweenIds db input (k, answer) ↔
          restBehind db fut.node input.query answer = R := by
        rw [hcut]
        constructor
        · exact fun hcuts => hcuts fut hk
        · intro hcuts fut' hk'
          rw [hk] at hk'
          cases hk'
          exact hcuts
      rw [hcuts]
      constructor
      · -- a complete result is too long for an answer that leaves records out
        intro hlossless
        have hfull := hlossless fut.node hnode
        rw [hfiled] at hfull
        have heq : restBehind db fut.node input.query answer = R := by
          apply hsublist.eq_of_length
          have hle := hbound.length_le
          have hge := hsublist.length_le
          rw [← hfull] at hle
          simp only [List.length_append] at hle
          omega
        refine ⟨?_, heq⟩
        intro n hn
        by_cases hne : n = fut.node
        · rw [hne, hself, hsplit, ← List.append_assoc, ← heq]
          exact hfull
        · rw [← hother n hne]
          exact hlossless n hn
      · rintro ⟨hlossless, heq⟩ n hn
        by_cases hne : n = fut.node
        · rw [hne, hfiled, heq, List.append_assoc, ← hsplit, ← hself]
          exact hlossless fut.node hnode
        · rw [hother n hne]
          exact hlossless n hn

end PagedRead

/-! ## What is left to ask for -/

/-- What a future may still ask for. -/
def ReadFuture.left (input : ReadInput) : ReadFuture → Nat
  | .first _ => input.query.maxId + 2
  | .page _ _ pageQuery => input.query.maxId - pageQuery.minId + 1

theorem ReadFuture.left_pos (input : ReadInput) (fut : ReadFuture) : 0 < fut.left input := by
  cases fut with
  | first n => exact Nat.succ_pos _
  | page n reqId pageQuery => exact Nat.succ_pos _

namespace PagedRead

variable {input : ReadInput} {s s' : PagedRead} {db : Node → List Record}

/-- What all active futures may still ask for. -/
def left (input : ReadInput) (s : PagedRead) : Nat :=
  if s.raised then 0 else (s.activeFutures.map (ReadFuture.left input)).sum

/-- Filing a response replaces the future by at most one request, for the ids behind the response. -/
theorem left_file {k : Nat} {fut : ReadFuture} (hraised : s.raised = false)
    (hk : s.activeFutures[k]? = some fut) (n : Node) {resp : ReadResult}
    (hleft : input.query.Unfinished resp → input.query.maxId - resp.maxId.toNat < fut.left input) :
    (s.file input k n resp).left input < s.left input := by
  obtain ⟨before, behind, hsplit, herase⟩ := exists_split_of_getElem? hk
  have hpos := fut.left_pos input
  have hold : s.left input = (before.map (ReadFuture.left input)).sum +
      (fut.left input + (behind.map (ReadFuture.left input)).sum) := by
    rw [left, hraised, hsplit]
    simp
  rw [hold, file]
  split
  · rename_i hunfinished
    have hlt := hleft hunfinished
    have hmax := hunfinished.2
    have hnew : ReadFuture.left input (.page n s.nextReqId (input.query.next resp)) =
        input.query.maxId - (resp.maxId.toNat + 1) + 1 := rfl
    simp only [left, hraised, herase, List.map_append, List.sum_append, List.map_cons,
      List.map_nil, List.sum_cons, List.sum_nil, hnew, Bool.false_eq_true, if_false]
    omega
  · simp only [left, hraised, herase, List.map_append, List.sum_append, Bool.false_eq_true,
      if_false]
    omega

/-- An error leaves nothing. -/
theorem left_raised (hraised : s.raised = false) (hactive : s.activeFutures ≠ [])
    (hraised' : s'.raised = true) : s'.left input < s.left input := by
  cases hfuts : s.activeFutures with
  | nil => exact absurd hfuts hactive
  | cons fut futs =>
    have hpos := fut.left_pos input
    rw [left, left, hraised, hraised', hfuts]
    simp only [if_true, Bool.false_eq_true, if_false, List.map_cons, List.sum_cons]
    omega

/-- The loop goes on with the answer to any of its futures. -/
theorem exists_step {k : Nat} {fut : ReadFuture} (hraised : s.raised = false)
    (hk : s.activeFutures[k]? = some fut) (answer : ReadResult) :
    ∃ s', s.step input (k, answer) = some s' := by
  unfold step
  rw [if_neg (Bool.eq_false_iff.mp hraised)]
  simp only [hk]
  cases hrange : (fut.request input).range with
  | none => exact ⟨_, rfl⟩
  | some range => cases fut <;> exact ⟨_, rfl⟩

/-- A step leaves less to ask for when the page it takes does not end in front of its range. -/
theorem left_step {e : Nat × ReadResult} (hstep : s.step input e = some s')
    (hadvances : ∀ n reqId pageQuery, s.activeFutures[e.1]? = some (.page n reqId pageQuery) →
      e.2.limitReached = true → pageQuery.minId ≤ e.2.maxId.toNat) :
    s'.left input < s.left input := by
  obtain ⟨k, answer⟩ := e
  have hgood : s.raised = false := by
    by_contra hbad
    rw [Bool.not_eq_false] at hbad
    unfold step at hstep
    rw [if_pos hbad] at hstep
    cases hstep
  cases hk : s.activeFutures[k]? with
  | none =>
    unfold step at hstep
    rw [if_neg (Bool.eq_false_iff.mp hgood)] at hstep
    simp only [hk] at hstep
    cases hstep
  | some fut =>
    have hactive : s.activeFutures ≠ [] := List.ne_nil_of_mem (List.mem_of_getElem? hk)
    cases hraised : s'.raised with
    | true => exact left_raised hgood hactive hraised
    | false =>
      rcases step_of_not_raised hk hstep hraised with
        ⟨n, rfl, rfl, -⟩ | ⟨n, reqId, pageQuery, resp, rfl, -, rfl, -⟩
      · refine left_file hgood hk n fun _ => ?_
        show _ < input.query.maxId + 2
        omega
      · refine left_file hgood hk n fun hunfinished => ?_
        have hle : pageQuery.minId ≤ answer.maxId.toNat :=
          hadvances n reqId pageQuery hk hunfinished.1
        show input.query.maxId - answer.maxId.toNat < input.query.maxId - pageQuery.minId + 1
        omega

/-- A page with records of its range does not end in front of it. -/
theorem Serves.advances {e : Nat × ReadResult} (h : s.Serves db input e) {n : Node} {reqId : Nat}
    {pageQuery : QueryRequest} (hfuture : s.activeFutures[e.1]? = some (.page n reqId pageQuery))
    (hlimit : e.2.limitReached = true) : pageQuery.minId ≤ e.2.maxId.toNat := by
  have hanswer : IsAnswer (recordsIn db n pageQuery) reqId e.2 := h _ hfuture
  cases hrange : pageQuery.range with
  | some range => exact (hanswer.checked (Option.isSome_iff_exists.mpr ⟨_, hrange⟩) hlimit).2
  | none =>
    have hnone : recordsIn db n pageQuery = [] := by
      unfold recordsIn
      rw [hrange]
    have hprefix := hanswer.isPrefix
    rw [hnone] at hprefix
    exact absurd (List.prefix_nil.mp hprefix) (hanswer.nonempty hlimit)

theorem left_init (input : ReadInput) (nextReqId : Nat) :
    (init input nextReqId).left input = input.nodes.length * (input.query.maxId + 2) := by
  show ((input.nodes.map ReadFuture.first).map (ReadFuture.left input)).sum = _
  rw [List.map_map]
  show (input.nodes.map fun _ => input.query.maxId + 2).sum = _
  rw [List.map_const', List.sum_replicate, smul_eq_mul]

/-- A run takes no more answers than there is to ask for. -/
theorem length_le_of_serves {nextReqId : Nat} {es : List (Nat × ReadResult)}
    (hrun : run (step input) (init input nextReqId) es = some s)
    (hserves : EachStep (step input) (Serves db input) (init input nextReqId) es) :
    es.length ≤ input.nodes.length * (input.query.maxId + 2) := by
  have hlength := @length_le_of_eachStep _ _ (left input) (fun _ => 0) (fun _ => 0) _ (fun _ => True) _
    (fun t e t' hserves _ hstep => ⟨trivial, Nat.le_refl _, Nat.le_refl _,
      .inl (left_step hstep fun n reqId pageQuery => hserves.advances)⟩) _ _ _ hserves trivial hrun
  unfold bound at hlength
  rw [left_init, Nat.zero_add, Nat.mul_one, Nat.add_zero] at hlength
  exact hlength

end PagedRead

/-! ## The result -/

/-- The loop of `read` takes a bounded number of answers and goes on until it has ended. Then each node
has its records in range accumulated, each once and in key order, exactly when no answer was cut
inside an id. -/
theorem read_exact_iff {db : Node → List Record} (hdb : ∀ n, StrictBy Record.key (db n))
    {input : ReadInput} (hquery : input.query.range.isSome) (hnodes : input.nodes.Nodup)
    (nextReqId : Nat) (es : List (Nat × ReadResult)) {s : PagedRead}
    (hrun : run (PagedRead.step input) (PagedRead.init input nextReqId) es = some s)
    (hserves : EachStep (PagedRead.step input) (PagedRead.Serves db input)
      (PagedRead.init input nextReqId) es) :
    es.length ≤ input.nodes.length * (input.query.maxId + 2) ∧
    (¬ s.Done → ∀ k < s.activeFutures.length, ∀ answer,
      ∃ s', s.step input (k, answer) = some s') ∧
    (s.Done →
      ((s.raised = false ∧ ∀ n ∈ input.nodes, ∃ resp, s.nodeToAccumulated.get n = some resp ∧
        resp.records = (db n).filter fun r => input.query.Wants r) ↔
      EachStep (PagedRead.step input) (PagedRead.CutsBetweenIds db input)
        (PagedRead.init input nextReqId) es)) := by
  refine ⟨PagedRead.length_le_of_serves hrun hserves, fun hnot k hk answer => ?_, fun hend => ?_⟩
  · obtain ⟨hraised, -⟩ := not_or.mp hnot
    exact PagedRead.exists_step (Bool.not_eq_true _ |>.mp hraised) (List.getElem?_eq_getElem hk) answer
  obtain ⟨hinit, hlossless⟩ := PagedRead.inv_init db hnodes nextReqId
  obtain ⟨hinv, hiff⟩ := run_iff_eachStep (I := PagedRead.Inv db input)
    (P := PagedRead.Lossless db input) (fun t e t' ht hR hstep => ht.step hdb hquery hR hstep)
    hinit hserves hrun
  have hdone : s.activeFutures = [] := by
    rcases hend with hraised | hdone
    · rw [hinv.raised] at hraised
      cases hraised
    · exact hdone
  -- with no future left, nothing is outstanding
  have hcollected : ∀ n, s.collected n ++ s.outstanding db input n = s.collected n := by
    intro n
    rw [PagedRead.outstanding, hdone]
    exact List.append_nil _
  have hsome : ∀ n ∈ input.nodes, ∃ resp, s.nodeToAccumulated.get n = some resp := by
    intro n hn
    rcases hinv.answered n hn with ⟨fut, hfut, -⟩ | hsome
    · rw [hdone] at hfut
      cases hfut
    · exact Option.isSome_iff_exists.mp hsome
  -- so what is accumulated is all that the invariant speaks of
  have hexact : (∀ n ∈ input.nodes, ∃ resp, s.nodeToAccumulated.get n = some resp ∧
      resp.records = (db n).filter fun r => input.query.Wants r) ↔ s.Lossless db input := by
    constructor
    · intro hexact n hn
      obtain ⟨resp, hget, hrecords⟩ := hexact n hn
      rw [hcollected, PagedRead.collected, hget, recordsIn_eq_filter hquery, ← hrecords]
      rfl
    · intro hlossless n hn
      obtain ⟨resp, hget⟩ := hsome n hn
      refine ⟨resp, hget, ?_⟩
      have hfull := hlossless n hn
      rw [hcollected, PagedRead.collected, hget, recordsIn_eq_filter hquery] at hfull
      exact hfull
  rw [hexact, hiff]
  constructor
  · exact fun h => h.2.2
  · exact fun h => ⟨hinv.raised, hlossless, h⟩

/-- An answer with these records. -/
def answerOf (reqId : Nat) (limitReached : Bool) (records : List Record) : ReadResult where
  reqId := reqId
  limitReached := limitReached
  minId := (records.head?.map Record.keyId).getD 0
  minTs := (records.head?.map Record.timestamp).getD 0
  maxId := (records.getLast?.map Record.keyId).getD 0
  maxTs := (records.getLast?.map Record.timestamp).getD 0
  recordsBytes := 22 * records.length
  recordsCount := records.length
  records := records

theorem isAnswer_answerOf {L P : List Record} {limitReached : Bool} (reqId : Nat) (hP : P <+: L)
    (hlimit : if limitReached = true then P ≠ [] else P = L) :
    IsAnswer L reqId (answerOf reqId limitReached P) where
  reqId_eq := rfl
  isPrefix := hP
  count_eq := rfl
  maxId_eq := by
    intro r hr
    show (P.getLast?.map Record.keyId).getD 0 = r.keyId
    rw [show P.getLast? = some r from hr]
    rfl
  complete := by
    intro h
    rwa [show limitReached = false from h] at hlimit
  nonempty := by
    intro h
    rwa [show limitReached = true from h] at hlimit

theorem strictBy_pair {r r' : Record} (h : r.key.val < r'.key.val) :
    StrictBy Record.key [r, r'] := by
  rw [strictBy_cons]
  refine ⟨?_, List.pairwise_singleton _ _⟩
  intro b hb
  rw [List.mem_singleton.mp hb]
  exact h

/-- A query at one node. -/
def oneNodeRead : ReadInput := ⟨⟨1, 0, 9, 0, 7⟩, [⟨"c", 1, "h", 1⟩], 0⟩

/-- Two records of `oneNodeRead` and their pages, the first one cut. -/
def twoPages (first second : List Record) : List (Nat × ReadResult) :=
  [(0, answerOf 0 true first), (0, answerOf 1 false second)]

/-- Three records in two pages, the first one cut behind the two that have its id. -/
theorem read_exact_iff_two : ∃ s : PagedRead,
    run (PagedRead.step oneNodeRead) (PagedRead.init oneNodeRead 1)
      (twoPages [⟨1, 5, .raw [3]⟩, ⟨1, 6, .raw [8]⟩] [⟨2, 6, .raw [4]⟩]) = some s ∧
    s.Done ∧ s.raised = false ∧ ∀ n ∈ oneNodeRead.nodes, ∃ resp,
      s.nodeToAccumulated.get n = some resp ∧
      resp.records = [⟨1, 5, .raw [3]⟩, ⟨1, 6, .raw [8]⟩, ⟨2, 6, .raw [4]⟩].filter fun r =>
        oneNodeRead.query.Wants r := by
  have hdb : ∀ _ : Node,
      StrictBy Record.key [⟨1, 5, .raw [3]⟩, ⟨1, 6, .raw [8]⟩, ⟨2, 6, .raw [4]⟩] := by
    intro _
    rw [strictBy_cons]
    refine ⟨?_, strictBy_pair (by decide)⟩
    intro b hb
    rcases List.mem_cons.mp hb with rfl | hb
    · exact SlUint128.lt_iff_val.mpr (by decide)
    · rw [List.mem_singleton.mp hb]
      exact SlUint128.lt_iff_val.mpr (by decide)
  obtain ⟨-, -, hiff⟩ := @read_exact_iff _ hdb oneNodeRead rfl (by decide) 1
    (twoPages [⟨1, 5, .raw [3]⟩, ⟨1, 6, .raw [8]⟩] [⟨2, 6, .raw [4]⟩]) _ rfl (by
      refine eachStep_cons.mpr ⟨?_, ?_⟩
      · intro fut hfut
        cases hfut
        exact isAnswer_answerOf 0 (by decide) (by decide)
      intro t ht
      cases ht
      refine eachStep_cons.mpr ⟨?_, fun t _ => eachStep_nil _ _ _⟩
      intro fut hfut
      cases hfut
      exact isAnswer_answerOf 1 (by decide) (by decide))
  refine ⟨_, rfl, .inr rfl, (hiff (.inr rfl)).mpr ?_⟩
  refine eachStep_cons.mpr ⟨?_, ?_⟩
  · intro fut hfut _ r hr
    cases hfut
    cases hr
    decide
  intro t ht
  cases ht
  refine eachStep_cons.mpr ⟨?_, fun t _ => eachStep_nil _ _ _⟩
  intro fut _ hlimit
  cases hlimit

/-- The first page ends inside the id 1: the second record of that id is never asked for. -/
theorem not_read_exact : ¬ ∀ (db : Node → List Record) (input : ReadInput) (nextReqId : Nat)
    (es : List (Nat × ReadResult)) (s : PagedRead), (∀ n, StrictBy Record.key (db n)) →
    input.query.range.isSome → input.nodes.Nodup →
    run (PagedRead.step input) (PagedRead.init input nextReqId) es = some s →
    EachStep (PagedRead.step input) (PagedRead.Serves db input)
      (PagedRead.init input nextReqId) es →
    s.raised = true ∨ s.activeFutures = [] →
    s.raised = false ∧ ∀ n ∈ input.nodes, ∃ resp, s.nodeToAccumulated.get n = some resp ∧
      resp.records = (db n).filter fun r => input.query.Wants r := by
  intro hclaim
  have hexact := hclaim (fun _ => [⟨1, 5, .raw [3]⟩, ⟨1, 6, .raw [4]⟩]) oneNodeRead 1
    (twoPages [⟨1, 5, .raw [3]⟩] []) _ (fun _ => strictBy_pair (by decide)) rfl (by decide) rfl ?_
    (Or.inr rfl)
  · obtain ⟨resp, hget, hrecords⟩ := hexact.2 _ (List.mem_singleton_self _)
    cases hget
    revert hrecords
    decide
  refine eachStep_cons.mpr ⟨?_, ?_⟩
  · intro fut hfut
    cases hfut
    exact isAnswer_answerOf 0 (by decide) (by decide)
  intro t ht
  cases ht
  refine eachStep_cons.mpr ⟨?_, fun t _ => eachStep_nil _ _ _⟩
  intro fut hfut
  cases hfut
  exact isAnswer_answerOf 1 (by decide) (by decide)

end RaftLsmt.Client
