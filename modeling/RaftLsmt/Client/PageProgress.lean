import RaftLsmt.Client.Read
import RaftLsmt.Lib.SuppliedLoop

/-!
# Whether the page loop comes to an end

`read` asks for the next page of a node until an answer is not cut any more, or ends at the last id
of the query. `PagedRead.turn` is one turn of its loop for an endless supply of answers that carry
the request id they are asked with.

A page that is cut moves the next request forward when it ends inside the range it was asked for.
The guard of `_aggregate` compares with the end of the page before, one id below that range, so a
page may end there and the same request is made again. `read_stops_iff` says that this is the only
way in which the loop goes on forever.
-/

set_option autoImplicit false

namespace RaftLsmt.Client

open RaftLsmt.Lib.OrderedDict
open RaftLsmt.Lib.SuppliedLoop

namespace PagedRead

/-- The position of the future that is done first. -/
def chosen (s : PagedRead) (choice : Nat) : Nat := choice % s.activeFutures.length

/-- The loop of `_aggregate` takes one answer, that of any active future, with its request id. -/
def turn (input : ReadInput) (s : PagedRead) (supplied : Nat × ReadResult) : PagedRead :=
  match s.activeFutures[s.chosen supplied.1]? with
  | none => s
  | some fut =>
    (s.step input (s.chosen supplied.1, { supplied.2 with reqId := fut.reqId input })).getD s

/-- The page does not end in front of the range it was asked for, when it is cut. -/
def Advances (s : PagedRead) (supplied : Nat × ReadResult) : Prop :=
  ∀ n reqId pageQuery, s.raised = false →
    s.activeFutures[s.chosen supplied.1]? = some (.page n reqId pageQuery) →
      supplied.2.limitReached = true → pageQuery.minId ≤ supplied.2.maxId.toNat

end PagedRead

namespace PagedRead

variable {input : ReadInput} {s : PagedRead}

theorem turn_of_done (input : ReadInput) (s : PagedRead) (supplied : Nat × ReadResult)
    (h : s.Done) : s.turn input supplied = s := by
  unfold turn
  rcases h with hraised | hnone
  · split
    · rfl
    · rw [step, if_pos hraised]
      rfl
  · rw [hnone]
    rfl

theorem advances_of_done (s : PagedRead) (supplied : Nat × ReadResult) (h : s.Done) :
    s.Advances supplied := by
  intro n reqId pageQuery hraised hfut
  rcases h with hdone | hnone
  · rw [hraised] at hdone
    cases hdone
  · rw [hnone] at hfut
    cases hfut

/-- A turn leaves less to ask for when the page it takes advances. -/
theorem left_turn (s : PagedRead) (supplied : Nat × ReadResult) (hnot : ¬ s.Done)
    (hadvances : s.Advances supplied) : (s.turn input supplied).left input < s.left input := by
  obtain ⟨hraised, hactive⟩ := not_or.mp hnot
  rw [Bool.not_eq_true] at hraised
  have hlt : s.chosen supplied.1 < s.activeFutures.length :=
    Nat.mod_lt _ (List.length_pos_iff.mpr hactive)
  obtain ⟨fut, hfut⟩ : ∃ fut, s.activeFutures[s.chosen supplied.1]? = some fut :=
    ⟨_, List.getElem?_eq_getElem hlt⟩
  obtain ⟨s', hstep⟩ : ∃ s', s.step input (s.chosen supplied.1,
      { supplied.2 with reqId := fut.reqId input }) = some s' := exists_step hraised hfut _
  unfold turn
  rw [hfut]
  simp only [hstep, Option.getD_some]
  exact left_step hstep fun n reqId pageQuery hpage hlimit =>
    hadvances n reqId pageQuery hraised hpage hlimit

end PagedRead

/-- For every query, every order in which the answers come and every supply of answers, the loop of
`read` ends exactly when only finitely many of the cut pages end in front of the range they were
asked for. -/
theorem read_stops_iff (input : ReadInput) (nextReqId : Nat) (supply : Nat → Nat × ReadResult) :
    (∃ n, (after (PagedRead.turn input) (PagedRead.init input nextReqId) supply n).Done) ↔
      ∃ n, ∀ m, n ≤ m →
        (after (PagedRead.turn input) (PagedRead.init input nextReqId) supply m).Advances
          (supply m) :=
  exists_done_iff (PagedRead.left input) (PagedRead.turn_of_done input) PagedRead.advances_of_done
    PagedRead.left_turn

/-! ## A server that answers with the same page -/

/-- The node that `oneNodeRead` asks. -/
def onlyNode : Node := ⟨"c", 1, "h", 1⟩

/-- A page with one record of the id 1, cut. -/
def samePage : ReadResult := answerOf 0 true [⟨1, 5, .raw [3]⟩]

/-- The first request is out, or one for the ids behind 1. -/
def PagedRead.Stuck (s : PagedRead) : Prop :=
  s.raised = false ∧
    (s.activeFutures = [.first onlyNode] ∨
      ∃ reqId resp, s.activeFutures = [.page onlyNode reqId ⟨2, 0, 9, 0, 7⟩] ∧
        s.nodeToAccumulated.get onlyNode = some resp ∧ resp.maxId = 1)

theorem PagedRead.Stuck.file {s : PagedRead} (hraised : s.raised = false) {fut : ReadFuture}
    (hactive : s.activeFutures = [fut]) {resp : ReadResult} (hlimit : resp.limitReached = true)
    (hmaxId : resp.maxId = 1) : (s.file oneNodeRead 0 onlyNode resp).Stuck := by
  have hone : resp.maxId.toNat = 1 := by rw [hmaxId]; rfl
  have hunfinished : oneNodeRead.query.Unfinished resp := by
    refine ⟨hlimit, ?_⟩
    rw [hone]
    decide
  have hnext : oneNodeRead.query.next resp = ⟨2, 0, 9, 0, 7⟩ := by
    unfold QueryRequest.next
    rw [hone]
    rfl
  unfold PagedRead.file
  rw [if_pos hunfinished, hactive, hnext]
  exact ⟨hraised, Or.inr ⟨s.nextReqId, resp, rfl, Dict.get_set_self, hmaxId⟩⟩

/-- The page is accepted each time, and the same request follows. -/
theorem PagedRead.Stuck.turn {s : PagedRead} (h : s.Stuck) :
    (s.turn oneNodeRead (0, samePage)).Stuck := by
  obtain ⟨hraised, hfirst | ⟨reqId, resp, hpage, hget, hmaxId⟩⟩ := h
  · have hstep : s.turn oneNodeRead (0, samePage) = s.file oneNodeRead 0 onlyNode samePage := by
      unfold PagedRead.turn PagedRead.step PagedRead.chosen
      simp only [hfirst, hraised]
      rfl
    rw [hstep]
    exact PagedRead.Stuck.file hraised hfirst rfl rfl
  · have hdone : s.pageDone oneNodeRead 0 onlyNode reqId { samePage with reqId := reqId } =
        s.file oneNodeRead 0 onlyNode (addPage resp { samePage with reqId := reqId }) := by
      unfold PagedRead.pageDone
      rw [if_neg (fun hne => hne rfl), if_neg (fun hempty => Nat.one_ne_zero hempty.2), hget]
      -- the page ends where the one before it ended
      refine if_neg fun hbefore => ?_
      rw [hmaxId] at hbefore
      exact absurd (show samePage.maxId < 1 from hbefore.2) (by decide)
    have hstep : s.turn oneNodeRead (0, samePage) =
        s.file oneNodeRead 0 onlyNode (addPage resp { samePage with reqId := reqId }) := by
      rw [← hdone]
      unfold PagedRead.turn PagedRead.step PagedRead.chosen
      simp only [hpage, hraised]
      rfl
    rw [hstep]
    exact PagedRead.Stuck.file hraised hpage rfl rfl

theorem not_read_stops : ¬ ∃ n, (after (PagedRead.turn oneNodeRead) (PagedRead.init oneNodeRead 1)
    (fun _ => (0, samePage)) n).Done := by
  rintro ⟨n, hdone⟩
  have hstuck : (after (PagedRead.turn oneNodeRead) (PagedRead.init oneNodeRead 1)
      (fun _ => (0, samePage)) n).Stuck :=
    after_invariant (fun _ _ => PagedRead.Stuck.turn) ⟨rfl, Or.inl rfl⟩ n
  obtain ⟨hraised, hactive⟩ := hstuck
  rcases hdone with hdone | hdone
  · rw [hraised] at hdone
    cases hdone
  · rcases hactive with hactive | ⟨reqId, resp, hactive, -⟩ <;> rw [hactive] at hdone <;>
      cases hdone

end RaftLsmt.Client
