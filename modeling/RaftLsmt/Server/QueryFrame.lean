import RaftLsmt.Server.QueryRequests

/-!
# What leaves the query port alone

`SameQueries s s'` says that nothing has happened to the query port but that some of its clients may
have been closed. The callbacks of the insert port are of this kind, and so are the completions of
writes and the shutdown.
-/

set_option autoImplicit false

namespace RaftLsmt.Server.EventLoop

open RaftLsmt.Lib.ByteCodec
open RaftLsmt.Lib.RefCount
open RaftLsmt.Lib.StepMachine
open RaftLsmt.Lsmt

/-- The query port is as it was, but that some of its clients may have been closed. -/
structure SameQueries (s s' : EventLoop) : Prop where
  allocated_eq : s'.heap.allocated = s.heap.allocated
  type_eq : ∀ b, (s'.clients b).type = (s.clients b).type
  client : ∀ b, (s.clients b).type = .query →
    (s'.clients b).buffer = (s.clients b).buffer ∧ (s'.clients b).reading = (s.clients b).reading ∧
      (s'.clients b).isPaused = (s.clients b).isPaused
  head_sub : ∀ b ∈ s'.clientsHead .query, b ∈ s.clientsHead .query
  stays : ∀ b, (s.clients b).type = .query → (s'.clients b).closing = false →
    (s.clients b).closing = false ∧ (b ∈ s.clientsHead .query → b ∈ s'.clientsHead .query)
  active_eq : s'.activeQueriesCount = s.activeQueriesCount
  queries_eq : s'.queries = s.queries
  received_eq : s'.received = s.received
  dispatched_eq : s'.dispatched = s.dispatched

namespace SameQueries

variable {s s' s'' : EventLoop} {v : LoopView} {a : Nat}

theorem refl (s : EventLoop) : SameQueries s s :=
  ⟨rfl, fun _ => rfl, fun _ _ => ⟨rfl, rfl, rfl⟩, fun _ hb => hb,
    fun _ _ hopen => ⟨hopen, id⟩, rfl, rfl, rfl, rfl⟩

theorem trans (h : SameQueries s s') (h' : SameQueries s' s'') : SameQueries s s'' where
  allocated_eq := h'.allocated_eq.trans h.allocated_eq
  type_eq := fun b => (h'.type_eq b).trans (h.type_eq b)
  client := by
    intro b hb
    obtain ⟨hbuffer, hreading, hpaused⟩ := h.client b hb
    obtain ⟨hbuffer', hreading', hpaused'⟩ := h'.client b ((h.type_eq b).trans hb)
    exact ⟨hbuffer'.trans hbuffer, hreading'.trans hreading, hpaused'.trans hpaused⟩
  head_sub := fun b hb => h.head_sub b (h'.head_sub b hb)
  stays := by
    intro b hb hopen
    obtain ⟨hopen, hstays'⟩ := h'.stays b ((h.type_eq b).trans hb) hopen
    obtain ⟨hopen, hstays⟩ := h.stays b hb hopen
    exact ⟨hopen, fun hmem => hstays' (hstays hmem)⟩
  active_eq := h'.active_eq.trans h.active_eq
  queries_eq := h'.queries_eq.trans h.queries_eq
  received_eq := h'.received_eq.trans h.received_eq
  dispatched_eq := h'.dispatched_eq.trans h.dispatched_eq

/-- A write to one client. -/
theorem update {f : Client → Client} (htype : (f (s.clients a)).type = (s.clients a).type)
    (hquery : (s.clients a).type = .query → (f (s.clients a)).buffer = (s.clients a).buffer ∧
      (f (s.clients a)).reading = (s.clients a).reading ∧
        (f (s.clients a)).isPaused = (s.clients a).isPaused)
    (hclosing : (s.clients a).type = .query → (f (s.clients a)).closing = (s.clients a).closing) :
    SameQueries s (s.update a f) := by
  have hself : (s.update a f).clients a = f (s.clients a) := Function.update_self _ _ _
  have hother : ∀ b, b ≠ a → (s.update a f).clients b = s.clients b :=
    fun b hb => Function.update_of_ne hb _ _
  refine ⟨rfl, ?_, ?_, fun _ hb => hb, ?_, rfl, rfl, rfl, rfl⟩
  · intro b
    by_cases hb : b = a
    · rw [hb, hself]
      exact htype
    · rw [hother b hb]
  · intro b hb
    by_cases hba : b = a
    · rw [hba] at hb ⊢
      rw [hself]
      exact hquery hb
    · rw [hother b hba]
      exact ⟨rfl, rfl, rfl⟩
  · intro b hb hopen
    refine ⟨?_, id⟩
    by_cases hba : b = a
    · rw [hba] at hb hopen ⊢
      rw [hself, hclosing hb] at hopen
      exact hopen
    · rw [hother b hba] at hopen
      exact hopen

theorem update_insert {f : Client → Client} (ha : (s.clients a).type = .insert)
    (htype : (f (s.clients a)).type = (s.clients a).type) : SameQueries s (s.update a f) := by
  have hnot : (s.clients a).type ≠ .query := by
    rw [ha]
    decide
  exact update htype (fun hquery => absurd hquery hnot) fun hquery => absurd hquery hnot

theorem insert_type (h : SameQueries s s') (ha : (s.clients a).type = .insert) :
    (s'.clients a).type = .insert := (h.type_eq a).trans ha

theorem touch (s : EventLoop) (a : Nat) : SameQueries s (s.touch a) :=
  ⟨rfl, fun _ => rfl, fun _ _ => ⟨rfl, rfl, rfl⟩, fun _ hb => hb,
    fun _ _ hopen => ⟨hopen, id⟩, rfl, rfl, rfl, rfl⟩

theorem retain (s : EventLoop) (a : Nat) : SameQueries s (s.clientRetain a) :=
  ⟨rfl, fun _ => rfl, fun _ _ => ⟨rfl, rfl, rfl⟩, fun _ hb => hb,
    fun _ _ hopen => ⟨hopen, id⟩, rfl, rfl, rfl, rfl⟩

theorem release (s : EventLoop) (a : Nat) : SameQueries s (s.clientRelease a) :=
  ⟨rfl, fun _ => rfl, fun _ _ => ⟨rfl, rfl, rfl⟩, fun _ hb => hb,
    fun _ _ hopen => ⟨hopen, id⟩, rfl, rfl, rfl, rfl⟩

/-- A client that is closed leaves the list, and no other. -/
theorem close (s : EventLoop) (a : Nat) : SameQueries s (s.closeAndFreeClient a) := by
  unfold closeAndFreeClient
  dsimp only
  split
  · -- a client that is closed already
    exact touch s a
  · let t : EventLoop := (s.touch a).update a fun c => { c with closing := true }
    have hself : t.clients a = { s.clients a with closing := true } := Function.update_self _ _ _
    have hother : ∀ b, b ≠ a → t.clients b = s.clients b := fun b hb => Function.update_of_ne hb _ _
    have hhead : (t.removeClient a).clientsHead = Function.update s.clientsHead (s.clients a).type
        ((s.clientsHead (s.clients a).type).erase a) := by
      show Function.update t.clientsHead (t.clients a).type
        ((t.clientsHead (t.clients a).type).erase a) = _
      rw [hself]
      rfl
    refine ⟨rfl, ?_, ?_, ?_, ?_, rfl, rfl, rfl, rfl⟩
    · intro b
      show (t.clients b).type = _
      by_cases hb : b = a
      · rw [hb, hself]
      · rw [hother b hb]
    · intro b _
      show (t.clients b).buffer = _ ∧ (t.clients b).reading = _ ∧ (t.clients b).isPaused = _
      by_cases hb : b = a
      · rw [hb, hself]
        exact ⟨rfl, rfl, rfl⟩
      · rw [hother b hb]
        exact ⟨rfl, rfl, rfl⟩
    · -- the list loses this client only
      intro b hb
      rw [hhead] at hb
      by_cases htype : .query = (s.clients a).type
      · rw [← htype, Function.update_self] at hb
        exact List.mem_of_mem_erase hb
      · rw [Function.update_of_ne htype] at hb
        exact hb
    · -- so an open client stays in it
      intro b _ hopen
      have hopen : (t.clients b).closing = false := hopen
      have hb : b ≠ a := by
        rintro rfl
        rw [hself] at hopen
        cases hopen
      rw [hother b hb] at hopen
      refine ⟨hopen, fun hmem => ?_⟩
      rw [hhead]
      by_cases htype : .query = (s.clients a).type
      · rw [← htype, Function.update_self]
        exact (List.mem_erase_of_ne hb).mpr hmem
      · rw [Function.update_of_ne htype]
        exact hmem

theorem uvWrite (s : EventLoop) (v : LoopView) (wr : AckWrite) : SameQueries s (s.uvWrite v wr) := by
  have hcall : SameQueries s { s with calls := s.calls + 1 } :=
    ⟨rfl, fun _ => rfl, fun _ _ => ⟨rfl, rfl, rfl⟩, fun _ hb => hb,
    fun _ _ hopen => ⟨hopen, id⟩, rfl, rfl, rfl, rfl⟩
  unfold EventLoop.uvWrite
  dsimp only
  split
  · exact ⟨rfl, fun _ => rfl, fun _ _ => ⟨rfl, rfl, rfl⟩, fun _ hb => hb,
    fun _ _ hopen => ⟨hopen, id⟩, rfl, rfl, rfl, rfl⟩
  · exact (hcall.trans (release _ _)).trans (close _ _)

/-! ### The insert port -/

theorem redirect (v : LoopView) (ha : (s.clients a).type = .insert) :
    SameQueries s (s.redirectToLeaderAndClose v a) := by
  have hstop := update_insert (f := fun c => { c with reading := false }) ha rfl
  exact (hstop.trans (retain _ a)).trans (uvWrite _ v _)

theorem addInsert (ha : (s.clients a).type = .insert) : SameQueries s (s.addClient a .insert) := by
  have hset := update_insert (f := fun c => { c with type := .insert }) ha ha.symm
  have hhead : Function.update s.clientsHead .insert (a :: s.clientsHead .insert) .query =
      s.clientsHead .query := Function.update_of_ne (by decide) _ _
  refine hset.trans ⟨rfl, fun _ => rfl, fun _ _ => ⟨rfl, rfl, rfl⟩, ?_, ?_, rfl, rfl, rfl, rfl⟩
  · exact fun b hb => hhead ▸ hb
  · exact fun b _ hopen => ⟨hopen, fun hb => hhead.symm ▸ hb⟩

theorem raftApply (s : EventLoop) (v : LoopView) (ctx : ApplyCtx) :
    SameQueries s (s.raftApply v ctx) := by
  have hcall : SameQueries s { s with calls := s.calls + 1 } :=
    ⟨rfl, fun _ => rfl, fun _ _ => ⟨rfl, rfl, rfl⟩, fun _ hb => hb,
    fun _ _ hopen => ⟨hopen, id⟩, rfl, rfl, rfl, rfl⟩
  unfold EventLoop.raftApply
  dsimp only
  split
  · exact ⟨rfl, fun _ => rfl, fun _ _ => ⟨rfl, rfl, rfl⟩, fun _ hb => hb,
    fun _ _ hopen => ⟨hopen, id⟩, rfl, rfl, rfl, rfl⟩
  · exact (hcall.trans (release _ _)).trans (close _ _)

theorem flush (v : LoopView) (ha : (s.clients a).type = .insert) :
    SameQueries s (s.batchBufferFlush v a) := by
  unfold batchBufferFlush
  dsimp only
  split
  · exact touch s a
  · have happly := ((touch s a).trans (retain _ a)).trans (raftApply _ v
      ⟨a, ((s.touch a).clients a).batchedReqCount, alignedEntry ((s.touch a).clients a).batchBuffer⟩)
    exact happly.trans (update_insert (happly.insert_type ha) rfl)

theorem add (v : LoopView) (ha : (s.clients a).type = .insert) (msg : Bytes) :
    SameQueries s (s.addToBatch v a msg) := by
  have hadd := update_insert (f := fun c => { c with
    batchBuffer := c.batchBuffer ++ msg
    batchedReqCount := c.batchedReqCount + 1 }) ha rfl
  unfold addToBatch
  dsimp only
  split
  · exact hadd.trans (flush v (hadd.insert_type ha))
  · exact hadd

theorem processLoop (ha : (s.clients a).type = .insert) (rest : Bytes) :
    SameQueries s (processLoop v a s rest).1 := by
  fun_induction EventLoop.processLoop v a s rest with
  | case1 s rest hshort => exact refl s
  | case2 s rest hlong hsmall => exact close s a
  | case3 s rest hlong hsize hpart => exact refl s
  | case4 s rest hlong hsize hfull hfollower => exact redirect v ha
  | case5 s rest hlong hsize hfull hleader hroom ih =>
    have hadd := add v ha (rest.take (msgSize rest))
    exact hadd.trans (ih (hadd.insert_type ha))
  | case6 s rest hlong hsize hfull hleader hroom => exact close s a

theorem process (v : LoopView) (ha : (s.clients a).type = .insert) :
    SameQueries s (s.processInsertBuffer v a) := by
  have htouch := touch s a
  have hloop := processLoop (v := v) (htouch.insert_type ha) ((s.touch a).clients a).buffer
  unfold processInsertBuffer
  dsimp only
  split
  · split
    · exact htouch
    · exact htouch.trans (update_insert (htouch.insert_type ha) rfl)
  · split
    · rename_i t heq
      rw [heq] at hloop
      exact htouch.trans hloop
    · rename_i t rest heq
      rw [heq] at hloop
      have hloop := htouch.trans hloop
      have hset := update_insert (f := fun c => { c with buffer := rest }) (hloop.insert_type ha) rfl
      split
      · exact (hloop.trans hset).trans (flush v (hset.insert_type (hloop.insert_type ha)))
      · exact hloop.trans hset

theorem clientRead (v : LoopView) (ha : (s.clients a).type = .insert) (chunk : Option Bytes) :
    SameQueries s (s.onClientRead v a chunk) := by
  cases chunk with
  | none =>
    have htouch := touch s a
    have hprocess : SameQueries s (if ((s.touch a).clients a).buffer.length > 0 then
        (s.touch a).processInsertBuffer v a else s.touch a) := by
      split
      · exact htouch.trans (process v (htouch.insert_type ha))
      · exact htouch
    exact (hprocess.trans (flush v (hprocess.insert_type ha))).trans (close _ a)
  | some chunk =>
    cases chunk with
    | nil => exact refl s
    | cons b chunk =>
      have happend := update_insert (f := fun c => { c with buffer := c.buffer ++ b :: chunk }) ha rfl
      unfold onClientRead
      dsimp only
      split
      · exact happend.trans (close _ a)
      · exact happend.trans (process v (happend.insert_type ha))

theorem timerTurn (v : LoopView) (ha : (s.clients a).type = .insert) :
    SameQueries s (statsTimerTurn v s a) := by
  have hflush := flush v ha
  unfold statsTimerTurn
  dsimp only
  split
  · have hresume := update_insert (f := fun c => { c with isPaused := false, reading := true })
      (hflush.insert_type ha) rfl
    exact (hflush.trans hresume).trans (process v (hresume.insert_type (hflush.insert_type ha)))
  · exact hflush

/-- A loop over clients with some property that the turns keep. -/
theorem foldl {P : ClientType → Prop} {f : EventLoop → Nat → EventLoop}
    (hf : ∀ (s : EventLoop) a, P (s.clients a).type → SameQueries s (f s a)) (as : List Nat)
    (has : ∀ a ∈ as, P (s.clients a).type) : SameQueries s (as.foldl f s) := by
  induction as generalizing s with
  | nil => exact refl s
  | cons a as ih =>
    have hturn := hf s a (has a List.mem_cons_self)
    refine hturn.trans (ih fun b hb => ?_)
    rw [hturn.type_eq]
    exact has b (List.mem_cons_of_mem a hb)

theorem applyCb (s : EventLoop) (v : LoopView) (ctx : ApplyCtx) (ok : Bool) :
    SameQueries s (s.serverApplyCb v ctx ok) := by
  have htouch := touch s ctx.client
  unfold serverApplyCb
  dsimp only
  split
  · exact ((htouch.trans (retain _ _)).trans (uvWrite _ v _)).trans (release _ _)
  · exact htouch.trans (release _ _)

theorem writeComplete (s : EventLoop) (wr : AckWrite) (ok : Bool) :
    SameQueries s (s.onWriteComplete wr ok) := by
  unfold onWriteComplete
  dsimp only
  split
  · exact (close s _).trans (release _ _)
  · exact release s _

theorem answer (s : EventLoop) (v : LoopView) (a : Nat) (ok : Bool) (response : Option Bytes) :
    SameQueries s (s.answerQuery v a ok response) := by
  unfold answerQuery
  split
  · split
    · exact (retain _ _).trans (uvWrite _ v _)
    · exact refl _
  · exact refl _

theorem serverClose (s : EventLoop) : SameQueries s s.serverClose := by
  have hturn : ∀ (s : EventLoop) a, True → SameQueries s (s.closeAndFreeClient a) :=
    fun s a _ => close s a
  have hinserts := @foldl s (fun _ => True) _ hturn (s.clientsHead .insert) fun _ _ => trivial
  exact hinserts.trans (@foldl _ (fun _ => True) _ hturn _ fun _ _ => trivial)

end SameQueries

end RaftLsmt.Server.EventLoop
