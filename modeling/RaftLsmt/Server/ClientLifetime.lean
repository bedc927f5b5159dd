import RaftLsmt.Server.EventLoop

/-!
# Lifetime of a client

Every client has one reference for its open handle and one for each entry, write and query that is in
flight for it. `Lives s extra` says that the counts are those of these references and of the list
`extra` of those that the callback at work holds besides. Each function of the event loop keeps it, so
in every run a client is freed exactly once, with its last reference, and no callback looks at a freed
one (`clients_refCounted`).
-/

set_option autoImplicit false

namespace RaftLsmt.Server.EventLoop

open RaftLsmt.Lib.RefCount
open RaftLsmt.Lib.StepMachine
open RaftLsmt.Lsmt

/-- The clients of what is in flight. -/
def inFlight (s : EventLoop) : List Nat :=
  s.applies.map ApplyCtx.client ++ s.writes.map AckWrite.client ++ s.queries.map ClientQuery.client

/-- The references that exist. -/
def refs (s : EventLoop) : List Nat := s.handles ++ s.inFlight

/-- The counts are those of the references and of `extra`, no freed client has been looked at, and the
clients of the lists are open. -/
structure Lives (s : EventLoop) (extra : List Nat) : Prop where
  accounts : s.heap.Accounts (extra ++ s.refs)
  fresh : s.stale = false
  handles_nodup : s.handles.Nodup
  handle_of_open : ∀ a, a < s.heap.allocated → (s.clients a).closing = false → a ∈ s.handles
  listed : ∀ type a, a ∈ s.clientsHead type →
    a ∈ s.handles ∧ (s.clients a).closing = false ∧ (s.clients a).type = type
  head_nodup : ∀ type, (s.clientsHead type).Nodup

/-- The counts of the claim. -/
structure RefCounted (s : EventLoop) : Prop where
  refCount_eq : ∀ a, a < s.heap.allocated →
    s.heap.count a = (if a ∈ s.handles then 1 else 0) + s.inFlight.count a
  handle_of_open : ∀ a, a < s.heap.allocated → (s.clients a).closing = false → a ∈ s.handles
  freed_once : s.heap.freed.Nodup
  freed_iff : ∀ a, a ∈ s.heap.freed ↔
    a < s.heap.allocated ∧ a ∉ s.handles ∧ a ∉ s.inFlight
  fresh : s.stale = false

variable {s : EventLoop} {v : LoopView} {extra : List Nat} {a : Nat}

theorem Lives.refCounted (h : s.Lives []) : s.RefCounted where
  refCount_eq := by
    intro a ha
    rw [h.accounts.count_eq a ha, List.nil_append, refs, List.count_append]
    split
    · rename_i hmem
      rw [List.count_eq_one_of_mem h.handles_nodup hmem]
    · rename_i hmem
      rw [List.count_eq_zero_of_not_mem hmem]
  handle_of_open := h.handle_of_open
  freed_once := h.accounts.freed_nodup
  freed_iff := by
    intro a
    rw [h.accounts.mem_freed, List.nil_append, refs, List.mem_append, not_or]
  fresh := h.fresh

/-! ## Looking at a client that is referenced -/

/-- The client has a handle, or the callback at work holds a reference to it. -/
def Held (s : EventLoop) (extra : List Nat) (a : Nat) : Prop := a ∈ extra ∨ a ∈ s.handles

theorem Held.mem_refs (h : s.Held extra a) : a ∈ extra ++ s.refs := by
  rcases h with h | h
  · exact List.mem_append_left _ h
  · exact List.mem_append_right _ (List.mem_append_left _ h)

theorem Lives.touch_eq (h : s.Lives extra) (ha : s.Held extra a) : s.touch a = s := by
  have hnot : a ∉ s.heap.freed := h.accounts.not_freed ha.mem_refs
  unfold touch
  rw [decide_eq_false hnot, Bool.or_false]

/-- What a function does besides: the handles stay, and a closed client stays closed. -/
structure Keeps (s s' : EventLoop) (extra : List Nat) : Prop where
  lives : s'.Lives extra
  handles_eq : s'.handles = s.handles

theorem Keeps.held {s' : EventLoop} (h : s.Keeps s' extra) (ha : s.Held extra a) :
    s'.Held extra a := by
  unfold Held
  rw [h.handles_eq]
  exact ha

theorem Keeps.trans {s' s'' : EventLoop} (h : s.Keeps s' extra) (h' : s'.Keeps s'' extra) :
    s.Keeps s'' extra :=
  ⟨h'.lives, h'.handles_eq.trans h.handles_eq⟩

theorem Lives.keeps (h : s.Lives extra) : s.Keeps s extra := ⟨h, rfl⟩

theorem Lives.touch (h : s.Lives extra) (ha : s.Held extra a) : s.Keeps (s.touch a) extra := by
  rw [h.touch_eq ha]
  exact h.keeps

/-- A write to a client that neither closes it nor changes its type. -/
theorem Lives.update (h : s.Lives extra) (ha : s.Held extra a) {f : Client → Client}
    (hclosing : (f (s.clients a)).closing = (s.clients a).closing)
    (htype : (f (s.clients a)).type = (s.clients a).type) : s.Keeps (s.update a f) extra := by
  have hclient : ∀ b, ((s.update a f).clients b).closing = (s.clients b).closing ∧
      ((s.update a f).clients b).type = (s.clients b).type := by
    intro b
    show (Function.update s.clients a _ b).closing = _ ∧ (Function.update s.clients a _ b).type = _
    by_cases hb : b = a
    · subst hb
      rw [Function.update_self]
      exact ⟨hclosing, htype⟩
    · rw [Function.update_of_ne hb]
      exact ⟨rfl, rfl⟩
  refine ⟨⟨h.accounts, ?_, h.handles_nodup, ?_, ?_, h.head_nodup⟩, rfl⟩
  · show (s.touch a).stale = false
    rw [h.touch_eq ha]
    exact h.fresh
  · intro b hb hopen
    rw [(hclient b).1] at hopen
    exact h.handle_of_open b hb hopen
  · intro type b hb
    rw [(hclient b).1, (hclient b).2]
    exact h.listed type b hb

/-- Another call of a component outside. -/
theorem Lives.call (h : s.Lives extra) (n : Nat) : s.Keeps { s with calls := n } extra :=
  ⟨⟨h.accounts, h.fresh, h.handles_nodup, h.handle_of_open, h.listed, h.head_nodup⟩, rfl⟩

theorem Lives.perm (h : s.Lives extra) {extra' : List Nat} (hperm : extra.Perm extra') :
    s.Lives extra' :=
  ⟨h.accounts.perm (hperm.append_right _), h.fresh, h.handles_nodup, h.handle_of_open, h.listed,
    h.head_nodup⟩

/-- `client_retain` for a reference of the callback at work. -/
theorem Lives.retain (h : s.Lives extra) (ha : s.Held extra a) :
    (s.clientRetain a).Lives (a :: extra) where
  accounts := h.accounts.retain ha.mem_refs
  fresh := by
    show (s.touch a).stale = false
    rw [h.touch_eq ha]
    exact h.fresh
  handles_nodup := h.handles_nodup
  handle_of_open := h.handle_of_open
  listed := h.listed
  head_nodup := h.head_nodup

theorem Lives.release (h : s.Lives (a :: extra)) : s.Keeps (s.clientRelease a) extra := by
  refine ⟨⟨h.accounts.release, ?_, h.handles_nodup, h.handle_of_open, h.listed, h.head_nodup⟩, rfl⟩
  show (s.touch a).stale = false
  rw [h.touch_eq (Or.inl List.mem_cons_self)]
  exact h.fresh

/-- A client that is closed leaves its list. -/
theorem closeAndFreeClient_of_open (h : s.Lives extra) (ha : s.Held extra a)
    (hopen : (s.clients a).closing = false) :
    s.closeAndFreeClient a =
      { s with
        clients := Function.update s.clients a { s.clients a with closing := true }
        clientsHead := Function.update s.clientsHead (s.clients a).type
          ((s.clientsHead (s.clients a).type).erase a) } := by
  have hclosing : ¬ (s.clients a).closing = true := by
    rw [hopen]
    exact Bool.false_ne_true
  unfold closeAndFreeClient
  rw [h.touch_eq ha]
  dsimp only
  rw [if_neg hclosing]
  unfold removeClient update
  rw [h.touch_eq ha]
  have hnot : a ∉ s.heap.freed := h.accounts.not_freed ha.mem_refs
  simp only [touch, decide_eq_false hnot, Bool.or_false, Function.update_self]

/-- `close_and_free_client`. -/
theorem Lives.close (h : s.Lives extra) (ha : s.Held extra a) :
    s.Keeps (s.closeAndFreeClient a) extra := by
  cases hopen : (s.clients a).closing with
  -- it has been closed before
  | true =>
    unfold closeAndFreeClient
    rw [h.touch_eq ha]
    dsimp only
    rw [if_pos hopen]
    exact h.keeps
  | false =>
    rw [closeAndFreeClient_of_open h ha hopen]
    have hother : ∀ b, b ≠ a → Function.update s.clients a { s.clients a with closing := true } b =
        s.clients b := fun b hb => Function.update_of_ne hb _ _
    refine ⟨⟨h.accounts, h.fresh, h.handles_nodup, ?_, ?_, ?_⟩, rfl⟩
    · -- the open clients are those of before but this one
      intro b hb hbopen
      dsimp only at hbopen
      by_cases hba : b = a
      · subst hba
        rw [Function.update_self] at hbopen
        cases hbopen
      · rw [hother b hba] at hbopen
        exact h.handle_of_open b hb hbopen
    · -- it leaves the list of its type
      intro type b hb
      dsimp only at hb ⊢
      have hne : b ≠ a ∧ b ∈ s.clientsHead type := by
        by_cases htype : type = (s.clients a).type
        · subst htype
          rw [Function.update_self] at hb
          exact (h.head_nodup _).mem_erase_iff.mp hb
        · rw [Function.update_of_ne htype] at hb
          refine ⟨?_, hb⟩
          rintro rfl
          exact htype (h.listed type b hb).2.2.symm
      rw [hother b hne.1]
      exact h.listed type b hne.2
    · intro type
      dsimp only
      by_cases htype : type = (s.clients a).type
      · subst htype
        rw [Function.update_self]
        exact (h.head_nodup _).erase a
      · rw [Function.update_of_ne htype]
        exact h.head_nodup type

/-- `uv_write` takes the reference that has been made for it, or gives it back and closes. -/
theorem Lives.uvWrite {wr : AckWrite} (h : s.Lives (wr.client :: extra))
    (ha : s.Held extra wr.client) : s.Keeps (s.uvWrite v wr) extra := by
  unfold EventLoop.uvWrite
  dsimp only
  split
  · refine ⟨⟨?_, h.fresh, h.handles_nodup, h.handle_of_open, h.listed, h.head_nodup⟩, rfl⟩
    refine h.accounts.perm ?_
    unfold refs inFlight
    simp only [List.map_append, List.map_cons, List.map_nil]
    refine List.perm_iff_count.mpr fun b => ?_
    simp only [List.count_append, List.count_cons, List.count_nil]
    omega
  · have hrelease := (h.call (s.calls + 1)).lives.release
    have hclose := hrelease.lives.close (hrelease.held ha)
    exact ⟨hclose.lives, hclose.handles_eq⟩

/-- A reference for a write. -/
theorem Lives.retain_uvWrite (h : s.Lives extra) (ha : s.Held extra a) (buf : Bytes)
    (cb : WriteCb) : s.Keeps ((s.clientRetain a).uvWrite v ⟨a, buf, cb⟩) extra := by
  have hwrite := @Lives.uvWrite _ v extra ⟨a, buf, cb⟩ (h.retain ha) ha
  exact ⟨hwrite.lives, hwrite.handles_eq⟩

theorem Lives.redirect (h : s.Lives extra) (ha : s.Held extra a) :
    s.Keeps (s.redirectToLeaderAndClose v a) extra := by
  have hstop := h.update ha (f := fun c => { c with reading := false }) rfl rfl
  exact hstop.trans (hstop.lives.retain_uvWrite (hstop.held ha) _ _)

/-! ## The insert port -/

theorem Lives.retain_raftApply (h : s.Lives extra) (ha : s.Held extra a) (reqCount : Nat)
    (entry : Bytes) : s.Keeps ((s.clientRetain a).raftApply v ⟨a, reqCount, entry⟩) extra := by
  have hretain := h.retain ha
  unfold raftApply
  dsimp only
  split
  · refine ⟨⟨?_, hretain.fresh, h.handles_nodup, h.handle_of_open, h.listed, h.head_nodup⟩, rfl⟩
    refine hretain.accounts.perm ?_
    unfold refs inFlight
    simp only [List.map_append, List.map_cons, List.map_nil]
    refine List.perm_iff_count.mpr fun b => ?_
    simp only [clientRetain, EventLoop.touch, List.count_append, List.count_cons, List.count_nil]
    omega
  · have hrelease := (hretain.call (s.calls + 1)).lives.release
    have hclose := hrelease.lives.close (hrelease.held ha)
    exact ⟨hclose.lives, hclose.handles_eq⟩

theorem Lives.flush (h : s.Lives extra) (ha : s.Held extra a) :
    s.Keeps (s.batchBufferFlush v a) extra := by
  unfold batchBufferFlush
  rw [h.touch_eq ha]
  dsimp only
  split
  · exact h.keeps
  · have happly := h.retain_raftApply (v := v) ha (s.clients a).batchedReqCount
      (alignedEntry (s.clients a).batchBuffer)
    exact happly.trans (happly.lives.update (happly.held ha) rfl rfl)

theorem Lives.add (h : s.Lives extra) (ha : s.Held extra a) (msg : Bytes) :
    s.Keeps (s.addToBatch v a msg) extra := by
  have hadd := h.update ha (f := fun c => { c with
    batchBuffer := c.batchBuffer ++ msg
    batchedReqCount := c.batchedReqCount + 1 }) rfl rfl
  unfold addToBatch
  dsimp only
  split
  · exact hadd.trans (hadd.lives.flush (hadd.held ha))
  · exact hadd

theorem Lives.processLoop (h : s.Lives extra) (ha : s.Held extra a) (rest : Bytes) :
    s.Keeps (processLoop v a s rest).1 extra := by
  fun_induction EventLoop.processLoop v a s rest with
  | case1 s rest hshort => exact h.keeps
  | case2 s rest hlong hsmall => exact h.close ha
  | case3 s rest hlong hsize hpart => exact h.keeps
  | case4 s rest hlong hsize hfull hfollower => exact h.redirect ha
  | case5 s rest hlong hsize hfull hleader hroom ih =>
    have hadd := h.add (v := v) ha (rest.take (msgSize rest))
    exact hadd.trans (ih hadd.lives (hadd.held ha))
  | case6 s rest hlong hsize hfull hleader hroom => exact h.close ha

theorem Lives.process (h : s.Lives extra) (ha : s.Held extra a) :
    s.Keeps (s.processInsertBuffer v a) extra := by
  unfold processInsertBuffer
  rw [h.touch_eq ha]
  dsimp only
  split
  · split
    · exact h.keeps
    · exact h.update ha rfl rfl
  · have hloop := h.processLoop (v := v) ha (s.clients a).buffer
    split
    · rename_i t heq
      rw [heq] at hloop
      exact hloop
    · rename_i t rest heq
      rw [heq] at hloop
      have hset := hloop.lives.update (hloop.held ha) (f := fun c => { c with buffer := rest }) rfl rfl
      split
      · exact (hloop.trans hset).trans (hset.lives.flush (hset.held (hloop.held ha)))
      · exact hloop.trans hset

theorem Lives.clientRead (h : s.Lives extra) (ha : s.Held extra a) (chunk : Option Bytes) :
    s.Keeps (s.onClientRead v a chunk) extra := by
  cases chunk with
  | none =>
    unfold onClientRead
    rw [h.touch_eq ha]
    dsimp only
    have hprocess : s.Keeps (if (s.clients a).buffer.length > 0 then s.processInsertBuffer v a else s)
        extra := by
      split
      · exact h.process ha
      · exact h.keeps
    have hflush := hprocess.lives.flush (v := v) (hprocess.held ha)
    have hheld := hflush.held (hprocess.held ha)
    exact (hprocess.trans hflush).trans (hflush.lives.close hheld)
  | some chunk =>
    cases chunk with
    | nil => exact h.keeps
    | cons b chunk =>
      have happend := h.update ha (f := fun c => { c with buffer := c.buffer ++ b :: chunk }) rfl rfl
      unfold onClientRead
      dsimp only
      split
      · exact happend.trans (happend.lives.close (happend.held ha))
      · exact happend.trans (happend.lives.process (happend.held ha))

theorem Lives.timerTurn (h : s.Lives extra) (ha : s.Held extra a) :
    s.Keeps (statsTimerTurn v s a) extra := by
  have hflush := h.flush (v := v) ha
  unfold statsTimerTurn
  dsimp only
  split
  · have hresume := hflush.lives.update (hflush.held ha)
      (f := fun c => { c with isPaused := false, reading := true }) rfl rfl
    have hheld := hresume.held (hflush.held ha)
    exact (hflush.trans hresume).trans (hresume.lives.process hheld)
  · exact hflush

/-- A loop over clients with handles. -/
theorem Lives.foldl {f : EventLoop → Nat → EventLoop}
    (hf : ∀ (s : EventLoop) a, s.Lives extra → s.Held extra a → s.Keeps (f s a) extra) (h : s.Lives extra)
    (as : List Nat) (has : ∀ a ∈ as, s.Held extra a) : s.Keeps (as.foldl f s) extra := by
  induction as generalizing s with
  | nil => exact h.keeps
  | cons a as ih =>
    have hturn := hf s a h (has a List.mem_cons_self)
    exact hturn.trans (ih hturn.lives fun b hb => hturn.held (has b (List.mem_cons_of_mem a hb)))

theorem Lives.held_of_listed (h : s.Lives extra) {type : ClientType} (ha : a ∈ s.clientsHead type) :
    s.Held extra a := Or.inr (h.listed type a ha).1

theorem Lives.applyCb {ctx : ApplyCtx} (h : s.Lives (ctx.client :: extra)) (ok : Bool) :
    s.Keeps (s.serverApplyCb v ctx ok) extra := by
  have ha : s.Held (ctx.client :: extra) ctx.client := Or.inl List.mem_cons_self
  unfold serverApplyCb
  rw [h.touch_eq ha]
  dsimp only
  have hack : s.Keeps (if ok = true ∧ (s.clients ctx.client).closing = false then
      (s.clientRetain ctx.client).uvWrite v
        ⟨ctx.client, List.replicate (min ctx.reqCount batchSize) 1, .ack⟩ else s)
      (ctx.client :: extra) := by
    split
    · exact h.retain_uvWrite ha _ _
    · exact h.keeps
  have hrelease := hack.lives.release
  exact ⟨hrelease.lives, hrelease.handles_eq.trans hack.handles_eq⟩

/-! ## The query port -/

/-- The count of the queries. -/
theorem Lives.active (h : s.Lives extra) (n : Int) :
    s.Keeps { s with activeQueriesCount := n } extra :=
  ⟨⟨h.accounts, h.fresh, h.handles_nodup, h.handle_of_open, h.listed, h.head_nodup⟩, rfl⟩

theorem Lives.queueWork {query : ClientQuery} (h : s.Lives (query.client :: extra)) :
    s.Keeps (s.uvQueueWork v query) extra := by
  unfold uvQueueWork
  dsimp only
  split
  · refine ⟨⟨?_, h.fresh, h.handles_nodup, h.handle_of_open, h.listed, h.head_nodup⟩, rfl⟩
    refine h.accounts.perm ?_
    unfold refs inFlight
    simp only [List.map_append, List.map_cons, List.map_nil]
    refine List.perm_iff_count.mpr fun b => ?_
    simp only [List.count_append, List.count_cons, List.count_nil]
    omega
  · have hactive := (h.call (s.calls + 1)).lives.active (s.activeQueriesCount - 1)
    exact ⟨hactive.lives.release.lives, rfl⟩

theorem Lives.dispatchLoop (h : s.Lives extra) (ha : s.Held extra a) (rest : Bytes) :
    s.Keeps (dispatchLoop v a s rest).1 extra := by
  fun_induction EventLoop.dispatchLoop v a s rest with
  | case1 s rest hshort => exact h.keeps
  | case2 s rest hlong hfull hpaused => exact h.keeps
  | case3 s rest hlong hfull hpaused =>
    exact h.update ha (f := fun c => { c with reading := false, isPaused := true }) rfl rfl
  | case4 s rest hlong hroom retained counted ih =>
    have hcounted := (h.retain ha).active (s.activeQueriesCount + 1)
    have hqueue := @Lives.queueWork _ v extra ⟨a, queryTask rest (v.uvHrtime counted.calls)⟩
      hcounted.lives
    have hturn : s.Keeps (counted.uvQueueWork v ⟨a, queryTask rest (v.uvHrtime counted.calls)⟩) extra :=
      ⟨hqueue.lives, hqueue.handles_eq⟩
    exact hturn.trans (ih hturn.lives (hturn.held ha))

theorem Lives.dispatch (h : s.Lives extra) (ha : s.Held extra a) :
    s.Keeps (s.dispatchQueries v a) extra := by
  have hloop := h.dispatchLoop (v := v) ha (s.clients a).buffer
  unfold dispatchQueries
  rw [h.touch_eq ha]
  dsimp only
  have hset := hloop.lives.update (hloop.held ha)
    (f := fun c => { c with buffer := (EventLoop.dispatchLoop v a s (s.clients a).buffer).2 }) rfl rfl
  exact hloop.trans hset

theorem Lives.clientQuery (h : s.Lives extra) (ha : s.Held extra a) (chunk : Option Bytes) :
    s.Keeps (s.onClientQuery v a chunk) extra := by
  cases chunk with
  | none => exact h.close ha
  | some chunk =>
    cases chunk with
    | nil => exact h.keeps
    | cons b chunk =>
      let t : EventLoop :=
        { s with received := Function.update s.received a (s.received a ++ b :: chunk) }
      have ht : t.Lives extra :=
        ⟨h.accounts, h.fresh, h.handles_nodup, h.handle_of_open, h.listed, h.head_nodup⟩
      have happend := ht.update (a := a) ha (f := fun c => { c with buffer := c.buffer ++ b :: chunk })
        rfl rfl
      have hdispatch := happend.lives.dispatch (v := v) (happend.held ha)
      exact ⟨hdispatch.lives, hdispatch.handles_eq.trans happend.handles_eq⟩

theorem Lives.resume (h : s.Lives extra) (as : List Nat) (has : ∀ a ∈ as, s.Held extra a) :
    s.Keeps (resumeLoop v as s) extra := by
  induction as generalizing s with
  | nil => exact h.keeps
  | cons a as ih =>
    have ha := has a List.mem_cons_self
    have hrest : ∀ t, s.Keeps t extra → ∀ b ∈ as, t.Held extra b :=
      fun t ht b hb => ht.held (has b (List.mem_cons_of_mem a hb))
    unfold resumeLoop
    rw [h.touch_eq ha]
    dsimp only
    split
    · have hresume := h.update ha (f := fun c => { c with isPaused := false, reading := true }) rfl rfl
      have hturn := hresume.trans (hresume.lives.dispatch (v := v) (hresume.held ha))
      split
      · exact hturn
      · exact hturn.trans (ih hturn.lives (hrest _ hturn))
    · exact ih h (hrest s h.keeps)

theorem Lives.answer (h : s.Lives extra) (ha : s.Held extra a) (ok : Bool)
    (response : Option Bytes) : s.Keeps (s.answerQuery v a ok response) extra := by
  unfold answerQuery
  split
  · split
    · exact h.retain_uvWrite ha _ _
    · exact h.keeps
  · exact h.keeps

theorem Lives.resumeQueries (h : s.Lives extra) : s.Keeps (s.resumeQueries v) extra := by
  unfold EventLoop.resumeQueries
  split
  · exact h.resume _ fun b hb => h.held_of_listed hb
  · exact h.keeps

theorem Lives.queryCb {query : ClientQuery} (h : s.Lives (query.client :: extra)) (ok : Bool)
    (response : Option Bytes) : s.Keeps (s.afterQueryCb v query ok response) extra := by
  have ha : s.Held (query.client :: extra) query.client := Or.inl List.mem_cons_self
  unfold afterQueryCb
  rw [h.touch_eq ha]
  have hanswer := h.answer (v := v) ha ok response
  have hcount := hanswer.lives.active
    ((s.answerQuery v query.client ok response).activeQueriesCount - 1)
  have hresume := hcount.lives.resumeQueries (v := v)
  have hrelease := hresume.lives.release
  exact ⟨hrelease.lives, (hrelease.handles_eq.trans hresume.handles_eq).trans hanswer.handles_eq⟩

/-! ## Connections -/

theorem Lives.newClient (h : s.Lives extra) (type : ClientType) :
    (s.newClient type).Lives extra where
  accounts := h.accounts.alloc.perm List.perm_middle.symm
  fresh := h.fresh
  handles_nodup := by
    refine List.nodup_cons.mpr ⟨?_, h.handles_nodup⟩
    intro hmem
    exact Nat.lt_irrefl _ (h.accounts.lt_allocated _ (List.mem_append_right _
      (List.mem_append_left _ hmem)))
  handle_of_open := by
    intro a ha hopen
    by_cases hnew : a = s.heap.allocated
    · rw [hnew]
      exact List.mem_cons_self
    · have hlt : a < s.heap.allocated + 1 := ha
      have hopen : (Function.update s.clients s.heap.allocated (Client.new type) a).closing = false :=
        hopen
      rw [Function.update_of_ne hnew] at hopen
      exact List.mem_cons_of_mem _ (h.handle_of_open a (by omega) hopen)
  listed := by
    intro type' a ha
    obtain ⟨hmem, hrest⟩ := h.listed type' a ha
    have hne : a ≠ s.heap.allocated := Nat.ne_of_lt (h.accounts.lt_allocated _
      (List.mem_append_right _ (List.mem_append_left _ hmem)))
    refine ⟨List.mem_cons_of_mem _ hmem, ?_⟩
    show (Function.update s.clients s.heap.allocated (Client.new type) a).closing = false ∧ _
    rw [show (s.newClient type).clients a = s.clients a from Function.update_of_ne hne _ _,
      Function.update_of_ne hne]
    exact hrest
  head_nodup := h.head_nodup

/-- A new client has a handle. -/
theorem held_newClient (s : EventLoop) (type : ClientType) (extra : List Nat) :
    (s.newClient type).Held extra s.heap.allocated := Or.inr List.mem_cons_self

/-- `add_client` for a client that is open and in no list. -/
theorem Lives.addClient (h : s.Lives extra) (ha : a ∈ s.handles)
    (hopen : (s.clients a).closing = false) (hnew : ∀ type, a ∉ s.clientsHead type)
    {type : ClientType} (htype : (s.clients a).type = type) :
    (s.addClient a type).Lives extra := by
  obtain ⟨hset, -⟩ := h.update (a := a) (Or.inr ha) (f := fun c => { c with type := type }) rfl
    htype.symm
  refine ⟨hset.accounts, hset.fresh, hset.handles_nodup, hset.handle_of_open, ?_, ?_⟩
  · intro type' b hb
    have hb : b ∈ Function.update s.clientsHead type (a :: s.clientsHead type) type' := hb
    have hmem : b = a ∧ type' = type ∨ b ∈ s.clientsHead type' := by
      by_cases htt : type' = type
      · rw [htt, Function.update_self] at hb
        rcases List.mem_cons.mp hb with rfl | hb
        · exact Or.inl ⟨rfl, htt⟩
        · exact Or.inr (htt ▸ hb)
      · rw [Function.update_of_ne htt] at hb
        exact Or.inr hb
    rcases hmem with ⟨rfl, rfl⟩ | hmem
    · refine ⟨ha, ?_⟩
      show (Function.update s.clients b _ b).closing = false ∧ (Function.update s.clients b _ b).type = _
      rw [Function.update_self]
      exact ⟨hopen, rfl⟩
    · exact hset.listed type' b hmem
  · intro type'
    show (Function.update s.clientsHead type (a :: s.clientsHead type) type').Nodup
    by_cases htt : type' = type
    · subst htt
      rw [Function.update_self]
      exact List.nodup_cons.mpr ⟨hnew _, h.head_nodup _⟩
    · rw [Function.update_of_ne htt]
      exact h.head_nodup type'

/-- A new client goes into its list and is read from. -/
theorem Lives.connect (h : s.Lives extra) (type : ClientType) :
    (((s.newClient type).addClient s.heap.allocated type).update s.heap.allocated
      fun c => { c with reading := true }).Lives extra := by
  have hnew : (s.newClient type).Lives extra := h.newClient type
  have hclient : (s.newClient type).clients s.heap.allocated = Client.new type :=
    Function.update_self _ _ _
  have hfresh : ∀ type', s.heap.allocated ∉ s.clientsHead type' := fun type' hmem =>
    Nat.lt_irrefl _ (h.accounts.lt_allocated _ (h.held_of_listed hmem).mem_refs)
  have hopen : ((s.newClient type).clients s.heap.allocated).closing = false := by rw [hclient]; rfl
  have htype : ((s.newClient type).clients s.heap.allocated).type = type := by rw [hclient]; rfl
  have hadd := hnew.addClient List.mem_cons_self hopen hfresh htype
  exact (hadd.update (Or.inr List.mem_cons_self) rfl rfl).lives

theorem Lives.insertConnection (h : s.Lives extra) (accept : Accept) :
    (s.onInsertConnection v accept).Lives extra := by
  have hnew := h.newClient .insert
  have ha := s.held_newClient .insert extra
  cases accept with
  | error => exact h
  | refused => exact (hnew.close ha).lives
  | accepted =>
    unfold onInsertConnection
    dsimp only
    split
    · exact (hnew.redirect ha).lives
    · exact h.connect .insert

theorem Lives.readConnection (h : s.Lives extra) (accept : Accept) :
    (s.onReadConnection v accept).Lives extra := by
  have hnew := h.newClient .query
  have ha := s.held_newClient .query extra
  cases accept with
  | error => exact h
  | refused => exact (hnew.close ha).lives
  | accepted =>
    unfold onReadConnection
    dsimp only
    split
    · exact (hnew.close ha).lives
    · exact h.connect .query

theorem Lives.writeComplete {wr : AckWrite} (h : s.Lives (wr.client :: extra)) (ok : Bool) :
    s.Keeps (s.onWriteComplete wr ok) extra := by
  have ha : s.Held (wr.client :: extra) wr.client := Or.inl List.mem_cons_self
  unfold onWriteComplete
  dsimp only
  have hclose : s.Keeps (if wr.cb = .redirect ∨ ok = false then s.closeAndFreeClient wr.client else s)
      (wr.client :: extra) := by
    split
    · exact h.close ha
    · exact h.keeps
  have hrelease := hclose.lives.release
  exact ⟨hrelease.lives, hrelease.handles_eq.trans hclose.handles_eq⟩

/-- The reference of the handle goes. -/
theorem Lives.clientClose (h : s.Lives extra) (ha : a ∈ s.handles)
    (hclosing : (s.clients a).closing = true) : (s.onClientClose a).Lives extra := by
  have hne : ∀ b, (s.clients b).closing = false → b ≠ a := by
    rintro b hopen rfl
    rw [hopen] at hclosing
    cases hclosing
  have hperm : (extra ++ s.refs).Perm (a :: extra ++ (s.handles.erase a ++ s.inFlight)) := by
    refine List.Perm.trans ?_ List.perm_middle
    exact ((List.perm_cons_erase ha).append_right _).append_left _
  have herased : Lives { s with handles := s.handles.erase a } (a :: extra) := by
    refine ⟨h.accounts.perm hperm, h.fresh, h.handles_nodup.erase a, ?_, ?_, h.head_nodup⟩
    · intro b hb hopen
      exact (List.mem_erase_of_ne (hne b hopen)).mpr (h.handle_of_open b hb hopen)
    · intro type b hb
      obtain ⟨hmem, hopen, htype⟩ := h.listed type b hb
      exact ⟨(List.mem_erase_of_ne (hne b hopen)).mpr hmem, hopen, htype⟩
  exact herased.release.lives

theorem Lives.serverClose (h : s.Lives extra) : s.serverClose.Lives extra := by
  have hturn : ∀ (s : EventLoop) a, s.Lives extra → s.Held extra a →
      s.Keeps (s.closeAndFreeClient a) extra := fun s a h ha => h.close ha
  unfold EventLoop.serverClose
  dsimp only
  have hinserts := h.foldl hturn (s.clientsHead .insert) fun b hb => h.held_of_listed hb
  exact (hinserts.lives.foldl hturn _ fun b hb => hinserts.lives.held_of_listed hb).lives

/-! ## Runs -/

/-- The clients of a list and of what is left when one element is taken from it. -/
theorem count_map_eraseIdx {α : Type} {xs : List α} {i : Nat} {x : α} (h : xs[i]? = some x)
    (client : α → Nat) (b : Nat) :
    (xs.map client).count b = (client x :: (xs.eraseIdx i).map client).count b := by
  obtain ⟨hi, rfl⟩ := List.getElem?_eq_some_iff.mp h
  exact ((List.getElem_cons_eraseIdx_perm hi).map client).symm.count_eq b

/-- A finished query gives its reference to the callback. -/
theorem Lives.takeQuery (h : s.Lives []) {i : Nat} {query : ClientQuery}
    (hi : s.queries[i]? = some query) :
    Lives { s with queries := s.queries.eraseIdx i } [query.client] := by
  refine ⟨h.accounts.perm (List.perm_iff_count.mpr fun b => ?_), h.fresh, h.handles_nodup,
    h.handle_of_open, h.listed, h.head_nodup⟩
  have hcount := count_map_eraseIdx hi ClientQuery.client b
  simp only [refs, inFlight, List.count_append, List.count_cons, List.count_nil] at hcount ⊢
  omega

/-- Each callback keeps the counts. -/
theorem Lives.step {s' : EventLoop} {e : Event} (h : s.Lives []) (hstep : s.step e = some s') :
    s'.Lives [] := by
  cases step_cases hstep with
  | insertConnection v accept => exact h.insertConnection accept
  | readConnection v accept => exact h.readConnection accept
  | clientRead v a chunk hhandle => exact (h.clientRead (Or.inr hhandle) chunk).lives
  | clientQuery v a chunk hhandle => exact (h.clientQuery (Or.inr hhandle) chunk).lives
  | statsTimer v =>
    exact (h.foldl (fun s a h ha => h.timerTurn ha) _ fun b hb => h.held_of_listed hb).lives
  | applied v i ok ctx hctx =>
    -- the reference of the entry becomes that of the callback
    have htaken : Lives { s with applies := s.applies.eraseIdx i } [ctx.client] := by
      refine ⟨h.accounts.perm (List.perm_iff_count.mpr fun b => ?_), h.fresh, h.handles_nodup,
        h.handle_of_open, h.listed, h.head_nodup⟩
      have hcount := count_map_eraseIdx hctx ApplyCtx.client b
      simp only [refs, inFlight, List.count_append, List.count_cons, List.count_nil] at hcount ⊢
      omega
    exact (htaken.applyCb ok).lives
  | written i ok wr hwr =>
    have htaken : Lives { s with writes := s.writes.eraseIdx i } [wr.client] := by
      refine ⟨h.accounts.perm (List.perm_iff_count.mpr fun b => ?_), h.fresh, h.handles_nodup,
        h.handle_of_open, h.listed, h.head_nodup⟩
      have hcount := count_map_eraseIdx hwr AckWrite.client b
      simp only [refs, inFlight, List.count_append, List.count_cons, List.count_nil] at hcount ⊢
      omega
    exact (htaken.writeComplete ok).lives
  | queryDone v i ok response query hquery =>
    exact ((h.takeQuery hquery).queryCb ok response).lives
  | closed a hhandle hclosing => exact h.clientClose hhandle hclosing
  | shutdown => exact h.serverClose

theorem lives_init : init.Lives [] where
  accounts := RefHeap.accounts_empty
  fresh := rfl
  handles_nodup := List.nodup_nil
  handle_of_open := fun a ha => absurd ha (Nat.not_lt_zero a)
  listed := fun type a ha => by cases ha
  head_nodup := fun _ => List.nodup_nil

/-- In every run of callbacks the counts are those of the references, a client is freed once and with
its last reference, and no callback looks at a freed client. -/
theorem clients_refCounted (es : List Event) : Always EventLoop.step RefCounted init es := by
  have hlives : Always EventLoop.step (fun s => s.Lives []) init es :=
    always_of_eachStep lives_init fun pre e post s _ _ s' h hstep => h.step hstep
  exact fun pre post s hes hs => (hlives pre post s hes hs).refCounted

end RaftLsmt.Server.EventLoop
