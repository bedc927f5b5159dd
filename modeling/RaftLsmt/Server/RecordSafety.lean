import RaftLsmt.Lsmt.StoreInvariant
import RaftLsmt.Server.FsmApply
import RaftLsmt.Server.Query

/-!
# Two lengths of one record

A message carries the length of its content twice: the size word in front of the key, which
`FsmApply` checks, and the length word inside the value, which the flush, the scan and the query
response rely on. Nothing compares the two.

`World.RecordsSafe` says that every stored content agrees with its inner length word, and that
therefore no flush, no scan and no query reads behind it or writes behind the response buffer.
`recordsSafe_iff` says in which runs that always holds: in those in which every message that
`FsmApply` passes on either is refused by the store or has two lengths that agree.
-/

set_option autoImplicit false

namespace RaftLsmt.Server

open RaftLsmt.Lib.ByteCodec
open RaftLsmt.Lib.StepMachine
open RaftLsmt.Lib.SortedMerge
open RaftLsmt.Lsmt

/-- The value of the message has a type byte and a length word, and ends where that word says. -/
structure LengthsAgree (msg : Bytes) : Prop where
  header_le : 25 ≤ msg.length
  length_eq : msg.length = 25 + leNat ((msg.drop 21).take 4)

theorem selfConsistent_recordValue_iff {msg : Bytes} (h : MsgOk msg) :
    SelfConsistent (recordValue msg) ↔ LengthsAgree msg := by
  have hvalue : msg.length ≤ 20 + 255 := h.value_le
  have hlen : (recordValue msg).length = msg.length - 20 := List.length_drop
  have hcontent : contentLen (recordValue msg) = leNat ((msg.drop 21).take 4) := by
    rw [contentLen, recordValue, List.drop_drop]
    rfl
  rw [SelfConsistent, Encoded, hlen, hcontent]
  constructor
  · rintro ⟨⟨hfive, heq⟩, -⟩
    exact ⟨by omega, by omega⟩
  · rintro ⟨hhead, heq⟩
    exact ⟨⟨by omega, by omega⟩, by omega⟩

/-! ## Runs that apply a log -/

/-- The merges of the run can read their inputs. -/
def Action.MergesRead : Action → Prop
  | .compact faults => ∀ f ∈ faults, f = IoFaults.none
  | _ => True

/-- A run of the store in which `FsmApply` has been called for the entries of this log, the last of
them possibly still at work: the calls of `lsmt_insert` are those it makes (`fsmApply_db`), in that
order, and the other threads of the store do anything in between. -/
structure AppliesLog (log : List Bytes) (as : List Action) (w : World) : Prop where
  reached : run World.step (World.init lsmtInit) as = some w
  reads : ∀ a ∈ as, Action.MergesRead a
  calls : insertedNodes as <+: log.flatMap entryCalls

/-- A memtable after the insertion of these messages. -/
def insertMsgs (sl : Sl) (msgs : List Bytes) : Sl :=
  msgs.foldl (fun sl msg => (slInsert sl (recordKey msg) (recordValue msg)).1) sl

/-- What an iterator sees of the memtable `sl` it has captured: between any two looks, any number of
messages whose lengths agree have been inserted. -/
structure Growing (sl : Sl) (memtables : Nat → Sl) : Prop where
  first : ∃ msgs, (∀ msg ∈ msgs, MsgOk msg ∧ LengthsAgree msg) ∧ memtables 0 = insertMsgs sl msgs
  later : ∀ k, ∃ msgs, (∀ msg ∈ msgs, MsgOk msg ∧ LengthsAgree msg) ∧
    memtables (k + 1) = insertMsgs (memtables k) msgs

/-- Every stored content ends where its length word says; flushes and scans copy only stored bytes;
and the response to every query, whatever is inserted meanwhile, is finished and fits its buffer. -/
structure RecordsSafe (w : World) : Prop where
  consistent : ∀ m ∈ w.lsmt.memtable :: w.lsmt.immutables, ∀ n ∈ m.bottomLevel, SelfConsistent n.2
  flushes : ∀ m ∈ w.lsmt.memtable :: w.lsmt.immutables, memtableToDisk m ≠ .undefined
  scans : ∀ startKey endKey, lsmtScan w.lsmt startKey endKey ≠ none
  answers : ∀ memtables clock task, Growing w.lsmt.memtable memtables →
    ∃ response, backgroundQueryCb w.lsmt memtables clock task = some response ∧
      response.length ≤ maxBufferCap

/-- The step passes no message of the log to `lsmt_insert` that the store takes although its lengths
disagree. -/
def TakesNoMismatch (log : List Bytes) (w : World) (a : Action) : Prop :=
  ∀ msg ∈ log.flatMap entryMsgs, a = .insert (recordKey msg) (recordValue msg) →
    w.lsmt.Refuses (recordKey msg) ∨ LengthsAgree msg

section Log

variable {log : List Bytes}

theorem mem_calls_iff {node : SlUint128 × Bytes} :
    node ∈ log.flatMap entryCalls ↔ ∃ msg ∈ log.flatMap entryMsgs, recordOf msg = node := by
  simp only [List.mem_flatMap, entryCalls, List.mem_map]
  constructor
  · rintro ⟨buf, hbuf, msg, hmsg, rfl⟩
    exact ⟨msg, ⟨buf, hbuf, hmsg⟩, rfl⟩
  · rintro ⟨msg, ⟨buf, hbuf, hmsg⟩, rfl⟩
    exact ⟨buf, hbuf, msg, hmsg, rfl⟩

theorem msgOk_of_mem_log {msg : Bytes} (h : msg ∈ log.flatMap entryMsgs) : MsgOk msg := by
  obtain ⟨buf, -, hmsg⟩ := List.mem_flatMap.mp h
  exact mem_entryMsgs hmsg

/-- A step without a mismatch is one that keeps the invariant of the store. -/
theorem TakesNoMismatch.soundIn {w : World} {a : Action} (h : TakesNoMismatch log w a)
    (hread : Action.MergesRead a)
    (hcall : ∀ node ∈ a.insertedNode, node ∈ log.flatMap entryCalls) : a.SoundIn w.lsmt := by
  cases a with
  | insert key content =>
    obtain ⟨msg, hmsg, heq⟩ := mem_calls_iff.mp (hcall (key, content) rfl)
    obtain ⟨rfl, rfl⟩ := Prod.mk.inj heq
    exact (h msg hmsg rfl).imp_right (selfConsistent_recordValue_iff (msgOk_of_mem_log hmsg)).mpr
  | compact faults => exact hread
  | insertCall i => trivial
  | flush => trivial
  | flushCall i => trivial
  | flushDaemon => trivial

end Log

/-! ## Sizes -/

/-- A record that the response buffer has room for. -/
def Small (r : KvRawRecord) : Prop := 0 < r.totalSize ∧ r.totalSize ≤ queryBytesLimit

theorem small_rawOf {msg : Bytes} (h : MsgOk msg) : Small (rawOf (recordOf msg)) := by
  have hvalue := h.value_le
  have hlen : (recordValue msg).length = msg.length - 20 := List.length_drop
  have htotal : (rawOf (recordOf msg)).totalSize =
      16 + min (5 + contentLen (recordValue msg)) (recordValue msg).length := by
    simp only [KvRawRecord.totalSize, rawOf, recordOf, List.length_append, length_keyBytes,
      List.length_take]
  rw [msgHeaderSize, contentMaxSize] at hvalue
  rw [Small, htotal, queryBytesLimit]
  omega

/-- A memtable whose records can be read and copied. -/
structure Readies (sl : Sl) : Prop where
  ok : sl.Ok
  small : ∀ r ∈ sl.records, Small r

theorem Readies.insertMsgs {msgs : List Bytes} (hmsgs : ∀ msg ∈ msgs, MsgOk msg ∧ LengthsAgree msg)
    {sl : Sl} (h : Readies sl) :
    Readies (insertMsgs sl msgs) ∧ sl.bottomLevel ⊆ (Server.insertMsgs sl msgs).bottomLevel := by
  induction msgs generalizing sl with
  | nil => exact ⟨h, List.Subset.refl _⟩
  | cons msg msgs ih =>
    obtain ⟨hok, hagree⟩ := hmsgs msg List.mem_cons_self
    obtain ⟨hsl, hsub, hnew⟩ := @slInsert_records sl h.ok (recordKey msg) (recordValue msg)
      ((selfConsistent_recordValue_iff hok).mpr hagree)
    have hready : Readies (slInsert sl (recordKey msg) (recordValue msg)).1 := by
      refine ⟨hsl, fun r hr => ?_⟩
      rcases hnew r hr with hr | rfl
      · exact h.small r hr
      · exact small_rawOf hok
    obtain ⟨hrest, hsub'⟩ := ih (fun m hm => hmsgs m (List.mem_cons_of_mem msg hm)) hready
    exact ⟨hrest, fun n hn => hsub' (hsub hn)⟩

section Growing

variable {sl : Sl} {memtables : Nat → Sl}

theorem Growing.readies (h : Growing sl memtables) (hsl : Readies sl) (k : Nat) :
    Readies (memtables k) := by
  induction k with
  | zero =>
    obtain ⟨msgs, hmsgs, heq⟩ := h.first
    rw [heq]
    exact (hsl.insertMsgs hmsgs).1
  | succ k ih =>
    obtain ⟨msgs, hmsgs, heq⟩ := h.later k
    rw [heq]
    exact (ih.insertMsgs hmsgs).1

/-- What a query knows about its iterator before the call with number `it.1`. -/
def QueryInv (memtables : Nat → Sl) (it : Nat × LsmtIterator) : Prop :=
  ∃ ms rs, it.2.Represents (memtables it.1) ms rs ∧ ms ⊆ (memtables it.1).records ∧
    ∀ r ∈ rs, Small r

/-- Every call returns, with a record that fits or with the end of the range. -/
theorem QueryInv.next (h : Growing sl memtables) (hsl : Readies sl) (it : Nat × LsmtIterator)
    (hit : QueryInv memtables it) : ∃ answer, liveNext memtables it = some answer ∧
      ∀ record ∈ answer.1, 0 < record.totalSize ∧ record.totalSize ≤ queryBytesLimit ∧
        QueryInv memtables answer.2 := by
  obtain ⟨k, it⟩ := it
  obtain ⟨ms, rs, hrep, hms, hrs⟩ := hit
  have hready := h.readies hsl k
  obtain ⟨⟨rec, it'⟩, hnext, hspec⟩ := lsmtIteratorNext_spec hready.ok hrep
  refine ⟨(rec, k + 1, it'), by rw [liveNext, hnext]; rfl, fun record hrecord => ?_⟩
  cases hstep : mergeStep KvRawRecord.key ms rs with
  | none =>
    rw [show rec = none from (hspec.ended hstep).1] at hrecord
    cases hrecord
  | some p =>
    obtain ⟨head, ms', rs'⟩ := p
    obtain ⟨hhead, hrep'⟩ := hspec.more head ms' rs' hstep
    obtain ⟨hmem, hms', hrs'⟩ := mergeStep_subset hstep
    rw [show rec = some head from hhead] at hrecord
    obtain rfl : head = record := Option.some.inj hrecord
    have hsmall : Small head := hmem.elim (fun hm => hready.small head (hms hm)) (hrs head)
    obtain ⟨msgs, hmsgs, heq⟩ := h.later k
    have hsub : (memtables k).bottomLevel ⊆ (memtables (k + 1)).bottomLevel := by
      rw [heq]
      exact (hready.insertMsgs hmsgs).2
    obtain ⟨ms'', hrep'', -, hms''⟩ :=
      hrep'.grow hready.ok (h.readies hsl (k + 1)).ok hsub fun r hr => hms (hms' hr)
    exact ⟨hsmall.1, hsmall.2, ms'', rs', hrep'', hms'', fun r hr => hrs r (hrs' hr)⟩

/-- A query on a store of small records is answered within the buffer. -/
theorem backgroundQueryCb_fits {lsmt : LsmtState} (h : Growing lsmt.memtable memtables)
    (hsl : Readies lsmt.memtable) (hok : ∀ sst ∈ lsmt.metadata.records, SstOk sst)
    (hsmall : ∀ r ∈ sstRecords lsmt.metadata.records, Small r) (clock : Nat → Nat)
    (task : QueryTask) :
    ∃ response, backgroundQueryCb lsmt memtables clock task = some response ∧
      response.length ≤ maxBufferCap := by
  have hfits : ∀ page : QueryPage, page.Fits → (setQueryResponseHeader (page.response task.reqId) ++
      page.payload).length ≤ maxBufferCap := by
    intro page hpage
    have := hpage.payload_le
    rw [List.length_append, length_setQueryResponseHeader]
    unfold maxBufferCap
    omega
  rw [backgroundQueryCb]
  simp only
  split
  · refine ⟨_, rfl, hfits _ ⟨Nat.zero_le _, le_refl _, fun _ => rfl⟩⟩
  · obtain ⟨ms, rs, hrep, hms, hscan⟩ :=
      exists_represents_seek (h.readies hsl 0).ok hok task.startKey task.endKey
    have hinv : QueryInv memtables
        (0, lsmtIteratorSeek (memtables 0) (lsmtIteratorCreate lsmt) task.startKey task.endKey) :=
      ⟨ms, rs, hrep, hms, fun r hr => hsmall r (hscan.subset hr)⟩
    obtain ⟨page, hpage, hpagefits⟩ := queryLoop_spec (QueryInv.next h hsl) clock
      ((clock 0 + queryBudgetNs) % 2 ^ 64) queryFuel hinv QueryPage.fits_empty (by
        unfold queryFuel
        omega)
    rw [hpage]
    exact ⟨_, rfl, hfits page hpagefits⟩

end Growing

/-! ## The invariant of a run -/

/-- Between the calls of `FsmApply`: the invariant of the store, and only small records. -/
structure SmallStore (log : List Bytes) (w : World) : Prop where
  inv : w.Inv []
  calls : ∀ call ∈ w.inserted, call.node ∈ log.flatMap entryCalls

namespace SmallStore

variable {log : List Bytes} {w : World}

theorem small (h : SmallStore log w) : ∀ r ∈ w.accepted.map rawOf, Small r := by
  intro r hr
  obtain ⟨n, hn, rfl⟩ := List.mem_map.mp hr
  obtain ⟨call, hcall, rfl⟩ := List.mem_map.mp hn
  obtain ⟨msg, hmsg, heq⟩ := mem_calls_iff.mp (h.calls call (List.mem_filter.mp hcall).1)
  rw [← heq]
  exact small_rawOf (msgOk_of_mem_log hmsg)

theorem readies (h : SmallStore log w) : Readies w.lsmt.memtable where
  ok := h.inv.memtable
  small r hr := h.small r (h.inv.inserted.symm.subset (List.mem_append_left _ hr))

theorem small_ssts (h : SmallStore log w) : ∀ r ∈ sstRecords w.lsmt.metadata.records, Small r := by
  intro r hr
  have hflushed := h.inv.registered.subset (List.mem_append_left _ hr)
  rw [List.nil_append] at hflushed
  exact h.small r (h.inv.inserted.symm.subset
    (List.mem_append_right _ (List.mem_append_right _ hflushed)))

theorem recordsSafe (h : SmallStore log w) : RecordsSafe w := by
  have hok : ∀ m ∈ w.lsmt.memtable :: w.lsmt.immutables, m.Ok := by
    intro m hm
    rcases List.mem_cons.mp hm with rfl | hm
    · exact h.inv.memtable
    · exact h.inv.immutables m hm
  refine ⟨fun m hm => (hok m hm).consistent, fun m hm => ?_, fun startKey endKey => ?_,
    fun memtables clock task hgrow => ?_⟩
  · rcases memtableToDisk_cases (hok m hm) with ⟨hdisk, -⟩ | ⟨sst, hdisk, -⟩
    · rw [hdisk]
      exact FlushResult.noConfusion
    · rw [hdisk]
      exact FlushResult.noConfusion
  · obtain ⟨rs, hscan, -⟩ := lsmtScan_eq h.inv.memtable h.inv.ssts startKey endKey
    rw [hscan]
    exact Option.some_ne_none _
  · exact backgroundQueryCb_fits hgrow h.readies h.inv.ssts h.small_ssts clock task

theorem init (log : List Bytes) : SmallStore log (World.init lsmtInit) where
  inv := World.inv_of_run (by simp) (run_nil _)
  calls := by simp [World.init]

/-- A step without a mismatch keeps the invariant. -/
theorem step {w' : World} {a : Action} (h : SmallStore log w) (ha : TakesNoMismatch log w a)
    (hread : Action.MergesRead a)
    (hcall : ∀ node ∈ a.insertedNode, node ∈ log.flatMap entryCalls)
    (hstep : w.step a = some w') : SmallStore log w' where
  inv := World.Inv.step w a w' (ha.soundIn hread hcall) h.inv hstep
  calls := by
    have hins := World.step_inserted hstep
    intro call hmem
    have hnode : call.node ∈ w'.inserted.map InsertCall.node := List.mem_map_of_mem hmem
    rw [hins] at hnode
    rcases List.mem_append.mp hnode with hnode | hnode
    · obtain ⟨c, hc, heq⟩ := List.mem_map.mp hnode
      rw [← heq]
      exact h.calls c hc
    · exact hcall _ (Option.mem_toList.mp hnode)

/-- A step with a mismatch stores a content that is not consistent. -/
theorem not_recordsSafe {w' : World} {a : Action} (h : SmallStore log w)
    (ha : ¬ TakesNoMismatch log w a) (hstep : w.step a = some w') : ¬ RecordsSafe w' := by
  intro hsafe
  simp only [TakesNoMismatch, not_forall, not_or] at ha
  obtain ⟨msg, hmsg, rfl, haccept, hdisagree⟩ := ha
  obtain ⟨needSpawn, hmem, -⟩ := World.step_insert_spec hstep
  have hwf := lsmtRotate_wf h.inv.memtable.wf
  rcases slInsert_cases hwf (recordKey msg) (recordValue msg) with
    ⟨-, hrefuses⟩ | ⟨sl', hins, -, -, -, hperm⟩
  · exact haccept hrefuses
  · rw [hins] at hmem
    have hstored : (recordKey msg, recordValue msg) ∈ w'.lsmt.memtable.bottomLevel := by
      rw [hmem]
      exact hperm.symm.subset List.mem_cons_self
    exact hdisagree ((selfConsistent_recordValue_iff (msgOk_of_mem_log hmsg)).mp
      (hsafe.consistent _ List.mem_cons_self _ hstored))

end SmallStore

/-- In every run that applies a log, all states are safe exactly when no step takes a message whose
two lengths disagree. -/
theorem recordsSafe_iff {log : List Bytes} {as : List Action} {w : World}
    (h : AppliesLog log as w) :
    Always World.step RecordsSafe (World.init lsmtInit) as ↔
      EachStep World.step (TakesNoMismatch log) (World.init lsmtInit) as := by
  refine always_iff_eachStep h.reached (SmallStore.init log) (fun v hv => hv.recordsSafe) ?_
  intro v a v' ha hv hstep
  have hcall : ∀ node ∈ a.insertedNode, node ∈ log.flatMap entryCalls := by
    intro node hnode
    exact h.calls.subset (List.mem_filterMap.mpr ⟨a, ha, hnode⟩)
  by_cases hok : TakesNoMismatch log v a
  · exact Or.inl ⟨hok, hv.step hok (h.reads a ha) hcall hstep⟩
  · exact Or.inr ⟨hok, hv.not_recordsSafe hok hstep⟩

/-- The entry of one message, and the insertion it makes into an empty store. -/
theorem appliesLog_one {key : SlUint128} {value : Bytes} (hvalue : value.length ≤ contentMaxSize)
    (fill : Nat) : entryStatus (message key value ++ List.replicate fill 0) = .ok ∧
      ∃ w, AppliesLog [message key value ++ List.replicate fill 0] [.insert key value] w := by
  have hmsg := msgOk_message key value hvalue
  have hall : ∀ msg ∈ [message key value], MsgOk msg := by simpa using hmsg
  have hcalls := entryMsgs_flatten hall fill
  have hstatus := entryStatus_flatten_eq_ok_iff (fun msg h => (hall msg h).toIsMsg) fill
  rw [List.flatten_singleton] at hcalls hstatus
  refine ⟨hstatus.mpr hall, _, rfl, by simp [Action.MergesRead], ?_⟩
  rw [List.flatMap_singleton, entryCalls, hcalls, List.map_singleton, recordOf_message]
  exact List.prefix_refl _

/-- A run that inserts one byte of data under its type and length, which agree. -/
theorem recordsSafe_iff_one : ∃ log as w, AppliesLog log as w ∧ as ≠ [] ∧
    Always World.step RecordsSafe (World.init lsmtInit) as := by
  obtain ⟨-, w, hw⟩ := @appliesLog_one ⟨1, 0⟩ (encodeData 1 [7]) (by decide) 6
  refine ⟨_, _, w, hw, by simp, (recordsSafe_iff hw).mpr ?_⟩
  refine eachStep_cons.mpr ⟨?_, fun t _ => eachStep_nil _ _ _⟩
  intro msg hmsg hinsert
  have hvalue : encodeData 1 [7] = recordValue msg := by
    injection hinsert
  refine Or.inr ((selfConsistent_recordValue_iff (msgOk_of_mem_log hmsg)).mp ?_)
  rw [← hvalue]
  decide

/-- A message without a value passes the checks of `FsmApply` and is stored without a length word. -/
theorem recordsSafe_fails : ¬ ∀ (log : List Bytes) (as : List Action) (w : World),
    (∀ buf ∈ log, entryStatus buf = .ok) → AppliesLog log as w →
      Always World.step RecordsSafe (World.init lsmtInit) as := by
  intro hall
  obtain ⟨hstatus, w, hw⟩ := @appliesLog_one ⟨1, 0⟩ [] (by decide) 4
  have hsafe := hall _ _ w (by simpa using hstatus) hw [.insert ⟨1, 0⟩ []] [] _ (by simp) rfl
  have hbad := hsafe.consistent _ List.mem_cons_self (⟨1, 0⟩, []) List.mem_cons_self
  exact absurd hbad (by decide)

end RaftLsmt.Server
