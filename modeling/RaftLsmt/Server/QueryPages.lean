import RaftLsmt.Lsmt.RecordHeaders
import RaftLsmt.Server.Query

/-!
# The page a query returns

The loop of `background_query_cb` takes a record from the iterator before it knows whether there is
room for it, and it stops for four reasons: the end of the range, the byte limit, the time budget,
and a request that has waited too long. `page_is_prefix` says that whatever the reason the response
describes a prefix of what the iterator delivers, with exact counters and bounds, and that the flag
`limit_reached` is right: unset, the prefix is everything; set, it is not empty unless the request
had waited too long.
-/

set_option autoImplicit false

namespace RaftLsmt.Server

open RaftLsmt.Lib.StepMachine
open RaftLsmt.Lsmt

universe u

/-- The variables of the loop describe these records. -/
structure QueryPage.Holds (page : QueryPage) (P : List KvRawRecord) : Prop where
  payload_eq : page.payload = fileBytes P
  count_eq : page.recordsCount = P.length
  minKey_eq : ∀ r ∈ P.head?, page.minKey = r.key
  maxKey_eq : ∀ r ∈ P.getLast?, page.maxKey = r.key

theorem QueryPage.holds_empty : QueryPage.empty.Holds [] where
  payload_eq := rfl
  count_eq := rfl
  minKey_eq := by simp
  maxKey_eq := by simp

theorem QueryPage.Holds.limited {page : QueryPage} {P : List KvRawRecord} (h : page.Holds P)
    (flag : Bool) : QueryPage.Holds { page with limitReached := flag } P :=
  ⟨h.payload_eq, h.count_eq, h.minKey_eq, h.maxKey_eq⟩

theorem QueryPage.Holds.add {page : QueryPage} {P : List KvRawRecord} (h : page.Holds P)
    (record : KvRawRecord) : (page.add record).Holds (P ++ [record]) where
  payload_eq := by simp [QueryPage.add, h.payload_eq]
  count_eq := by simp [h.count_eq]
  minKey_eq := by
    intro r hr
    cases P with
    | nil =>
      obtain rfl : record = r := by simpa using hr
      simp [QueryPage.add, h.count_eq]
    | cons p P =>
      obtain rfl : p = r := by simpa using hr
      have hmin := h.minKey_eq p rfl
      simp [QueryPage.add, h.count_eq, hmin]
  maxKey_eq := by
    intro r hr
    obtain rfl : record = r := by simpa using hr
    rfl

/-- How the loop ends when `rest` is still to come: it has taken `Q` off it. -/
structure PageEnd (P rest : List KvRawRecord) (page : QueryPage) : Prop where
  holds : ∃ Q, Q <+: rest ∧ page.Holds (P ++ Q) ∧ (page.limitReached = false → Q = rest)
  fits : page.Fits
  nonempty : page.limitReached = true → page.recordsCount ≠ 0

/-- The loop on a source that delivers `rest`, records of at most `queryBytesLimit` bytes. -/
theorem queryLoop_page {σ : Type u} {next : σ → Option (Option KvRawRecord × σ)}
    (clock : Nat → Nat) (deadline fuel : Nat) :
    ∀ {it : σ} {page : QueryPage} {P rest : List KvRawRecord} {n : Nat},
      drain next n it = some rest → (∀ r ∈ rest, 0 < r.totalSize ∧ r.totalSize ≤ queryBytesLimit) →
      page.Holds P → page.Fits → page.limitReached = false →
      queryBytesLimit + 1 < page.recordsCount + fuel →
      ∃ page', queryLoop next clock deadline fuel it page = some page' ∧ PageEnd P rest page' := by
  induction fuel with
  | zero =>
    intro it page P rest n _ _ _ hfits _ hfuel
    have := hfits.payload_le
    have := hfits.count_le
    omega
  | succ fuel ih =>
    intro it page P rest n hrest hsmall hholds hfits hflag hfuel
    -- stopping here leaves a page that is cut, and has a record
    have hcut : page.recordsCount > 0 →
        PageEnd P rest { page with limitReached := true } := by
      intro hpos
      refine ⟨⟨[], List.nil_prefix, ?_, by simp⟩, ⟨hfits.1, hfits.2, hfits.3⟩, fun _ => ?_⟩
      · rw [List.append_nil]
        exact hholds.limited true
      · exact Nat.pos_iff_ne_zero.mp hpos
    rw [queryLoop]
    by_cases hlate : page.recordsCount > 0 ∧ clock page.recordsCount > deadline
    · rw [if_pos hlate]
      exact ⟨_, rfl, hcut hlate.1⟩
    · rw [if_neg hlate]
      cases n with
      | zero => cases hrest
      | succ n =>
        rw [drain] at hrest
        cases hnext : next it with
        | none =>
          rw [hnext] at hrest
          cases hrest
        | some answer =>
          obtain ⟨rec, it'⟩ := answer
          rw [hnext] at hrest
          cases rec with
          | none =>
            -- the end of the range
            cases hrest
            refine ⟨page, rfl, ⟨[], List.nil_prefix, ?_, fun _ => rfl⟩, hfits, ?_⟩
            · rw [List.append_nil]
              exact hholds
            · intro htrue
              rw [hflag] at htrue
              cases htrue
          | some record =>
            simp only [Option.map_eq_some_iff] at hrest
            obtain ⟨tail, htail, rfl⟩ := hrest
            obtain ⟨hpos, hle⟩ := hsmall record List.mem_cons_self
            simp only
            by_cases hfull : page.payload.length + record.totalSize > queryBytesLimit ∧
                page.recordsCount > 0
            · rw [if_pos hfull]
              exact ⟨_, rfl, hcut hfull.2⟩
            · have hroom := hfits.room hle hfull
              rw [if_neg hfull, if_neg (not_lt.mpr (capacity_of_room hroom))]
              have hadded : (page.add record).limitReached = false := by
                simp [QueryPage.add, hflag, hroom]
              obtain ⟨page', hloop, hend⟩ := ih htail
                (fun r hr => hsmall r (List.mem_cons_of_mem record hr)) (hholds.add record)
                (hfits.add hpos hroom) hadded (by rw [QueryPage.recordsCount_add]; omega)
              obtain ⟨Q, hinit, hQ, hall⟩ := hend.holds
              refine ⟨page', hloop, ⟨record :: Q, ?_, ?_, fun hf => ?_⟩, hend.fits, hend.nonempty⟩
              · exact List.cons_prefix_cons.mpr ⟨rfl, hinit⟩
              · rwa [List.append_assoc] at hQ
              · rw [hall hf]

/-- The response describes the records `P`, a correct page of `L`. -/
structure IsPageOf (L P : List KvRawRecord) (waited : Prop) (reqId : UInt64)
    (response : QueryResponse) : Prop where
  isPrefix : P <+: L
  reqId_eq : response.reqId = reqId
  recordsCount_eq : response.recordsCount.toNat = P.length
  recordsBytes_eq : response.recordsBytes.toNat = (fileBytes P).length
  totalMsgSize_eq : response.totalMsgSize.toNat = qRespHeaderSize + (fileBytes P).length
  bytes_le : (fileBytes P).length ≤ queryBytesLimit
  minKey_eq : ∀ r ∈ P.head?, response.minKey = r.key
  maxKey_eq : ∀ r ∈ P.getLast?, response.maxKey = r.key
  complete : response.limitReached = false → P = L
  nonempty : response.limitReached = true → P ≠ [] ∨ waited

theorem isPageOf_response {L P : List KvRawRecord} {waited : Prop} {reqId : UInt64}
    {page : QueryPage} (hholds : page.Holds P) (hfits : page.Fits) (hinit : P <+: L)
    (hcomplete : page.limitReached = false → P = L)
    (hnonempty : page.limitReached = true → P ≠ [] ∨ waited) :
    IsPageOf L P waited reqId (page.response reqId) := by
  have hbytes := hfits.payload_le
  have hcount := hfits.count_le
  unfold queryBytesLimit at hbytes
  rw [hholds.payload_eq] at hbytes hcount
  rw [hholds.count_eq] at hcount
  refine ⟨hinit, rfl, ?_, ?_, ?_, ?_, fun r hr => ?_, fun r hr => ?_, hcomplete, hnonempty⟩
  · show (UInt32.ofNat page.recordsCount).toNat = _
    rw [hholds.count_eq, UInt32.toNat_ofNat_of_lt']
    exact lt_of_le_of_lt (le_trans hcount hbytes) (by decide)
  · show (UInt64.ofNat page.payload.length).toNat = _
    rw [hholds.payload_eq, UInt64.toNat_ofNat_of_lt']
    exact lt_of_le_of_lt hbytes (by decide)
  · show (UInt64.ofNat (qRespHeaderSize + page.payload.length)).toNat = _
    rw [hholds.payload_eq, UInt64.toNat_ofNat_of_lt']
    unfold qRespHeaderSize
    exact lt_of_le_of_lt (Nat.add_le_add_left hbytes _) (by decide)
  · unfold queryBytesLimit
    exact hbytes
  · have hne : page.recordsCount ≠ 0 := by
      rw [hholds.count_eq]
      intro hzero
      rw [List.length_eq_zero_iff.mp hzero] at hr
      cases hr
    show (if page.recordsCount = 0 then _ else page.minKey) = r.key
    rw [if_neg hne]
    exact hholds.minKey_eq r hr
  · have hne : page.recordsCount ≠ 0 := by
      rw [hholds.count_eq]
      intro hzero
      rw [List.length_eq_zero_iff.mp hzero] at hr
      cases hr
    show (if page.recordsCount = 0 then _ else page.maxKey) = r.key
    rw [if_neg hne]
    exact hholds.maxKey_eq r hr

/-- The request had waited for more than 32 seconds when its turn came. -/
def QueryTask.WaitedLong (task : QueryTask) (clock : Nat → Nat) : Prop :=
  (clock 0 + 2 ^ 64 - task.tStartNs) % 2 ^ 64 > queryIdleNs

/-- A drained iterator that has been created and positioned has delivered headed records. -/
theorem headed_of_drain_liveNext {memtables : Nat → Sl} (n : Nat) :
    ∀ {it : Nat × LsmtIterator} {L : List KvRawRecord}, it.2.Headed →
      drain (liveNext memtables) n it = some L → ∀ r ∈ L, r.Headed := by
  induction n with
  | zero =>
    intro it L _ h
    cases h
  | succ n ih =>
    intro it L hit h
    rw [drain] at h
    cases hnext : lsmtIteratorNext (memtables it.1) it.2 with
    | none =>
      rw [liveNext, hnext] at h
      cases h
    | some answer =>
      obtain ⟨rec, it'⟩ := answer
      obtain ⟨hrec, hit'⟩ := lsmtIteratorNext_headed hit hnext
      rw [liveNext, hnext] at h
      cases rec with
      | none =>
        cases h
        simp
      | some record =>
        simp only [Option.map_some, Option.map_eq_some_iff] at h
        obtain ⟨tail, htail, rfl⟩ := h
        intro r hr
        rcases List.mem_cons.mp hr with rfl | hr
        · exact hrec r rfl
        · exact ih hit' htail r hr

/-- The loop variables that the response of a query is made from, when its iterator delivers `L`. -/
theorem backgroundQueryCb_page {lsmt : LsmtState} {memtables : Nat → Sl} {task : QueryTask} {n : Nat}
    {L : List KvRawRecord}
    (hL : drain (liveNext memtables) n
      (0, lsmtIteratorSeek (memtables 0) (lsmtIteratorCreate lsmt) task.startKey task.endKey) =
        some L)
    (hsize : ∀ r ∈ L, r.totalSize ≤ 276) (clock : Nat → Nat) :
    ∃ (P : List KvRawRecord) (page : QueryPage), backgroundQueryCb lsmt memtables clock task =
        some (setQueryResponseHeader (page.response task.reqId) ++ page.payload) ∧
      page.Holds P ∧ page.Fits ∧ P <+: L ∧ (page.limitReached = false → P = L) ∧
      (page.limitReached = true → P ≠ [] ∨ task.WaitedLong clock) := by
  by_cases hwaited : task.WaitedLong clock
  · -- the search is skipped: an empty page with the flag set
    have hlong : (clock 0 + 2 ^ 64 - task.tStartNs) % 2 ^ 64 > queryIdleNs := hwaited
    refine ⟨[], { QueryPage.empty with limitReached := true }, ?_,
      QueryPage.holds_empty.limited true, ⟨Nat.zero_le _, le_refl _, fun _ => rfl⟩,
      List.nil_prefix, by simp, fun _ => Or.inr hwaited⟩
    rw [backgroundQueryCb, if_pos hlong]
    rfl
  · have hsmall : ∀ r ∈ L, 0 < r.totalSize ∧ r.totalSize ≤ queryBytesLimit := by
      intro r hr
      have hheaded : 21 ≤ r.totalSize :=
        headed_of_drain_liveNext n (headed_seek_create _ _ _ _) hL r hr
      have hle := hsize r hr
      unfold queryBytesLimit
      omega
    obtain ⟨page, hloop, hend⟩ := queryLoop_page clock ((clock 0 + queryBudgetNs) % 2 ^ 64)
      queryFuel hL hsmall QueryPage.holds_empty QueryPage.fits_empty rfl (by
        unfold queryFuel
        omega)
    obtain ⟨P, hinit, hholds, hall⟩ := hend.holds
    rw [List.nil_append] at hholds
    have hshort : ¬ (clock 0 + 2 ^ 64 - task.tStartNs) % 2 ^ 64 > queryIdleNs := hwaited
    refine ⟨P, page, ?_, hholds, hend.fits, hinit, hall, fun hflag => Or.inl fun hnil => ?_⟩
    · rw [backgroundQueryCb, if_neg hshort, hloop, Option.map_some]
    · refine hend.nonempty hflag ?_
      rw [hholds.count_eq, hnil]
      rfl

/-- Every query whose iterator delivers `L`, next to any writers and under any clock, is answered
with a correct page of `L` and without leaving the response buffer. -/
theorem page_is_prefix {lsmt : LsmtState} {memtables : Nat → Sl} {task : QueryTask} {n : Nat}
    {L : List KvRawRecord}
    (hL : drain (liveNext memtables) n
      (0, lsmtIteratorSeek (memtables 0) (lsmtIteratorCreate lsmt) task.startKey task.endKey) =
        some L)
    (hsize : ∀ r ∈ L, r.totalSize ≤ 276) (clock : Nat → Nat) :
    ∃ P response, backgroundQueryCb lsmt memtables clock task =
        some (setQueryResponseHeader response ++ fileBytes P) ∧
      IsPageOf L P (task.WaitedLong clock) task.reqId response ∧
      (setQueryResponseHeader response ++ fileBytes P).length ≤ maxBufferCap := by
  obtain ⟨P, page, hmsg, hholds, hfits, hinit, hcomplete, hnonempty⟩ :=
    backgroundQueryCb_page hL hsize clock
  have hpage : IsPageOf L P (task.WaitedLong clock) task.reqId (page.response task.reqId) :=
    isPageOf_response hholds hfits hinit hcomplete hnonempty
  refine ⟨P, page.response task.reqId, ?_, hpage, ?_⟩
  · rw [hmsg, hholds.payload_eq]
  · have hbytes := hpage.bytes_le
    rw [List.length_append, length_setQueryResponseHeader]
    unfold maxBufferCap
    omega

/-- A store with three records in its memtable. -/
def threeStored : LsmtState :=
  { lsmtInit with
    memtable := (slInsert (slInsert (slInsert (slInit 0) ⟨1, 0⟩ (encodeData 1 [7])).1 ⟨1, 5⟩
      (encodeData 1 [8])).1 ⟨2, 0⟩ (encodeData 1 [9])).1 }

/-- What its iterator delivers. -/
def threeDelivered : List KvRawRecord :=
  [rawOf (⟨1, 0⟩, encodeData 1 [7]), rawOf (⟨1, 5⟩, encodeData 1 [8]), rawOf (⟨2, 0⟩, encodeData 1 [9])]

/-- The time budget is used up when two records have been copied. -/
def slowClock (n : Nat) : Nat := if n < 2 then 0 else queryBudgetNs + 1

theorem create_threeStored : lsmtIteratorCreate threeStored =
    ⟨true, some (wrSlItCreate threeStored.memtable), ⟨[], [], false, SlUint128.zero, SlUint128.zero⟩,
      none⟩ := by
  have hnone : sstKIteratorsCreate [] = ⟨[], [], false, SlUint128.zero, SlUint128.zero⟩ := by
    simp [sstKIteratorsCreate]
  rw [← hnone]
  rfl

/-- The page that runs out of time has the first two records and says that there are more. -/
theorem page_is_prefix_one : ∃ P response,
    backgroundQueryCb threeStored (fun _ => threeStored.memtable) slowClock ⟨5, ⟨1, 0⟩, ⟨3, 0⟩, 0⟩ =
      some (setQueryResponseHeader response ++ fileBytes P) ∧
    IsPageOf threeDelivered P (QueryTask.WaitedLong ⟨5, ⟨1, 0⟩, ⟨3, 0⟩, 0⟩ slowClock) 5 response ∧
    (setQueryResponseHeader response ++ fileBytes P).length ≤ maxBufferCap ∧
    P = threeDelivered.take 2 ∧ response.limitReached = true := by
  have hL : drain (liveNext fun _ => threeStored.memtable) 4
      (0, lsmtIteratorSeek threeStored.memtable (lsmtIteratorCreate threeStored) ⟨1, 0⟩ ⟨3, 0⟩) =
        some threeDelivered := by
    rw [create_threeStored]
    rfl
  have hsize : ∀ r ∈ threeDelivered, r.totalSize ≤ 276 := by decide
  obtain ⟨P, response, hmsg, hpage, hcap⟩ : ∃ P response,
      backgroundQueryCb threeStored (fun _ => threeStored.memtable) slowClock ⟨5, ⟨1, 0⟩, ⟨3, 0⟩, 0⟩ =
        some (setQueryResponseHeader response ++ fileBytes P) ∧
      IsPageOf threeDelivered P (QueryTask.WaitedLong ⟨5, ⟨1, 0⟩, ⟨3, 0⟩, 0⟩ slowClock) 5 response ∧
      (setQueryResponseHeader response ++ fileBytes P).length ≤ maxBufferCap :=
    page_is_prefix hL hsize slowClock
  have hlength : (backgroundQueryCb threeStored (fun _ => threeStored.memtable) slowClock
      ⟨5, ⟨1, 0⟩, ⟨3, 0⟩, 0⟩).map List.length = some (qRespHeaderSize + 44) := by
    unfold backgroundQueryCb
    rw [create_threeStored]
    decide +kernel
  -- two of the records, all of the same size, are in the message
  rw [hmsg, Option.map_some, List.length_append, length_setQueryResponseHeader] at hlength
  have hbytes : (fileBytes P).length = 44 := Nat.add_left_cancel (Option.some.inj hlength)
  have htake := List.prefix_iff_eq_take.mp hpage.isPrefix
  have htwo : P = threeDelivered.take 2 := by
    have hle : P.length ≤ 3 := hpage.isPrefix.length_le
    obtain hk | hk | hk | hk : P.length = 0 ∨ P.length = 1 ∨ P.length = 2 ∨ P.length = 3 := by omega
    all_goals rw [hk] at htake
    · rw [htake] at hbytes
      exact absurd hbytes (by decide)
    · rw [htake] at hbytes
      exact absurd hbytes (by decide)
    · exact htake
    · rw [htake] at hbytes
      exact absurd hbytes (by decide)
  refine ⟨P, response, hmsg, hpage, hcap, htwo, ?_⟩
  by_contra hflag
  rw [Bool.not_eq_true] at hflag
  have hall := congrArg List.length (hpage.complete hflag)
  rw [htwo] at hall
  exact absurd hall (by decide)

end RaftLsmt.Server
