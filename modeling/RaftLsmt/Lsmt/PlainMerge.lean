import RaftLsmt.Lib.KWayMerge
import RaftLsmt.Lsmt.KIterators

/-!
# The lazy merge and the plain one

`sst_k_iterators_next` opens a file only when its `min_key` says that it may hold the next record.
Here its scan is compared with the plain merge, in which every file is opened and positioned by the
seek. Both are the k-way merge of the same lists, the records of each file that are in range, in the
order of `min_key`: a file that is not opened starts above the winner, so looking at it would not
have changed the winner. Ties between files are broken the same way too.
-/

set_option autoImplicit false

namespace RaftLsmt.Lsmt

open RaftLsmt.Lib.StepMachine
open RaftLsmt.Lib.SortedMerge
open RaftLsmt.Lib.KWayMerge

/-! ## Opening every file at once -/

/-- Seek every iterator. -/
def seekAll (start endKey : SlUint128) : List SstIterator → Option (List SstIterator)
  | [] => some []
  | it :: its =>
    match sstIteratorSeek it start endKey with
    | none => none
    | some (_, it) => (seekAll start endKey its).map (it :: ·)

/-- `sst_k_iterators_seek`, if it opened every file. -/
def sstKIteratorsSeekPlain (k : SstKIterators) (start endKey : SlUint128) : Option SstKIterators :=
  let k := sstKIteratorsSeek k start endKey
  (seekAll start endKey k.pending).map fun its => { k with opened := its, pending := [] }

/-- The scan, if the seek opened every file. -/
def sstKIteratorsScanPlain (inputs : List (SstMetadataRecord × IoFaults))
    (start endKey : SlUint128) : Option (List KvRawRecord) :=
  let k := sstKIteratorsCreate inputs
  (sstKIteratorsSeekPlain k start endKey).bind fun plain =>
    drain sstKIteratorsNext (sstKIteratorsSeek k start endKey).fuel plain

/-! ## One call is one step of the k-way merge -/

theorem betterWinner_eq_better (winner : Winner) (idx : Nat) (peeked : Option KvRawRecord) :
    betterWinner winner idx peeked = better KvRawRecord.key winner idx peeked := by
  cases peeked with
  | none => rfl
  | some rec =>
    cases winner with
    | none => rfl
    | some w =>
      simp only [betterWinner, better, keyCompare_neg_iff]

/-- The first loop finds the first list with a least head. -/
theorem peekOpened_winner (idx : Nat) (winner : Winner) (its : List SstIterator) :
    (peekOpened idx winner its).1 =
      firstLeast KvRawRecord.key idx winner (its.map SstIterator.remaining) := by
  induction its generalizing idx winner with
  | nil => rfl
  | cons it its ih =>
    have hpeek := sstIteratorPeek_spec it
    simp only [peekOpened, List.map_cons, firstLeast]
    rw [ih, betterWinner_eq_better, hpeek.shown]

section Merge

variable {yield : SstIterator → List KvRawRecord}

/-- The lists the merge still has to merge, the opened files first. -/
def SstKIterators.lists (yield : SstIterator → List KvRawRecord) (k : SstKIterators) :
    List (List KvRawRecord) :=
  k.opened.map SstIterator.remaining ++ k.pending.map yield

/-- The second loop goes on with the files it opens and keeps all lists as they are. -/
theorem openPending_winner {start endKey : SlUint128} (its : List SstIterator) :
    ∀ {opened : List SstIterator} {winner winner' : Winner} {opened' pending' : List SstIterator},
      winner = firstLeast KvRawRecord.key 0 none (opened.map SstIterator.remaining) →
      (∀ it ∈ its, SstKIterators.PendingOk yield start endKey it) →
      openPending start endKey opened winner its = some (winner', opened', pending') →
      winner' = firstLeast KvRawRecord.key 0 none (opened'.map SstIterator.remaining) ∧
        opened'.map SstIterator.remaining ++ pending'.map yield =
          opened.map SstIterator.remaining ++ its.map yield := by
  induction its with
  | nil =>
    intro opened winner winner' opened' pending' hwin _ h
    cases h
    exact ⟨hwin, rfl⟩
  | cons it its ih =>
    intro opened winner winner' opened' pending' hwin hpend h
    rw [openPending] at h
    by_cases hstop : startsAfter winner it = true
    · rw [if_pos hstop] at h
      cases h
      exact ⟨hwin, rfl⟩
    · rw [if_neg hstop] at h
      cases hseek : sstIteratorSeek it start endKey with
      | none =>
        rw [hseek] at h
        cases h
      | some answer =>
        obtain ⟨ok, sought⟩ := answer
        rw [hseek] at h
        have hpeek := sstIteratorPeek_spec sought
        have hrem : sought.remaining = yield it :=
          ((hpend it List.mem_cons_self).yields ok sought hseek).remaining
        have hwin' : betterWinner winner opened.length (sstIteratorPeek sought).1 =
            firstLeast KvRawRecord.key 0 none
              ((opened ++ [(sstIteratorPeek sought).2]).map SstIterator.remaining) := by
          rw [List.map_append, List.map_singleton, firstLeast_snoc, ← hwin, List.length_map,
            betterWinner_eq_better, hpeek.shown, hpeek.same]
        obtain ⟨hwinner, hlists⟩ := ih hwin' (fun x hx => hpend x (List.mem_cons_of_mem it hx)) h
        refine ⟨hwinner, ?_⟩
        rw [hlists, List.map_append, List.map_singleton, List.map_cons, hpeek.same, hrem,
          List.append_assoc, List.singleton_append]

/-- Advancing the winner drops the head of its list. -/
theorem map_modify_advance {its : List SstIterator} {i : Nat} {it : SstIterator} {rec : KvRawRecord}
    (hi : its[i]? = some it) (hact : it.active = true) (hbuf : it.bufferedRecord = some rec) :
    (its.modify i sstIteratorAdvance).map SstIterator.remaining =
      (its.map SstIterator.remaining).modify i List.tail := by
  induction its generalizing i with
  | nil => simp at hi
  | cons x its ih =>
    cases i with
    | zero =>
      simp only [List.getElem?_cons_zero, Option.some.injEq] at hi
      subst hi
      rw [List.modify_zero_cons, List.map_cons, List.map_cons, List.modify_zero_cons,
        remaining_sstIteratorAdvance hact hbuf, List.tail_cons]
    | succ i =>
      rw [List.getElem?_cons_succ] at hi
      rw [List.modify_succ_cons, List.map_cons, List.map_cons, List.modify_succ_cons, ih hi]

theorem modify_append_left {α : Type} {g : α → α} {l : List α} {i : Nat} (hi : i < l.length)
    (m : List α) : (l ++ m).modify i g = l.modify i g ++ m := by
  induction l generalizing i with
  | nil => cases hi
  | cons a l ih =>
    cases i with
    | zero => rfl
    | succ i =>
      rw [List.cons_append, List.modify_succ_cons, List.modify_succ_cons, List.cons_append,
        ih (Nat.lt_of_succ_lt_succ hi)]

/-- What carries the comparison: the merge is active, its lists are known, and no seek stops the
process. -/
structure SstKIterators.Merging (yield : SstIterator → List KvRawRecord) (k : SstKIterators) :
    Prop where
  inv : k.Inv yield
  active : k.active = true
  live : k.Live

/-- One call of an active merge is one step of the k-way merge of its lists. -/
theorem sstKIteratorsNext_mergesAs :
    MergesAs KvRawRecord.key sstKIteratorsNext (SstKIterators.lists yield)
      (SstKIterators.Merging yield) := by
  intro k hk
  obtain ⟨answer, t, hnext, hlive⟩ := hk.live.next
  have hinv : ∀ rec, answer = some rec → t.Inv yield := by
    rintro rec rfl
    exact (sstKIteratorsNext_selectsLeast.more k rec t hk.inv hnext).1
  refine ⟨answer, t, hnext, ?_⟩
  rw [sstKIteratorsNext, if_neg (by simp [hk.active])] at hnext
  simp only at hnext
  cases hopen : openPending k.seekStart k.seekEnd (peekOpened 0 none k.opened).2
      (peekOpened 0 none k.opened).1 k.pending with
  | none =>
    rw [hopen] at hnext
    cases hnext
  | some loops =>
    obtain ⟨winner, opened', pending'⟩ := loops
    have hspec := hk.inv.loops_spec hopen
    -- refilling the buffers changes no list
    have hpeeked : (peekOpened 0 none k.opened).2.map SstIterator.remaining =
        k.opened.map SstIterator.remaining := by
      have h := (peekOpened_spec [] none k.opened (by simp [WinnerOk])).2
      simpa using h
    obtain ⟨hwinner, hlists⟩ := openPending_winner k.pending
      (by rw [peekOpened_winner, hpeeked]) hk.inv.pending hopen
    rw [hpeeked] at hlists
    -- the files that stay closed start above the winner
    have hall : firstLeast KvRawRecord.key 0 none (k.lists yield) = winner := by
      rw [SstKIterators.lists, ← hlists, firstLeast_append, ← hwinner]
      cases winner with
      -- every file is at its end
      | none =>
        rw [hspec.exhausted rfl]
        rfl
      | some w =>
        apply firstLeast_of_above
        intro l hl a ha
        obtain ⟨it, hit, rfl⟩ := List.mem_map.mp hl
        have hmin := (hk.inv.pending it (hspec.sublist.subset hit)).minKey_le a
          (List.mem_of_head? ha)
        exact lt_of_lt_of_le (hspec.above w.1 w.2 rfl it hit) hmin
    rw [hopen] at hnext
    cases winner with
    | none =>
      cases hnext
      refine ⟨?_, fun h => absurd rfl h⟩
      rw [kMergeNext, hall]
    | some w =>
      obtain ⟨i, rec⟩ := w
      cases hnext
      refine ⟨?_, fun _ => ⟨⟨hinv rec rfl, hk.active, hlive⟩, ?_⟩⟩
      · rw [kMergeNext, hall]
      · -- the winner's list loses its first record, the others stay
        obtain ⟨⟨x, hx, hxact, hxbuf⟩, -⟩ := hspec.winner
        have hlt : i < (opened'.map SstIterator.remaining).length := by
          rw [List.length_map]
          exact (List.getElem?_eq_some_iff.mp hx).1
        rw [kMergeNext, hall]
        simp only [SstKIterators.lists]
        rw [← hlists, modify_append_left hlt, map_modify_advance hx hxact hxbuf]

end Merge

/-! ## The two scans -/

section Scan

variable {ls : SstMetadataRecord × IoFaults → List KvRawRecord}
  {inputs : List (SstMetadataRecord × IoFaults)} {start endKey : SlUint128}

/-- Opening every file: each is left with the list a lazy seek of it would leave. -/
theorem exists_seekAll {yield : SstIterator → List KvRawRecord} (its : List SstIterator)
    (hlive : ∀ it ∈ its, sstIteratorSeek it start endKey ≠ none)
    (hyield : ∀ it ∈ its, SeekYields it start endKey (yield it)) :
    ∃ sought, seekAll start endKey its = some sought ∧
      sought.map SstIterator.remaining = its.map yield := by
  induction its with
  | nil => exact ⟨[], rfl, rfl⟩
  | cons it its ih =>
    obtain ⟨sought, hsought, hmap⟩ := ih (fun x hx => hlive x (List.mem_cons_of_mem it hx))
      fun x hx => hyield x (List.mem_cons_of_mem it hx)
    cases hseek : sstIteratorSeek it start endKey with
    | none => exact absurd hseek (hlive it List.mem_cons_self)
    | some answer =>
      obtain ⟨ok, opened⟩ := answer
      refine ⟨opened :: sought, ?_, ?_⟩
      · rw [seekAll, hseek]
        simp only [hsought, Option.map_some]
      · rw [List.map_cons, List.map_cons, hmap,
          (hyield it List.mem_cons_self ok opened hseek).remaining]

/-- Both scans drain the k-way merge of the same lists. -/
theorem sstKIteratorsScanPlain_eq (h : ∀ i ∈ inputs, ScansTo start endKey i (ls i))
    (hlive : ∀ i ∈ inputs, sstIteratorSeek (sstIteratorCreate i.1 i.2) start endKey ≠ none) :
    sstKIteratorsScanPlain inputs start endKey = sstKIteratorsScan inputs start endKey := by
  have hinv := inv_sstKIteratorsSeek h
  have hseek := sstKIteratorsSeek_create inputs start endKey
  rw [hseek] at hinv
  have hlivePending : ∀ it ∈ (sstKIteratorsCreate inputs).pending,
      sstIteratorSeek it start endKey ≠ none := by
    intro it hit
    obtain ⟨i, hi, rfl⟩ := List.mem_map.mp (List.mem_mergeSort.mp hit)
    exact hlive i hi
  obtain ⟨sought, hsought, hmap⟩ := exists_seekAll _ hlivePending
    fun it hit => (hinv.pending it hit).yields
  have hlazy : SstKIterators.Merging (fun it => ls (it.sst, it.faults))
      ⟨[], (sstKIteratorsCreate inputs).pending, true, start, endKey⟩ :=
    ⟨hinv, rfl, hlivePending⟩
  have hplain : SstKIterators.Merging (fun it => ls (it.sst, it.faults))
      ⟨sought, [], true, start, endKey⟩ := by
    refine ⟨⟨fun it hit => ?_, by simp, List.Pairwise.nil⟩, rfl, by simp [SstKIterators.Live]⟩
    have hmem : it.remaining ∈ (sstKIteratorsCreate inputs).pending.map
        fun it => ls (it.sst, it.faults) := hmap ▸ List.mem_map_of_mem hit
    obtain ⟨x, hx, hxr⟩ := List.mem_map.mp hmem
    rw [← hxr]
    exact (hinv.pending x hx).sorted
  have hlists : SstKIterators.lists (fun it => ls (it.sst, it.faults))
      ⟨sought, [], true, start, endKey⟩ = SstKIterators.lists (fun it => ls (it.sst, it.faults))
        ⟨[], (sstKIteratorsCreate inputs).pending, true, start, endKey⟩ := by
    simp only [SstKIterators.lists, hmap, List.map_nil, List.append_nil, List.nil_append]
  simp only [sstKIteratorsScanPlain, sstKIteratorsSeekPlain, sstKIteratorsScan, hseek, hsought,
    Option.map_some, Option.bind_some]
  rw [sstKIteratorsNext_mergesAs.drain_eq _ hlazy, sstKIteratorsNext_mergesAs.drain_eq _ hplain,
    hlists]

end Scan

/-- For SSTs with strictly ascending keys, which may repeat across files, the lazy scan of any range
returns; it lists the records of the range of all files in key order, and it is the very list that
the scan with every file opened up front gives. -/
theorem lazy_scan_eq_plain {inputs : List (SstMetadataRecord × List KvRawRecord)}
    (h : ∀ i ∈ inputs, SstHolds i.1 i.2 ∧ StrictBy KvRawRecord.key i.2)
    (start endKey : SlUint128) :
    ∃ out, sstKIteratorsScan (inputs.map fun i => (i.1, IoFaults.none)) start endKey = some out ∧
      SortedBy KvRawRecord.key out ∧
      out.Perm (inputs.flatMap fun i => rangeFilter KvRawRecord.key start endKey i.2) ∧
      sstKIteratorsScanPlain (inputs.map fun i => (i.1, IoFaults.none)) start endKey =
        some out := by
  -- the records of a file, read off the file
  have hscans : ∀ j ∈ inputs.map fun i => (i.1, IoFaults.none), ScansTo start endKey j
      (rangeFilter KvRawRecord.key start endKey j.1.records) := by
    intro j hj
    obtain ⟨i, hi, rfl⟩ := List.mem_map.mp hj
    obtain ⟨hholds, hstrict⟩ := h i hi
    obtain ⟨ls, hls, -, hall⟩ := exists_scansTo_none hholds start endKey
    rw [hholds.records_eq, ← hall (Or.inl hstrict)]
    exact hls
  have hlive : ∀ j ∈ inputs.map fun i => (i.1, IoFaults.none),
      sstIteratorSeek (sstIteratorCreate j.1 j.2) start endKey ≠ none := by
    intro j hj
    obtain ⟨i, hi, rfl⟩ := List.mem_map.mp hj
    exact (sstIteratorCreate_fresh (h i hi).1 IoFaults.none).seek_ne_none rfl start endKey
  obtain ⟨out, hout⟩ := sstKIteratorsScan_eq_some hscans hlive
  obtain ⟨hsorted, hperm⟩ := sstKIteratorsScan_sorted_perm hscans hout
  refine ⟨out, hout, hsorted, ?_, ?_⟩
  · rw [List.flatMap_map] at hperm
    have hrecords : (inputs.flatMap fun i =>
        rangeFilter KvRawRecord.key start endKey i.1.records) =
        inputs.flatMap fun i => rangeFilter KvRawRecord.key start endKey i.2 :=
      List.flatMap_congr fun i hi => by rw [(h i hi).1.records_eq]
    rw [← hrecords]
    exact hperm
  · rw [sstKIteratorsScanPlain_eq hscans hlive, hout]

/-- Two files that share a key. -/
theorem lazy_scan_eq_plain_two :
    let records (data : List UInt8) : List KvRawRecord :=
      [rawOf (⟨1, 0⟩, encodeData 2 data), rawOf (⟨2, 0⟩, encodeData 2 data)]
    let inputs := [(writeSst 0 0 (records [7]), records [7]), (writeSst 1 0 (records [8]), records [8])]
    ∃ out, sstKIteratorsScan (inputs.map fun i => (i.1, IoFaults.none)) ⟨2, 0⟩ ⟨2, 5⟩ = some out ∧
      SortedBy KvRawRecord.key out ∧
      out.Perm (inputs.flatMap fun i => rangeFilter KvRawRecord.key ⟨2, 0⟩ ⟨2, 5⟩ i.2) ∧
      sstKIteratorsScanPlain (inputs.map fun i => (i.1, IoFaults.none)) ⟨2, 0⟩ ⟨2, 5⟩ =
        some out := by
  intro records inputs
  have hstrict : ∀ data, StrictBy KvRawRecord.key (records data) := by
    intro data
    refine strictBy_cons.mpr ⟨fun r hr => ?_, strictBy_cons.mpr ⟨by simp, strictBy_nil⟩⟩
    rw [List.mem_singleton.mp hr]
    show SlUint128.mk 1 0 < SlUint128.mk 2 0
    decide
  have hholds : ∀ id (b : UInt8), SstHolds (writeSst id 0 (records [b])) (records [b]) := by
    intro id b
    have hread : Readable (encodeData 2 [b]) :=
      (selfConsistent_encodeData 2 (by simp)).readable
    refine sstHolds_writeSst id 0 ?_ ?_ ?_ (hstrict [b]).sortedBy
    · intro r hr
      rcases List.mem_cons.mp hr with rfl | hr
      · exact rawOf_wf hread
      · rw [List.mem_singleton.mp hr]
        exact rawOf_wf hread
    · intro r hr
      have hlen : 21 + contentLen (encodeData 2 [b]) < 2 ^ 32 :=
        (selfConsistent_encodeData 2 (by simp)).2
      rcases List.mem_cons.mp hr with rfl | hr
      · rw [totalSize_rawOf hread]
        exact hlen
      · rw [List.mem_singleton.mp hr, totalSize_rawOf hread]
        exact hlen
    · intro r hr
      rcases List.mem_cons.mp hr with rfl | hr
      · show SlUint128.zero < SlUint128.mk 1 0
        decide
      · rw [List.mem_singleton.mp hr]
        show SlUint128.zero < SlUint128.mk 2 0
        decide
  apply lazy_scan_eq_plain
  intro i hi
  rcases List.mem_cons.mp hi with rfl | hi
  · exact ⟨hholds 0 7, hstrict [7]⟩
  · rw [List.mem_singleton.mp hi]
    exact ⟨hholds 1 8, hstrict [8]⟩

end RaftLsmt.Lsmt
