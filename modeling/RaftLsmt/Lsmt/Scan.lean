import RaftLsmt.Lsmt.Store

/-!
# The iterator of the store

`lsmt_iterator_create` captures the active memtable and the registered SSTs; `lsmt_iterator_next`
merges the two sources, a memtable record hiding one SST record with the same key. The memtable it
reads is the live one: between two calls it may have grown.

`LsmtIterator.Represents` connects an iterator with the two lists still to be merged, and one call is
one `mergeStep` on them (`lsmtIteratorNext_spec`). Draining therefore lists their shadowing merge
(`lsmtScan_eq`).
-/

set_option autoImplicit false

namespace RaftLsmt.Lsmt

open RaftLsmt.Lib.StepMachine
open RaftLsmt.Lib.SortedMerge

/-- `lsmt_iterator_t`; `slIt` is `sl_its[0]` when `sl_count` is 1. -/
structure LsmtIterator where
  active : Bool
  slIt : Option WrapperSlIt
  sstList : SstKIterators
  bufferedSstRecord : Option KvRawRecord

/-- `lsmt_iterator_create`. -/
def lsmtIteratorCreate (lsmt : LsmtState) : LsmtIterator where
  active := true
  slIt := if lsmt.memtable.size > 0 then some (wrSlItCreate lsmt.memtable) else none
  sstList := sstKIteratorsCreate (lsmt.metadata.records.map fun sst => (sst, IoFaults.none))
  bufferedSstRecord := none

/-- `lsmt_iterator_seek`. -/
def lsmtIteratorSeek (memtable : Sl) (it : LsmtIterator) (startKey endKey : SlUint128) :
    LsmtIterator :=
  { it with
    active := true
    slIt := it.slIt.map fun wrap => (wrSlIteratorSeek memtable wrap startKey endKey).2
    sstList :=
      if it.sstList.opened ++ it.sstList.pending = [] then it.sstList
      else sstKIteratorsSeek it.sstList startKey endKey }

/-- The memtable half of `lsmt_iterator_next`: the wrapper with its record buffered. -/
def lsmtPeekMemtable (memtable : Sl) : Option WrapperSlIt → Option (Option WrapperSlIt)
  | none => some none
  | some wrap => (wrSlEnsureBuffered memtable wrap).map some

/-- The SST half of `lsmt_iterator_next`: `buffered_sst_record` refilled. -/
def lsmtPeekSst (it : LsmtIterator) : Option (Option KvRawRecord × SstKIterators) :=
  if it.bufferedSstRecord.isNone ∧ it.sstList.active = true then sstKIteratorsNext it.sstList
  else some (it.bufferedSstRecord, it.sstList)

/-- The memtable record is taken. -/
def WrapperSlIt.consume (wrap : WrapperSlIt) : WrapperSlIt := { wrap with bufferedRecord := none }

/-- `lsmt_iterator_next`; `none` when the process stops or a copy leaves the stored content. -/
def lsmtIteratorNext (memtable : Sl) (it : LsmtIterator) :
    Option (Option KvRawRecord × LsmtIterator) :=
  if it.active = false then some (none, it)
  else
    match lsmtPeekMemtable memtable it.slIt, lsmtPeekSst it with
    | some slIt, some (sstRec, sstList) =>
      let it := { it with slIt := slIt, sstList := sstList, bufferedSstRecord := sstRec }
      let taken := { it with slIt := slIt.map WrapperSlIt.consume }
      match slIt.bind WrapperSlIt.bufferedRecord, sstRec with
      | some mem, some sst =>
        if keyCompare mem.key sst.key ≤ 0 then
          (some (some mem,
            if keyCompare mem.key sst.key = 0 then { taken with bufferedSstRecord := none }
            else taken))
        else some (some sst, { it with bufferedSstRecord := none })
      | some mem, none => some (some mem, taken)
      | none, some sst => some (some sst, { it with bufferedSstRecord := none })
      | none, none => some (none, { it with active := false })
    | _, _ => none

/-- More calls than records can remain. -/
def scanFuel (lsmt : LsmtState) : Nat :=
  lsmt.memtable.bottomLevel.length +
    (lsmt.metadata.records.map fun sst => sst.sstFile.length).sum + 1

/-- Create an iterator, seek it and drain it while the store does not change. -/
def lsmtScan (lsmt : LsmtState) (startKey endKey : SlUint128) : Option (List KvRawRecord) :=
  drain (lsmtIteratorNext lsmt.memtable) (scanFuel lsmt)
    (lsmtIteratorSeek lsmt.memtable (lsmtIteratorCreate lsmt) startKey endKey)

/-! ## One call -/

/-- The records of a memtable. -/
def Sl.records (sl : Sl) : List KvRawRecord := sl.bottomLevel.map rawOf

theorem Sl.Wf.strict_records {sl : Sl} (h : sl.Wf) : StrictBy KvRawRecord.key sl.records :=
  strictBy_map_rawOf.mpr h.strict

/-- A memtable whose records can all be read. -/
structure Sl.Ok (sl : Sl) : Prop where
  wf : sl.Wf
  consistent : ∀ n ∈ sl.bottomLevel, SelfConsistent n.2

theorem Sl.Ok.readable {sl : Sl} (h : sl.Ok) : ∀ n ∈ sl.bottomLevel, Readable n.2 :=
  fun n hn => (h.consistent n hn).readable

namespace LsmtIterator

/-- The memtable records the iterator still hands out. -/
def memRemaining (memtable : Sl) (it : LsmtIterator) : List KvRawRecord :=
  (it.slIt.map (WrapperSlIt.remaining memtable)).getD []

/-- The iterator points into the memtable. -/
def PointsInto (memtable : Sl) (it : LsmtIterator) : Prop :=
  ∀ wrap, it.slIt = some wrap → wrap.slIt.PointsInto memtable

/-- The SST records the iterator still hands out. -/
def SstRemaining (it : LsmtIterator) (rs : List KvRawRecord) : Prop :=
  ∃ fuel tail, drain sstKIteratorsNext fuel it.sstList = some tail ∧
    rs = it.bufferedSstRecord.toList ++ tail

/-- An active iterator with `ms` to come from the memtable and `rs` from the SSTs. -/
structure Represents (memtable : Sl) (it : LsmtIterator) (ms rs : List KvRawRecord) : Prop where
  active : it.active = true
  points : it.PointsInto memtable
  mem : ms = it.memRemaining memtable
  sst : it.SstRemaining rs

end LsmtIterator

/-- Buffering the memtable record shows the first remaining one. -/
theorem lsmtPeekMemtable_spec {memtable : Sl} (hm : memtable.Ok) {it : LsmtIterator}
    (hp : it.PointsInto memtable) :
    ∃ slIt, lsmtPeekMemtable memtable it.slIt = some slIt ∧
      slIt.bind WrapperSlIt.bufferedRecord = (it.memRemaining memtable).head? ∧
      (slIt.map (WrapperSlIt.remaining memtable)).getD [] = it.memRemaining memtable ∧
      ∀ wrap, slIt = some wrap → wrap.slIt.PointsInto memtable := by
  cases hsl : it.slIt with
  | none => exact ⟨none, rfl, by simp [LsmtIterator.memRemaining, hsl],
      by simp [LsmtIterator.memRemaining, hsl], by simp⟩
  | some wrap =>
    obtain ⟨wrap', hens, hspec⟩ := wrSlEnsureBuffered_spec hm.wf hm.readable (hp wrap hsl)
    refine ⟨some wrap', by simp [lsmtPeekMemtable, hens], ?_, ?_, ?_⟩
    · simp [LsmtIterator.memRemaining, hsl, hspec.shown]
    · simp [LsmtIterator.memRemaining, hsl, hspec.same]
    · rintro x ⟨⟩
      exact hspec.points

/-- Refilling the SST record shows the first remaining one. -/
theorem lsmtPeekSst_spec {it : LsmtIterator} {rs : List KvRawRecord} (h : it.SstRemaining rs) :
    ∃ sstList fuel tail, lsmtPeekSst it = some (rs.head?, sstList) ∧
      drain sstKIteratorsNext fuel sstList = some tail ∧ rs = rs.head?.toList ++ tail := by
  obtain ⟨fuel, tail, hdrain, rfl⟩ := h
  rw [lsmtPeekSst]
  cases hbuf : it.bufferedSstRecord with
  -- a record in the buffer is not taken off the merge
  | some rec => exact ⟨it.sstList, fuel, tail, by simp, hdrain, by simp⟩
  | none =>
    simp only [Option.isNone_none, true_and, Option.toList_none, List.nil_append]
    -- an empty buffer is filled by one call of the merge
    cases fuel with
    | zero => simp [drain] at hdrain
    | succ fuel =>
      by_cases hact : it.sstList.active = true
      · rw [if_pos hact]
        rw [drain] at hdrain
        cases hnext : sstKIteratorsNext it.sstList with
        -- the merge has ended with this call
        | none => simp [hnext] at hdrain
        | some answer =>
          obtain ⟨rec, sstList⟩ := answer
          cases rec with
          | none =>
            have hdone : drain sstKIteratorsNext 1 sstList = some [] := by
              have hinactive : sstList.active = false := sstKIteratorsNext_none_inactive hnext
              simp [drain, sstKIteratorsNext, hinactive]
            simp only [hnext, Option.some.injEq] at hdrain
            subst hdrain
            exact ⟨sstList, 1, [], rfl, hdone, rfl⟩
          | some rec =>
            simp only [hnext, Option.map_eq_some_iff] at hdrain
            obtain ⟨tail', htail', rfl⟩ := hdrain
            exact ⟨sstList, fuel, tail', rfl, htail', rfl⟩
      · -- it had ended before
        rw [if_neg hact]
        have hnil : tail = [] := by
          simp only [drain, sstKIteratorsNext, if_pos (by simpa using hact),
            Option.some.injEq] at hdrain
          exact hdrain.symm
        subst hnil
        exact ⟨it.sstList, fuel + 1, [], rfl, hdrain, rfl⟩

theorem remaining_consume {memtable : Sl} {wrap : WrapperSlIt} {rec : KvRawRecord}
    (h : wrap.bufferedRecord = some rec) :
    wrap.remaining memtable = rec :: wrap.consume.remaining memtable := by
  simp [WrapperSlIt.remaining, WrapperSlIt.consume, h]

/-- What one call does: it hands out what one merge step does, and ends with the lists. -/
structure NextSpec (memtable : Sl) (ms rs : List KvRawRecord)
    (answer : Option KvRawRecord × LsmtIterator) : Prop where
  ended : mergeStep KvRawRecord.key ms rs = none → answer.1 = none ∧ answer.2.active = false
  more : ∀ rec ms' rs', mergeStep KvRawRecord.key ms rs = some (rec, ms', rs') →
    answer.1 = some rec ∧ answer.2.Represents memtable ms' rs'

theorem nextSpec_some {memtable : Sl} {ms rs ms' rs' : List KvRawRecord} {rec : KvRawRecord}
    {it' : LsmtIterator} (hstep : mergeStep KvRawRecord.key ms rs = some (rec, ms', rs'))
    (h : it'.Represents memtable ms' rs') : NextSpec memtable ms rs (some rec, it') where
  ended hnone := by
    rw [hstep] at hnone
    cases hnone
  more rec' ms'' rs'' hsome := by
    rw [hstep] at hsome
    cases hsome
    exact ⟨rfl, h⟩

theorem lsmtIteratorNext_spec {memtable : Sl} (hm : memtable.Ok) {it : LsmtIterator}
    {ms rs : List KvRawRecord} (h : it.Represents memtable ms rs) :
    ∃ answer, lsmtIteratorNext memtable it = some answer ∧ NextSpec memtable ms rs answer := by
  obtain ⟨hact, hpoints, rfl, hsst⟩ := h
  obtain ⟨slIt, hpeek, hshown, hsame, hp⟩ := lsmtPeekMemtable_spec hm hpoints
  obtain ⟨sstList, fuel, tail, hpeekSst, hdrain, hrs⟩ := lsmtPeekSst_spec hsst
  have hactive : ¬ it.active = false := by simp [hact]
  -- the iterator after buffering both sides, and after taking the memtable record
  have hmem : ∀ m ms', it.memRemaining memtable = m :: ms' →
      ∃ wrap, slIt = some wrap ∧ wrap.bufferedRecord = some m ∧
        wrap.consume.remaining memtable = ms' := by
    intro m ms' hms
    cases hsl : slIt with
    | none => simp [hsl, hms] at hshown
    | some wrap =>
      simp only [hsl, hms, Option.bind_some, List.head?_cons] at hshown
      simp only [hsl, Option.map_some, Option.getD_some, hms, remaining_consume hshown,
        List.cons.injEq] at hsame
      exact ⟨wrap, rfl, hshown, hsame.2⟩
  -- the memtable record is used up, the SST record stays in its buffer
  have htaken : ∀ m ms' (sstRec : Option KvRawRecord), it.memRemaining memtable = m :: ms' →
      LsmtIterator.Represents memtable
        { it with slIt := slIt.map WrapperSlIt.consume, sstList := sstList,
                  bufferedSstRecord := sstRec } ms' (sstRec.toList ++ tail) := by
    intro m ms' sstRec hms
    obtain ⟨wrap, hwrap, -, hrest⟩ := hmem m ms' hms
    refine ⟨hact, fun x hx => ?_, ?_, fuel, tail, hdrain, rfl⟩
    · simp only [hwrap, Option.map_some, Option.some.injEq] at hx
      subst hx
      exact hp wrap hwrap
    · simp [LsmtIterator.memRemaining, hwrap, hrest]
  -- the SST record is used up
  have hkept : LsmtIterator.Represents memtable
      { it with slIt := slIt, sstList := sstList, bufferedSstRecord := none }
      (it.memRemaining memtable) tail :=
    ⟨hact, hp, hsame.symm, fuel, tail, hdrain, rfl⟩
  rw [lsmtIteratorNext, if_neg hactive, hpeek, hpeekSst]
  simp only [hshown]
  cases hms : it.memRemaining memtable with
  | nil =>
    cases rs with
    | nil =>
      -- both sides are at their end: the iterator becomes inactive
      refine ⟨_, rfl, ⟨fun _ => ⟨rfl, rfl⟩, ?_⟩⟩
      intro rec ms' rs' hstep
      cases hstep
    | cons r rs =>
      simp only [List.head?_cons, Option.toList_some, List.singleton_append, List.cons.injEq,
        true_and] at hrs
      subst hrs
      rw [hms] at hkept
      exact ⟨_, rfl, nextSpec_some rfl hkept⟩
  | cons m ms =>
    cases rs with
    | nil =>
      simp only [List.head?_nil, Option.toList_none, List.nil_append] at hrs
      subst hrs
      exact ⟨_, rfl, nextSpec_some rfl (htaken m ms none hms)⟩
    | cons r rs =>
      simp only [List.head?_cons, Option.toList_some, List.singleton_append, List.cons.injEq,
        true_and] at hrs
      subst hrs
      rw [hms] at hkept
      simp only [List.head?_cons, keyCompare_nonpos_iff, keyCompare_eq_zero_iff]
      -- as in the merge, the smaller key goes first, and of equal keys the memtable's
      rcases lt_trichotomy m.key r.key with hlt | heq | hgt
      · rw [if_pos hlt.le, if_neg hlt.ne]
        refine ⟨_, rfl, nextSpec_some ?_ (htaken m ms (some r) hms)⟩
        rw [mergeStep, if_pos hlt]
        rfl
      · rw [if_pos heq.le, if_pos heq]
        refine ⟨_, rfl, nextSpec_some ?_ (htaken m ms none hms)⟩
        rw [mergeStep, if_neg (not_lt.mpr heq.ge), if_neg (not_lt.mpr heq.le)]
        rfl
      · rw [if_neg (not_le.mpr hgt)]
        refine ⟨_, rfl, nextSpec_some ?_ hkept⟩
        rw [mergeStep, if_neg (lt_asymm hgt), if_pos hgt]

/-! ## A whole scan -/

theorem memRemaining_seek_create {lsmt : LsmtState} (h : lsmt.memtable.Wf)
    (startKey endKey : SlUint128) :
    (lsmtIteratorSeek lsmt.memtable (lsmtIteratorCreate lsmt) startKey endKey).memRemaining
        lsmt.memtable = rangeFilter KvRawRecord.key startKey endKey lsmt.memtable.records := by
  have hmap : rangeFilter KvRawRecord.key startKey endKey lsmt.memtable.records =
      (rangeFilter Prod.fst startKey endKey lsmt.memtable.bottomLevel).map rawOf := by
    simp only [rangeFilter, Sl.records, List.filter_map]
    rfl
  simp only [LsmtIterator.memRemaining, lsmtIteratorSeek, lsmtIteratorCreate]
  by_cases hsize : lsmt.memtable.size > 0
  · rw [if_pos hsize, hmap]
    exact remaining_wrSlIteratorSeek h _ startKey endKey
  · have hnil : lsmt.memtable.bottomLevel = [] := by
      by_contra hne
      exact hsize (h.size_pos_iff.mpr hne)
    rw [if_neg hsize, hmap, hnil]
    rfl

theorem pointsInto_seek_create (lsmt : LsmtState) (memtable : Sl) (startKey endKey : SlUint128) :
    (lsmtIteratorSeek memtable (lsmtIteratorCreate lsmt) startKey endKey).PointsInto memtable := by
  intro wrap hwrap
  simp only [lsmtIteratorSeek, lsmtIteratorCreate] at hwrap
  split at hwrap
  · simp only [Option.map_some, Option.some.injEq] at hwrap
    subst hwrap
    exact pointsInto_slIteratorSeek (by simp [SlIterator.PointsInto, slIteratorCreate,
      wrSlItCreate]) startKey endKey
  · simp at hwrap

/-- The records of a list of SSTs. -/
def sstRecords (ssts : List SstMetadataRecord) : List KvRawRecord :=
  ssts.flatMap SstMetadataRecord.records

/-- A range scan of these SSTs cannot skip a record: no file repeats a key, or the range starts
below every key. -/
def Scannable (ssts : List SstMetadataRecord) (startKey : SlUint128) : Prop :=
  ∀ sst ∈ ssts, LookupSafe sst.records startKey

@[simp]
theorem sstRecords_nil : sstRecords [] = [] := rfl

@[simp]
theorem sstRecords_cons (sst : SstMetadataRecord) (ssts : List SstMetadataRecord) :
    sstRecords (sst :: ssts) = sst.records ++ sstRecords ssts := rfl

@[simp]
theorem sstRecords_append (ssts ssts' : List SstMetadataRecord) :
    sstRecords (ssts ++ ssts') = sstRecords ssts ++ sstRecords ssts' := List.flatMap_append

theorem records_sublist_sstRecords {sst : SstMetadataRecord} {ssts : List SstMetadataRecord}
    (h : sst ∈ ssts) : sst.records.Sublist (sstRecords ssts) := by
  obtain ⟨pre, post, rfl⟩ := List.append_of_mem h
  rw [sstRecords_append, sstRecords_cons]
  exact (List.sublist_append_left _ _).trans (List.sublist_append_right _ _)

/-- Files that share no key, and repeat none, can be scanned from any key. -/
theorem scannable_of_nodup {ssts : List SstMetadataRecord} (hok : ∀ sst ∈ ssts, SstOk sst)
    (hnodup : ((sstRecords ssts).map KvRawRecord.key).Nodup) (startKey : SlUint128) :
    Scannable ssts startKey := by
  intro sst hsst
  exact Or.inl ((hok sst hsst).holds.sorted.strictBy_iff_nodup.mpr
    (hnodup.sublist ((records_sublist_sstRecords hsst).map _)))

/-- The range of all files is the union of their ranges. -/
theorem rangeFilter_sstRecords (startKey endKey : SlUint128) (ssts : List SstMetadataRecord) :
    rangeFilter KvRawRecord.key startKey endKey (sstRecords ssts) =
      ssts.flatMap fun sst => rangeFilter KvRawRecord.key startKey endKey sst.records := by
  simp only [sstRecords, rangeFilter, List.filter_flatMap]

/-- What the SST half of a scan lists: records of the range in key order, each key of the range among
them, and all of them when no lookup can skip one. -/
structure SstScan (ssts : List SstMetadataRecord) (startKey endKey : SlUint128)
    (rs : List KvRawRecord) : Prop where
  sorted : SortedBy KvRawRecord.key rs
  subperm : rs.Subperm (rangeFilter KvRawRecord.key startKey endKey (sstRecords ssts))
  keys : ∀ r ∈ rangeFilter KvRawRecord.key startKey endKey (sstRecords ssts),
    ∃ x ∈ rs, x.key = r.key
  perm : Scannable ssts startKey →
    rs.Perm (rangeFilter KvRawRecord.key startKey endKey (sstRecords ssts))

theorem SstScan.subset {ssts : List SstMetadataRecord} {startKey endKey : SlUint128}
    {rs : List KvRawRecord} (h : SstScan ssts startKey endKey rs) : rs ⊆ sstRecords ssts :=
  fun _ hr => (rangeFilter_sublist _ _ _).subset (h.subperm.subset hr)

theorem SstScan.strict {ssts : List SstMetadataRecord} {startKey endKey : SlUint128}
    {rs : List KvRawRecord} (h : SstScan ssts startKey endKey rs)
    (hnodup : ((sstRecords ssts).map KvRawRecord.key).Nodup) : StrictBy KvRawRecord.key rs := by
  refine h.sorted.strictBy_iff_nodup.mpr ?_
  obtain ⟨l, hperm, hsub⟩ := h.subperm
  rw [← (hperm.map KvRawRecord.key).nodup_iff]
  exact hnodup.sublist ((hsub.trans (rangeFilter_sublist _ _ _)).map _)

/-- The merge of the registered files, created and positioned on the range. -/
theorem exists_sstKIteratorsScan {ssts : List SstMetadataRecord} (hok : ∀ sst ∈ ssts, SstOk sst)
    (startKey endKey : SlUint128) :
    ∃ rs, sstKIteratorsScan (ssts.map fun sst => (sst, IoFaults.none)) startKey endKey = some rs ∧
      SstScan ssts startKey endKey rs := by
  -- a file that is not listed is never opened, so its list does not matter
  have hex : ∀ sst : SstMetadataRecord, ∃ ls, sst ∈ ssts →
      ScansTo startKey endKey (sst, IoFaults.none) ls ∧
        ls.Sublist (rangeFilter KvRawRecord.key startKey endKey sst.records) ∧
        (LookupSafe sst.records startKey →
          ls = rangeFilter KvRawRecord.key startKey endKey sst.records) ∧
        ∀ r ∈ rangeFilter KvRawRecord.key startKey endKey sst.records, ∃ x ∈ ls, x.key = r.key := by
    intro sst
    by_cases hsst : sst ∈ ssts
    · obtain ⟨ls, hls⟩ := exists_scansTo_keys (hok sst hsst).holds startKey endKey
      exact ⟨ls, fun _ => hls⟩
    · exact ⟨[], fun hmem => absurd hmem hsst⟩
  choose ls hls using hex
  have hto : ∀ i ∈ ssts.map fun sst => (sst, IoFaults.none), ScansTo startKey endKey i (ls i.1) := by
    intro i hi
    obtain ⟨sst, hsst, rfl⟩ := List.mem_map.mp hi
    exact (hls sst hsst).1
  obtain ⟨rs, hrs⟩ := sstKIteratorsScan_eq_some hto (by
    intro i hi
    obtain ⟨sst, hsst, rfl⟩ := List.mem_map.mp hi
    exact (sstIteratorCreate_fresh (hok sst hsst).holds _).seek_ne_none rfl startKey endKey)
  obtain ⟨hsorted, hperm⟩ := sstKIteratorsScan_sorted_perm hto hrs
  rw [List.flatMap_map] at hperm
  -- the merge has the records of the files, so what holds of each file holds of it
  refine ⟨rs, hrs, hsorted, ?_, fun r hr => ?_, fun hscan => ?_⟩
  · rw [rangeFilter_sstRecords]
    exact hperm.subperm.trans
      (List.Sublist.flatMap_right ssts fun sst hsst => (hls sst hsst).2.1).subperm
  · rw [rangeFilter_sstRecords] at hr
    obtain ⟨sst, hsst, hr⟩ := List.mem_flatMap.mp hr
    obtain ⟨x, hx, hkey⟩ := (hls sst hsst).2.2.2 r hr
    exact ⟨x, hperm.symm.subset (List.mem_flatMap.mpr ⟨sst, hsst, hx⟩), hkey⟩
  · rw [rangeFilter_sstRecords]
    refine hperm.trans (List.Perm.of_eq ?_)
    rw [List.flatMap_def, List.flatMap_def]
    exact congrArg List.flatten
      (List.map_congr_left fun sst hsst => (hls sst hsst).2.2.1 (hscan sst hsst))

/-- After creation and seek the SST half has a scan of the registered files to come. -/
theorem sstRemaining_seek_create {lsmt : LsmtState} (hok : ∀ sst ∈ lsmt.metadata.records, SstOk sst)
    (memtable : Sl) (startKey endKey : SlUint128) :
    ∃ rs, (lsmtIteratorSeek memtable (lsmtIteratorCreate lsmt) startKey
        endKey).SstRemaining rs ∧ SstScan lsmt.metadata.records startKey endKey rs := by
  obtain ⟨rs, hrs, hscan⟩ := exists_sstKIteratorsScan hok startKey endKey
  refine ⟨rs, ?_, hscan⟩
  by_cases hnil : lsmt.metadata.records = []
  · have hrsnil : rs = [] := by
      have hsub := hscan.subset
      rw [hnil] at hsub
      exact List.subset_nil.mp hsub
    refine ⟨1, [], ?_, hrsnil⟩
    simp [lsmtIteratorSeek, lsmtIteratorCreate, hnil, sstKIteratorsCreate, sstKIteratorsNext,
      drain]
  · have hne : (sstKIteratorsCreate (lsmt.metadata.records.map fun sst =>
        (sst, IoFaults.none))).pending ≠ [] := by
      intro h
      have hlen := congrArg List.length h
      simp only [sstKIteratorsCreate, List.length_mergeSort, List.length_map,
        List.length_nil] at hlen
      exact hnil (List.length_eq_zero_iff.mp hlen)
    have hseek : (lsmtIteratorSeek memtable (lsmtIteratorCreate lsmt) startKey
        endKey).sstList = sstKIteratorsSeek (lsmtIteratorCreate lsmt).sstList startKey endKey :=
      if_neg fun h => hne (List.append_eq_nil_iff.mp h).2
    refine ⟨(sstKIteratorsSeek (lsmtIteratorCreate lsmt).sstList startKey endKey).fuel, rs, ?_,
      rfl⟩
    rw [hseek]
    exact hrs

/-- After creation and seek the iterator has the range of the memtable and a scan of the SSTs to
merge. -/
theorem represents_seek_create {lsmt : LsmtState} (hm : lsmt.memtable.Ok)
    (hok : ∀ sst ∈ lsmt.metadata.records, SstOk sst) (startKey endKey : SlUint128) :
    ∃ rs, (lsmtIteratorSeek lsmt.memtable (lsmtIteratorCreate lsmt) startKey endKey).Represents
        lsmt.memtable (rangeFilter KvRawRecord.key startKey endKey lsmt.memtable.records) rs ∧
      SstScan lsmt.metadata.records startKey endKey rs := by
  obtain ⟨rs, hrs, hscan⟩ := sstRemaining_seek_create hok lsmt.memtable startKey endKey
  exact ⟨rs, ⟨rfl, pointsInto_seek_create lsmt lsmt.memtable startKey endKey,
    (memRemaining_seek_create hm.wf startKey endKey).symm, hrs⟩, hscan⟩

/-- The memtable may have grown between the creation and the seek: the iterator has some of its
records to merge. -/
theorem exists_represents_seek {lsmt : LsmtState} {memtable : Sl} (hm : memtable.Ok)
    (hok : ∀ sst ∈ lsmt.metadata.records, SstOk sst) (startKey endKey : SlUint128) :
    ∃ ms rs, (lsmtIteratorSeek memtable (lsmtIteratorCreate lsmt) startKey endKey).Represents
        memtable ms rs ∧ ms ⊆ memtable.records ∧
      SstScan lsmt.metadata.records startKey endKey rs := by
  obtain ⟨rs, hrs, hscan⟩ := sstRemaining_seek_create hok memtable startKey endKey
  refine ⟨_, rs, ⟨rfl, pointsInto_seek_create lsmt memtable startKey endKey, rfl, hrs⟩, ?_, hscan⟩
  simp only [LsmtIterator.memRemaining, lsmtIteratorSeek, lsmtIteratorCreate]
  split
  · rw [Option.map_some, Option.map_some, Option.getD_some, remaining_wrSlIteratorSeek hm.wf]
    exact List.map_subset _ (rangeFilter_sublist _ _ _).subset
  · exact List.nil_subset _

theorem length_sstRecords_le {ssts : List SstMetadataRecord} (hok : ∀ sst ∈ ssts, SstOk sst) :
    (sstRecords ssts).length ≤ (ssts.map fun sst => sst.sstFile.length).sum := by
  rw [sstRecords, List.length_flatMap]
  refine List.sum_le_sum fun sst hsst => ?_
  have hle := length_le_length_fileBytes (hok sst hsst).holds.wf
  rwa [← (hok sst hsst).holds.file_eq] at hle

/-- Draining an iterator while the store rests merges what it had to come. -/
theorem drain_of_represents {memtable : Sl} (hm : memtable.Ok) {it : LsmtIterator}
    {ms rs : List KvRawRecord} (h : it.Represents memtable ms rs) {fuel : Nat}
    (hfuel : (shadowMerge KvRawRecord.key ms rs).length < fuel) :
    drain (lsmtIteratorNext memtable) fuel it = some (shadowMerge KvRawRecord.key ms rs) := by
  refine drain_eq_shadowMerge (R := LsmtIterator.Represents memtable) ?_ ?_ _ _ _ _ h hfuel
  · intro it ms rs h hstep
    obtain ⟨answer, hnext, hspec⟩ := lsmtIteratorNext_spec hm h
    exact ⟨answer.2, by rw [hnext, ← (hspec.ended hstep).1]⟩
  · intro it ms rs rec ms' rs' h hstep
    obtain ⟨answer, hnext, hspec⟩ := lsmtIteratorNext_spec hm h
    obtain ⟨hrec, hrep'⟩ := hspec.more rec ms' rs' hstep
    exact ⟨answer.2, by rw [hnext, ← hrec], hrep'⟩

/-- The fuel of a scan suffices. -/
theorem SstScan.length_lt_scanFuel {lsmt : LsmtState}
    (hok : ∀ sst ∈ lsmt.metadata.records, SstOk sst) {startKey endKey : SlUint128}
    {rs : List KvRawRecord} (h : SstScan lsmt.metadata.records startKey endKey rs) :
    (shadowMerge KvRawRecord.key
      (rangeFilter KvRawRecord.key startKey endKey lsmt.memtable.records) rs).length <
        scanFuel lsmt := by
  have hlen := length_shadowMerge_le (f := KvRawRecord.key)
    (rangeFilter KvRawRecord.key startKey endKey lsmt.memtable.records) rs
  have hmem := (rangeFilter_sublist (f := KvRawRecord.key) startKey endKey
    lsmt.memtable.records).length_le
  have hsst := (rangeFilter_sublist (f := KvRawRecord.key) startKey endKey
    (sstRecords lsmt.metadata.records)).length_le
  have hsub := h.subperm.length_le
  have hfile := length_sstRecords_le hok
  simp only [Sl.records, List.length_map] at hmem hlen
  rw [scanFuel]
  simp only [Sl.records]
  omega

/-- A scan of a resting store returns the memtable's range merged into a scan of the SSTs. -/
theorem lsmtScan_eq {lsmt : LsmtState} (hm : lsmt.memtable.Ok)
    (hok : ∀ sst ∈ lsmt.metadata.records, SstOk sst) (startKey endKey : SlUint128) :
    ∃ rs, lsmtScan lsmt startKey endKey = some (shadowMerge KvRawRecord.key
        (rangeFilter KvRawRecord.key startKey endKey lsmt.memtable.records) rs) ∧
      SstScan lsmt.metadata.records startKey endKey rs := by
  obtain ⟨rs, hrep, hscan⟩ := represents_seek_create hm hok startKey endKey
  exact ⟨rs, drain_of_represents hm hrep (hscan.length_lt_scanFuel hok), hscan⟩

/-! ## A growing memtable -/

/-- An insertion adds at most its own record. -/
theorem slInsert_records {sl : Sl} (h : sl.Ok) {key : SlUint128} {content : Bytes}
    (hc : SelfConsistent content) :
    (slInsert sl key content).1.Ok ∧ sl.bottomLevel ⊆ (slInsert sl key content).1.bottomLevel ∧
      ∀ a ∈ (slInsert sl key content).1.records, a ∈ sl.records ∨ a = rawOf (key, content) := by
  rcases slInsert_cases h.wf key content with ⟨hins, -⟩ | ⟨sl', hins, -, hwf, -, hperm⟩
  · rw [hins]
    exact ⟨h, List.Subset.refl _, fun a ha => Or.inl ha⟩
  · rw [hins]
    refine ⟨⟨hwf, fun n hn => ?_⟩, fun n hn => hperm.symm.subset (List.mem_cons_of_mem _ hn),
      fun a ha => ?_⟩
    · rcases List.mem_cons.mp (hperm.subset hn) with rfl | hn
      · exact hc
      · exact h.consistent n hn
    · obtain ⟨n, hn, rfl⟩ := List.mem_map.mp ha
      rcases List.mem_cons.mp (hperm.subset hn) with rfl | hn
      · exact Or.inr rfl
      · exact Or.inl (List.mem_map_of_mem hn)

/-- The iterator keeps what it had to come when its memtable grows. -/
theorem LsmtIterator.Represents.grow {sl sl' : Sl} (hsl : sl.Ok) (hsl' : sl'.Ok)
    (hsub : sl.bottomLevel ⊆ sl'.bottomLevel) {it : LsmtIterator} {ms rs : List KvRawRecord}
    (h : it.Represents sl ms rs) (hms : ms ⊆ sl.records) :
    ∃ ms', it.Represents sl' ms' rs ∧ ms ⊆ ms' ∧ ms' ⊆ sl'.records := by
  obtain ⟨hact, hpoints, rfl, hsst⟩ := h
  refine ⟨it.memRemaining sl', ⟨hact, fun wrap hwrap => (hpoints wrap hwrap).mono hsub, rfl, hsst⟩,
    ?_, ?_⟩
  · cases hsl : it.slIt with
    | none => simp [LsmtIterator.memRemaining, hsl]
    | some wrap =>
      simp only [LsmtIterator.memRemaining, hsl, Option.map_some, Option.getD_some]
      exact WrapperSlIt.remaining_subset ‹sl.Ok›.wf.strict hsl'.wf.strict (hpoints wrap hsl) hsub
  · cases hsl : it.slIt with
    | none => simp [LsmtIterator.memRemaining, hsl]
    | some wrap =>
      simp only [LsmtIterator.memRemaining, hsl, Option.map_some, Option.getD_some] at hms ⊢
      intro a ha
      rcases List.mem_append.mp ha with ha | ha
      · obtain ⟨n, hn, rfl⟩ := List.mem_map.mp (hms (List.mem_append_left _ ha))
        exact List.mem_map_of_mem (hsub hn)
      · obtain ⟨n, hn, rfl⟩ := List.mem_map.mp ha
        exact List.mem_map_of_mem (SlIterator.rest_subset_bottomLevel sl' _ hn)

end RaftLsmt.Lsmt
