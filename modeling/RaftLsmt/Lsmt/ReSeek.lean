import RaftLsmt.Lsmt.PlainMerge
import RaftLsmt.Lsmt.Scan

/-!
# Seeking an iterator again

`lsmt_iterator_seek` may be called on an iterator that has been read from. Look-ahead state sits at
four levels: the header an SST iterator has read, its buffered record, the buffered memtable record,
and the SST record that `lsmt_iterator_next` holds back. The seek drops the first three. A seek of
the SST iterators leaves them with what a fresh iterator would have (`seekYields_reads`), so the
merge over them starts again (`drain_sstKIteratorsSeek`).

The record held back in `buffered_sst_record` survives the seek and is merged in front of the new
range. It always shows (`shadowMerge_cons_ne`), so a seek is as good as one of a new iterator exactly
when no record is held back (`reseek_fresh_iff`).
-/

set_option autoImplicit false

namespace RaftLsmt.Lsmt

open RaftLsmt.Lib.StepMachine
open RaftLsmt.Lib.SortedMerge
open RaftLsmt.Lib.KWayMerge

/-! ## One SST iterator -/

/-- The index that the iterators over a file use: the one cached in its record, or the one on disk. -/
def SstMetadataRecord.usedIndex (sst : SstMetadataRecord) : Option (List IndexBlock) :=
  sst.cachedIndex.or (indexLoadFromDisk IoFaults.none sst.sstIndexFile)

/-- What no call changes: the file the iterator reads, and the index that its record leads to. -/
structure SstIterator.Reads (sst : SstMetadataRecord) (it : SstIterator) : Prop where
  sst_eq : it.sst = sst
  faults_eq : it.faults = IoFaults.none
  cached : ∀ index, it.cachedIndex = some index → sst.usedIndex = some index
  uncached : it.cachedIndex = none → sst.cachedIndex = none

theorem reads_sstIteratorCreate (sst : SstMetadataRecord) :
    (sstIteratorCreate sst IoFaults.none).Reads sst where
  sst_eq := rfl
  faults_eq := rfl
  cached := by
    intro index hindex
    have hindex : sst.cachedIndex = some index := hindex
    rw [SstMetadataRecord.usedIndex, hindex, Option.some_or]
  uncached hnone := hnone

namespace SstIterator

/-- Two states of one iterator. -/
structure SameFile (it it' : SstIterator) : Prop where
  sst_eq : it'.sst = it.sst
  faults_eq : it'.faults = it.faults
  cachedIndex_eq : it'.cachedIndex = it.cachedIndex

theorem Reads.of_sameFile {sst : SstMetadataRecord} {it it' : SstIterator} (h : it.Reads sst)
    (hsame : it.SameFile it') : it'.Reads sst where
  sst_eq := hsame.sst_eq.trans h.sst_eq
  faults_eq := hsame.faults_eq.trans h.faults_eq
  cached index hindex := h.cached index (hsame.cachedIndex_eq ▸ hindex)
  uncached hnone := h.uncached (hsame.cachedIndex_eq ▸ hnone)

end SstIterator

theorem sameFile_sstIteratorPeekBody (it : SstIterator) (header : PendingHeader) (pos : Nat) :
    it.SameFile (sstIteratorPeekBody it header pos).2 := by
  rw [sstIteratorPeekBody]
  split
  · exact ⟨rfl, rfl, rfl⟩
  · split <;> exact ⟨rfl, rfl, rfl⟩

theorem sameFile_sstIteratorPeek (it : SstIterator) : it.SameFile (sstIteratorPeek it).2 := by
  rw [sstIteratorPeek]
  split
  · exact ⟨rfl, rfl, rfl⟩
  · split
    · exact ⟨rfl, rfl, rfl⟩
    · split
      · have hbody := sameFile_sstIteratorPeekBody { it with pendingHeader := none }
        exact ⟨(hbody _ _).sst_eq, (hbody _ _).faults_eq, (hbody _ _).cachedIndex_eq⟩
      · split
        · exact ⟨rfl, rfl, rfl⟩
        · exact sameFile_sstIteratorPeekBody it _ _

theorem sameFile_sstIteratorSeekLoop (it : SstIterator) (start endKey : SlUint128) (pos : Nat) :
    it.SameFile (sstIteratorSeekLoop it start endKey pos).2 := by
  obtain ⟨hsst, hfaults, hcached, -⟩ := sstIteratorSeekLoop_keeps it start endKey pos
  exact ⟨hsst, hfaults, hcached⟩

/-- The search reads the file only: iterators over one file end it with the same records to come. -/
theorem remaining_sstIteratorSeekLoop_congr {it it' : SstIterator} (hsst : it'.sst = it.sst)
    (hfaults : it'.faults = it.faults) (hbuf : it.bufferedRecord = none)
    (hbuf' : it'.bufferedRecord = none) (start endKey : SlUint128) (pos : Nat) :
    (sstIteratorSeekLoop it' start endKey pos).2.remaining =
      (sstIteratorSeekLoop it start endKey pos).2.remaining := by
  fun_induction sstIteratorSeekLoop it start endKey pos with
  | case1 pos hread =>
    rw [sstIteratorSeekLoop_eq, hsst, hfaults, hread]
    rfl
  | case2 pos header hread hgt =>
    rw [sstIteratorSeekLoop_eq, hsst, hfaults, hread]
    simp only [if_pos hgt]
    rfl
  | case3 pos header hread hgt hge =>
    rw [sstIteratorSeekLoop_eq, hsst, hfaults, hread]
    simp only [if_neg hgt, if_pos hge]
    simp only [SstIterator.remaining, SstIterator.unread, hbuf, hbuf']
  | case4 pos header hread hgt hge hseek =>
    rw [sstIteratorSeekLoop_eq, hsst, hfaults, hread]
    simp only [if_neg hgt, if_neg hge, if_pos hseek]
    rfl
  | case5 pos header hread hgt hge hseek ih =>
    rw [sstIteratorSeekLoop_eq, hsst, hfaults, hread]
    simp only [if_neg hgt, if_neg hge, if_neg hseek]
    exact ih

/-- Opening the files without failures. -/
theorem sstIteratorEnsureOpen_reads {sst : SstMetadataRecord} {it : SstIterator}
    (h : it.Reads sst) :
    ∃ index, sst.usedIndex = some index ∧
      sstIteratorEnsureOpen it =
        some (true, { it with fp := some (it.fp.getD 0), cachedIndex := some index }) := by
  obtain ⟨rfl, hfaults, hcached, huncached⟩ := h
  rw [sstIteratorEnsureOpen, hfaults, if_neg (by simp [IoFaults.none])]
  cases hindex : it.cachedIndex with
  | some index => exact ⟨index, hcached index hindex, by simp⟩
  | none =>
    refine ⟨_, by rw [SstMetadataRecord.usedIndex, huncached hindex]; rfl, ?_⟩
    simp only [indexLoadFromDisk, IoFaults.none]
    rfl

/-- What a seek of an iterator over the file leaves it with. -/
def seekRecords (start endKey : SlUint128) (sst : SstMetadataRecord) : List KvRawRecord :=
  ((sstIteratorSeek (sstIteratorCreate sst IoFaults.none) start endKey).map
    fun answer => answer.2.remaining).getD []

/-- The outcome of a seek: out of range, or a search from the place the index gives. -/
theorem sstIteratorSeek_reads {sst : SstMetadataRecord} {it : SstIterator} (h : it.Reads sst)
    (start endKey : SlUint128) :
    ∃ index, sst.usedIndex = some index ∧
      sstIteratorSeek it start endKey =
        if keyCompare sst.maxKey start < 0 ∨ keyCompare sst.minKey endKey > 0 then
          some (false, { it with active := false })
        else
          some (sstIteratorSeekLoop
            { it with fp := some (it.fp.getD 0), cachedIndex := some index } start endKey
            (indexLookup index start)) := by
  obtain ⟨index, hindex, hopen⟩ := sstIteratorEnsureOpen_reads h
  refine ⟨index, hindex, ?_⟩
  have hset : it.faults.seekSet = false := by
    rw [h.faults_eq]
    rfl
  obtain ⟨rfl, -, -, -⟩ := h
  rw [sstIteratorSeek, hopen]
  simp only [hset, Bool.false_eq_true, if_false, Option.getD_some]

/-- A seek drops what the iterator has read before. -/
theorem seekYields_reads {sst : SstMetadataRecord} {it : SstIterator} (h : it.Reads sst)
    (hbuf : it.bufferedRecord = none) (start endKey : SlUint128) :
    SeekYields it start endKey (seekRecords start endKey sst) := by
  intro ok it' hseek
  obtain ⟨index, hindex, heq⟩ := sstIteratorSeek_reads h start endKey
  obtain ⟨index', hindex', hcreate⟩ :=
    sstIteratorSeek_reads (reads_sstIteratorCreate sst) start endKey
  have hsame : index' = index := Option.some.inj (hindex'.symm.trans hindex)
  subst hsame
  rw [heq] at hseek
  rw [seekRecords, hcreate]
  split at hseek
  · rename_i hout
    cases hseek
    rw [if_pos hout]
    exact seekSpec_end it it rfl
  · rename_i hin
    have hloop := Option.some.inj hseek
    rw [if_neg hin, Option.map_some, Option.getD_some]
    have hsst := (sameFile_sstIteratorSeekLoop
      { it with fp := some (it.fp.getD 0), cachedIndex := some index' } start endKey
      (indexLookup index' start)).sst_eq
    rw [hloop] at hsst
    refine ⟨?_, hsst⟩
    have hremaining := @remaining_sstIteratorSeekLoop_congr
      { sstIteratorCreate sst IoFaults.none with fp := some 0, cachedIndex := some index' }
      { it with fp := some (it.fp.getD 0), cachedIndex := some index' } h.sst_eq h.faults_eq rfl hbuf
      start endKey (indexLookup index' start)
    rw [hloop] at hremaining
    exact hremaining

theorem reads_sstIteratorSeek {sst : SstMetadataRecord} {it it' : SstIterator} {ok : Bool}
    (h : it.Reads sst) {start endKey : SlUint128}
    (hseek : sstIteratorSeek it start endKey = some (ok, it')) : it'.Reads sst := by
  obtain ⟨index, hindex, heq⟩ := sstIteratorSeek_reads h start endKey
  rw [heq] at hseek
  split at hseek
  · cases hseek
    exact h.of_sameFile ⟨rfl, rfl, rfl⟩
  · have hopened : SstIterator.Reads sst
        { it with fp := some (it.fp.getD 0), cachedIndex := some index } := by
      refine ⟨h.sst_eq, h.faults_eq, ?_, fun hnone => by cases hnone⟩
      rintro _ ⟨⟩
      exact hindex
    have hloop := hopened.of_sameFile
      (sameFile_sstIteratorSeekLoop _ start endKey (indexLookup index start))
    rwa [Option.some.inj hseek] at hloop

/-! ## The merge -/

/-- The merge reads these files, in this order. -/
def SstKIterators.Over (ssts : List SstMetadataRecord) (k : SstKIterators) : Prop :=
  List.Forall₂ SstIterator.Reads ssts (k.opened ++ k.pending)

theorem forall₂_modify_append {α β : Type} {R : α → β → Prop} {g : β → β}
    (hg : ∀ a b, R a b → R a (g b)) {l : List α} {m n : List β} (i : Nat)
    (h : List.Forall₂ R l (m ++ n)) : List.Forall₂ R l (m.modify i g ++ n) := by
  induction m generalizing l i with
  | nil => simpa using h
  | cons b m ih =>
    cases h with
    | cons hab hrest =>
      cases i with
      | zero => exact List.Forall₂.cons (hg _ _ hab) hrest
      | succ i => exact List.Forall₂.cons hab (ih i hrest)

theorem forall₂_replace {α β : Type} {R : α → β → Prop} {l : List α} {m n : List β} {b b' : β}
    (h : List.Forall₂ R l (m ++ b :: n)) (hb : ∀ a, R a b → R a b') :
    List.Forall₂ R l ((m ++ [b']) ++ n) := by
  induction m generalizing l with
  | nil =>
    cases h with
    | cons hab hrest => exact List.Forall₂.cons (hb _ hab) hrest
  | cons c m ih =>
    cases h with
    | cons hac hrest => exact List.Forall₂.cons hac (ih hrest)

theorem over_peekOpened {ssts : List SstMetadataRecord} {opened rest : List SstIterator}
    (idx : Nat) (winner : Winner) (h : List.Forall₂ SstIterator.Reads ssts (opened ++ rest)) :
    List.Forall₂ SstIterator.Reads ssts ((peekOpened idx winner opened).2 ++ rest) := by
  induction opened generalizing ssts idx winner with
  | nil => exact h
  | cons it its ih =>
    cases h with
    | cons hit hrest =>
      exact List.Forall₂.cons (hit.of_sameFile (sameFile_sstIteratorPeek it)) (ih _ _ hrest)

theorem over_openPending {ssts : List SstMetadataRecord} {start endKey : SlUint128}
    (its : List SstIterator) :
    ∀ {opened : List SstIterator} {winner winner' : Winner} {opened' pending' : List SstIterator},
      List.Forall₂ SstIterator.Reads ssts (opened ++ its) →
      openPending start endKey opened winner its = some (winner', opened', pending') →
      List.Forall₂ SstIterator.Reads ssts (opened' ++ pending') := by
  induction its with
  | nil =>
    intro opened winner winner' opened' pending' h hopen
    cases hopen
    exact h
  | cons it its ih =>
    intro opened winner winner' opened' pending' h hopen
    rw [openPending] at hopen
    split at hopen
    · cases hopen
      exact h
    · split at hopen
      · cases hopen
      · rename_i ok sought hseek
        refine ih ?_ hopen
        apply forall₂_replace h
        intro sst hreads
        exact (reads_sstIteratorSeek hreads hseek).of_sameFile (sameFile_sstIteratorPeek sought)

theorem map_sst_of_reads {ssts : List SstMetadataRecord} {its : List SstIterator}
    (h : List.Forall₂ SstIterator.Reads ssts its) : its.map SstIterator.sst = ssts := by
  induction h with
  | nil => rfl
  | cons hit _ ih => rw [List.map_cons, hit.sst_eq, ih]

theorem reads_of_mem {ssts : List SstMetadataRecord} {its : List SstIterator}
    (h : List.Forall₂ SstIterator.Reads ssts its) {it : SstIterator} (hit : it ∈ its) :
    it.Reads it.sst := by
  induction h with
  | nil => cases hit
  | cons hx _ ih =>
    rcases List.mem_cons.mp hit with rfl | hit
    · exact hx.sst_eq.symm ▸ hx
    · exact ih hit

namespace SstKIterators

variable {ssts : List SstMetadataRecord} {k : SstKIterators}

theorem Over.next {t : SstKIterators} {rec : Option KvRawRecord} (h : k.Over ssts)
    (hnext : sstKIteratorsNext k = some (rec, t)) : t.Over ssts := by
  rw [sstKIteratorsNext] at hnext
  split at hnext
  · cases hnext
    exact h
  · simp only at hnext
    split at hnext
    · cases hnext
    · rename_i hopen
      cases hnext
      exact over_openPending k.pending (over_peekOpened 0 none h) hopen
    · rename_i i rec opened pending hopen
      cases hnext
      refine forall₂_modify_append ?_ i
        (over_openPending k.pending (over_peekOpened 0 none h) hopen)
      intro sst it hreads
      exact hreads.of_sameFile ⟨rfl, rfl, rfl⟩

theorem Over.seek (h : k.Over ssts) (start endKey : SlUint128) :
    (sstKIteratorsSeek k start endKey).Over ssts := by
  rw [Over, sstKIteratorsSeek, List.nil_append, List.forall₂_map_right_iff]
  exact h.imp fun sst it hreads => hreads.of_sameFile ⟨rfl, rfl, rfl⟩

end SstKIterators

/-- The files of a new merge, in the order of `min_key`. -/
def createdFiles (ssts : List SstMetadataRecord) : List SstMetadataRecord :=
  (sstKIteratorsCreate (ssts.map fun sst => (sst, IoFaults.none))).pending.map SstIterator.sst

theorem over_sstKIteratorsCreate (ssts : List SstMetadataRecord) :
    (sstKIteratorsCreate (ssts.map fun sst => (sst, IoFaults.none))).Over (createdFiles ssts) := by
  have hall : ∀ it ∈ (sstKIteratorsCreate (ssts.map fun sst => (sst, IoFaults.none))).pending,
      it.Reads it.sst := by
    intro it hit
    obtain ⟨i, hi, rfl⟩ := List.mem_map.mp (List.mem_mergeSort.mp hit)
    obtain ⟨sst, -, rfl⟩ := List.mem_map.mp hi
    exact reads_sstIteratorCreate sst
  rw [SstKIterators.Over, createdFiles, List.forall₂_map_left_iff]
  exact List.forall₂_same.mpr hall

theorem sortedBy_createdFiles (ssts : List SstMetadataRecord) :
    SortedBy SstMetadataRecord.minKey (createdFiles ssts) := by
  rw [createdFiles, SortedBy, List.pairwise_map]
  exact sortedBy_pending_create _

theorem createdFiles_subset (ssts : List SstMetadataRecord) : createdFiles ssts ⊆ ssts := by
  intro sst hsst
  obtain ⟨it, hit, rfl⟩ := List.mem_map.mp hsst
  obtain ⟨i, hi, rfl⟩ := List.mem_map.mp (List.mem_mergeSort.mp hit)
  obtain ⟨x, hx, rfl⟩ := List.mem_map.mp hi
  exact hx

/-- A seek of a file without failures leaves its records in order. -/
theorem scansTo_seekRecords {sst : SstMetadataRecord} (hok : SstOk sst)
    (start endKey : SlUint128) :
    ScansTo start endKey (sst, IoFaults.none) (seekRecords start endKey sst) := by
  obtain ⟨ls, hls, -⟩ := exists_scansTo_none hok.holds start endKey
  have heq : seekRecords start endKey sst = ls := by
    have hne := (sstIteratorCreate_fresh hok.holds IoFaults.none).seek_ne_none rfl start endKey
    obtain ⟨⟨ok, it⟩, hseek⟩ := Option.ne_none_iff_exists'.mp hne
    rw [seekRecords, hseek, Option.map_some, Option.getD_some]
    exact (hls.yields ok it hseek).remaining
  rw [heq]
  exact hls

section Merge

variable {ssts : List SstMetadataRecord} {k : SstKIterators}

/-- After a seek the merge starts with what the seek of each file leaves. -/
theorem merging_sstKIteratorsSeek (hok : ∀ sst ∈ ssts, SstOk sst)
    (hsorted : SortedBy SstMetadataRecord.minKey ssts) (h : k.Over ssts)
    (start endKey : SlUint128) :
    (sstKIteratorsSeek k start endKey).Merging fun it => seekRecords start endKey it.sst := by
  have hover := h.seek start endKey
  have hmap : (sstKIteratorsSeek k start endKey).pending.map SstIterator.sst = ssts :=
    map_sst_of_reads hover
  have hpending : ∀ it ∈ (sstKIteratorsSeek k start endKey).pending,
      it.Reads it.sst ∧ it.bufferedRecord = none ∧ SstOk it.sst := by
    intro it hit
    refine ⟨reads_of_mem hover hit, ?_, hok it.sst (hmap ▸ List.mem_map_of_mem hit)⟩
    obtain ⟨x, -, rfl⟩ := List.mem_map.mp hit
    rfl
  refine ⟨⟨by simp [sstKIteratorsSeek], fun it hit => ?_, ?_⟩, rfl, fun it hit => ?_⟩
  · obtain ⟨hreads, hbuf, hsst⟩ := hpending it hit
    have hscans := scansTo_seekRecords hsst start endKey
    exact ⟨seekYields_reads hreads hbuf start endKey, hscans.sorted, hscans.minKey_le⟩
  · rw [← hmap, SortedBy, List.pairwise_map] at hsorted
    exact hsorted
  · obtain ⟨hreads, -, -⟩ := hpending it hit
    obtain ⟨index, -, heq⟩ := sstIteratorSeek_reads hreads start endKey
    show sstIteratorSeek it start endKey ≠ none
    rw [heq]
    split <;> simp

/-- The merge after a seek depends on the files only. -/
theorem drain_sstKIteratorsSeek (hok : ∀ sst ∈ ssts, SstOk sst)
    (hsorted : SortedBy SstMetadataRecord.minKey ssts) (h : k.Over ssts)
    (start endKey : SlUint128) (fuel : Nat) :
    drain sstKIteratorsNext fuel (sstKIteratorsSeek k start endKey) =
      drain (fun ls => some (kMergeNext KvRawRecord.key ls)) fuel
        (ssts.map (seekRecords start endKey)) := by
  have hmerging := merging_sstKIteratorsSeek hok hsorted h start endKey
  have hlists : (sstKIteratorsSeek k start endKey).lists
      (fun it => seekRecords start endKey it.sst) = ssts.map (seekRecords start endKey) := by
    have hmap := map_sst_of_reads (h.seek start endKey)
    rw [← hmap, List.map_map]
    rfl
  rw [sstKIteratorsNext_mergesAs.drain_eq fuel hmerging, hlists]

end Merge

/-! ## The iterator of the store -/

/-- A call of an iterator. -/
inductive IteratorCall where
  | seek (startKey endKey : SlUint128)
  | next

/-- One call, while the store does not change. -/
def iteratorStep (memtable : Sl) (it : LsmtIterator) : IteratorCall → Option LsmtIterator
  | .seek startKey endKey => some (lsmtIteratorSeek memtable it startKey endKey)
  | .next => (lsmtIteratorNext memtable it).map Prod.snd

/-- A seek and the calls behind it return the records a new iterator returns, all of them in the
range. -/
def SeeksAfresh (lsmt : LsmtState) (it : LsmtIterator) (startKey endKey : SlUint128) : Prop :=
  ∃ fuel out, drain (lsmtIteratorNext lsmt.memtable) fuel
      (lsmtIteratorSeek lsmt.memtable it startKey endKey) = some out ∧
    lsmtScan lsmt startKey endKey = some out ∧
      ∀ r ∈ out, InRange KvRawRecord.key startKey endKey r

/-- What every call keeps. -/
structure LsmtIterator.Kept (lsmt : LsmtState) (it : LsmtIterator) : Prop where
  slIt : it.slIt.isSome = (lsmtIteratorCreate lsmt).slIt.isSome
  points : it.PointsInto lsmt.memtable
  files : it.sstList.Over (createdFiles lsmt.metadata.records)
  -- the record held back is the next one of the SSTs
  held : it.active = true → ∃ ms rs, it.Represents lsmt.memtable ms rs ∧
    rs ⊆ sstRecords lsmt.metadata.records
  idle : it.active = false → it.bufferedSstRecord = none

section Kept

variable {lsmt : LsmtState} {it : LsmtIterator}

theorem kept_lsmtIteratorCreate (lsmt : LsmtState) : (lsmtIteratorCreate lsmt).Kept lsmt := by
  have hnew : ∀ wrap, (lsmtIteratorCreate lsmt).slIt = some wrap →
      wrap = wrSlItCreate lsmt.memtable := by
    intro wrap hwrap
    simp only [lsmtIteratorCreate] at hwrap
    split at hwrap <;> cases hwrap
    rfl
  have hpoints : (lsmtIteratorCreate lsmt).PointsInto lsmt.memtable := by
    intro wrap hwrap
    rw [hnew wrap hwrap]
    simp [SlIterator.PointsInto, wrSlItCreate, slIteratorCreate]
  refine ⟨rfl, hpoints, over_sstKIteratorsCreate lsmt.metadata.records, fun _ => ?_, by
    simp [lsmtIteratorCreate]⟩
  exact ⟨_, [], ⟨rfl, hpoints, rfl, 1, [], rfl, rfl⟩, List.nil_subset _⟩

/-- A seek leaves the range of the memtable, like that of a new iterator. -/
theorem memRemaining_lsmtIteratorSeek (h : it.Kept lsmt) (hm : lsmt.memtable.Wf)
    (startKey endKey : SlUint128) :
    (lsmtIteratorSeek lsmt.memtable it startKey endKey).memRemaining lsmt.memtable =
      rangeFilter KvRawRecord.key startKey endKey lsmt.memtable.records := by
  rw [← memRemaining_seek_create hm]
  have hslIt := h.slIt
  simp only [LsmtIterator.memRemaining, lsmtIteratorSeek]
  cases hsl : it.slIt with
  | none =>
    rw [hsl, Option.isSome_none, Eq.comm, Option.isSome_eq_false_iff, Option.isNone_iff_eq_none]
      at hslIt
    rw [hslIt]
  | some wrap =>
    rw [hsl, Option.isSome_some] at hslIt
    obtain ⟨new, hnew⟩ := Option.isSome_iff_exists.mp hslIt.symm
    rw [hnew]
    simp only [Option.map_some, Option.getD_some, remaining_wrSlIteratorSeek hm]

theorem pointsInto_lsmtIteratorSeek {memtable : Sl} (h : it.PointsInto memtable)
    (startKey endKey : SlUint128) :
    (lsmtIteratorSeek memtable it startKey endKey).PointsInto memtable := by
  intro wrap hwrap
  obtain ⟨old, hold, rfl⟩ := Option.map_eq_some_iff.mp hwrap
  exact pointsInto_slIteratorSeek (h old hold) startKey endKey

/-- The SST half of a sought iterator depends on the files only. -/
theorem drain_lsmtIteratorSeek (h : it.sstList.Over (createdFiles lsmt.metadata.records))
    (hok : ∀ sst ∈ lsmt.metadata.records, SstOk sst) (memtable : Sl)
    (startKey endKey : SlUint128) (fuel : Nat) :
    drain sstKIteratorsNext fuel (lsmtIteratorSeek memtable it startKey endKey).sstList =
      drain (fun ls => some (kMergeNext KvRawRecord.key ls)) fuel
        ((createdFiles lsmt.metadata.records).map (seekRecords startKey endKey)) := by
  by_cases hnil : it.sstList.opened ++ it.sstList.pending = []
  · have hfiles : createdFiles lsmt.metadata.records = [] := by
      have hmap := map_sst_of_reads h
      rw [hnil] at hmap
      exact hmap.symm
    obtain ⟨hopened, hpending⟩ := List.append_eq_nil_iff.mp hnil
    have hseek : (lsmtIteratorSeek memtable it startKey endKey).sstList = it.sstList :=
      if_pos hnil
    have hnext : ∃ t, sstKIteratorsNext it.sstList = some (none, t) := by
      rw [sstKIteratorsNext, hopened, hpending]
      split
      · exact ⟨_, rfl⟩
      · exact ⟨_, rfl⟩
    obtain ⟨t, hnext⟩ := hnext
    rw [hseek, hfiles]
    cases fuel with
    | zero => rfl
    | succ fuel =>
      rw [drain, drain, hnext]
      rfl
  · have hseek : (lsmtIteratorSeek memtable it startKey endKey).sstList =
        sstKIteratorsSeek it.sstList startKey endKey := if_neg hnil
    rw [hseek]
    exact drain_sstKIteratorsSeek (fun sst hsst => hok sst (createdFiles_subset _ hsst))
      (sortedBy_createdFiles _) h startKey endKey fuel

/-- A seek leaves what a new iterator has to come, behind the record held back. -/
theorem exists_represents_lsmtIteratorSeek (h : it.Kept lsmt) (hm : lsmt.memtable.Ok)
    (hok : ∀ sst ∈ lsmt.metadata.records, SstOk sst) (startKey endKey : SlUint128) :
    ∃ rs, SstScan lsmt.metadata.records startKey endKey rs ∧
      lsmtScan lsmt startKey endKey = some (shadowMerge KvRawRecord.key
        (rangeFilter KvRawRecord.key startKey endKey lsmt.memtable.records) rs) ∧
      (lsmtIteratorSeek lsmt.memtable it startKey endKey).Represents lsmt.memtable
        (rangeFilter KvRawRecord.key startKey endKey lsmt.memtable.records)
        (it.bufferedSstRecord.toList ++ rs) := by
  obtain ⟨rs, hrep, hscan⟩ := represents_seek_create hm hok startKey endKey
  have hfresh := drain_of_represents hm hrep (hscan.length_lt_scanFuel hok)
  obtain ⟨fuel, tail, hdrain, htail⟩ := hrep.sst
  rw [drain_lsmtIteratorSeek (over_sstKIteratorsCreate _) hok,
    ← drain_lsmtIteratorSeek h.files hok lsmt.memtable] at hdrain
  have htail : rs = tail := htail
  subst htail
  exact ⟨rs, hscan, hfresh, ⟨rfl, pointsInto_lsmtIteratorSeek h.points startKey endKey,
    (memRemaining_lsmtIteratorSeek h hm.wf startKey endKey).symm, fuel, rs, hdrain, rfl⟩⟩

theorem LsmtIterator.Kept.seek (h : it.Kept lsmt) (hm : lsmt.memtable.Ok)
    (hok : ∀ sst ∈ lsmt.metadata.records, SstOk sst) (startKey endKey : SlUint128) :
    (lsmtIteratorSeek lsmt.memtable it startKey endKey).Kept lsmt := by
  obtain ⟨rs, hscan, -, hrep⟩ := exists_represents_lsmtIteratorSeek h hm hok startKey endKey
  refine ⟨?_, pointsInto_lsmtIteratorSeek h.points startKey endKey, ?_, fun _ => ⟨_, _, hrep, ?_⟩,
    by simp [lsmtIteratorSeek]⟩
  · rw [← h.slIt, lsmtIteratorSeek, Option.isSome_map]
  · simp only [lsmtIteratorSeek]
    split
    · exact h.files
    · exact h.files.seek startKey endKey
  · apply List.append_subset.mpr
    refine ⟨fun r hr => ?_, hscan.subset⟩
    -- the record held back was one of the records to come
    cases hact : it.active with
    | false =>
      rw [h.idle hact] at hr
      cases hr
    | true =>
      obtain ⟨ms, rs', hbefore, hsub⟩ := h.held hact
      obtain ⟨fuel, tail, -, rfl⟩ := hbefore.sst
      exact hsub (List.mem_append_left tail hr)

/-- What one call of `lsmt_iterator_next` leaves of the iterator. -/
theorem lsmtIteratorNext_cases {memtable : Sl} {it it' : LsmtIterator} {rec : Option KvRawRecord}
    (h : lsmtIteratorNext memtable it = some (rec, it')) (hact : it.active = true) :
    ∃ slIt sstRec, lsmtPeekMemtable memtable it.slIt = some slIt ∧
      lsmtPeekSst it = some (sstRec, it'.sstList) ∧
      (it'.slIt = slIt ∨ it'.slIt = slIt.map WrapperSlIt.consume) ∧
      (it'.active = false → it'.bufferedSstRecord = none) := by
  rw [lsmtIteratorNext, if_neg (by simp [hact])] at h
  cases hmem : lsmtPeekMemtable memtable it.slIt with
  | none => simp [hmem] at h
  | some slIt =>
    cases hsst : lsmtPeekSst it with
    | none => simp [hmem, hsst] at h
    | some answer =>
      obtain ⟨sstRec, sstList⟩ := answer
      rw [hmem, hsst] at h
      refine ⟨slIt, sstRec, rfl, ?_⟩
      simp only at h
      split at h
      · split_ifs at h <;> cases h <;> simp [hact]
      · cases h
        simp [hact]
      · cases h
        simp [hact]
      · cases h
        simp

theorem LsmtIterator.Kept.next {rec : Option KvRawRecord} {it' : LsmtIterator} (h : it.Kept lsmt)
    (hm : lsmt.memtable.Ok) (hnext : lsmtIteratorNext lsmt.memtable it = some (rec, it')) :
    it'.Kept lsmt := by
  cases hact : it.active with
  -- an iterator that has ended stays as it is
  | false =>
    rw [lsmtIteratorNext, if_pos hact] at hnext
    cases hnext
    exact h
  | true =>
    obtain ⟨slIt, sstRec, hmem, hsst, hslIt, hidle⟩ := lsmtIteratorNext_cases hnext hact
    obtain ⟨slIt₁, hmem₁, -, -, hpoints⟩ := lsmtPeekMemtable_spec hm h.points
    rw [hmem] at hmem₁
    cases hmem₁
    refine ⟨?_, ?_, ?_, fun hact' => ?_, hidle⟩
    · -- the memtable side is there as before
      have hsome : slIt.isSome = it.slIt.isSome := by
        cases hsl : it.slIt with
        | none =>
          rw [hsl] at hmem
          cases hmem
          rfl
        | some wrap =>
          rw [hsl] at hmem
          obtain ⟨wrap', -, rfl⟩ := Option.map_eq_some_iff.mp hmem
          rfl
      rw [← h.slIt, ← hsome]
      rcases hslIt with heq | heq <;> simp [heq]
    · -- its pointer stays in the memtable
      intro wrap hwrap
      rcases hslIt with heq | heq
      · exact hpoints wrap (heq ▸ hwrap)
      · rw [heq] at hwrap
        obtain ⟨wrap', hwrap', rfl⟩ := Option.map_eq_some_iff.mp hwrap
        exact hpoints wrap' hwrap'
    · rw [lsmtPeekSst] at hsst
      split at hsst
      · exact h.files.next hsst
      · rw [← (Prod.mk.inj (Option.some.inj hsst)).2]
        exact h.files
    · -- what remains of an iterator that goes on is a part of what it represented
      obtain ⟨ms, rs, hrep, hsub⟩ := h.held hact
      obtain ⟨answer, hanswer, hspec⟩ := lsmtIteratorNext_spec hm hrep
      rw [hnext] at hanswer
      cases hanswer
      cases hstep : mergeStep KvRawRecord.key ms rs with
      | none =>
        have hend := (hspec.ended hstep).2
        rw [hact'] at hend
        cases hend
      | some p =>
        obtain ⟨a, ms', rs'⟩ := p
        obtain ⟨-, -, hrs⟩ := mergeStep_subset hstep
        exact ⟨ms', rs', (hspec.more a ms' rs' hstep).2, List.Subset.trans hrs hsub⟩

/-- An iterator keeps to its files and to the memtable through every run of its calls. -/
theorem LsmtIterator.Kept.of_run (hm : lsmt.memtable.Ok)
    (hok : ∀ sst ∈ lsmt.metadata.records, SstOk sst) {calls : List IteratorCall}
    (hrun : run (iteratorStep lsmt.memtable) (lsmtIteratorCreate lsmt) calls = some it) :
    it.Kept lsmt := by
  have hstep : ∀ (s : LsmtIterator) (call : IteratorCall) (t : LsmtIterator), True →
      s.Kept lsmt → iteratorStep lsmt.memtable s call = some t → t.Kept lsmt := by
    intro s call t _ hs hstep
    cases call with
    | seek startKey endKey =>
      cases hstep
      exact hs.seek hm hok startKey endKey
    | next =>
      obtain ⟨⟨rec, t'⟩, hnext, rfl⟩ := Option.map_eq_some_iff.mp hstep
      exact hs.next hm hnext
  exact run_invariant hstep (fun _ _ => trivial) (kept_lsmtIteratorCreate lsmt) hrun

end Kept

/-- A record held back is handed out in addition to the records of the range. -/
theorem LsmtIterator.Kept.seeksAfresh_iff {lsmt : LsmtState} {it : LsmtIterator}
    (h : it.Kept lsmt) (hm : lsmt.memtable.Ok)
    (hok : ∀ sst ∈ lsmt.metadata.records, SstOk sst) (startKey endKey : SlUint128) :
    SeeksAfresh lsmt it startKey endKey ↔ it.bufferedSstRecord = none := by
  obtain ⟨rs, hscan, hfresh, hrep⟩ := exists_represents_lsmtIteratorSeek h hm hok startKey endKey
  have hdrain := drain_of_represents hm hrep (Nat.lt_succ_self _)
  constructor
  · rintro ⟨fuel, out, hout, hsame, -⟩
    by_contra hheld
    obtain ⟨r, hr⟩ := Option.ne_none_iff_exists'.mp hheld
    have hact : it.active = true := by
      by_contra hidle
      exact hheld (h.idle (by simpa using hidle))
    -- the record comes from one of the files
    obtain ⟨ms, before, hbefore, hsub⟩ := h.held hact
    obtain ⟨-, tail, -, rfl⟩ := hbefore.sst
    have hfile : r ∈ sstRecords lsmt.metadata.records :=
      hsub (by rw [hr]; exact List.mem_cons_self)
    rw [hfresh] at hsame
    have heq := drain_unique hdrain hout
    rw [hr, ← Option.some.inj hsame] at heq
    refine shadowMerge_cons_ne (hm.wf.strict_records.sublist (rangeFilter_sublist _ _ _))
      hscan.sorted ?_ heq
    intro m hm hkey
    have hin : InRange KvRawRecord.key startKey endKey r := by
      rw [InRange, ← hkey]
      exact (mem_rangeFilter.mp hm).2
    exact hscan.keys r (mem_rangeFilter.mpr ⟨hfile, hin⟩)
  · intro hnone
    rw [hnone, Option.toList_none, List.nil_append] at hdrain
    refine ⟨_, _, hdrain, hfresh, fun r hr => ?_⟩
    rcases mem_of_mem_shadowMerge _ _ hr with hr | hr
    · exact (mem_rangeFilter.mp hr).2
    · exact (mem_rangeFilter.mp (hscan.subperm.subset hr)).2

/-- A seek of an iterator that has been used returns what a new iterator returns exactly when no SST
record is held back. -/
theorem reseek_fresh_iff {lsmt : LsmtState} (hm : lsmt.memtable.Ok)
    (hok : ∀ sst ∈ lsmt.metadata.records, SstOk sst) {calls : List IteratorCall}
    {it : LsmtIterator}
    (hrun : run (iteratorStep lsmt.memtable) (lsmtIteratorCreate lsmt) calls = some it)
    (startKey endKey : SlUint128) :
    SeeksAfresh lsmt it startKey endKey ↔ it.bufferedSstRecord = none :=
  (LsmtIterator.Kept.of_run hm hok hrun).seeksAfresh_iff hm hok startKey endKey

/-- A memtable record handed out in front of the SST records leaves the first of them held back. -/
theorem lsmtIteratorNext_holds_back {memtable : Sl} (hm : memtable.Ok) {it : LsmtIterator}
    {m : KvRawRecord} {ms rs : List KvRawRecord} (h : it.Represents memtable (m :: ms) rs)
    (hlt : ∀ r ∈ rs.head?, m.key < r.key) :
    ∃ it', lsmtIteratorNext memtable it = some (some m, it') ∧ it'.bufferedSstRecord = rs.head? := by
  obtain ⟨hact, hpoints, hmem, hsst⟩ := h
  obtain ⟨slIt, hpeek, hshown, -, -⟩ := lsmtPeekMemtable_spec hm hpoints
  obtain ⟨sstList, fuel, tail, hpeekSst, -, -⟩ := lsmtPeekSst_spec hsst
  rw [lsmtIteratorNext, if_neg (by simp [hact]), hpeek, hpeekSst]
  cases rs with
  | nil =>
    simp only [hshown, ← hmem, List.head?_cons, List.head?_nil]
    exact ⟨_, rfl, rfl⟩
  | cons r rs =>
    have hlt := hlt r rfl
    have hle : keyCompare m.key r.key ≤ 0 := keyCompare_nonpos_iff.mpr hlt.le
    have hne : ¬ keyCompare m.key r.key = 0 := fun heq => hlt.ne (keyCompare_eq_zero_iff.mp heq)
    simp only [hshown, ← hmem, List.head?_cons, if_pos hle, if_neg hne]
    exact ⟨_, rfl, rfl⟩

/-- A record in the memtable and one in an SST behind it. -/
def twoSources : LsmtState :=
  let sst := writeSst 0 0 [rawOf (⟨5, 0⟩, encodeData 1 [8])]
  { lsmtInit with
    memtable := (slInsert (slInit 0) ⟨1, 0⟩ (encodeData 1 [7])).1
    metadata := (sstMetadataAdd sstMetadataInit sst).getD sstMetadataInit }

theorem memtableOk_twoSources : twoSources.memtable.Ok :=
  (slInsert_records ⟨Sl.wf_slInit 0, by simp [slInit]⟩ (by decide)).1

theorem sstHolds_twoSources :
    SstHolds (writeSst 0 0 [rawOf (⟨5, 0⟩, encodeData 1 [8])])
      [rawOf (⟨5, 0⟩, encodeData 1 [8])] := by
  have hread : Readable (encodeData 1 [8]) := SelfConsistent.readable (by decide)
  refine sstHolds_writeSst 0 0 ?_ ?_ ?_ ?_
  · intro r hr
    rw [List.mem_singleton.mp hr]
    exact rawOf_wf hread
  · intro r hr
    rw [List.mem_singleton.mp hr]
    decide
  · intro r hr
    rw [List.mem_singleton.mp hr]
    show SlUint128.zero < SlUint128.mk 5 0
    decide
  · exact sortedBy_cons.mpr ⟨by simp, sortedBy_nil⟩

theorem sstOk_twoSources : ∀ sst ∈ twoSources.metadata.records, SstOk sst := by
  intro sst hsst
  have heq : sst = writeSst 0 0 [rawOf (⟨5, 0⟩, encodeData 1 [8])] := List.mem_singleton.mp hsst
  rw [heq]
  exact sstHolds_twoSources.ok (by simp)

theorem sstRecords_twoSources :
    sstRecords twoSources.metadata.records = [rawOf (⟨5, 0⟩, encodeData 1 [8])] := by
  show sstRecords [writeSst 0 0 [rawOf (⟨5, 0⟩, encodeData 1 [8])]] = _
  rw [sstRecords, List.flatMap_singleton, sstHolds_twoSources.records_eq]

/-- One call behind a seek returns the memtable's record and holds the SST record back, if it is in the
range. -/
theorem exists_next_twoSources {endKey : SlUint128} (hend : ⟨1, 0⟩ ≤ endKey) :
    ∃ it, run (iteratorStep twoSources.memtable) (lsmtIteratorCreate twoSources)
        [.seek SlUint128.zero endKey, .next] = some it ∧
      (it.bufferedSstRecord = none ↔ ¬ ⟨5, 0⟩ ≤ endKey) := by
  obtain ⟨rs, hrep, hscan⟩ := represents_seek_create memtableOk_twoSources sstOk_twoSources
    SlUint128.zero endKey
  have hperm := hscan.perm fun sst hsst => Or.inr (sstOk_twoSources sst hsst).holds.pos
  rw [sstRecords_twoSources] at hperm
  have hms : rangeFilter KvRawRecord.key SlUint128.zero endKey
      twoSources.memtable.records = [rawOf (⟨1, 0⟩, encodeData 1 [7])] := by
    apply rangeFilter_eq_self
    intro r hr
    have heq : r = rawOf (⟨1, 0⟩, encodeData 1 [7]) := List.mem_singleton.mp hr
    rw [heq]
    exact ⟨SlUint128.zero_le _, hend⟩
  rw [hms] at hrep
  have hlt : ∀ r ∈ rs.head?, (rawOf (⟨1, 0⟩, encodeData 1 [7])).key < r.key := by
    intro r hr
    have hr := (mem_rangeFilter.mp (hperm.subset (List.mem_of_mem_head? hr))).1
    rw [List.mem_singleton.mp hr]
    show SlUint128.mk 1 0 < SlUint128.mk 5 0
    decide
  obtain ⟨it, hnext, hheld⟩ := lsmtIteratorNext_holds_back memtableOk_twoSources hrep hlt
  refine ⟨it, ?_, ?_⟩
  · refine run_cons_eq_some.mpr ⟨_, rfl, run_cons_eq_some.mpr ⟨it, ?_, rfl⟩⟩
    rw [iteratorStep, hnext, Option.map_some]
  · rw [hheld, List.head?_eq_none_iff]
    have hempty : rs = [] ↔ ∀ r ∈ [rawOf (⟨5, 0⟩, encodeData 1 [8])],
        r ∉ rangeFilter KvRawRecord.key SlUint128.zero endKey [rawOf (⟨5, 0⟩, encodeData 1 [8])] := by
      rw [List.eq_nil_iff_forall_not_mem]
      exact ⟨fun hnone r _ hr => hnone r (hperm.mem_iff.mpr hr), fun hnone r hr =>
        hnone r (mem_rangeFilter.mp (hperm.mem_iff.mp hr)).1 (hperm.mem_iff.mp hr)⟩
    rw [hempty, List.forall_mem_singleton, mem_rangeFilter]
    constructor
    · exact fun hnot hin => hnot ⟨List.mem_cons_self, SlUint128.zero_le _, hin⟩
    · exact fun hnot hin => hnot hin.2.2

/-- Behind the scan of a range without the SST record a seek finds what a new iterator finds, and behind
one with it not. -/
theorem reseek_fresh_iff_twoSources :
    (∃ it, run (iteratorStep twoSources.memtable) (lsmtIteratorCreate twoSources)
        [.seek SlUint128.zero ⟨4, 0⟩, .next] = some it ∧ SeeksAfresh twoSources it ⟨7, 0⟩ ⟨9, 0⟩) ∧
    ∃ it, run (iteratorStep twoSources.memtable) (lsmtIteratorCreate twoSources)
        [.seek SlUint128.zero SlUint128.max, .next] = some it ∧
      ¬ SeeksAfresh twoSources it ⟨7, 0⟩ ⟨9, 0⟩ := by
  have hiff {calls : List IteratorCall} {it : LsmtIterator}
      (hrun : run (iteratorStep twoSources.memtable) (lsmtIteratorCreate twoSources) calls = some it) :=
    reseek_fresh_iff memtableOk_twoSources sstOk_twoSources hrun ⟨7, 0⟩ ⟨9, 0⟩
  constructor
  · obtain ⟨it, hrun, hheld⟩ := exists_next_twoSources (show ⟨1, 0⟩ ≤ SlUint128.mk 4 0 by decide)
    exact ⟨it, hrun, (hiff hrun).mpr (hheld.mpr (by decide))⟩
  · obtain ⟨it, hrun, hheld⟩ := exists_next_twoSources (SlUint128.le_max ⟨1, 0⟩)
    exact ⟨it, hrun, fun hfresh => hheld.mp ((hiff hrun).mp hfresh) (SlUint128.le_max _)⟩

/-- Seeking behind the record held back: it is handed out although it lies in front of the range. -/
theorem not_reseek_fresh : ¬ ∀ (lsmt : LsmtState) (calls : List IteratorCall) (it : LsmtIterator)
    (startKey endKey : SlUint128), lsmt.memtable.Ok →
      (∀ sst ∈ lsmt.metadata.records, SstOk sst) →
      run (iteratorStep lsmt.memtable) (lsmtIteratorCreate lsmt) calls = some it →
        SeeksAfresh lsmt it startKey endKey := by
  intro hall
  obtain ⟨it, hrun, hheld⟩ := exists_next_twoSources (SlUint128.le_max ⟨1, 0⟩)
  have hseeks := hall twoSources _ it ⟨7, 0⟩ ⟨9, 0⟩ memtableOk_twoSources sstOk_twoSources hrun
  have hkept := LsmtIterator.Kept.of_run memtableOk_twoSources sstOk_twoSources hrun
  have hnone := (hkept.seeksAfresh_iff memtableOk_twoSources sstOk_twoSources _ _).mp hseeks
  exact hheld.mp hnone (SlUint128.le_max _)

end RaftLsmt.Lsmt
