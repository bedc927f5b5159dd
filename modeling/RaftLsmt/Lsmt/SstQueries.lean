import RaftLsmt.Lsmt.ScanBuffers
import RaftLsmt.Lsmt.StoreInvariant

/-!
# Range queries on one SST

`Built rs out` says that `out` is what `memtable_to_disk` makes of the records `rs`, or `sst_merge`
of files built that way with pairwise different keys. A file that is built answers every range
(`AnswersRanges`): a seek tells whether a record of the range exists, and peeking and advancing gives
exactly these records; its metadata describes it exactly, and its index survives the way to disk and
back. A file is built exactly when the size of every record has the 32 bits in which the flush adds it
up (`built_answers_ranges_iff`); `lsmt_insert` takes contents of up to 16 bytes more.
-/

set_option autoImplicit false

namespace RaftLsmt.Lsmt

open RaftLsmt.Lib.ByteCodec
open RaftLsmt.Lib.StepMachine
open RaftLsmt.Lib.SortedMerge

/-! ## The index file -/

/-- One block on disk. -/
def indexBlockBytes (block : IndexBlock) : Bytes := keyBytes block.key ++ leBytes 8 block.offset

/-- `index_flush`: the bytes of the index file. -/
def indexFlush (blocks : List IndexBlock) : Bytes := blocks.flatMap indexBlockBytes

/-- `index_load`: read blocks of 24 bytes until a read comes up short. -/
def indexLoadBytes (stream : Bytes) : List IndexBlock :=
  if _h : stream.length < 24 then []
  else ⟨keyOfBytes stream, leNat ((stream.drop 16).take 8)⟩ :: indexLoadBytes (stream.drop 24)
termination_by stream.length
decreasing_by
  rw [List.length_drop]
  omega

theorem length_indexBlockBytes (block : IndexBlock) : (indexBlockBytes block).length = 24 := by
  simp [indexBlockBytes]

/-- Loading undoes flushing, for offsets that fit their eight bytes. -/
theorem indexLoadBytes_indexFlush {blocks : List IndexBlock}
    (h : ∀ block ∈ blocks, block.offset < 2 ^ 64) : indexLoadBytes (indexFlush blocks) = blocks := by
  induction blocks with
  | nil =>
    rw [indexFlush, List.flatMap_nil, indexLoadBytes]
    rfl
  | cons block blocks ih =>
    have hlen := length_indexBlockBytes block
    have hoffset := h block List.mem_cons_self
    have hdrop : (indexBlockBytes block ++ indexFlush blocks).drop 24 = indexFlush blocks :=
      List.drop_left' hlen
    have hkey : keyOfBytes (indexBlockBytes block ++ indexFlush blocks) = block.key := by
      rw [indexBlockBytes, List.append_assoc]
      exact keyOfBytes_keyBytes_append _ _
    have hfield : ((indexBlockBytes block ++ indexFlush blocks).drop 16).take 8 =
        leBytes 8 block.offset := by
      rw [indexBlockBytes, List.append_assoc, List.drop_left' (length_keyBytes _),
        List.take_left' (length_leBytes _ _)]
    have hlong : ¬ (indexBlockBytes block ++ indexFlush blocks).length < 24 := by
      rw [List.length_append, hlen]
      omega
    show indexLoadBytes (indexBlockBytes block ++ indexFlush blocks) = block :: blocks
    rw [indexLoadBytes, dif_neg hlong, hdrop, hkey, hfield, leNat_leBytes (by omega),
      ih fun b hb => h b (List.mem_cons_of_mem block hb)]

/-- Without failures the whole index is read. -/
theorem indexLoad_none (n : Nat) (blocks : List IndexBlock) :
    indexLoad IoFaults.none n blocks = blocks := by
  induction blocks generalizing n with
  | nil => rfl
  | cons block blocks ih =>
    show block :: indexLoad IoFaults.none (n + 1) blocks = block :: blocks
    rw [ih]

/-- The blocks of a well-formed index point into the file. -/
theorem SstHolds.offset_lt {sst : SstMetadataRecord} {rs : List KvRawRecord} (h : SstHolds sst rs)
    {block : IndexBlock} (hblock : block ∈ sst.sstIndexFile) : block.offset < sst.totalBytes := by
  obtain ⟨pre, r, post, hrs, -, hoffset⟩ := h.index.points block hblock
  have h21 := (h.wf r (by rw [hrs]; simp)).header_le
  rw [h.totalBytes_eq, h.file_eq, hrs, fileBytes_append, fileBytes_cons, List.length_append,
    List.length_append, hoffset]
  omega

/-! ## Files that have been built -/

/-- `min_key` and `max_key` are the first and the last key. -/
structure ExactBounds (sst : SstMetadataRecord) (rs : List KvRawRecord) : Prop where
  minKey : ∀ r, rs.head? = some r → sst.minKey = r.key
  maxKey : ∀ r, rs.getLast? = some r → sst.maxKey = r.key

theorem SstWriter.bounds_foldl (rs : List KvRawRecord) :
    ((rs.foldl SstWriter.write SstWriter.init).first = true ↔ rs = []) ∧
    (∀ r, rs.head? = some r → (rs.foldl SstWriter.write SstWriter.init).minKey = r.key) ∧
    ∀ r, rs.getLast? = some r → (rs.foldl SstWriter.write SstWriter.init).maxKey = r.key := by
  induction rs using List.reverseRecOn with
  | nil => exact ⟨by simp [SstWriter.init], by simp, by simp⟩
  | append_singleton rs last ih =>
    obtain ⟨hfirst, hmin, -⟩ := ih
    rw [List.foldl_append]
    refine ⟨by simp [SstWriter.write], fun r hr => ?_, fun r hr => ?_⟩
    · cases rs with
      | nil =>
        simp only [List.nil_append, List.head?_cons, Option.some.injEq] at hr
        subst hr
        rfl
      | cons x rs =>
        have hwritten : ¬ ((x :: rs).foldl SstWriter.write SstWriter.init).first = true :=
          fun h => List.cons_ne_nil x rs (hfirst.mp h)
        show (SstWriter.write _ last).minKey = r.key
        simp only [SstWriter.write, if_neg hwritten]
        exact hmin r (by simpa using hr)
    · simp only [List.getLast?_append, List.getLast?_singleton, Option.some_or,
        Option.some.injEq] at hr
      subst hr
      rfl

theorem exactBounds_writeSst (id level : Nat) (rs : List KvRawRecord) :
    ExactBounds (writeSst id level rs) rs where
  minKey := (SstWriter.bounds_foldl rs).2.1
  maxKey := (SstWriter.bounds_foldl rs).2.2

/-- The SST that a flush has written, with the id of its registration. -/
def FlushResult.registered (id : Nat) : FlushResult → Option SstMetadataRecord
  | .written sst => some { sst with id := id }
  | .writeError => none
  | .undefined => none

/-- Records and what the store makes of them, an SST or nothing. The first constructor is the flush of
a memtable with encoded contents of a size that `lsmt_insert` takes, the second a merge. -/
inductive Built : List KvRawRecord → Option SstMetadataRecord → Prop
  | flush {memtable : Sl} (id : Nat) (hwf : memtable.Wf) (hne : memtable.bottomLevel ≠ [])
      (hcontents : ∀ n ∈ memtable.bottomLevel, Encoded n.2 ∧ n.2.length < 2 ^ 32) :
      Built (memtable.bottomLevel.map fun n => ⟨n.1, keyBytes n.1 ++ n.2⟩)
        ((memtableToDisk memtable).registered id)
  | merge {inputs : List (SstMetadataRecord × List KvRawRecord)} (hne : inputs ≠ [])
      (hinputs : ∀ i ∈ inputs, Built i.2 (some i.1))
      (hdisjoint : inputs.Pairwise fun i j => ∀ r ∈ i.2, ∀ s ∈ j.2, r.key ≠ s.key) :
      Built ((inputs.flatMap Prod.snd).mergeSort fun r s => r.key ≤ s.key)
        (Buffers.sstMerge (inputs.map fun i => (i.1, IoFaults.none)))

/-- What is known of a built file. -/
structure BuiltSpec (sst : SstMetadataRecord) (rs : List KvRawRecord) : Prop where
  holds : SstHolds sst rs
  strict : StrictBy KvRawRecord.key rs
  ne_nil : rs ≠ []
  bounds : ExactBounds sst rs

/-- Encoded contents are flushed exactly when their records have sizes of 32 bits. -/
theorem copyable_iff_of_encoded {content : Bytes} (h : Encoded content)
    (hlen : content.length < 2 ^ 32) : Copyable content ↔ 16 + content.length < 2 ^ 32 := by
  have hcut : ¬ CutShort content := by
    have hsize := h.2
    unfold CutShort
    omega
  rw [copyable_iff hcut]
  have hsize := h.2
  constructor
  · rintro ⟨-, hlt⟩
    omega
  · intro hlt
    exact ⟨⟨h.1, hsize.ge⟩, by omega⟩

/-- The flush of encoded contents gives an SST with all of them, or the copy of one leaves the
buffer. -/
theorem built_flush_cases {memtable : Sl} (id : Nat) (hwf : memtable.Wf)
    (hne : memtable.bottomLevel ≠ [])
    (hcontents : ∀ n ∈ memtable.bottomLevel, Encoded n.2 ∧ n.2.length < 2 ^ 32) :
    (∃ sst, (memtableToDisk memtable).registered id = some sst ∧
      BuiltSpec sst (memtable.bottomLevel.map fun n => ⟨n.1, keyBytes n.1 ++ n.2⟩)) ∨
    (memtableToDisk memtable).registered id = none ∧
      ∃ n ∈ memtable.bottomLevel, 2 ^ 32 ≤ 16 + n.2.length := by
  by_cases hcopy : ∀ n ∈ memtable.bottomLevel, Copyable n.2
  · left
    have hread : ∀ n ∈ memtable.bottomLevel, Readable n.2 ∧ 21 + contentLen n.2 < 2 ^ 32 := by
      intro n hn
      obtain ⟨henc, hlen⟩ := hcontents n hn
      have hlt := (copyable_iff_of_encoded henc hlen).mp (hcopy n hn)
      rw [henc.2] at hlt
      exact ⟨⟨henc.1, henc.2.ge⟩, by omega⟩
    have hrecords : (memtable.bottomLevel.map fun n =>
        (⟨n.1, keyBytes n.1 ++ n.2⟩ : KvRawRecord)) = memtable.bottomLevel.map rawOf :=
      List.map_congr_left fun n hn =>
        KvRawRecord.ext rfl (rawOf_rawData_of_encoded (hcontents n hn).1).symm
    obtain ⟨sst, hdisk, -, hholds⟩ := memtableToDisk_eq_written hwf hread hne
    have hsst : sst = writeSst 0 0 (memtable.bottomLevel.map rawOf) := by
      rw [memtableToDisk, if_neg hne, if_pos hcopy,
        map_dumpOf_eq fun n hn => (hread n hn).2] at hdisk
      exact (FlushResult.written.inj hdisk).symm
    have hbounds := exactBounds_writeSst 0 0 (memtable.bottomLevel.map rawOf)
    rw [← hsst] at hbounds
    rw [hdisk, hrecords]
    exact ⟨_, rfl, hholds.withId id, hwf.strict_records,
      fun hnil => hne (List.map_eq_nil_iff.mp hnil), ⟨hbounds.minKey, hbounds.maxKey⟩⟩
  · right
    refine ⟨by rw [memtableToDisk, if_neg hne, if_neg hcopy]; rfl, ?_⟩
    obtain ⟨n, hn, hlong⟩ := not_forall₂.mp hcopy
    rw [copyable_iff_of_encoded (hcontents n hn).1 (hcontents n hn).2, not_lt] at hlong
    exact ⟨n, hn, hlong⟩

/-- Strict lists without common keys, sorted together, are strict. -/
theorem strictBy_of_perm_flatMap {inputs : List (SstMetadataRecord × List KvRawRecord)}
    (hstrict : ∀ i ∈ inputs, StrictBy KvRawRecord.key i.2)
    (hdisjoint : inputs.Pairwise fun i j => ∀ r ∈ i.2, ∀ s ∈ j.2, r.key ≠ s.key)
    {rs : List KvRawRecord} (hsorted : SortedBy KvRawRecord.key rs)
    (hperm : rs.Perm (inputs.flatMap Prod.snd)) : StrictBy KvRawRecord.key rs := by
  rw [hsorted.strictBy_iff_nodup, (hperm.map KvRawRecord.key).nodup_iff, List.map_flatMap,
    List.nodup_flatMap]
  refine ⟨fun i hi => (hstrict i hi).nodup_keys, hdisjoint.imp fun {i j} hij => ?_⟩
  intro k hi hj
  obtain ⟨r, hr, rfl⟩ := List.mem_map.mp hi
  obtain ⟨s, hs, hkey⟩ := List.mem_map.mp hj
  exact hij r hr s hs hkey.symm

/-- Without failures the buffers of a merge hold what the merge over values hands out. -/
theorem sstMerge_buffers {inputs : List SstMetadataRecord} (hne : inputs ≠ [])
    (hok : ∀ sst ∈ inputs, SstOk sst) :
    ∃ sst, sstMerge (inputs.map fun sst => (sst, IoFaults.none)) = some sst ∧
      Buffers.sstMerge (inputs.map fun sst => (sst, IoFaults.none)) = some sst := by
  cases inputs with
  | nil => exact absurd rfl hne
  | cons first rest =>
    obtain ⟨out, hout, -⟩ := exists_sstKIteratorsScan hok SlUint128.zero SlUint128.max
    refine ⟨writeSst first.id (first.level + 1) out, congrArg (Option.map _) hout, ?_⟩
    rw [sstKIteratorsScan] at hout
    have hmerging := @Buffers.ok_sstKIteratorsSeek_create
      ((first :: rest).map fun sst => (sst, IoFaults.none))
      (fun i hi => by
        obtain ⟨sst, hsst, rfl⟩ := List.mem_map.mp hi
        exact hok sst hsst)
      (fun i hi => by
        obtain ⟨sst, -, rfl⟩ := List.mem_map.mp hi
        rfl)
      SlUint128.zero SlUint128.max
    have hview := @Buffers.view_sstKIteratorsSeek (Buffers.sstKIteratorsCreate
      ((first :: rest).map fun sst => (sst, IoFaults.none))) SlUint128.zero SlUint128.max
    rw [Buffers.view_sstKIteratorsCreate] at hview
    simp only [← hview] at hout
    exact congrArg (Option.map _) (Buffers.drain_sstKIteratorsTake hmerging hout)

theorem builtSpec_merge {inputs : List (SstMetadataRecord × List KvRawRecord)} (hne : inputs ≠ [])
    (hinputs : ∀ i ∈ inputs, BuiltSpec i.1 i.2)
    (hdisjoint : inputs.Pairwise fun i j => ∀ r ∈ i.2, ∀ s ∈ j.2, r.key ≠ s.key) :
    ∃ sst, Buffers.sstMerge (inputs.map fun i => (i.1, IoFaults.none)) = some sst ∧
      BuiltSpec sst ((inputs.flatMap Prod.snd).mergeSort fun r s => r.key ≤ s.key) := by
  have hok : ∀ j ∈ inputs.map fun i => (i.1, IoFaults.none), SstHolds j.1 j.1.records := by
    intro j hj
    obtain ⟨i, hi, rfl⟩ := List.mem_map.mp hj
    exact ((hinputs i hi).holds.ok (hinputs i hi).ne_nil).holds
  obtain ⟨sst, hmerge, hbuffers⟩ := @sstMerge_buffers (inputs.map Prod.fst)
    (by simpa using hne)
    (fun sst hsst => by
      obtain ⟨i, hi, rfl⟩ := List.mem_map.mp hsst
      exact (hinputs i hi).holds.ok (hinputs i hi).ne_nil)
  rw [List.map_map] at hmerge hbuffers
  refine ⟨sst, hbuffers, ?_⟩
  obtain ⟨id, level, out, hsst, hholds, hperm⟩ := sstMerge_writes hok hmerge
  have hrecords : inputs.flatMap (fun i => readableRecords IoFaults.none i.1.records) =
      inputs.flatMap Prod.snd :=
    List.flatMap_congr fun i hi => by rw [readableRecords_none, (hinputs i hi).holds.records_eq]
  rw [List.flatMap_map, hrecords] at hperm
  have hstrict : StrictBy KvRawRecord.key out :=
    strictBy_of_perm_flatMap (fun i hi => (hinputs i hi).strict) hdisjoint hholds.sorted hperm
  have hsorted : SortedBy KvRawRecord.key
      ((inputs.flatMap Prod.snd).mergeSort fun r s => r.key ≤ s.key) := by
    have h := @List.pairwise_mergeSort _ (fun r s : KvRawRecord => decide (r.key ≤ s.key))
      (by simpa using fun a b c hab hbc => le_trans hab hbc) (by simpa using fun a b => le_total _ _)
      (inputs.flatMap Prod.snd)
    exact h.imp fun hab => by simpa using hab
  have heq : out = (inputs.flatMap Prod.snd).mergeSort fun r s => r.key ≤ s.key := by
    apply hstrict.eq_of_perm
    · exact strictBy_of_perm_flatMap (fun i hi => (hinputs i hi).strict) hdisjoint hsorted
        (List.mergeSort_perm _ _)
    · exact hperm.trans (List.mergeSort_perm _ _).symm
  have hbounds := exactBounds_writeSst id level out
  rw [← hsst] at hbounds
  rw [← heq]
  refine ⟨hholds, hstrict, ?_, hbounds⟩
  -- there is an input, and it has a record
  rintro rfl
  obtain ⟨first, hfirst⟩ := List.exists_mem_of_ne_nil _ hne
  obtain ⟨r, hr⟩ := List.exists_mem_of_ne_nil _ (hinputs first hfirst).ne_nil
  have hmem : r ∈ inputs.flatMap Prod.snd := List.mem_flatMap.mpr ⟨first, hfirst, hr⟩
  rw [List.nil_perm.mp hperm] at hmem
  cases hmem

/-- An SST comes out, or some record is too long. -/
theorem Built.spec {rs : List KvRawRecord} {out : Option SstMetadataRecord} (h : Built rs out) :
    (∃ sst, out = some sst ∧ BuiltSpec sst rs) ∨ out = none ∧ ∃ r ∈ rs, 2 ^ 32 ≤ r.totalSize := by
  induction h with
  | @flush memtable id hwf hne hcontents =>
    refine (built_flush_cases id hwf hne hcontents).imp_right ?_
    rintro ⟨hnone, n, hn, hlong⟩
    refine ⟨hnone, _, List.mem_map_of_mem hn, ?_⟩
    rwa [KvRawRecord.totalSize, List.length_append, length_keyBytes]
  | @merge inputs hne hinputs hdisjoint ih =>
    have hspec : ∀ i ∈ inputs, BuiltSpec i.1 i.2 := by
      intro i hi
      rcases ih i hi with ⟨sst, hsst, hbuilt⟩ | ⟨hnone, -⟩
      · rw [Option.some.inj hsst]
        exact hbuilt
      · cases hnone
    exact Or.inl (builtSpec_merge hne hspec hdisjoint)

/-! ## Seeking and reading -/

/-- Without failures the record loop stops with an answer exactly when a record of the range lies
ahead. -/
theorem sstIteratorSeekLoop_ok {it : SstIterator} (hfaults : it.faults = IoFaults.none)
    (start endKey : SlUint128) (pre post : List KvRawRecord)
    (hfile : it.sst.sstFile = fileBytes (pre ++ post)) (hwf : ∀ r ∈ post, r.Wf)
    (hs : SortedBy KvRawRecord.key post) :
    (sstIteratorSeekLoop it start endKey (fileBytes pre).length).1 = true ↔
      ∃ r ∈ post, start ≤ r.key ∧ r.key ≤ endKey := by
  induction post generalizing pre with
  -- the end of the file
  | nil =>
    have hnone : sstReadNextHeader it.sst.sstFile it.faults (fileBytes pre).length = none := by
      rw [hfile, List.append_nil, sstReadNextHeader_end]
    rw [sstIteratorSeekLoop]
    split
    · simp
    · rename_i header h
      rw [hnone] at h
      cases h
  | cons r post ih =>
    have hr : r.Wf := hwf r List.mem_cons_self
    have hheader : sstReadNextHeader it.sst.sstFile it.faults (fileBytes pre).length =
        some ⟨r.key, r.totalSize - 21, r.rawData.take 21⟩ := by
      rw [hfile, fileBytes_append, fileBytes_cons]
      exact sstReadNextHeader_boundary hr (by rw [hfaults]; rfl)
    obtain ⟨hle, hs'⟩ := sortedBy_cons.mp hs
    have hnext := ih (pre ++ [r]) (by rw [hfile]; simp)
      (fun s hs => hwf s (List.mem_cons_of_mem r hs)) hs'
    rw [fileBytes_snoc_length pre r hr] at hnext
    rw [sstIteratorSeekLoop]
    split
    · rename_i h
      rw [hheader] at h
      cases h
    · rename_i header h
      rw [hheader] at h
      cases h
      simp only [keyCompare_pos_iff, keyCompare_nonneg_iff]
      by_cases hgt : endKey < r.key
      · -- past the end key the loop gives up
        rw [if_pos hgt]
        constructor
        · intro hfalse
          cases hfalse
        · rintro ⟨x, hx, -, hend⟩
          -- the keys behind `r` are above the end key as well
          have hrx : r.key ≤ x.key := by
            rcases List.mem_cons.mp hx with rfl | hx
            · exact le_refl _
            · exact hle x hx
          exact absurd (le_trans hrx hend) (not_le_of_gt hgt)
      · rw [if_neg hgt]
        by_cases hstart : start ≤ r.key
        · -- the first record of the range
          rw [if_pos hstart]
          exact ⟨fun _ => ⟨r, List.mem_cons_self, hstart, not_lt.mp hgt⟩, fun _ => rfl⟩
        · -- a record below `start` is skipped
          rw [if_neg hstart, hfaults]
          refine hnext.trans ?_
          constructor
          · rintro ⟨x, hx, hin⟩
            exact ⟨x, List.mem_cons_of_mem r hx, hin⟩
          · rintro ⟨x, hx, hin⟩
            rcases List.mem_cons.mp hx with rfl | hx
            · exact absurd hin.1 hstart
            · exact ⟨x, hx, hin⟩

/-- Without failures a seek answers whether the range has a record. -/
theorem SstIterator.Fresh.seek_ok {it it' : SstIterator} {rs : List KvRawRecord} (h : it.Fresh rs)
    (hfaults : it.faults = IoFaults.none) (hstrict : StrictBy KvRawRecord.key rs)
    {start endKey : SlUint128} {ok : Bool} (hseek : sstIteratorSeek it start endKey = some (ok, it')) :
    ok = true ↔ ∃ r ∈ rs, start ≤ r.key ∧ r.key ≤ endKey := by
  by_cases hout : keyCompare it.sst.maxKey start < 0 ∨ keyCompare it.sst.minKey endKey > 0
  · rw [sstIteratorSeek, if_pos hout] at hseek
    cases hseek
    simp only [keyCompare_neg_iff, keyCompare_pos_iff] at hout
    constructor
    · intro hfalse
      cases hfalse
    · rintro ⟨r, hr, hstart, hend⟩
      rcases hout with hout | hout
      · exact absurd (le_trans hstart (h.holds.le_maxKey r hr)) (not_le_of_gt hout)
      · exact absurd (le_trans (h.holds.minKey_le r hr) hend) (not_le_of_gt hout)
  · rcases sstIteratorEnsureOpen_cases it h with
      ⟨-, hf⟩ | ⟨-, hf⟩ | ⟨index, opened, hindex, hopened, hopen⟩
    · rw [hfaults] at hf
      cases hf
    · rw [hfaults] at hf
      cases hf
    · obtain ⟨pre, post, hrs, hoff, hpre⟩ := indexLookup_boundary hindex start
      rw [sstIteratorSeek, if_neg hout] at hseek
      have hset : opened.faults.seekSet = false := by rw [hopened, hfaults]; rfl
      have hidx : opened.cachedIndex.getD [] = index := by rw [hopened]; rfl
      simp only [hopen, hset, hidx, Bool.false_eq_true, if_false, Option.some.injEq, hoff] at hseek
      have hnone : opened.faults = IoFaults.none := by
        rw [hopened]
        exact hfaults
      have hloop := sstIteratorSeekLoop_ok hnone start endKey pre post
        (by rw [hopened, ← hrs]; exact h.holds.file_eq)
        (fun r hr => h.holds.wf r (by rw [hrs]; exact List.mem_append_right pre hr))
        (h.holds.sorted.sublist (by rw [hrs]; exact List.sublist_append_right pre post))
      rw [hseek] at hloop
      refine hloop.trans ?_
      constructor
      · rintro ⟨r, hr, hin⟩
        exact ⟨r, by rw [hrs]; exact List.mem_append_right pre hr, hin⟩
      · rintro ⟨r, hr, hin⟩
        -- what the lookup skips is below `start`
        rw [hrs] at hr
        rcases List.mem_append.mp hr with hr | hr
        · exact absurd hin.1 (not_le_of_gt (hpre (Or.inl hstrict) r hr))
        · exact ⟨r, hr, hin⟩

/-- What a seek on a new iterator answers, and what the iterator then hands out. -/
theorem exists_sstIteratorSeek {sst : SstMetadataRecord} {rs : List KvRawRecord}
    (h : SstHolds sst rs) (hstrict : StrictBy KvRawRecord.key rs) (start endKey : SlUint128) :
    ∃ ok it, sstIteratorSeek (sstIteratorCreate sst IoFaults.none) start endKey = some (ok, it) ∧
      it.remaining = rangeFilter KvRawRecord.key start endKey rs ∧
      (ok = true ↔ ∃ r ∈ rs, start ≤ r.key ∧ r.key ≤ endKey) := by
  have hfresh := sstIteratorCreate_fresh h IoFaults.none
  obtain ⟨ls, hls, -, hall⟩ := exists_scansTo_none h start endKey
  cases hseek : sstIteratorSeek (sstIteratorCreate sst IoFaults.none) start endKey with
  | none => exact absurd hseek (hfresh.seek_ne_none rfl start endKey)
  | some answer =>
    obtain ⟨ok, it⟩ := answer
    refine ⟨ok, it, rfl, ?_, hfresh.seek_ok rfl hstrict hseek⟩
    rw [(hls.yields ok it hseek).remaining, hall (Or.inl hstrict)]

/-- The same with the buffer: a seek on a new iterator, and reading what it leaves. -/
theorem buffers_answer {sst : SstMetadataRecord} {rs : List KvRawRecord} (h : BuiltSpec sst rs)
    (start endKey : SlUint128) :
    ∃ ok it, Buffers.sstIteratorSeek (Buffers.sstIteratorCreate sst IoFaults.none) start endKey =
        some (ok, it) ∧
      (ok = true ↔ ∃ r ∈ rs, start ≤ r.key ∧ r.key ≤ endKey) ∧
      ∀ n, rs.length < n → drain Buffers.sstIteratorTake n it =
        some (rangeFilter KvRawRecord.key start endKey rs) := by
  have hsst : SstOk sst := h.holds.ok h.ne_nil
  obtain ⟨ok, it, hseek, hitOk, hvalue⟩ :=
    (Buffers.pending_sstIteratorCreate hsst hsst.holds.totalSize_lt).seek start endKey
  obtain ⟨ok', it', hseek', hremaining, hok⟩ := exists_sstIteratorSeek h.holds h.strict start endKey
  have hsame : some (ok, it.view) = some (ok', it') := hvalue.symm.trans hseek'
  obtain ⟨rfl, rfl⟩ := Prod.mk.inj (Option.some.inj hsame)
  refine ⟨ok, it, hseek, hok, fun n hn => ?_⟩
  have hlen : it.view.remaining.length < n := by
    rw [hremaining]
    exact lt_of_le_of_lt (rangeFilter_sublist start endKey rs).length_le hn
  rw [Buffers.drain_sstIteratorTake n hitOk hlen, hremaining]

/-! ## What a file answers -/

/-- The file has the records `rs`. A seek says whether a record of the range exists, and reading gives
exactly the records of the range. The metadata record has the first key, the last key and the file
size, and the index that is read back from its file is the one that was written. -/
structure AnswersRanges (sst : SstMetadataRecord) (rs : List KvRawRecord) : Prop where
  answers : ∀ start endKey, ∃ ok it,
    Buffers.sstIteratorSeek (Buffers.sstIteratorCreate sst IoFaults.none) start endKey =
      some (ok, it) ∧
    (ok = true ↔ ∃ r ∈ rs, start ≤ r.key ∧ r.key ≤ endKey) ∧
    ∀ n, rs.length < n → drain Buffers.sstIteratorTake n it =
      some (rangeFilter KvRawRecord.key start endKey rs)
  strict : StrictBy KvRawRecord.key rs
  bounds : ∃ first last, rs.head? = some first ∧ rs.getLast? = some last ∧
    sst.minKey = first.key ∧ sst.maxKey = last.key
  totalBytes_eq : sst.totalBytes = sst.sstFile.length
  file_eq : sst.sstFile = fileBytes rs
  index : sst.totalBytes ≤ 2 ^ 64 → indexLoadFromDisk IoFaults.none sst.sstIndexFile =
    some (indexLoadBytes (indexFlush sst.sstIndexFile))

theorem BuiltSpec.answersRanges {sst : SstMetadataRecord} {rs : List KvRawRecord}
    (h : BuiltSpec sst rs) : AnswersRanges sst rs where
  answers := buffers_answer h
  strict := h.strict
  bounds := by
    obtain ⟨first, hfirst⟩ := Option.ne_none_iff_exists'.mp
      (fun hnone => h.ne_nil (List.head?_eq_none_iff.mp hnone))
    obtain ⟨last, hlast⟩ := Option.ne_none_iff_exists'.mp
      (fun hnone => h.ne_nil (List.getLast?_eq_none_iff.mp hnone))
    exact ⟨first, last, hfirst, hlast, h.bounds.minKey first hfirst, h.bounds.maxKey last hlast⟩
  totalBytes_eq := h.holds.totalBytes_eq
  file_eq := h.holds.file_eq
  index hsize := by
    rw [indexLoadBytes_indexFlush fun block hblock =>
      lt_of_lt_of_le (h.holds.offset_lt hblock) hsize]
    exact congrArg some (indexLoad_none 0 sst.sstIndexFile)

/-- What the store makes of records is a file that answers every range exactly, as long as the size of
each record has 32 bits; with a longer record there is no file. -/
theorem built_answers_ranges_iff {rs : List KvRawRecord} {out : Option SstMetadataRecord}
    (h : Built rs out) :
    (∃ sst, out = some sst ∧ AnswersRanges sst rs) ↔ ∀ r ∈ rs, r.totalSize < 2 ^ 32 := by
  rcases h.spec with ⟨sst, hsst, hbuilt⟩ | ⟨hnone, r, hr, hlong⟩
  · exact ⟨fun _ => hbuilt.holds.totalSize_lt, fun _ => ⟨sst, hsst, hbuilt.answersRanges⟩⟩
  · constructor
    · rintro ⟨sst, hsst, -⟩
      rw [hnone] at hsst
      cases hsst
    · intro hlt
      exact absurd (hlt r hr) (Nat.not_lt.mpr hlong)

/-- A memtable with one record. -/
def oneRecordSl (key : SlUint128) (content : Bytes) : Sl :=
  (slInsert (slInit 0) key content).1

theorem oneRecordSl_spec {key : SlUint128} (hkey : key.id ≠ 0) (content : Bytes) :
    (oneRecordSl key content).Wf ∧ (oneRecordSl key content).bottomLevel = [(key, content)] := by
  rcases slInsert_cases (Sl.wf_slInit 0) key content with
    ⟨-, hrefuses⟩ | ⟨sl', hins, -, hwf, -, hperm⟩
  · rcases hrefuses with hzero | ⟨n, hn, -⟩
    · exact absurd hzero hkey
    · cases hn
  · have heq : oneRecordSl key content = sl' := by rw [oneRecordSl, hins]
    rw [heq]
    exact ⟨hwf, List.perm_singleton.mp hperm⟩

/-- What a flush makes of one record. -/
theorem built_oneRecordSl {key : SlUint128} (hkey : key.id ≠ 0) (type : UInt8) {data : Bytes}
    (hdata : 5 + data.length < 2 ^ 32) (id : Nat) :
    Built [⟨key, keyBytes key ++ encodeData type data⟩]
      ((memtableToDisk (oneRecordSl key (encodeData type data))).registered id) := by
  obtain ⟨hwf, hlevel⟩ := oneRecordSl_spec hkey (encodeData type data)
  have hbuilt := Built.flush id hwf (by simp [hlevel]) (fun n hn => by
    rw [hlevel, List.mem_singleton] at hn
    rw [hn, length_encodeData]
    exact ⟨encoded_encodeData type (by omega), hdata⟩)
  rwa [hlevel] at hbuilt

/-- Two files of one record each and their merge. -/
theorem built_answers_ranges_merge :
    ∃ first second merged,
      (memtableToDisk (oneRecordSl ⟨1, 0⟩ (encodeData 2 [7]))).registered 3 = some first ∧
      (memtableToDisk (oneRecordSl ⟨2, 5⟩ (encodeData 1 [8, 9]))).registered 4 = some second ∧
      Buffers.sstMerge [(second, IoFaults.none), (first, IoFaults.none)] = some merged ∧
      AnswersRanges merged [⟨⟨1, 0⟩, keyBytes ⟨1, 0⟩ ++ encodeData 2 [7]⟩,
        ⟨⟨2, 5⟩, keyBytes ⟨2, 5⟩ ++ encodeData 1 [8, 9]⟩] := by
  have hfirst := @built_oneRecordSl ⟨1, 0⟩ (by decide) 2 [7] (by decide) 3
  have hsecond := @built_oneRecordSl ⟨2, 5⟩ (by decide) 1 [8, 9] (by decide) 4
  obtain ⟨first, hfirst', -⟩ := (built_answers_ranges_iff hfirst).mpr (by decide)
  obtain ⟨second, hsecond', -⟩ := (built_answers_ranges_iff hsecond).mpr (by decide)
  rw [hfirst'] at hfirst
  rw [hsecond'] at hsecond
  have hbuilt := @Built.merge
    [(second, [⟨⟨2, 5⟩, keyBytes ⟨2, 5⟩ ++ encodeData 1 [8, 9]⟩]),
      (first, [⟨⟨1, 0⟩, keyBytes ⟨1, 0⟩ ++ encodeData 2 [7]⟩])]
    (by simp)
    (by
      intro i hi
      rcases List.mem_pair.mp hi with rfl | rfl
      · exact hsecond
      · exact hfirst)
    (by simp)
  obtain ⟨merged, hmerge, hanswers⟩ := (built_answers_ranges_iff hbuilt).mpr (by
    intro r hr
    rcases List.mem_pair.mp (List.mem_mergeSort.mp hr) with rfl | rfl
    · decide
    · decide)
  refine ⟨first, second, merged, hfirst', hsecond', hmerge, ?_⟩
  have hsorted : [⟨⟨2, 5⟩, keyBytes ⟨2, 5⟩ ++ encodeData 1 [8, 9]⟩,
      ⟨⟨1, 0⟩, keyBytes ⟨1, 0⟩ ++ encodeData 2 [7]⟩].mergeSort
        (fun r s : KvRawRecord => decide (r.key ≤ s.key)) =
      [⟨⟨1, 0⟩, keyBytes ⟨1, 0⟩ ++ encodeData 2 [7]⟩,
        ⟨⟨2, 5⟩, keyBytes ⟨2, 5⟩ ++ encodeData 1 [8, 9]⟩] := by
    have hlt : ¬ (SlUint128.mk 2 5 ≤ SlUint128.mk 1 0) := by decide
    simp [List.mergeSort, List.MergeSort.Internal.splitInTwo, hlt]
  rw [← hsorted]
  exact hanswers

/-- A content of `2 ^ 32 - 16` bytes is flushed into nothing. -/
theorem not_built_answers_ranges :
    ∃ rs out, Built rs out ∧ ¬ ∃ sst, out = some sst ∧ AnswersRanges sst rs := by
  have hlen : (List.replicate (2 ^ 32 - 21) (0 : UInt8)).length = 2 ^ 32 - 21 :=
    List.length_replicate
  have hbuilt := @built_oneRecordSl ⟨1, 0⟩ (by decide) 2 (List.replicate (2 ^ 32 - 21) 0)
    (by rw [hlen]; decide) 0
  refine ⟨_, _, hbuilt, ?_⟩
  rcases hbuilt.spec with ⟨sst, -, hspec⟩ | ⟨hnone, -⟩
  · have hlt := hspec.holds.totalSize_lt _ (List.mem_singleton.mpr rfl)
    rw [KvRawRecord.totalSize, List.length_append, length_keyBytes, length_encodeData, hlen] at hlt
    exact absurd hlt (by decide)
  · rintro ⟨sst, hsst, -⟩
    rw [hnone] at hsst
    cases hsst

end RaftLsmt.Lsmt
