import RaftLsmt.Lib.SortedMerge
import RaftLsmt.Lsmt.Record

/-!
# SST files and their index

An SST is a file of raw records in key order and a sparse index of it: one block `(key, offset)`
for the first record of each 4 KB stretch. `memtable_to_disk` and `sst_merge` fill the two files
with the same loop, here `SstWriter.write`. `SstHolds sst rs` says that the files a metadata record
names hold exactly the records `rs`; it is what the two writers establish
(`sstHolds_writeSst`) and all the readers rely on.

`index_lookup` returns the offset of a block whose key is at most the key looked for, or the
start of the file (`indexLookup_cases`). For a reader it is enough that nothing in front of that
offset is in range (`skipsBelow_indexLookup`).
-/

set_option autoImplicit false

namespace RaftLsmt.Lsmt

open RaftLsmt.Lib.ByteCodec
open RaftLsmt.Lib.SortedMerge

/-- Which file operations of one iterator fail. Reads and relative seeks are named by the file
position they start at, index reads by the block number. -/
structure IoFaults where
  openSst : Bool
  openIndex : Bool
  readIndex : Nat → Bool
  seekSet : Bool
  seekCur : Nat → Bool
  readHeader : Nat → Bool
  readBody : Nat → Bool

/-- Every file operation succeeds. -/
def IoFaults.none : IoFaults where
  openSst := false
  openIndex := false
  readIndex := fun _ => false
  seekSet := false
  seekCur := fun _ => false
  readHeader := fun _ => false
  readBody := fun _ => false

/-! ## The sparse index -/

/-- `index_block_t`. -/
structure IndexBlock where
  key : SlUint128
  offset : Nat

/-- The loop of `index_load`: it stops at the first short read. -/
def indexLoad (faults : IoFaults) : Nat → List IndexBlock → List IndexBlock
  | _, [] => []
  | n, b :: bs => if faults.readIndex n then [] else b :: indexLoad faults (n + 1) bs

/-- `index_load_from_disk`; it exits the process when the index file cannot be opened. -/
def indexLoadFromDisk (faults : IoFaults) (indexFile : List IndexBlock) :
    Option (List IndexBlock) :=
  if faults.openIndex then Option.none else some (indexLoad faults 0 indexFile)

/-- The binary search of `index_lookup` on `blocks[first..last]`; the result is an index. -/
def indexLookupLoop (blocks : List IndexBlock) (key : SlUint128) (first last : Int)
    (bestIdx : Nat) : Nat :=
  if first ≤ last then
    let half := first + (last - first) / 2
    match blocks[half.toNat]? with
    | none => bestIdx
    | some block =>
      let cmp := keyCompare block.key key
      if cmp < 0 then indexLookupLoop blocks key (half + 1) last half.toNat
      else if cmp > 0 then indexLookupLoop blocks key first (half - 1) bestIdx
      else half.toNat
  else bestIdx
termination_by (last - first + 1).toNat
decreasing_by all_goals omega

/-- `index_lookup`: the offset to start reading at. -/
def indexLookup (blocks : List IndexBlock) (key : SlUint128) : Nat :=
  match blocks[indexLookupLoop blocks key 0 (blocks.length - 1) 0]? with
  | none => 0
  | some block => block.offset

theorem indexLookupLoop_cases (blocks : List IndexBlock) (key : SlUint128) (first last : Int)
    (bestIdx : Nat) :
    indexLookupLoop blocks key first last bestIdx = bestIdx ∨
      ∃ block, blocks[indexLookupLoop blocks key first last bestIdx]? = some block ∧
        block.key ≤ key := by
  fun_induction indexLookupLoop blocks key first last bestIdx with
  | case1 => exact Or.inl rfl
  | case2 first last bestIdx _ half block hblock cmp hneg ih =>
    rcases ih with ih | ih
    · exact Or.inr ⟨block, by rw [ih, hblock], le_of_lt (keyCompare_neg_iff.mp hneg)⟩
    · exact Or.inr ih
  | case3 first last bestIdx _ half block hblock cmp hneg hpos ih => exact ih
  | case4 first last bestIdx _ half block hblock cmp hneg hpos =>
    exact Or.inr ⟨block, hblock, not_lt.mp fun h => hpos (keyCompare_pos_iff.mpr h)⟩
  | case5 => exact Or.inl rfl

/-- The lookup lands on the first block or on a block whose key is at most `key`. -/
theorem indexLookup_cases (blocks : List IndexBlock) (key : SlUint128) :
    (∀ block, blocks.head? = some block → indexLookup blocks key = block.offset) ∧
        (blocks = [] → indexLookup blocks key = 0) ∨
      ∃ block ∈ blocks, block.key ≤ key ∧ indexLookup blocks key = block.offset := by
  rcases indexLookupLoop_cases blocks key 0 (blocks.length - 1) 0 with h | ⟨block, hblock, hle⟩
  · refine Or.inl ⟨fun block hhead => ?_, fun hnil => ?_⟩
    · rw [List.head?_eq_getElem?] at hhead
      simp only [indexLookup, h, hhead]
    · simp [indexLookup, hnil]
  · refine Or.inr ⟨block, List.mem_of_getElem? hblock, hle, ?_⟩
    simp only [indexLookup, hblock]

/-- Every block points at the start of a record with its key, the first block at the start of the
file. -/
structure IndexWf (rs : List KvRawRecord) (blocks : List IndexBlock) : Prop where
  points : ∀ block ∈ blocks, ∃ pre r post, rs = pre ++ r :: post ∧ block.key = r.key ∧
    block.offset = (fileBytes pre).length
  head : ∀ block, blocks.head? = some block → block.offset = 0

theorem indexLoad_subset (faults : IoFaults) (n : Nat) (blocks : List IndexBlock) :
    ∀ block ∈ indexLoad faults n blocks, block ∈ blocks := by
  induction blocks generalizing n with
  | nil => simp [indexLoad]
  | cons b bs ih =>
    intro block hblock
    rw [indexLoad] at hblock
    split at hblock
    · simp at hblock
    · rcases List.mem_cons.mp hblock with rfl | h
      · exact List.mem_cons_self
      · exact List.mem_cons_of_mem _ (ih (n + 1) block h)

theorem indexLoad_head? (faults : IoFaults) (n : Nat) (blocks : List IndexBlock)
    (block : IndexBlock) (h : (indexLoad faults n blocks).head? = some block) :
    blocks.head? = some block := by
  cases blocks with
  | nil => simp [indexLoad] at h
  | cons b bs =>
    rw [indexLoad] at h
    split at h
    · simp at h
    · simpa using h

/-- A partly loaded index is still well formed. -/
theorem IndexWf.indexLoad {rs : List KvRawRecord} {blocks : List IndexBlock} (h : IndexWf rs blocks)
    (faults : IoFaults) (n : Nat) : IndexWf rs (indexLoad faults n blocks) where
  points block hblock := h.points block (indexLoad_subset faults n blocks block hblock)
  head block hblock := h.head block (indexLoad_head? faults n blocks block hblock)

/-- No lookup of `start` can skip a record of the range: no key repeats, or every key is above
`start`. -/
def LookupSafe (rs : List KvRawRecord) (start : SlUint128) : Prop :=
  StrictBy KvRawRecord.key rs ∨ ∀ r ∈ rs, start < r.key

/-- What a lookup may skip: nothing, or the records in front of one that is not above `start`. -/
def SkipsTo (start : SlUint128) (pre post : List KvRawRecord) : Prop :=
  pre = [] ∨ ∃ r ∈ post.head?, r.key ≤ start

theorem SkipsTo.lt {start : SlUint128} {rs pre post : List KvRawRecord}
    (h : SkipsTo start pre post) (hrs : rs = pre ++ post) (hsafe : LookupSafe rs start) :
    ∀ r ∈ pre, r.key < start := by
  subst hrs
  rcases h with rfl | ⟨r, hr, hle⟩
  · simp
  · have hpost : r ∈ post := List.mem_of_head? hr
    intro x hx
    rcases hsafe with hstrict | habove
    · exact lt_of_lt_of_le ((List.pairwise_append.mp hstrict).2.2 x hx r hpost) hle
    · exact absurd hle (not_le_of_gt (habove r (List.mem_append_right pre hpost)))

/-- A skipped record that is not below `start` has its key repeated in what is read. -/
theorem SkipsTo.exists_key {start : SlUint128} {pre post : List KvRawRecord}
    (h : SkipsTo start pre post) (hs : SortedBy KvRawRecord.key (pre ++ post)) {r : KvRawRecord}
    (hr : r ∈ pre ++ post) (hstart : start ≤ r.key) : ∃ x ∈ post, x.key = r.key := by
  rcases List.mem_append.mp hr with hr | hr
  · rcases h with rfl | ⟨x, hx, hle⟩
    · cases hr
    · have hpost : x ∈ post := List.mem_of_head? hx
      have hrx : r.key ≤ x.key := (List.pairwise_append.mp hs).2.2 r hr x hpost
      exact ⟨x, hpost, le_antisymm (le_trans hle hstart) hrx⟩
  · exact ⟨r, hr, rfl⟩

/-- The lookup lands on a record boundary: the first one, or one whose record is not above
`start`. -/
theorem indexLookup_skipsTo {rs : List KvRawRecord} {blocks : List IndexBlock}
    (h : IndexWf rs blocks) (start : SlUint128) :
    ∃ pre post, rs = pre ++ post ∧ indexLookup blocks start = (fileBytes pre).length ∧
      SkipsTo start pre post := by
  rcases indexLookup_cases blocks start with ⟨hhead, hnil⟩ | ⟨block, hmem, hle, hoff⟩
  · refine ⟨[], rs, rfl, ?_, Or.inl rfl⟩
    cases hb : blocks with
    | nil => simpa [hb] using hnil hb
    | cons b bs =>
      have hb' : blocks.head? = some b := by rw [hb]; rfl
      rw [← hb, hhead b hb', h.head b hb']
      rfl
  · obtain ⟨pre, r, post, hrs, hkey, hpos⟩ := h.points block hmem
    exact ⟨pre, r :: post, hrs, by rw [hoff, hpos], Or.inr ⟨r, rfl, hkey ▸ hle⟩⟩

/-- The lookup skips only records below `start` when no key repeats, and also when every key is above
`start`; with a repeated key it may land behind the first copy. -/
theorem indexLookup_boundary {rs : List KvRawRecord} {blocks : List IndexBlock}
    (h : IndexWf rs blocks) (start : SlUint128) :
    ∃ pre post, rs = pre ++ post ∧ indexLookup blocks start = (fileBytes pre).length ∧
      (LookupSafe rs start → ∀ r ∈ pre, r.key < start) := by
  obtain ⟨pre, post, hrs, hoff, hskip⟩ := indexLookup_skipsTo h start
  exact ⟨pre, post, hrs, hoff, hskip.lt hrs⟩

/-! ## Writing an SST -/

/-- `index_block_size`. -/
def indexBlockSize : Nat := 4 * 1024

/-- The state of the write loops of `memtable_to_disk` and `sst_merge`. -/
structure SstWriter where
  file : Bytes
  index : List IndexBlock
  offset : Nat
  currentBlockSize : Nat
  minKey : SlUint128
  maxKey : SlUint128
  first : Bool

/-- The state before the first record. -/
def SstWriter.init : SstWriter where
  file := []
  index := []
  offset := 0
  currentBlockSize := 0
  minKey := SlUint128.zero
  maxKey := SlUint128.zero
  first := true

/-- One turn of the write loop. -/
def SstWriter.write (w : SstWriter) (rec : KvRawRecord) : SstWriter :=
  let currentBlockSize := w.currentBlockSize + rec.totalSize
  { file := w.file ++ rec.rawData
    index := if w.currentBlockSize = 0 then w.index ++ [⟨rec.key, w.offset⟩] else w.index
    offset := w.offset + rec.totalSize
    currentBlockSize := if currentBlockSize ≥ indexBlockSize then 0 else currentBlockSize
    minKey := if w.first then rec.key else w.minKey
    maxKey := rec.key
    first := false }

/-- `sst_metadata_record_t`, together with the content of the two files it names. `cachedIndex` is the
index that the first iterator over the file has loaded; the later ones share it. -/
structure SstMetadataRecord where
  id : Nat
  level : Nat
  totalBytes : Nat
  minKey : SlUint128
  maxKey : SlUint128
  sstFile : Bytes
  sstIndexFile : List IndexBlock
  cachedIndex : Option (List IndexBlock)

/-- `create_sst_metadata` on what a write loop left behind. -/
def createSstMetadata (id level : Nat) (w : SstWriter) : SstMetadataRecord where
  id := id
  level := level
  totalBytes := w.offset
  minKey := w.minKey
  maxKey := w.maxKey
  sstFile := w.file
  sstIndexFile := w.index
  cachedIndex := none

/-- Write the records in order and describe the result. -/
def writeSst (id level : Nat) (rs : List KvRawRecord) : SstMetadataRecord :=
  createSstMetadata id level (rs.foldl SstWriter.write SstWriter.init)

/-- The SST holds exactly the records `rs`: in order, each with a readable header, a size of 32 bits and
a key that is not reserved, under a well-formed index and with the right bounds and size. A cached index
is one that has been read from the index file. -/
structure SstHolds (sst : SstMetadataRecord) (rs : List KvRawRecord) : Prop where
  file_eq : sst.sstFile = fileBytes rs
  wf : ∀ r ∈ rs, r.Wf
  totalSize_lt : ∀ r ∈ rs, r.totalSize < 2 ^ 32
  pos : ∀ r ∈ rs, SlUint128.zero < r.key
  sorted : SortedBy KvRawRecord.key rs
  minKey_le : ∀ r ∈ rs, sst.minKey ≤ r.key
  le_maxKey : ∀ r ∈ rs, r.key ≤ sst.maxKey
  index : IndexWf rs sst.sstIndexFile
  cached : ∀ index, sst.cachedIndex = some index → ∃ faults, index = indexLoad faults 0 sst.sstIndexFile
  totalBytes_eq : sst.totalBytes = sst.sstFile.length

/-- What the write loop has established after the records `rs`. -/
structure SstWriter.Holds (w : SstWriter) (rs : List KvRawRecord) : Prop where
  file_eq : w.file = fileBytes rs
  offset_eq : w.offset = w.file.length
  minKey_le : ∀ r ∈ rs, w.minKey ≤ r.key
  le_maxKey : ∀ r ∈ rs, r.key ≤ w.maxKey
  index : IndexWf rs w.index
  first_iff : w.first = true ↔ rs = []
  index_ne_nil : rs ≠ [] → w.index ≠ []
  block_zero : rs = [] → w.currentBlockSize = 0 ∧ w.index = []

theorem SstWriter.holds_init : SstWriter.init.Holds [] where
  file_eq := rfl
  offset_eq := rfl
  minKey_le := by simp
  le_maxKey := by simp
  index := ⟨by simp [SstWriter.init], by simp [SstWriter.init]⟩
  first_iff := by simp [SstWriter.init]
  index_ne_nil := by simp
  block_zero := by simp [SstWriter.init]

theorem IndexWf.mono {rs ss : List KvRawRecord} {blocks : List IndexBlock} (h : IndexWf rs blocks) :
    IndexWf (rs ++ ss) blocks where
  points block hblock := by
    obtain ⟨pre, r, post, hrs, hkey, hoff⟩ := h.points block hblock
    exact ⟨pre, r, post ++ ss, by rw [hrs]; simp, hkey, hoff⟩
  head := h.head

/-- One more record, not below the ones before it. -/
theorem SstWriter.Holds.write {w : SstWriter} {rs : List KvRawRecord} (h : w.Holds rs)
    {r : KvRawRecord} (hle : ∀ x ∈ rs, x.key ≤ r.key) : (w.write r).Holds (rs ++ [r]) where
  file_eq := by simp [SstWriter.write, h.file_eq]
  offset_eq := by simp [SstWriter.write, h.offset_eq, KvRawRecord.totalSize]
  minKey_le x hx := by
    -- the first record sets the least key, which no later one goes below
    by_cases hfirst : w.first = true
    · have hnil := h.first_iff.mp hfirst
      simp only [hnil, List.nil_append, List.mem_singleton] at hx
      simp [SstWriter.write, hfirst, hx]
    · simp only [SstWriter.write, if_neg hfirst]
      rcases List.mem_append.mp hx with hx | hx
      · exact h.minKey_le x hx
      · have hne : rs ≠ [] := fun hnil => hfirst (h.first_iff.mpr hnil)
        obtain ⟨y, hy⟩ := List.exists_mem_of_ne_nil rs hne
        rw [List.mem_singleton.mp hx]
        exact le_trans (h.minKey_le y hy) (hle y hy)
  le_maxKey x hx := by
    rcases List.mem_append.mp hx with hx | hx
    · exact hle x hx
    · rw [List.mem_singleton.mp hx]
      rfl
  index := by
    -- a record that starts a block gets an index entry at its offset
    by_cases hzero : w.currentBlockSize = 0
    · refine ⟨fun block hblock => ?_, fun block hblock => ?_⟩
      · simp only [SstWriter.write, if_pos hzero, List.mem_append, List.mem_singleton] at hblock
        rcases hblock with hblock | rfl
        · exact h.index.mono.points block hblock
        · exact ⟨rs, r, [], rfl, rfl, by rw [h.offset_eq, h.file_eq]⟩
      · simp only [SstWriter.write, if_pos hzero] at hblock
        by_cases hnil : rs = []
        · rw [(h.block_zero hnil).2] at hblock
          simp only [List.nil_append, List.head?_cons, Option.some.injEq] at hblock
          subst hblock
          show w.offset = 0
          rw [h.offset_eq, h.file_eq, hnil]
          rfl
        · refine h.index.head block ?_
          rwa [List.head?_append_of_ne_nil _ (h.index_ne_nil hnil)] at hblock
    · simp only [SstWriter.write, if_neg hzero]
      exact h.index.mono
  first_iff := by simp [SstWriter.write]
  index_ne_nil _ := by
    by_cases hzero : w.currentBlockSize = 0
    · simp [SstWriter.write, hzero]
    · simp only [SstWriter.write, if_neg hzero]
      exact h.index_ne_nil fun hnil => hzero (h.block_zero hnil).1
  block_zero hnil := by simp at hnil

theorem SstWriter.holds_foldl {rs ss : List KvRawRecord} {w : SstWriter} (h : w.Holds rs)
    (hs : SortedBy KvRawRecord.key (rs ++ ss)) : (ss.foldl SstWriter.write w).Holds (rs ++ ss) := by
  induction ss generalizing rs w with
  | nil => simpa using h
  | cons s ss ih =>
    have hle : ∀ x ∈ rs, x.key ≤ s.key := by
      intro x hx
      exact (List.pairwise_append.mp hs).2.2 x hx s List.mem_cons_self
    have hassoc : rs ++ s :: ss = (rs ++ [s]) ++ ss := by simp
    rw [hassoc] at hs ⊢
    exact ih (h.write hle) hs

/-- Writing well-formed records in key order produces an SST that holds them. -/
theorem sstHolds_writeSst (id level : Nat) {rs : List KvRawRecord} (hwf : ∀ r ∈ rs, r.Wf)
    (hsize : ∀ r ∈ rs, r.totalSize < 2 ^ 32) (hpos : ∀ r ∈ rs, SlUint128.zero < r.key)
    (hs : SortedBy KvRawRecord.key rs) : SstHolds (writeSst id level rs) rs := by
  have h := @SstWriter.holds_foldl [] rs _ SstWriter.holds_init hs
  rw [List.nil_append] at h
  refine ⟨h.file_eq, hwf, hsize, hpos, hs, h.minKey_le, h.le_maxKey, h.index, ?_, h.offset_eq⟩
  intro index hindex
  cases hindex

@[simp]
theorem writeSst_level (id level : Nat) (rs : List KvRawRecord) :
    (writeSst id level rs).level = level := rfl

end RaftLsmt.Lsmt
