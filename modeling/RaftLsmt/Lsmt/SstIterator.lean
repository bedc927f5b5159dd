import RaftLsmt.Lsmt.SstFile
import Mathlib.Data.List.TakeWhile

/-!
# The iterator over one SST

`sst_iterator_seek` positions on the first record of the range, `sst_iterator_peek` reads the next
record into the buffer and `sst_iterator_advance` drops it. A failed open, seek or read ends the
iteration exactly as the end of the file does; only a missing index file stops the process.

`SstIterator.remaining` lists what the iterator still hands out. A peek shows its head and an
advance drops it (`sstIteratorPeek_spec`, `remaining_sstIteratorAdvance`), so every later proof
works on that list. After a seek it is the readable part of the file cut to the range
(`remaining_sstIteratorSeek`); without failures this is the whole range
(`remaining_sstIteratorSeek_none`).
-/

set_option autoImplicit false

namespace RaftLsmt.Lsmt

open RaftLsmt.Lib.ByteCodec
open RaftLsmt.Lib.SortedMerge

/-- A record header read from the file: `pending_key`, `pending_body_len` and
`pending_raw_header`. -/
structure PendingHeader where
  key : SlUint128
  bodyLen : Nat
  rawHeader : Bytes

/-- `sst_iterator_t`. `cachedIndex` is the index in the metadata record as the iterator finds it: the one
cached there, or the one it has loaded itself. -/
structure SstIterator where
  sst : SstMetadataRecord
  faults : IoFaults
  active : Bool
  fp : Option Nat
  cachedIndex : Option (List IndexBlock)
  endKey : SlUint128
  bufferedRecord : Option KvRawRecord
  pendingHeader : Option PendingHeader

/-- `sst_iterator_create`. -/
def sstIteratorCreate (sst : SstMetadataRecord) (faults : IoFaults) : SstIterator where
  sst := sst
  faults := faults
  active := false
  fp := none
  cachedIndex := sst.cachedIndex
  endKey := SlUint128.zero
  bufferedRecord := none
  pendingHeader := none

/-- `fread` of `n` bytes at `pos`; a failing read returns a short count. -/
def fread (file : Bytes) (pos n : Nat) (fails : Bool) : Bytes :=
  (file.drop pos).take (if fails then n - 1 else n)

/-- `sst_iterator_ensure_open`; `none` is the `exit(1)` of `index_load_from_disk`. -/
def sstIteratorEnsureOpen (it : SstIterator) : Option (Bool × SstIterator) :=
  if it.fp = none ∧ it.faults.openSst = true then some (false, it)
  else
    let it := { it with fp := some (it.fp.getD 0) }
    match it.cachedIndex with
    | some _ => some (true, it)
    | none =>
      match indexLoadFromDisk it.faults it.sst.sstIndexFile with
      | none => none
      | some index => some (true, { it with cachedIndex := some index })

/-- `sst_read_next_header` at `pos`. -/
def sstReadNextHeader (file : Bytes) (faults : IoFaults) (pos : Nat) : Option PendingHeader :=
  let rawHeader := fread file pos 21 (faults.readHeader pos)
  if rawHeader.length ≠ 21 then none
  else some ⟨keyOfBytes rawHeader, leNat ((rawHeader.drop 17).take 4), rawHeader⟩

/-- The body read of `sst_iterator_peek`. -/
def sstReadBody (file : Bytes) (faults : IoFaults) (pos len : Nat) : Option Bytes :=
  let body := fread file pos len (faults.readBody pos)
  if body.length ≠ len then none else some body

theorem sstReadNextHeader_eq_some {file : Bytes} {faults : IoFaults} {pos : Nat}
    {header : PendingHeader} (h : sstReadNextHeader file faults pos = some header) :
    pos + 21 ≤ file.length ∧ faults.readHeader pos = false := by
  rw [sstReadNextHeader] at h
  split at h
  · cases h
  · rename_i hlen
    cases hf : faults.readHeader pos
    · simp only [fread, hf, List.length_take, List.length_drop] at hlen
      exact ⟨by simp at hlen; omega, rfl⟩
    · simp only [fread, hf, List.length_take, List.length_drop] at hlen
      simp only [if_true, ne_eq, not_not] at hlen
      omega

/-- The record loop of `sst_iterator_seek`, from the position the index gave. -/
def sstIteratorSeekLoop (it : SstIterator) (start endKey : SlUint128) (pos : Nat) :
    Bool × SstIterator :=
  match _h : sstReadNextHeader it.sst.sstFile it.faults pos with
  | none => (false, { it with active := false })
  | some header =>
    if keyCompare header.key endKey > 0 then (false, { it with active := false })
    else if keyCompare header.key start ≥ 0 then
      (true, { it with
        endKey := endKey
        active := true
        pendingHeader := some header
        fp := some (pos + 21) })
    else if it.faults.seekCur (pos + 21) then (false, { it with active := false })
    else sstIteratorSeekLoop it start endKey (pos + 21 + header.bodyLen)
termination_by it.sst.sstFile.length - pos
decreasing_by
  have := (sstReadNextHeader_eq_some _h).1
  omega

theorem sstIteratorSeekLoop_eq (it : SstIterator) (start endKey : SlUint128) (pos : Nat) :
    sstIteratorSeekLoop it start endKey pos =
      match sstReadNextHeader it.sst.sstFile it.faults pos with
      | none => (false, { it with active := false })
      | some header =>
        if keyCompare header.key endKey > 0 then (false, { it with active := false })
        else if keyCompare header.key start ≥ 0 then
          (true, { it with
            endKey := endKey
            active := true
            pendingHeader := some header
            fp := some (pos + 21) })
        else if it.faults.seekCur (pos + 21) then (false, { it with active := false })
        else sstIteratorSeekLoop it start endKey (pos + 21 + header.bodyLen) := by
  rw [sstIteratorSeekLoop]
  split <;> rename_i h <;> simp only [h]

/-- The search changes the position only. -/
theorem sstIteratorSeekLoop_keeps (it : SstIterator) (start endKey : SlUint128) (pos : Nat) :
    (sstIteratorSeekLoop it start endKey pos).2.sst = it.sst ∧
      (sstIteratorSeekLoop it start endKey pos).2.faults = it.faults ∧
      (sstIteratorSeekLoop it start endKey pos).2.cachedIndex = it.cachedIndex ∧
      (sstIteratorSeekLoop it start endKey pos).2.bufferedRecord = it.bufferedRecord := by
  fun_induction sstIteratorSeekLoop it start endKey pos with
  | case1 pos hread => exact ⟨rfl, rfl, rfl, rfl⟩
  | case2 pos header hread hgt => exact ⟨rfl, rfl, rfl, rfl⟩
  | case3 pos header hread hgt hge => exact ⟨rfl, rfl, rfl, rfl⟩
  | case4 pos header hread hgt hge hseek => exact ⟨rfl, rfl, rfl, rfl⟩
  | case5 pos header hread hgt hge hseek ih => exact ih

/-- `sst_iterator_seek`; `none` when the process exits. -/
def sstIteratorSeek (it : SstIterator) (start endKey : SlUint128) : Option (Bool × SstIterator) :=
  if keyCompare it.sst.maxKey start < 0 ∨ keyCompare it.sst.minKey endKey > 0 then
    some (false, { it with active := false })
  else
    match sstIteratorEnsureOpen it with
    | none => none
    | some (false, it) => some (false, { it with active := false })
    | some (true, it) =>
      if it.faults.seekSet then some (false, { it with active := false })
      else
        some (sstIteratorSeekLoop it start endKey (indexLookup (it.cachedIndex.getD []) start))

/-- The second half of `sst_iterator_peek`: the header is known, the body starts at `pos`. -/
def sstIteratorPeekBody (it : SstIterator) (header : PendingHeader) (pos : Nat) :
    Option KvRawRecord × SstIterator :=
  if keyCompare header.key it.endKey > 0 then (none, { it with active := false })
  else
    match sstReadBody it.sst.sstFile it.faults pos header.bodyLen with
    | none => (none, { it with active := false })
    | some body =>
      let record : KvRawRecord := ⟨header.key, header.rawHeader ++ body⟩
      (some record, { it with bufferedRecord := some record, fp := some (pos + header.bodyLen) })

/-- `sst_iterator_peek`. -/
def sstIteratorPeek (it : SstIterator) : Option KvRawRecord × SstIterator :=
  if it.active = false then (none, it)
  else
    match it.bufferedRecord with
    | some record => (some record, it)
    | none =>
      match it.pendingHeader with
      | some header => sstIteratorPeekBody { it with pendingHeader := none } header (it.fp.getD 0)
      | none =>
        match sstReadNextHeader it.sst.sstFile it.faults (it.fp.getD 0) with
        | none => (none, { it with active := false })
        | some header => sstIteratorPeekBody it header (it.fp.getD 0 + 21)

/-- `sst_iterator_advance`. -/
def sstIteratorAdvance (it : SstIterator) : SstIterator := { it with bufferedRecord := none }

/-! ## What an iterator still hands out -/

/-- The records that successive reads deliver from `pos` on. -/
def recordsFrom (file : Bytes) (faults : IoFaults) (endKey : SlUint128) (pos : Nat) :
    List KvRawRecord :=
  match _h : sstReadNextHeader file faults pos with
  | none => []
  | some header =>
    if keyCompare header.key endKey > 0 then []
    else
      match sstReadBody file faults (pos + 21) header.bodyLen with
      | none => []
      | some body =>
        ⟨header.key, header.rawHeader ++ body⟩ ::
          recordsFrom file faults endKey (pos + 21 + header.bodyLen)
termination_by file.length - pos
decreasing_by
  have := (sstReadNextHeader_eq_some _h).1
  omega

/-- The records delivered once `header` has been read and its body starts at `pos`. -/
def recordsAfter (file : Bytes) (faults : IoFaults) (endKey : SlUint128) (header : PendingHeader)
    (pos : Nat) : List KvRawRecord :=
  if keyCompare header.key endKey > 0 then []
  else
    match sstReadBody file faults pos header.bodyLen with
    | none => []
    | some body =>
      ⟨header.key, header.rawHeader ++ body⟩ ::
        recordsFrom file faults endKey (pos + header.bodyLen)

theorem recordsFrom_eq (file : Bytes) (faults : IoFaults) (endKey : SlUint128) (pos : Nat) :
    recordsFrom file faults endKey pos =
      match sstReadNextHeader file faults pos with
      | none => []
      | some header => recordsAfter file faults endKey header (pos + 21) := by
  rw [recordsFrom]
  split <;> rename_i h <;> simp only [h, recordsAfter]

namespace SstIterator

/-- The records behind the buffered one. -/
def unread (it : SstIterator) : List KvRawRecord :=
  match it.pendingHeader with
  | some header => recordsAfter it.sst.sstFile it.faults it.endKey header (it.fp.getD 0)
  | none => recordsFrom it.sst.sstFile it.faults it.endKey (it.fp.getD 0)

/-- The records the iterator still hands out. -/
def remaining (it : SstIterator) : List KvRawRecord :=
  if it.active then it.bufferedRecord.toList ++ it.unread else []

theorem remaining_of_active {it : SstIterator} (h : it.active = true) :
    it.remaining = it.bufferedRecord.toList ++ it.unread := by
  simp [remaining, h]

end SstIterator

/-- What a read of the next record leaves behind: the record shown is the head of the list of
remaining records, and the list is the same as before. -/
structure PeekSpec (it : SstIterator) (answer : Option KvRawRecord × SstIterator) : Prop where
  shown : answer.1 = it.remaining.head?
  same : answer.2.remaining = it.remaining
  sst_eq : answer.2.sst = it.sst
  buffered : ∀ r, answer.1 = some r → answer.2.active = true ∧ answer.2.bufferedRecord = some r

theorem peekSpec_end {it : SstIterator} (h : it.remaining = []) :
    PeekSpec it (none, { it with active := false }) where
  shown := by rw [h]; rfl
  same := by rw [h]; rfl
  sst_eq := rfl
  buffered := by simp

theorem sstIteratorPeekBody_spec {it it' : SstIterator} (header : PendingHeader) (pos : Nat)
    (hit' : it' = { it with pendingHeader := none }) (hactive : it.active = true)
    (hrem : it.remaining = recordsAfter it.sst.sstFile it.faults it.endKey header pos) :
    PeekSpec it (sstIteratorPeekBody it' header pos) := by
  subst hit'
  rw [recordsAfter] at hrem
  rw [sstIteratorPeekBody]
  by_cases hgt : keyCompare header.key it.endKey > 0
  · rw [if_pos hgt] at hrem ⊢
    exact ⟨by rw [hrem]; rfl, by rw [hrem]; rfl, rfl, by simp⟩
  · rw [if_neg hgt] at hrem ⊢
    cases hbody : sstReadBody it.sst.sstFile it.faults pos header.bodyLen with
    | none =>
      rw [hbody] at hrem
      exact ⟨by rw [hrem]; rfl, by rw [hrem]; rfl, rfl, by simp⟩
    | some body =>
      rw [hbody] at hrem
      refine ⟨by rw [hrem]; rfl, Eq.trans ?_ hrem.symm, rfl, fun r hr => ⟨hactive, hr⟩⟩
      exact SstIterator.remaining_of_active hactive

theorem sstIteratorPeek_spec (it : SstIterator) : PeekSpec it (sstIteratorPeek it) := by
  obtain ⟨sst, faults, active, fp, cachedIndex, endKey, bufferedRecord, pendingHeader⟩ := it
  cases active with
  | false => exact ⟨rfl, rfl, rfl, by simp [sstIteratorPeek]⟩
  | true =>
    cases bufferedRecord with
    | some record => exact ⟨rfl, rfl, rfl, fun r hr => ⟨rfl, hr⟩⟩
    | none =>
      cases pendingHeader with
      | some header => exact sstIteratorPeekBody_spec header _ rfl rfl rfl
      | none =>
        have hunread : ∀ it : SstIterator, it.active = true → it.bufferedRecord = none →
            it.pendingHeader = none →
            it.remaining = recordsFrom it.sst.sstFile it.faults it.endKey (it.fp.getD 0) := by
          intro it h1 h2 h3
          rw [SstIterator.remaining_of_active h1, SstIterator.unread, h2, h3]
          rfl
        have hrem := hunread ⟨sst, faults, true, fp, cachedIndex, endKey, none, none⟩ rfl rfl rfl
        rw [recordsFrom_eq] at hrem
        show PeekSpec _ (match sstReadNextHeader sst.sstFile faults (fp.getD 0) with
          | none => _
          | some header => sstIteratorPeekBody _ header (fp.getD 0 + 21))
        cases hhead : sstReadNextHeader sst.sstFile faults (fp.getD 0) with
        | none =>
          rw [hhead] at hrem
          exact peekSpec_end hrem
        | some header =>
          rw [hhead] at hrem
          exact sstIteratorPeekBody_spec header _ rfl rfl hrem

theorem remaining_sstIteratorAdvance {it : SstIterator} {r : KvRawRecord}
    (hactive : it.active = true) (hbuf : it.bufferedRecord = some r) :
    it.remaining = r :: (sstIteratorAdvance it).remaining := by
  rw [SstIterator.remaining_of_active hactive, hbuf,
    @SstIterator.remaining_of_active (sstIteratorAdvance it) hactive]
  rfl

/-! ## Reading a file that holds records -/

/-- The records in front of the first failing read, for records that start at `pos`. A body read of
no bytes cannot come up short. -/
def readablePart (faults : IoFaults) : Nat → List KvRawRecord → List KvRawRecord
  | _, [] => []
  | pos, r :: rs =>
    if faults.readHeader pos ∨ faults.readBody (pos + 21) ∧ 21 < r.totalSize then []
    else r :: readablePart faults (pos + r.totalSize) rs

@[simp]
theorem readablePart_none (pos : Nat) (rs : List KvRawRecord) :
    readablePart IoFaults.none pos rs = rs := by
  induction rs generalizing pos with
  | nil => rfl
  | cons r rs ih => simp [readablePart, IoFaults.none] at ih ⊢; exact ih _

theorem readablePart_sublist (faults : IoFaults) (pos : Nat) (rs : List KvRawRecord) :
    (readablePart faults pos rs).Sublist rs := by
  induction rs generalizing pos with
  | nil => exact List.Sublist.refl []
  | cons r rs ih =>
    rw [readablePart]
    split
    · exact List.nil_sublist _
    · exact (ih _).cons_cons r

theorem sstReadNextHeader_of_fault {file : Bytes} {faults : IoFaults} {pos : Nat}
    (h : faults.readHeader pos = true) : sstReadNextHeader file faults pos = none := by
  cases hr : sstReadNextHeader file faults pos with
  | none => rfl
  | some header =>
    have := (sstReadNextHeader_eq_some hr).2
    simp [h] at this

theorem sstReadNextHeader_end (pre : List KvRawRecord) (faults : IoFaults) :
    sstReadNextHeader (fileBytes pre) faults (fileBytes pre).length = none := by
  cases hr : sstReadNextHeader (fileBytes pre) faults (fileBytes pre).length with
  | none => rfl
  | some header =>
    have := (sstReadNextHeader_eq_some hr).1
    omega

/-- At a record boundary the header read returns the record's key and body length. -/
theorem sstReadNextHeader_boundary {pre : Bytes} {r : KvRawRecord} {rest : Bytes} (hr : r.Wf)
    {faults : IoFaults} (hf : faults.readHeader pre.length = false) :
    sstReadNextHeader (pre ++ (r.rawData ++ rest)) faults pre.length =
      some ⟨r.key, r.totalSize - 21, r.rawData.take 21⟩ := by
  have h21 := hr.header_le
  have hread : fread (pre ++ (r.rawData ++ rest)) pre.length 21 (faults.readHeader pre.length) =
      r.rawData.take 21 := by
    rw [fread, hf, List.drop_left' rfl, List.take_append_of_le_length (by simpa using h21)]
    rfl
  have hlen : (r.rawData.take 21).length = 21 := by simpa using h21
  have hkey : keyOfBytes (r.rawData.take 21) = r.key := by
    rw [← hr.key_eq, keyOfBytes, keyOfBytes, List.take_take, List.drop_take, List.take_take]
    rfl
  have hbody : leNat (((r.rawData.take 21).drop 17).take 4) = r.totalSize - 21 := by
    rw [List.drop_take, List.take_take, KvRawRecord.totalSize, ← hr.body_len]
    rfl
  simp only [sstReadNextHeader, hread, hlen, ne_eq, not_true_eq_false, if_false, hkey, hbody]

theorem sstReadBody_boundary {pre : Bytes} {r : KvRawRecord} {rest : Bytes} (hr : r.Wf)
    (faults : IoFaults) :
    sstReadBody (pre ++ (r.rawData ++ rest)) faults (pre.length + 21) (r.totalSize - 21) =
      if faults.readBody (pre.length + 21) = true ∧ 21 < r.totalSize then none
      else some (r.rawData.drop 21) := by
  have h21 := hr.header_le
  have hdrop : (pre ++ (r.rawData ++ rest)).drop (pre.length + 21) = r.rawData.drop 21 ++ rest := by
    rw [← List.drop_drop, List.drop_left' rfl, List.drop_append_of_le_length h21]
  have hlen : (r.rawData.drop 21).length = r.totalSize - 21 := by simp [KvRawRecord.totalSize]
  cases hf : faults.readBody (pre.length + 21) with
  | false =>
    have hbody : (r.rawData.drop 21 ++ rest).take (r.totalSize - 21) = r.rawData.drop 21 :=
      List.take_left' hlen
    simp [sstReadBody, fread, hf, hdrop, hbody, hlen]
  | true =>
    by_cases hlt : 21 < r.totalSize
    · have hshort : ((r.rawData.drop 21 ++ rest).take (r.totalSize - 21 - 1)).length ≠
          r.totalSize - 21 := by
        rw [List.length_take]
        omega
      rw [if_pos ⟨rfl, hlt⟩, sstReadBody, fread, hf, hdrop, if_pos rfl, if_pos hshort]
    · have hzero : r.totalSize - 21 = 0 := by omega
      have hnil : r.rawData.drop 21 = [] := List.length_eq_zero_iff.mp (by rw [hlen, hzero])
      simp [sstReadBody, fread, hzero, hnil, hlt]

theorem fileBytes_snoc_length (pre : List KvRawRecord) (r : KvRawRecord) (hr : r.Wf) :
    (fileBytes (pre ++ [r])).length = (fileBytes pre).length + 21 + (r.totalSize - 21) := by
  have h21 := hr.header_le
  simp only [fileBytes_append, fileBytes_cons, fileBytes_nil, List.append_nil, List.length_append,
    KvRawRecord.totalSize]
  omega

/-- Reading on from a record boundary delivers the readable records up to the end key. -/
theorem recordsFrom_boundary (faults : IoFaults) (endKey : SlUint128) (pre post : List KvRawRecord)
    (hwf : ∀ r ∈ post, r.Wf) :
    recordsFrom (fileBytes (pre ++ post)) faults endKey (fileBytes pre).length =
      (readablePart faults (fileBytes pre).length post).takeWhile fun r => r.key ≤ endKey := by
  induction post generalizing pre with
  | nil =>
    rw [recordsFrom_eq, List.append_nil, sstReadNextHeader_end]
    rfl
  | cons r post ih =>
    have hr : r.Wf := hwf r List.mem_cons_self
    have h21 := hr.header_le
    have hnext := ih (pre ++ [r]) fun s hs => hwf s (List.mem_cons_of_mem r hs)
    rw [List.append_assoc, List.singleton_append, fileBytes_snoc_length pre r hr] at hnext
    rw [recordsFrom_eq, readablePart]
    cases hf : faults.readHeader (fileBytes pre).length with
    | true => simp [sstReadNextHeader_of_fault hf]
    | false =>
      rw [fileBytes_append, fileBytes_cons, sstReadNextHeader_boundary hr hf]
      simp only [recordsAfter, sstReadBody_boundary hr, keyCompare_pos_iff]
      rw [← fileBytes_cons, ← fileBytes_append, hnext]
      have hsize : (fileBytes pre).length + 21 + (r.totalSize - 21) =
          (fileBytes pre).length + r.totalSize := by
        simp only [KvRawRecord.totalSize]
        omega
      rw [hsize]
      by_cases hgt : endKey < r.key
      · rw [if_pos hgt]
        split <;> simp [not_le_of_gt hgt]
      · rw [if_neg hgt]
        by_cases hb : faults.readBody ((fileBytes pre).length + 21) = true ∧ 21 < r.totalSize
        · simp [hb]
        · simp [hb, not_lt.mp hgt]

/-! ## Seeking -/

/-- The iterator has been created and not read from; a cached index is one of its file. -/
structure SstIterator.Fresh (it : SstIterator) (rs : List KvRawRecord) : Prop where
  holds : SstHolds it.sst rs
  buffered : it.bufferedRecord = none
  cached : ∀ index, it.cachedIndex = some index → IndexWf rs index

theorem sstIteratorCreate_fresh {sst : SstMetadataRecord} {rs : List KvRawRecord}
    (h : SstHolds sst rs) (faults : IoFaults) : (sstIteratorCreate sst faults).Fresh rs where
  holds := h
  buffered := rfl
  cached := by
    intro index hindex
    obtain ⟨faults', rfl⟩ := h.cached index hindex
    exact h.index.indexLoad faults' 0

/-- What a seek leaves behind: the same file, nothing buffered, and these records to come. -/
structure SeekSpec (it it' : SstIterator) (rs : List KvRawRecord) : Prop where
  remaining : it'.remaining = rs
  sst_eq : it'.sst = it.sst

theorem seekSpec_end (it it' : SstIterator) (h : it'.sst = it.sst) :
    SeekSpec it { it' with active := false } [] where
  remaining := rfl
  sst_eq := h

/-- When the first record is not below `start`, the loop stops at it, and reading goes on from
there. -/
theorem sstIteratorSeekLoop_head {it : SstIterator} (hbuf : it.bufferedRecord = none)
    (start endKey : SlUint128) (pos : Nat)
    (hstart : ∀ header, sstReadNextHeader it.sst.sstFile it.faults pos = some header →
      start ≤ header.key) :
    SeekSpec it (sstIteratorSeekLoop it start endKey pos).2
      (recordsFrom it.sst.sstFile it.faults endKey pos) := by
  rw [sstIteratorSeekLoop, recordsFrom_eq]
  split
  · rename_i h
    rw [h]
    exact seekSpec_end it it rfl
  · rename_i header h
    rw [h]
    by_cases hgt : keyCompare header.key endKey > 0
    · simp only [if_pos hgt, recordsAfter]
      exact seekSpec_end it it rfl
    · have hge : keyCompare header.key start ≥ 0 := keyCompare_nonneg_iff.mpr (hstart header h)
      rw [if_neg hgt, if_pos hge]
      refine ⟨?_, rfl⟩
      simp [SstIterator.remaining, SstIterator.unread, hbuf]

/-- Without failures the loop skips the records below `start`. -/
theorem sstIteratorSeekLoop_none {it : SstIterator} (hbuf : it.bufferedRecord = none)
    (hfaults : it.faults = IoFaults.none) (start endKey : SlUint128) (pre post : List KvRawRecord)
    (hfile : it.sst.sstFile = fileBytes (pre ++ post)) (hwf : ∀ r ∈ post, r.Wf)
    (hs : SortedBy KvRawRecord.key post) :
    SeekSpec it (sstIteratorSeekLoop it start endKey (fileBytes pre).length).2
      (rangeFilter KvRawRecord.key start endKey post) := by
  induction post generalizing pre with
  -- the end of the file
  | nil =>
    have hnone : sstReadNextHeader it.sst.sstFile it.faults (fileBytes pre).length = none := by
      rw [hfile, List.append_nil, sstReadNextHeader_end]
    have h := sstIteratorSeekLoop_head hbuf start endKey (fileBytes pre).length
      (fun header hheader => by rw [hnone] at hheader; cases hheader)
    rwa [recordsFrom_eq, hnone] at h
  | cons r post ih =>
    have hr : r.Wf := hwf r List.mem_cons_self
    have hheader : sstReadNextHeader it.sst.sstFile it.faults (fileBytes pre).length =
        some ⟨r.key, r.totalSize - 21, r.rawData.take 21⟩ := by
      rw [hfile, fileBytes_append, fileBytes_cons]
      exact sstReadNextHeader_boundary hr (by rw [hfaults]; rfl)
    obtain ⟨hle, hs'⟩ := sortedBy_cons.mp hs
    by_cases hstart : start ≤ r.key
    · -- the first record at or above `start`
      have h := sstIteratorSeekLoop_head hbuf start endKey (fileBytes pre).length
        (fun header h' => by rw [hheader] at h'; cases h'; exact hstart)
      rw [hfile, hfaults, recordsFrom_boundary _ _ _ _ hwf, readablePart_none,
        hs.takeWhile_eq_rangeFilter start] at h
      · exact h
      · intro x hx
        rcases List.mem_cons.mp hx with rfl | hx
        · exact hstart
        · exact le_trans hstart (hle x hx)
    · -- a record below `start`
      have hnext := ih (pre ++ [r]) (by rw [hfile]; simp)
        (fun s hs => hwf s (List.mem_cons_of_mem r hs)) hs'
      rw [fileBytes_snoc_length pre r hr] at hnext
      rw [sstIteratorSeekLoop, rangeFilter_cons_of_not_mem fun hin => hstart hin.1]
      split
      · rename_i h
        rw [hheader] at h
        cases h
      · rename_i header h
        rw [hheader] at h
        cases h
        by_cases hgt : keyCompare r.key endKey > 0
        · -- `r` is below `start` and above the end key, so the range is empty
          rw [if_pos hgt]
          rw [rangeFilter_eq_nil]
          · exact seekSpec_end it it rfl
          · intro x _ hin
            have hend : endKey < r.key := keyCompare_pos_iff.mp hgt
            exact hstart (le_of_lt (lt_of_le_of_lt (le_trans hin.1 hin.2) hend))
        · rw [if_neg hgt, if_neg (by simpa using hstart), hfaults]
          exact hnext

/-- Opening the files: the iterator over the same file, with a well-formed index. -/
theorem sstIteratorEnsureOpen_cases (it : SstIterator) {rs : List KvRawRecord}
    (h : it.Fresh rs) :
    (sstIteratorEnsureOpen it = none ∧ it.faults.openIndex = true) ∨
    (sstIteratorEnsureOpen it = some (false, it) ∧ it.faults.openSst = true) ∨
    ∃ index it', IndexWf rs index ∧
      it' = { it with fp := some (it.fp.getD 0), cachedIndex := some index } ∧
      sstIteratorEnsureOpen it = some (true, it') := by
  rw [sstIteratorEnsureOpen]
  by_cases hopen : it.fp = none ∧ it.faults.openSst = true
  · rw [if_pos hopen]
    exact Or.inr (Or.inl ⟨rfl, hopen.2⟩)
  · rw [if_neg hopen]
    cases hc : it.cachedIndex with
    | some index =>
      exact Or.inr (Or.inr ⟨index, _, h.cached index hc, rfl, rfl⟩)
    | none =>
      simp only [indexLoadFromDisk]
      cases hidx : it.faults.openIndex with
      | true => exact Or.inl ⟨rfl, rfl⟩
      | false =>
        refine Or.inr (Or.inr ⟨indexLoad it.faults 0 it.sst.sstIndexFile, _,
          h.holds.index.indexLoad it.faults 0, rfl, rfl⟩)

/-- Every seek of `it` to the range that returns leaves the records `rs` to come. -/
def SeekYields (it : SstIterator) (start endKey : SlUint128) (rs : List KvRawRecord) : Prop :=
  ∀ ok it', sstIteratorSeek it start endKey = some (ok, it') → SeekSpec it it' rs

/-- A seek without failures finds the records of the range that lie behind the place the index
gives. -/
theorem SstIterator.Fresh.seekYields_skipsTo {it : SstIterator} {rs : List KvRawRecord}
    (h : it.Fresh rs) (hfaults : it.faults = IoFaults.none) (start endKey : SlUint128) :
    ∃ pre post, rs = pre ++ post ∧ SkipsTo start pre post ∧
      SeekYields it start endKey (rangeFilter KvRawRecord.key start endKey post) := by
  by_cases hout : keyCompare it.sst.maxKey start < 0 ∨ keyCompare it.sst.minKey endKey > 0
  · refine ⟨[], rs, rfl, Or.inl rfl, fun ok it' hseek => ?_⟩
    rw [sstIteratorSeek, if_pos hout] at hseek
    simp only [keyCompare_neg_iff, keyCompare_pos_iff] at hout
    cases hseek
    rw [rangeFilter_eq_nil]
    · exact seekSpec_end it it rfl
    · intro r hr hin
      rcases hout with hout | hout
      · exact absurd (le_trans hin.1 (h.holds.le_maxKey r hr)) (not_le_of_gt hout)
      · exact absurd (le_trans (h.holds.minKey_le r hr) hin.2) (not_le_of_gt hout)
  · rcases sstIteratorEnsureOpen_cases it h with
      ⟨-, hf⟩ | ⟨-, hf⟩ | ⟨index, opened, hindex, hopened, hopen⟩
    · rw [hfaults] at hf
      cases hf
    · rw [hfaults] at hf
      cases hf
    · obtain ⟨pre, post, hrs, hoff, hskip⟩ := indexLookup_skipsTo hindex start
      refine ⟨pre, post, hrs, hskip, fun ok it' hseek => ?_⟩
      rw [sstIteratorSeek, if_neg hout] at hseek
      have hset : opened.faults.seekSet = false := by rw [hopened, hfaults]; rfl
      have hidx : opened.cachedIndex.getD [] = index := by rw [hopened]; rfl
      simp only [hopen, hset, hidx, Bool.false_eq_true, if_false, Option.some.injEq] at hseek
      have hsst : opened.sst = it.sst := by rw [hopened]
      have hbuffered : opened.bufferedRecord = none := by rw [hopened]; exact h.buffered
      have hloop := sstIteratorSeekLoop_none hbuffered (by rw [hopened]; exact hfaults)
        start endKey pre post
        (by rw [hsst, h.holds.file_eq, hrs])
        (fun r hr => h.holds.wf r (by rw [hrs]; exact List.mem_append_right pre hr))
        (h.holds.sorted.sublist (by rw [hrs]; exact List.sublist_append_right pre post))
      rw [← hoff, hseek] at hloop
      exact ⟨hloop.remaining, hloop.sst_eq.trans hsst⟩

/-- What a scan of the whole file delivers under failures: nothing when the file cannot be opened
or positioned, otherwise the records in front of the first failing read. -/
def readableRecords (faults : IoFaults) (rs : List KvRawRecord) : List KvRawRecord :=
  if faults.openSst ∨ faults.seekSet then [] else readablePart faults 0 rs

theorem readableRecords_sublist (faults : IoFaults) (rs : List KvRawRecord) :
    (readableRecords faults rs).Sublist rs := by
  rw [readableRecords]
  split
  · exact List.nil_sublist rs
  · exact readablePart_sublist faults 0 rs

@[simp]
theorem readableRecords_none (rs : List KvRawRecord) :
    readableRecords IoFaults.none rs = rs := by
  rw [readableRecords, if_neg (by simp [IoFaults.none]), readablePart_none]

/-- The full-range seek of a merge, under any failures. -/
theorem SstIterator.Fresh.seekYields_all {it : SstIterator} {rs : List KvRawRecord}
    (h : it.Fresh rs) (hfp : it.fp = none) :
    SeekYields it SlUint128.zero SlUint128.max (readableRecords it.faults rs) := by
  intro ok it' hseek
  -- no file lies outside of the full range
  have hoverlap : ¬ (keyCompare it.sst.maxKey SlUint128.zero < 0 ∨
      keyCompare it.sst.minKey SlUint128.max > 0) := by
    simp
  rw [sstIteratorSeek, if_neg hoverlap] at hseek
  rcases sstIteratorEnsureOpen_cases it h with
    ⟨hopen, -⟩ | ⟨hopen, hf⟩ | ⟨index, opened, hindex, hopened, hopen⟩
  · -- the index cannot be read: the program ends
    rw [hopen] at hseek
    cases hseek
  · rw [hopen] at hseek
    cases hseek
    -- the file cannot be opened
    rw [readableRecords, if_pos (Or.inl hf)]
    exact seekSpec_end it it rfl
  · have hsst : opened.sst = it.sst := by rw [hopened]
    have hopenSst : it.faults.openSst = false := by
      cases hf : it.faults.openSst with
      | false => rfl
      | true =>
        rw [sstIteratorEnsureOpen, if_pos ⟨hfp, hf⟩] at hopen
        cases hopen
    have hfaults : opened.faults = it.faults := by rw [hopened]
    have hidx : opened.cachedIndex.getD [] = index := by rw [hopened]; rfl
    simp only [hopen, hidx] at hseek
    cases hset : opened.faults.seekSet with
    | true =>
      simp only [hset, if_true, Option.some.injEq] at hseek
      cases hseek
      -- the seek fails
      rw [readableRecords, if_pos (Or.inr (hfaults ▸ hset))]
      exact seekSpec_end it opened hsst
    | false =>
      simp only [hset, Bool.false_eq_true, if_false, Option.some.injEq] at hseek
      obtain ⟨pre, post, hrs, hoff, hpre⟩ :=
        indexLookup_boundary hindex SlUint128.zero
      -- no record is below the key zero, so the index leads to the start of the file
      have hnil : pre = [] := by
        rw [List.eq_nil_iff_forall_not_mem]
        exact fun r hr =>
          absurd (hpre (Or.inr h.holds.pos) r hr) (not_lt.mpr (SlUint128.zero_le _))
      subst hnil
      rw [fileBytes_nil, List.length_nil] at hoff
      have hbuffered : opened.bufferedRecord = none := by rw [hopened]; exact h.buffered
      have hloop := sstIteratorSeekLoop_head hbuffered SlUint128.zero SlUint128.max 0
        (fun header _ => SlUint128.zero_le header.key)
      have hread := recordsFrom_boundary it.faults SlUint128.max [] rs h.holds.wf
      rw [List.nil_append, fileBytes_nil, List.length_nil] at hread
      rw [hoff] at hseek
      rw [hseek, hsst, hfaults, h.holds.file_eq, hread] at hloop
      rw [hfaults] at hset
      rw [readableRecords, if_neg (by simp [hopenSst, hset])]
      refine ⟨?_, hloop.sst_eq.trans hsst⟩
      rw [hloop.remaining, List.takeWhile_eq_self_iff.mpr]
      simp

/-- A seek stops the process only when the index file cannot be opened. -/
theorem SstIterator.Fresh.seek_ne_none {it : SstIterator} {rs : List KvRawRecord} (h : it.Fresh rs)
    (hindex : it.faults.openIndex = false) (start endKey : SlUint128) :
    sstIteratorSeek it start endKey ≠ none := by
  rw [sstIteratorSeek]
  split
  · simp
  · rcases sstIteratorEnsureOpen_cases it h with
      ⟨-, hf⟩ | ⟨hopen, -⟩ | ⟨index, opened, -, -, hopen⟩
    · rw [hindex] at hf
      cases hf
    · simp [hopen]
    · rw [hopen]
      simp only
      split <;> simp

/-! ## The records of a registered SST -/

/-- The records that reading the whole file delivers when nothing fails. -/
def SstMetadataRecord.records (sst : SstMetadataRecord) : List KvRawRecord :=
  recordsFrom sst.sstFile IoFaults.none SlUint128.max 0

/-- The file holds its records, and there are some. -/
structure SstOk (sst : SstMetadataRecord) : Prop where
  holds : SstHolds sst sst.records
  ne_nil : sst.records ≠ []

theorem SstHolds.records_eq {sst : SstMetadataRecord} {rs : List KvRawRecord}
    (h : SstHolds sst rs) : sst.records = rs := by
  have hread := recordsFrom_boundary IoFaults.none SlUint128.max [] rs h.wf
  rw [List.nil_append, fileBytes_nil, List.length_nil, readablePart_none,
    List.takeWhile_eq_self_iff.mpr (by simp)] at hread
  rw [SstMetadataRecord.records, h.file_eq, hread]

theorem SstHolds.ok {sst : SstMetadataRecord} {rs : List KvRawRecord} (h : SstHolds sst rs)
    (hne : rs ≠ []) : SstOk sst := by
  have heq := h.records_eq
  exact ⟨heq ▸ h, heq ▸ hne⟩

end RaftLsmt.Lsmt
