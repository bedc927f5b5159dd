import RaftLsmt.Lib.HeapBlock
import RaftLsmt.Lsmt.Scan

/-!
# The buffers of a scan

The records that the iterators hand out do not carry their bytes: `raw_data` points into a buffer
that the iterator over the memtable or over one SST owns, writes again for its next record, and has
reallocated when a record does not fit. `buffered_sst_record` is a copy of such a pointer, taken when
the SST iterator has moved on already.

This is the scan with its buffers. `view` reads a state of it as a state of the scan over values
(`LsmtIterator`), and each function here returns what the one over values does to the view
(`sstIteratorPeek_view`, `sstKIteratorsNext_view`, `lsmtIteratorNext_view`). In particular a pointer
that is handed out or held back always reads as its record: the buffer it points into is written only
by a peek of its iterator, and that happens only when nothing is held back.
-/

set_option autoImplicit false

namespace RaftLsmt.Lsmt.Buffers

open RaftLsmt.Lib.HeapBlock
open RaftLsmt.Lib.StepMachine
open RaftLsmt.Lib.SortedMerge

/-! ## One SST iterator -/

/-- `kv_raw_record_t`, with a pointer in place of the bytes; `none` is `NULL`. -/
structure KvRawRecord (ρ : Type) where
  key : SlUint128
  rawData : Option ρ
  totalSize : Nat
  valid : Bool

/-- A record that has been zeroed. -/
def KvRawRecord.zero (ρ : Type) : KvRawRecord ρ := ⟨SlUint128.zero, none, 0, false⟩

/-- The same record, its pointer taken in a larger memory. -/
def KvRawRecord.mapPointer {ρ σ : Type} (f : ρ → σ) (record : KvRawRecord ρ) : KvRawRecord σ :=
  ⟨record.key, record.rawData.map f, record.totalSize, record.valid⟩

/-- What a record into the block reads as. -/
def deref (buffer : Block UInt8) (record : KvRawRecord Nat) : Option Lsmt.KvRawRecord :=
  record.rawData.bind fun generation =>
    (buffer.read generation record.totalSize).map fun bytes => ⟨record.key, bytes⟩

/-- `sst_iterator_t`. The fields other than `buffer`, `buffer_cap` and `buffered_record` are those of
`cursor`, whose own `bufferedRecord` is not used. -/
structure SstIterator where
  cursor : Lsmt.SstIterator
  buffer : Block UInt8
  bufferedRecord : KvRawRecord Nat

/-- `sst_iterator_create`. -/
def sstIteratorCreate (sst : SstMetadataRecord) (faults : IoFaults) : SstIterator where
  cursor := Lsmt.sstIteratorCreate sst faults
  buffer := Block.alloc 0 1024
  bufferedRecord := KvRawRecord.zero Nat

/-- `sst_iterator_seek`: it touches neither the buffer nor the buffered record. -/
def sstIteratorSeek (it : SstIterator) (start endKey : SlUint128) : Option (Bool × SstIterator) :=
  (Lsmt.sstIteratorSeek it.cursor start endKey).map fun answer =>
    (answer.1, { it with cursor := answer.2 })

/-- The second half of `sst_iterator_peek`: the header is known, the body starts at `pos`. The sum is
taken in 32 bits. `none` when a write leaves the buffer. -/
def sstIteratorPeekBody (it : SstIterator) (header : PendingHeader) (pos : Nat) :
    Option (Option (KvRawRecord Nat) × SstIterator) :=
  if keyCompare header.key it.cursor.endKey > 0 then
    some (none, { it with cursor := { it.cursor with active := false } })
  else
    let totalSize := (21 + header.bodyLen) % 2 ^ 32
    let body := fread it.cursor.sst.sstFile pos header.bodyLen (it.cursor.faults.readBody pos)
    match (it.buffer.reserve 0 totalSize).write 0 header.rawHeader with
    | none => none
    | some buffer =>
      match buffer.write 21 body with
      | none => none
      | some buffer =>
        if body.length ≠ header.bodyLen then
          some (none, { it with cursor := { it.cursor with active := false }, buffer := buffer })
        else
          let record : KvRawRecord Nat := ⟨header.key, some buffer.generation, totalSize, true⟩
          some (some record, {
            cursor := { it.cursor with fp := some (pos + header.bodyLen) }
            buffer := buffer
            bufferedRecord := record })

/-- `sst_iterator_peek`. -/
def sstIteratorPeek (it : SstIterator) : Option (Option (KvRawRecord Nat) × SstIterator) :=
  if it.cursor.active = false then some (none, it)
  else if it.bufferedRecord.valid then some (some it.bufferedRecord, it)
  else
    match it.cursor.pendingHeader with
    | some header =>
      sstIteratorPeekBody { it with cursor := { it.cursor with pendingHeader := none } } header
        (it.cursor.fp.getD 0)
    | none =>
      match sstReadNextHeader it.cursor.sst.sstFile it.cursor.faults (it.cursor.fp.getD 0) with
      | none => some (none, { it with cursor := { it.cursor with active := false } })
      | some header => sstIteratorPeekBody it header (it.cursor.fp.getD 0 + 21)

/-- `sst_iterator_advance`. -/
def sstIteratorAdvance (it : SstIterator) : SstIterator :=
  { it with bufferedRecord := { it.bufferedRecord with valid := false } }

/-- The iterator with its buffered record read. -/
def SstIterator.view (it : SstIterator) : Lsmt.SstIterator :=
  { it.cursor with
    bufferedRecord := if it.bufferedRecord.valid then deref it.buffer it.bufferedRecord else none }

/-! ### Where the iterator stands -/

/-- The header of a record. -/
def headerOf (r : Lsmt.KvRawRecord) : PendingHeader := ⟨r.key, r.totalSize - 21, r.rawData.take 21⟩

/-- The iterator stands in front of `post`, or behind the header of its first record. The length of
each record has 32 bits. -/
structure OnRecords (cursor : Lsmt.SstIterator) (post : List Lsmt.KvRawRecord) : Prop where
  wf : ∀ r ∈ post, r.Wf ∧ r.totalSize < 2 ^ 32
  stands : ∃ pre, cursor.sst.sstFile = fileBytes (pre ++ post) ∧
    (cursor.pendingHeader = none ∧ cursor.fp.getD 0 = (fileBytes pre).length ∨
      ∃ r rest, post = r :: rest ∧ cursor.pendingHeader = some (headerOf r) ∧
        cursor.fp.getD 0 = (fileBytes pre).length + 21)

/-- The search ends in front of a record. -/
theorem onRecords_sstIteratorSeekLoop {cursor : Lsmt.SstIterator}
    (hfaults : cursor.faults = IoFaults.none) (start endKey : SlUint128)
    (pre post : List Lsmt.KvRawRecord) (hfile : cursor.sst.sstFile = fileBytes (pre ++ post))
    (hwf : ∀ r ∈ post, r.Wf ∧ r.totalSize < 2 ^ 32) :
    (sstIteratorSeekLoop cursor start endKey (fileBytes pre).length).2.active = true →
      ∃ rest, OnRecords (sstIteratorSeekLoop cursor start endKey (fileBytes pre).length).2 rest := by
  induction post generalizing pre with
  | nil =>
    have hnone : sstReadNextHeader cursor.sst.sstFile cursor.faults (fileBytes pre).length = none := by
      rw [hfile, List.append_nil, sstReadNextHeader_end]
    rw [sstIteratorSeekLoop_eq, hnone]
    simp
  | cons r post ih =>
    have hr : r.Wf := (hwf r List.mem_cons_self).1
    have hheader : sstReadNextHeader cursor.sst.sstFile cursor.faults (fileBytes pre).length =
        some (headerOf r) := by
      rw [hfile, fileBytes_append, fileBytes_cons]
      exact sstReadNextHeader_boundary hr (by rw [hfaults]; rfl)
    have hnext := ih (pre ++ [r]) (by rw [hfile]; simp)
      fun s hs => hwf s (List.mem_cons_of_mem r hs)
    rw [fileBytes_snoc_length pre r hr] at hnext
    rw [sstIteratorSeekLoop_eq, hheader]
    simp only
    split
    · simp
    · split
      · intro _
        exact ⟨r :: post, hwf, pre, hfile, Or.inr ⟨r, post, rfl, rfl, rfl⟩⟩
      · rw [if_neg (by simp [hfaults, IoFaults.none])]
        exact hnext

/-- There is room for a header, and reading does not fail. -/
structure SstIterator.Plain (it : SstIterator) : Prop where
  cap : 21 ≤ it.buffer.cap
  unused : it.cursor.bufferedRecord = none
  faults : it.cursor.faults = IoFaults.none

/-- A seek of a new iterator ends in front of a record, or inactive. -/
theorem onRecords_sstIteratorSeek {cursor : Lsmt.SstIterator} {rs : List Lsmt.KvRawRecord}
    (h : cursor.Fresh rs) (hfaults : cursor.faults = IoFaults.none)
    (hsize : ∀ r ∈ rs, r.totalSize < 2 ^ 32) (start endKey : SlUint128) :
    ∃ ok cursor', Lsmt.sstIteratorSeek cursor start endKey = some (ok, cursor') ∧
      cursor'.bufferedRecord = none ∧ cursor'.faults = IoFaults.none ∧
      (cursor'.active = true → ∃ post, OnRecords cursor' post) := by
  rw [Lsmt.sstIteratorSeek]
  split
  · exact ⟨_, _, rfl, h.buffered, hfaults, by simp⟩
  · rcases sstIteratorEnsureOpen_cases cursor h with
      ⟨-, hf⟩ | ⟨-, hf⟩ | ⟨index, opened, hindex, hopened, hopen⟩
    · rw [hfaults] at hf
      cases hf
    · rw [hfaults] at hf
      cases hf
    · obtain ⟨pre, post, hrs, hoff, -⟩ := indexLookup_boundary hindex start
      have hfaults' : opened.faults = IoFaults.none := by rw [hopened]; exact hfaults
      have hset : opened.faults.seekSet = false := by rw [hfaults']; rfl
      have hidx : opened.cachedIndex.getD [] = index := by rw [hopened]; rfl
      have hfile : opened.sst.sstFile = fileBytes (pre ++ post) := by
        rw [hopened, ← hrs]
        exact h.holds.file_eq
      have hwf : ∀ r ∈ post, r.Wf ∧ r.totalSize < 2 ^ 32 := by
        intro r hr
        have hmem : r ∈ rs := hrs ▸ List.mem_append_right pre hr
        exact ⟨h.holds.wf r hmem, hsize r hmem⟩
      obtain ⟨-, hkeptFaults, -, hkeptBuffer⟩ :=
        sstIteratorSeekLoop_keeps opened start endKey (fileBytes pre).length
      have hbuf : opened.bufferedRecord = none := by rw [hopened]; exact h.buffered
      simp only [hopen, hset, hidx, hoff, Bool.false_eq_true, if_false]
      exact ⟨_, _, rfl, hkeptBuffer.trans hbuf, hkeptFaults.trans hfaults',
        onRecords_sstIteratorSeekLoop hfaults' start endKey pre post hfile hwf⟩

/-- The invariant of an iterator. -/
structure SstIterator.Ok (it : SstIterator) : Prop extends it.Plain where
  readable : it.bufferedRecord.valid = true → ∃ r, deref it.buffer it.bufferedRecord = some r
  stands : it.cursor.active = true → ∃ post, OnRecords it.cursor post

theorem ok_sstIteratorCreate (sst : SstMetadataRecord) :
    (sstIteratorCreate sst IoFaults.none).Ok where
  cap := by simp [sstIteratorCreate]
  unused := rfl
  faults := rfl
  readable h := by cases h
  stands h := by cases h

theorem SstIterator.Plain.view_of_invalid {it : SstIterator} (h : it.Plain)
    (hvalid : it.bufferedRecord.valid = false) : it.view = it.cursor := by
  rw [SstIterator.view, hvalid, if_neg Bool.false_ne_true, ← h.unused]

/-- A peek that agrees with the one over values: the record it shows reads as the record shown
there. -/
structure PeekView (value : Option Lsmt.KvRawRecord × Lsmt.SstIterator)
    (answer : Option (KvRawRecord Nat) × SstIterator) : Prop where
  ok : answer.2.Ok
  same : value = (answer.1.bind (deref answer.2.buffer), answer.2.view)
  shown : ∀ record, answer.1 = some record →
    answer.2.bufferedRecord = record ∧ record.valid = true

theorem SstIterator.Plain.inactive {it : SstIterator} (h : it.Plain)
    (hvalid : it.bufferedRecord.valid = false) :
    PeekView (none, { it.cursor with active := false })
      (none, { it with cursor := { it.cursor with active := false } }) := by
  have hok : SstIterator.Ok { it with cursor := { it.cursor with active := false } } :=
    ⟨⟨h.cap, h.unused, h.faults⟩, fun hbuf => absurd hbuf (by simp [hvalid]), fun hact => by
      cases hact⟩
  refine ⟨hok, ?_, by simp⟩
  rw [Option.bind_none, hok.view_of_invalid hvalid]

theorem sstReadBody_eq_some {file : Bytes} {faults : IoFaults} {pos len : Nat} {body : Bytes}
    (h : sstReadBody file faults pos len = some body) :
    fread file pos len (faults.readBody pos) = body ∧ body.length = len := by
  rw [sstReadBody] at h
  split at h
  · cases h
  · rename_i hlen
    cases h
    exact ⟨rfl, not_not.mp hlen⟩

/-- Behind a header the body is read, and the buffer holds the record. -/
theorem sstIteratorPeekBody_view {it : SstIterator} (h : it.Plain)
    (hvalid : it.bufferedRecord.valid = false)
    (hpending : it.cursor.pendingHeader = none) {pre rest : List Lsmt.KvRawRecord}
    {r : Lsmt.KvRawRecord} (hfile : it.cursor.sst.sstFile = fileBytes (pre ++ r :: rest))
    (hwf : ∀ s ∈ r :: rest, s.Wf ∧ s.totalSize < 2 ^ 32) :
    ∃ answer, sstIteratorPeekBody it (headerOf r) ((fileBytes pre).length + 21) = some answer ∧
      PeekView (Lsmt.sstIteratorPeekBody it.cursor (headerOf r) ((fileBytes pre).length + 21))
        answer := by
  obtain ⟨hr, hsize⟩ := hwf r List.mem_cons_self
  have h21 : 21 ≤ r.totalSize := hr.header_le
  rw [sstIteratorPeekBody, Lsmt.sstIteratorPeekBody]
  -- a key behind the range ends the iterator
  by_cases hgt : keyCompare (headerOf r).key it.cursor.endKey > 0
  · rw [if_pos hgt, if_pos hgt]
    exact ⟨_, rfl, h.inactive hvalid⟩
  · rw [if_neg hgt, if_neg hgt]
    have hbody := @sstReadBody_boundary (fileBytes pre) r (fileBytes rest) hr it.cursor.faults
    have hnofault : ¬ (it.cursor.faults.readBody ((fileBytes pre).length + 21) = true ∧
        21 < r.totalSize) := by simp [h.faults, IoFaults.none]
    rw [if_neg hnofault, ← fileBytes_cons, ← fileBytes_append, ← hfile] at hbody
    obtain ⟨hread, hlen⟩ := sstReadBody_eq_some hbody
    have hfront : (r.rawData.take 21).length = 21 := by
      rw [List.length_take]
      exact min_eq_left h21
    -- the sum of the lengths does not wrap around
    have htotal : (21 + (r.totalSize - 21)) % 2 ^ 32 = r.totalSize := by
      rw [Nat.add_sub_cancel' h21, Nat.mod_eq_of_lt hsize]
    -- header and body are written one behind the other
    obtain ⟨b₁, b₂, hwrite₁, hwrite₂, hcap, hderef⟩ :=
      @Block.read_writes _ 0 it.buffer (r.rawData.take 21) (r.rawData.drop 21) r.totalSize
        (by rw [hfront, hlen]; omega)
    rw [hfront] at hwrite₂
    rw [List.take_append_drop] at hderef
    simp only [headerOf, htotal, hread, hwrite₁, hwrite₂, hlen, ne_eq, not_true_eq_false, if_false,
      hbody]
    refine ⟨_, rfl, ⟨⟨le_trans h.cap hcap, h.unused, h.faults⟩, fun _ => ?_, fun _ => ?_⟩, ?_, ?_⟩
    · exact ⟨_, by rw [deref, Option.bind_some, hderef]; rfl⟩
    · refine ⟨rest, fun s hs => hwf s (List.mem_cons_of_mem r hs), pre ++ [r], ?_,
        Or.inl ⟨hpending, ?_⟩⟩
      · rw [hfile, List.append_assoc, List.singleton_append]
      · rw [fileBytes_snoc_length pre r hr]
        rfl
    · simp only [SstIterator.view, deref, Option.bind_some, hderef, Option.map_some, if_true,
        List.take_append_drop]
    · rintro record ⟨⟩
      exact ⟨rfl, rfl⟩

/-- A peek that has to read. -/
theorem sstIteratorPeek_reads {it : SstIterator} (h : it.Ok)
    (hvalid : it.bufferedRecord.valid = false) (hactive : it.cursor.active = true) :
    ∃ answer, sstIteratorPeek it = some answer ∧
      PeekView (Lsmt.sstIteratorPeek it.cursor) answer := by
  obtain ⟨post, hwf, pre, hfile, hpos⟩ := h.stands hactive
  obtain ⟨⟨sst, faults, active, fp, cachedIndex, endKey, bufferedRecord, pendingHeader⟩, buffer,
    record⟩ := it
  obtain ⟨⟨hcap, hunused, hfaults⟩, -, -⟩ := id h
  simp only at hactive hvalid hunused hfaults hfile hpos
  subst hactive hunused
  simp only [sstIteratorPeek, Lsmt.sstIteratorPeek, hvalid, Bool.true_eq_false, Bool.false_eq_true,
    if_false]
  rcases hpos with ⟨rfl, hfp⟩ | ⟨r, rest, rfl, rfl, hfp⟩
  · simp only [hfp]
    cases post with
    | nil =>
      have hend : sstReadNextHeader sst.sstFile faults (fileBytes pre).length = none := by
        rw [hfile, List.append_nil, sstReadNextHeader_end]
      rw [hend]
      exact ⟨_, rfl, h.toPlain.inactive hvalid⟩
    | cons r rest =>
      have hheader : sstReadNextHeader sst.sstFile faults (fileBytes pre).length =
          some (headerOf r) := by
        rw [hfile, fileBytes_append, fileBytes_cons]
        exact sstReadNextHeader_boundary (hwf r List.mem_cons_self).1 (by rw [hfaults]; rfl)
      rw [hheader]
      exact sstIteratorPeekBody_view h.toPlain hvalid rfl hfile hwf
  · simp only [hfp]
    exact @sstIteratorPeekBody_view
      ⟨⟨sst, faults, true, fp, cachedIndex, endKey, none, none⟩, buffer, record⟩
      ⟨hcap, rfl, hfaults⟩ hvalid rfl pre rest r hfile hwf

theorem sstIteratorPeek_view {it : SstIterator} (h : it.Ok) :
    ∃ answer, sstIteratorPeek it = some answer ∧
      PeekView (Lsmt.sstIteratorPeek it.view) answer := by
  cases hact : it.cursor.active with
  | false =>
    have hview : it.view.active = false := hact
    rw [sstIteratorPeek, if_pos hact, Lsmt.sstIteratorPeek, if_pos hview]
    exact ⟨_, rfl, h, rfl, by simp⟩
  | true =>
    cases hvalid : it.bufferedRecord.valid with
    | true =>
      obtain ⟨r, hr⟩ := h.readable hvalid
      have hbuf : it.view.bufferedRecord = some r := by
        rw [← hr]
        exact if_pos hvalid
      rw [sstIteratorPeek, if_neg (by simp [hact]), if_pos hvalid, Lsmt.sstIteratorPeek,
        if_neg (by simp [SstIterator.view, hact]), hbuf]
      refine ⟨_, rfl, h, ?_, ?_⟩
      · rw [Option.bind_some, hr]
      · rintro record ⟨⟩
        exact ⟨rfl, hvalid⟩
    | false =>
      rw [h.view_of_invalid hvalid]
      exact sstIteratorPeek_reads h hvalid hact

theorem view_sstIteratorAdvance (it : SstIterator) :
    (sstIteratorAdvance it).view = Lsmt.sstIteratorAdvance it.view := rfl

theorem SstIterator.Ok.advance {it : SstIterator} (h : it.Ok) : (sstIteratorAdvance it).Ok where
  cap := h.cap
  unused := h.unused
  faults := h.faults
  readable hvalid := by cases hvalid
  stands := h.stands

/-- The iterator has been created and not read from. -/
structure SstIterator.Pending (it : SstIterator) : Prop extends it.Ok where
  invalid : it.bufferedRecord.valid = false
  fresh : ∃ rs, it.cursor.Fresh rs ∧ ∀ r ∈ rs, r.totalSize < 2 ^ 32

theorem SstIterator.Pending.seek {it : SstIterator} (h : it.Pending) (start endKey : SlUint128) :
    ∃ ok it', sstIteratorSeek it start endKey = some (ok, it') ∧ it'.Ok ∧
      Lsmt.sstIteratorSeek it.view start endKey = some (ok, it'.view) := by
  obtain ⟨rs, hfresh, hsize⟩ := h.fresh
  obtain ⟨ok, cursor', hseek, hunused, hfaults, hstands⟩ :=
    onRecords_sstIteratorSeek hfresh h.faults hsize start endKey
  have hok : SstIterator.Ok { it with cursor := cursor' } :=
    ⟨⟨h.cap, hunused, hfaults⟩, h.readable, hstands⟩
  refine ⟨ok, _, by rw [sstIteratorSeek, hseek, Option.map_some], hok, ?_⟩
  rw [h.view_of_invalid h.invalid, hok.view_of_invalid h.invalid, hseek]

theorem pending_sstIteratorCreate {sst : SstMetadataRecord} (hok : SstOk sst)
    (hsize : ∀ r ∈ sst.records, r.totalSize < 2 ^ 32) :
    (sstIteratorCreate sst IoFaults.none).Pending where
  toOk := ok_sstIteratorCreate sst
  invalid := rfl
  fresh := ⟨sst.records, sstIteratorCreate_fresh hok.holds IoFaults.none, hsize⟩

/-! ## The merge over the SST iterators -/

/-- `sst_k_iterators_t`. -/
structure SstKIterators where
  opened : List SstIterator
  pending : List SstIterator
  active : Bool
  seekStart : SlUint128
  seekEnd : SlUint128

/-- A pointer into the buffer of the SST iterator at position `index`. -/
structure SstPointer where
  index : Nat
  generation : Nat

/-- `sst_k_iterators_create`. -/
def sstKIteratorsCreate (inputs : List (SstMetadataRecord × IoFaults)) : SstKIterators where
  opened := []
  pending := (inputs.map fun i => sstIteratorCreate i.1 i.2).mergeSort fun a b =>
    keyCompare a.cursor.sst.minKey b.cursor.sst.minKey ≤ 0
  active := false
  seekStart := SlUint128.zero
  seekEnd := SlUint128.zero

/-- `sst_k_iterators_seek`. -/
def sstKIteratorsSeek (k : SstKIterators) (start endKey : SlUint128) : SstKIterators where
  opened := []
  pending := (k.opened ++ k.pending).map fun it =>
    { it with
      cursor := { it.cursor with active := false }
      bufferedRecord := { it.bufferedRecord with valid := false } }
  active := true
  seekStart := start
  seekEnd := endKey

/-- The winner of a merge step: its position and its buffered record. -/
abbrev Winner := Option (Nat × KvRawRecord Nat)

/-- The comparison made for each peeked record. -/
def betterWinner (winner : Winner) (idx : Nat) (peeked : Option (KvRawRecord Nat)) : Winner :=
  match peeked, winner with
  | none, _ => winner
  | some rec, none => some (idx, rec)
  | some rec, some (i, best) =>
    if keyCompare rec.key best.key < 0 then some (idx, rec) else some (i, best)

/-- The first loop of `sst_k_iterators_next`. -/
def peekOpened (idx : Nat) (winner : Winner) :
    List SstIterator → Option (Winner × List SstIterator)
  | [] => some (winner, [])
  | it :: its =>
    match sstIteratorPeek it with
    | none => none
    | some (peeked, it) =>
      (peekOpened (idx + 1) (betterWinner winner idx peeked) its).map fun answer =>
        (answer.1, it :: answer.2)

/-- The break test of the second loop. -/
def startsAfter (winner : Winner) (it : SstIterator) : Bool :=
  match winner with
  | none => false
  | some (_, best) => keyCompare it.cursor.sst.minKey best.key > 0

/-- The second loop of `sst_k_iterators_next`. -/
def openPending (start endKey : SlUint128) (opened : List SstIterator) (winner : Winner) :
    List SstIterator → Option (Winner × List SstIterator × List SstIterator)
  | [] => some (winner, opened, [])
  | it :: its =>
    if startsAfter winner it then
      some (winner, opened, it :: its)
    else
      match sstIteratorSeek it start endKey with
      | none => none
      | some (_, it) =>
        match sstIteratorPeek it with
        | none => none
        | some (peeked, it) =>
          openPending start endKey (opened ++ [it]) (betterWinner winner opened.length peeked) its

/-- `sst_k_iterators_next`: the record points into the buffer of the winner, which moves on. -/
def sstKIteratorsNext (k : SstKIterators) :
    Option (Option (KvRawRecord SstPointer) × SstKIterators) :=
  if k.active = false then some (none, k)
  else
    match peekOpened 0 none k.opened with
    | none => none
    | some (winner, opened) =>
      match openPending k.seekStart k.seekEnd opened winner k.pending with
      | none => none
      | some (none, opened, pending) =>
        some (none, { k with opened := opened, pending := pending, active := false })
      | some (some (i, rec), opened, pending) =>
        some (some (rec.mapPointer (SstPointer.mk i)),
          { k with opened := opened.modify i sstIteratorAdvance, pending := pending })

namespace SstKIterators

/-- The merge with all buffered records read. -/
def view (k : SstKIterators) : Lsmt.SstKIterators where
  opened := k.opened.map SstIterator.view
  pending := k.pending.map SstIterator.view
  active := k.active
  seekStart := k.seekStart
  seekEnd := k.seekEnd

/-- What a record reads as. -/
def deref (k : SstKIterators) (record : KvRawRecord SstPointer) : Option Lsmt.KvRawRecord :=
  record.rawData.bind fun pointer =>
    (k.opened ++ k.pending)[pointer.index]?.bind fun it =>
      Buffers.deref it.buffer { record with rawData := some pointer.generation }

/-- The invariant of the merge. -/
structure Ok (k : SstKIterators) : Prop where
  opened : ∀ it ∈ k.opened, it.Ok
  pending : ∀ it ∈ k.pending, it.Pending

end SstKIterators

/-- The winners agree: they sit at one position, and the buffered record there reads as the value. -/
inductive WinnerView (its : List SstIterator) : Winner → Lsmt.Winner → Prop where
  | missing : WinnerView its none none
  | buffered {i : Nat} {it : SstIterator} {r : Lsmt.KvRawRecord} (hi : its[i]? = some it)
      (valid : it.bufferedRecord.valid = true)
      (reads : deref it.buffer it.bufferedRecord = some r) :
      WinnerView its (some (i, it.bufferedRecord)) (some (i, r))

theorem key_of_deref {buffer : Block UInt8} {record : KvRawRecord Nat} {r : Lsmt.KvRawRecord}
    (h : deref buffer record = some r) : r.key = record.key := by
  obtain ⟨generation, -, hread⟩ := Option.bind_eq_some_iff.mp h
  obtain ⟨bytes, -, rfl⟩ := Option.map_eq_some_iff.mp hread
  rfl

theorem WinnerView.append {its : List SstIterator} {winner : Winner} {value : Lsmt.Winner}
    (h : WinnerView its winner value) (more : List SstIterator) :
    WinnerView (its ++ more) winner value := by
  cases h with
  | missing => exact WinnerView.missing
  | buffered hi valid reads =>
    refine WinnerView.buffered ?_ valid reads
    rw [List.getElem?_append_left (List.getElem?_eq_some_iff.mp hi).1, hi]

/-- Both comparisons come out the same. -/
theorem WinnerView.better {its : List SstIterator} {winner : Winner} {value : Lsmt.Winner}
    (h : WinnerView its winner value)
    {peekedValue : Option Lsmt.KvRawRecord × Lsmt.SstIterator}
    {answer : Option (KvRawRecord Nat) × SstIterator} (hpeek : PeekView peekedValue answer) :
    WinnerView (its ++ [answer.2]) (betterWinner winner its.length answer.1)
      (Lsmt.betterWinner value its.length peekedValue.1) := by
  rw [hpeek.same]
  cases hans : answer.1 with
  | none => exact h.append [answer.2]
  | some record =>
    obtain ⟨hbuf, hvalid⟩ := hpeek.shown record hans
    subst hbuf
    obtain ⟨r, hr⟩ := hpeek.ok.readable hvalid
    have hnew : WinnerView (its ++ [answer.2]) (some (its.length, answer.2.bufferedRecord))
        (some (its.length, r)) := WinnerView.buffered (by simp) hvalid hr
    rw [Option.bind_some, hr]
    cases h with
    | missing => exact hnew
    | @buffered i it best hi valid reads =>
      have hold := (WinnerView.buffered hi valid reads).append [answer.2]
      simp only [betterWinner, Lsmt.betterWinner, key_of_deref hr, key_of_deref reads]
      split
      · exact hnew
      · exact hold

theorem peekOpened_view (its : List SstIterator) :
    ∀ {seen : List SstIterator} {winner : Winner} {value : Lsmt.Winner},
      WinnerView seen winner value → (∀ it ∈ its, it.Ok) →
      ∃ winner' its', peekOpened seen.length winner its = some (winner', its') ∧
        (∀ it ∈ its', it.Ok) ∧
        (Lsmt.peekOpened seen.length value (its.map SstIterator.view)).2 =
          its'.map SstIterator.view ∧
        WinnerView (seen ++ its') winner'
          (Lsmt.peekOpened seen.length value (its.map SstIterator.view)).1 := by
  induction its with
  | nil =>
    intro seen winner value h _
    exact ⟨winner, [], rfl, by simp, rfl, by simpa [Lsmt.peekOpened] using h⟩
  | cons it its ih =>
    intro seen winner value h hok
    obtain ⟨answer, hpeek, hview⟩ := sstIteratorPeek_view (hok it List.mem_cons_self)
    obtain ⟨winner', its', hloop, hok', hsame, hwin⟩ :=
      ih (h.better hview) fun x hx => hok x (List.mem_cons_of_mem it hx)
    simp only [List.length_append, List.length_singleton] at hloop hsame hwin
    refine ⟨winner', answer.2 :: its', ?_, ?_, ?_, ?_⟩
    · rw [peekOpened, hpeek]
      simp only [hloop, Option.map_some]
    · intro x hx
      rcases List.mem_cons.mp hx with rfl | hx
      · exact hview.ok
      · exact hok' x hx
    · simp only [List.map_cons, Lsmt.peekOpened]
      rw [hsame, hview.same]
    · simp only [List.map_cons, Lsmt.peekOpened]
      rwa [List.append_assoc] at hwin

theorem startsAfter_view {its : List SstIterator} {winner : Winner} {value : Lsmt.Winner}
    (h : WinnerView its winner value) (it : SstIterator) :
    Lsmt.startsAfter value it.view = startsAfter winner it := by
  cases h with
  | missing => rfl
  | buffered hi valid reads =>
    rw [startsAfter, Lsmt.startsAfter, key_of_deref reads]
    rfl

/-- What the second loop returns. -/
structure OpenPendingView (value : Lsmt.Winner × List Lsmt.SstIterator × List Lsmt.SstIterator)
    (answer : Winner × List SstIterator × List SstIterator) : Prop where
  opened : ∀ it ∈ answer.2.1, it.Ok
  pending : ∀ it ∈ answer.2.2, it.Pending
  winner : WinnerView answer.2.1 answer.1 value.1
  same : value.2 = (answer.2.1.map SstIterator.view, answer.2.2.map SstIterator.view)

theorem openPending_view {start endKey : SlUint128} (its : List SstIterator) :
    ∀ {opened : List SstIterator} {winner : Winner} {value : Lsmt.Winner},
      WinnerView opened winner value → (∀ it ∈ opened, it.Ok) → (∀ it ∈ its, it.Pending) →
      ∃ answer value', openPending start endKey opened winner its = some answer ∧
        Lsmt.openPending start endKey (opened.map SstIterator.view) value
          (its.map SstIterator.view) = some value' ∧ OpenPendingView value' answer := by
  induction its with
  | nil =>
    intro opened winner value h hok _
    exact ⟨_, _, rfl, rfl, hok, by simp, h, rfl⟩
  | cons it its ih =>
    intro opened winner value h hok hpending
    rw [openPending, List.map_cons, Lsmt.openPending, startsAfter_view h]
    by_cases hstop : startsAfter winner it = true
    · rw [if_pos hstop, if_pos hstop]
      exact ⟨_, _, rfl, rfl, hok, hpending, h, rfl⟩
    · rw [if_neg hstop, if_neg hstop]
      obtain ⟨ok, sought, hseek, hsought, hvalue⟩ :=
        (hpending it List.mem_cons_self).seek start endKey
      obtain ⟨answer, hpeek, hview⟩ := sstIteratorPeek_view hsought
      have hopened : ∀ x ∈ opened ++ [answer.2], x.Ok := by
        intro x hx
        rcases List.mem_append.mp hx with hx | hx
        · exact hok x hx
        · rw [List.mem_singleton.mp hx]
          exact hview.ok
      obtain ⟨result, value', hloop, hloopValue, hresult⟩ :=
        ih (h.better hview) hopened fun x hx => hpending x (List.mem_cons_of_mem it hx)
      refine ⟨result, value', ?_, ?_, hresult⟩
      · simp only [hseek, hpeek, hloop]
      · rw [hvalue]
        simp only
        rw [List.length_map, hview.same]
        rw [List.map_append, List.map_singleton, hview.same] at hloopValue
        exact hloopValue

/-- The record at the winner's position still reads the same when the winner has moved on. -/
theorem deref_modify_advance {opened pending : List SstIterator} {i : Nat} {it : SstIterator}
    (hi : opened[i]? = some it) {k : SstKIterators}
    (hk : k.opened = opened.modify i sstIteratorAdvance) (hp : k.pending = pending) :
    k.deref (it.bufferedRecord.mapPointer (SstPointer.mk i)) =
      deref it.buffer it.bufferedRecord := by
  have hlt : i < (opened.modify i sstIteratorAdvance).length := by
    rw [List.length_modify]
    exact (List.getElem?_eq_some_iff.mp hi).1
  have hget : (opened.modify i sstIteratorAdvance ++ pending)[i]? =
      some (sstIteratorAdvance it) := by
    rw [List.getElem?_append_left hlt, List.getElem?_modify_eq, hi]
    rfl
  rw [SstKIterators.deref, hk, hp, KvRawRecord.mapPointer]
  cases hraw : it.bufferedRecord.rawData with
  | none => simp [deref, hraw]
  | some generation =>
    simp only [Option.map_some, Option.bind_some, hget]
    rw [deref, deref, hraw]
    rfl

theorem map_modify_view (its : List SstIterator) (i : Nat) :
    (its.modify i sstIteratorAdvance).map SstIterator.view =
      (its.map SstIterator.view).modify i Lsmt.sstIteratorAdvance := by
  induction its generalizing i with
  | nil => simp
  | cons it its ih =>
    cases i with
    | zero => rfl
    | succ i =>
      rw [List.modify_succ_cons, List.map_cons, List.map_cons, List.modify_succ_cons, ih i]

/-- A call hands out a record that reads as the one over values. -/
theorem sstKIteratorsNext_view {k : SstKIterators} (h : k.Ok) :
    ∃ answer k', sstKIteratorsNext k = some (answer, k') ∧ k'.Ok ∧
      Lsmt.sstKIteratorsNext k.view = some (answer.bind k'.deref, k'.view) ∧
      ∀ record, answer = some record → record.valid = true ∧ ∃ r, k'.deref record = some r := by
  rw [sstKIteratorsNext, Lsmt.sstKIteratorsNext]
  by_cases hact : k.active = false
  · have hview : k.view.active = false := hact
    rw [if_pos hact, if_pos hview]
    exact ⟨_, _, rfl, h, rfl, by simp⟩
  · have hview : ¬ k.view.active = false := hact
    rw [if_neg hact, if_neg hview]
    obtain ⟨winner, opened, hpeek, hopened, hsame, hwin⟩ :=
      @peekOpened_view k.opened [] none none WinnerView.missing h.opened
    obtain ⟨⟨winner', opened', pending'⟩, ⟨value', valueLists⟩, hopen, hvalue, hspec⟩ :=
      @openPending_view k.seekStart k.seekEnd k.pending opened winner _ hwin hopened h.pending
    obtain ⟨hok, hpending, hwinner, hlists⟩ := hspec
    simp only at hok hpending hwinner hlists
    subst hlists
    have hloops : Lsmt.openPending k.view.seekStart k.view.seekEnd
        (Lsmt.peekOpened 0 none k.view.opened).2 (Lsmt.peekOpened 0 none k.view.opened).1
        k.view.pending =
          some (value', opened'.map SstIterator.view, pending'.map SstIterator.view) := by
      rw [← hvalue]
      exact congrArg (fun its => Lsmt.openPending k.seekStart k.seekEnd its _ _) hsame
    simp only [hloops]
    rw [List.length_nil] at hpeek
    simp only [hpeek, hopen]
    cases hwinner with
    | missing => exact ⟨_, _, rfl, ⟨hok, hpending⟩, rfl, by simp⟩
    | @buffered i it r hi hvalid hreads =>
      have hderef := @deref_modify_advance opened' pending' i it hi
        { k with opened := opened'.modify i sstIteratorAdvance, pending := pending' } rfl rfl
      rw [hreads] at hderef
      refine ⟨_, _, rfl, ⟨fun x hx => ?_, hpending⟩, ?_, ?_⟩
      · rcases mem_modify hx with hx | ⟨y, hy, rfl⟩
        · exact hok x hx
        · exact (hok y (List.mem_of_getElem? hy)).advance
      · simp only [Option.bind_some, hderef, SstKIterators.view, map_modify_view]
      · rintro record ⟨⟩
        exact ⟨hvalid, r, hderef⟩

theorem view_sstKIteratorsCreate (inputs : List (SstMetadataRecord × IoFaults)) :
    (sstKIteratorsCreate inputs).view = Lsmt.sstKIteratorsCreate inputs := by
  simp only [SstKIterators.view, sstKIteratorsCreate, Lsmt.sstKIteratorsCreate, List.map_nil]
  congr 1
  have hmap := @List.map_mergeSort _ _
    (fun a b => decide (keyCompare a.cursor.sst.minKey b.cursor.sst.minKey ≤ 0))
    (fun a b => decide (keyCompare a.sst.minKey b.sst.minKey ≤ 0)) SstIterator.view
    (inputs.map fun i => sstIteratorCreate i.1 i.2) fun _ _ _ _ => rfl
  rw [hmap, List.map_map]
  rfl

theorem view_sstKIteratorsSeek (k : SstKIterators) (startKey endKey : SlUint128) :
    (sstKIteratorsSeek k startKey endKey).view =
      Lsmt.sstKIteratorsSeek k.view startKey endKey := by
  simp only [SstKIterators.view, sstKIteratorsSeek, Lsmt.sstKIteratorsSeek, List.map_nil,
    ← List.map_append, List.map_map]
  rfl

/-! ## Reading and merging files -/

/-- A new merge, after its seek. -/
theorem ok_sstKIteratorsSeek_create {inputs : List (SstMetadataRecord × IoFaults)}
    (hok : ∀ i ∈ inputs, SstOk i.1) (hfaults : ∀ i ∈ inputs, i.2 = IoFaults.none)
    (startKey endKey : SlUint128) :
    (sstKIteratorsSeek (sstKIteratorsCreate inputs) startKey endKey).Ok := by
  refine ⟨by simp [sstKIteratorsSeek], fun it hit => ?_⟩
  obtain ⟨created, hcreated, rfl⟩ := List.mem_map.mp hit
  obtain ⟨i, hi, rfl⟩ := List.mem_map.mp (List.mem_mergeSort.mp hcreated)
  have hpending : (sstIteratorCreate i.1 i.2).Pending := by
    rw [hfaults i hi]
    exact pending_sstIteratorCreate (hok i hi) (hok i hi).holds.totalSize_lt
  obtain ⟨rs, hfresh, hrs⟩ := hpending.fresh
  exact ⟨⟨⟨hpending.cap, hpending.unused, hpending.faults⟩, by simp, by simp⟩, rfl, rs,
    ⟨hfresh.holds, hfresh.buffered, hfresh.cached⟩, hrs⟩

/-- `sst_iterator_peek`, the record copied out of the buffer, then `sst_iterator_advance`. -/
def sstIteratorTake (it : SstIterator) : Option (Option Lsmt.KvRawRecord × SstIterator) :=
  match sstIteratorPeek it with
  | none => none
  | some (none, it) => some (none, it)
  | some (some record, it) =>
    (deref it.buffer record).map fun r => (some r, sstIteratorAdvance it)

/-- Taking until nothing is left lists what remains. -/
theorem drain_sstIteratorTake (n : Nat) {it : SstIterator} (h : it.Ok)
    (hn : it.view.remaining.length < n) : drain sstIteratorTake n it = some it.view.remaining := by
  induction n generalizing it with
  | zero => cases hn
  | succ n ih =>
    obtain ⟨⟨shown, it'⟩, hpeek, hview⟩ := sstIteratorPeek_view h
    have hspec := sstIteratorPeek_spec it.view
    rw [hview.same] at hspec
    rw [drain, sstIteratorTake, hpeek]
    cases shown with
    | none =>
      have hnil : it.view.remaining = [] := List.head?_eq_none_iff.mp hspec.shown.symm
      rw [hnil]
    | some record =>
      obtain ⟨hbuf, hvalid⟩ := hview.shown record rfl
      have hreads := hview.ok.readable
      simp only at hbuf hreads
      subst hbuf
      obtain ⟨r, hr⟩ := hreads hvalid
      -- the record that is shown is the first one that remains
      simp only [Option.bind_some, hr] at hspec
      obtain ⟨hact, hheld⟩ := hspec.buffered r rfl
      have hsplit := remaining_sstIteratorAdvance hact hheld
      have hsame : it'.view.remaining = it.view.remaining := hspec.same
      rw [hsame] at hsplit
      rw [hsplit, List.length_cons] at hn
      have hrest := ih hview.ok.advance (Nat.lt_of_succ_lt_succ hn)
      simp only [hr, Option.map_some]
      rw [hrest, hsplit]
      rfl

/-- `sst_k_iterators_next`, the record copied out of the buffer of its iterator. -/
def sstKIteratorsTake (k : SstKIterators) : Option (Option Lsmt.KvRawRecord × SstKIterators) :=
  match sstKIteratorsNext k with
  | none => none
  | some (none, k) => some (none, k)
  | some (some record, k) => (k.deref record).map fun r => (some r, k)

/-- The merge hands out what the one over values hands out. -/
theorem drain_sstKIteratorsTake {k : SstKIterators} (h : k.Ok) {n : Nat}
    {rs : List Lsmt.KvRawRecord} (hrs : drain Lsmt.sstKIteratorsNext n k.view = some rs) :
    drain sstKIteratorsTake n k = some rs := by
  have hnext : ∀ (k : SstKIterators) value b value', k.Ok ∧ k.view = value →
      Lsmt.sstKIteratorsNext value = some (b, value') →
      ∃ a k', sstKIteratorsTake k = some (a, k') ∧ Option.Rel Eq a b ∧
        (b ≠ none → k'.Ok ∧ k'.view = value') := by
    rintro k _ b value' ⟨hk, rfl⟩ hvalue
    obtain ⟨answer, k', hk', hok, hsame, hreads⟩ := sstKIteratorsNext_view hk
    rw [hvalue] at hsame
    obtain ⟨rfl, rfl⟩ := Prod.mk.inj (Option.some.inj hsame)
    rw [sstKIteratorsTake, hk']
    cases answer with
    | none => exact ⟨_, _, rfl, Option.Rel.none, fun _ => ⟨hok, rfl⟩⟩
    | some record =>
      obtain ⟨-, r, hr⟩ := hreads record rfl
      simp only [hr, Option.map_some, Option.bind_some]
      exact ⟨_, _, rfl, Option.Rel.some rfl, fun _ => ⟨hok, rfl⟩⟩
  obtain ⟨out, hout, hall⟩ := drain_rel hnext n ⟨h, rfl⟩ hrs
  rw [List.forall₂_eq_eq_eq] at hall
  rw [hout, hall]

/-- `sst_merge`; `none` when the process stops. -/
def sstMerge (inputs : List (SstMetadataRecord × IoFaults)) : Option SstMetadataRecord :=
  match inputs.head? with
  | none => none
  | some (first, _) =>
    let k := sstKIteratorsSeek (sstKIteratorsCreate inputs) SlUint128.zero SlUint128.max
    (drain sstKIteratorsTake k.view.fuel k).map (writeSst first.id (first.level + 1))

end RaftLsmt.Lsmt.Buffers
