import RaftLsmt.Lsmt.ReSeek
import RaftLsmt.Lsmt.ScanBuffers

/-!
# The pointers a scan hands out

The iterator of the store on top of the buffers: the memtable wrapper copies a node into its own
buffer, and `buffered_sst_record` holds a pointer into the buffer of an SST iterator. Each call does
to the view what the call over values does (`lsmtIteratorNext_view`), and the record it hands out
reads as the record handed out there. So a scan over SSTs with distinct keys hands out the union of
its sources, each record valid and readable until the next call (`scan_hands_out_union`).
-/

set_option autoImplicit false

namespace RaftLsmt.Lsmt.Buffers

open RaftLsmt.Lib.HeapBlock
open RaftLsmt.Lib.StepMachine
open RaftLsmt.Lib.SortedMerge

/-! ## The memtable -/

/-- `wrapper_sl_it_t`. -/
structure WrapperSlIt where
  slIt : SlIterator
  buffer : Block UInt8
  bufferedRecord : KvRawRecord Nat

/-- `wr_sl_it_create`. -/
def wrSlItCreate (sl : Sl) : WrapperSlIt where
  slIt := slIteratorCreate sl
  buffer := Block.alloc 0 1024
  bufferedRecord := KvRawRecord.zero Nat

/-- `wr_sl_iterator_seek`. -/
def wrSlIteratorSeek (sl : Sl) (wrap : WrapperSlIt) (startKey endKey : SlUint128) :
    Bool × WrapperSlIt :=
  let (active, slIt) := slIteratorSeek sl wrap.slIt startKey endKey
  (active, { wrap with
    slIt := slIt
    bufferedRecord := { wrap.bufferedRecord with valid := false } })

/-- `wr_sl_ensure_buffered`; `none` when the copy would leave the stored content or the buffer. -/
def wrSlEnsureBuffered (sl : Sl) (wrap : WrapperSlIt) : Option WrapperSlIt :=
  if wrap.slIt.active = false ∨ wrap.bufferedRecord.valid = true then some wrap
  else
    match slIteratorNext sl wrap.slIt with
    | (none, slIt) =>
      some { wrap with
        slIt := slIt
        bufferedRecord := { wrap.bufferedRecord with valid := false } }
    | (some node, slIt) =>
      let contentSize := 5 + contentLen node.2
      let totalSize := 16 + contentSize
      if Readable node.2 then
        match (wrap.buffer.reserve 0 totalSize).write 0 (keyBytes node.1) with
        | none => none
        | some buffer =>
          (buffer.write 16 (node.2.take contentSize)).map fun buffer =>
            ⟨slIt, buffer, ⟨node.1, some buffer.generation, totalSize, true⟩⟩
      else none

namespace WrapperSlIt

/-- The memtable record is taken. -/
def consume (wrap : WrapperSlIt) : WrapperSlIt :=
  { wrap with bufferedRecord := { wrap.bufferedRecord with valid := false } }

/-- The wrapper with its buffered record read. -/
def view (wrap : WrapperSlIt) : Lsmt.WrapperSlIt where
  slIt := wrap.slIt
  bufferedRecord :=
    if wrap.bufferedRecord.valid then deref wrap.buffer wrap.bufferedRecord else none

/-- A record that is buffered can be read. -/
def Ok (wrap : WrapperSlIt) : Prop :=
  wrap.bufferedRecord.valid = true → ∃ r, deref wrap.buffer wrap.bufferedRecord = some r

theorem ok_of_invalid {wrap : WrapperSlIt} (h : wrap.bufferedRecord.valid = false) : wrap.Ok :=
  fun hvalid => absurd hvalid (by simp [h])

theorem view_of_invalid {wrap : WrapperSlIt} (h : wrap.bufferedRecord.valid = false) :
    wrap.view = ⟨wrap.slIt, none⟩ := by
  rw [view, h, if_neg Bool.false_ne_true]

theorem view_of_reads {wrap : WrapperSlIt} {r : Lsmt.KvRawRecord}
    (hvalid : wrap.bufferedRecord.valid = true)
    (h : deref wrap.buffer wrap.bufferedRecord = some r) : wrap.view = ⟨wrap.slIt, some r⟩ := by
  rw [view, if_pos hvalid, h]

end WrapperSlIt

theorem view_wrSlIteratorSeek (sl : Sl) (wrap : WrapperSlIt) (startKey endKey : SlUint128) :
    (wrSlIteratorSeek sl wrap startKey endKey).2.view =
      (Lsmt.wrSlIteratorSeek sl wrap.view startKey endKey).2 := rfl

/-- Buffering a node copies its record into the buffer. -/
theorem wrSlEnsureBuffered_view {sl : Sl} {wrap : WrapperSlIt} (h : wrap.Ok)
    {value : Lsmt.WrapperSlIt} (hvalue : Lsmt.wrSlEnsureBuffered sl wrap.view = some value) :
    ∃ wrap', wrSlEnsureBuffered sl wrap = some wrap' ∧ wrap'.Ok ∧ wrap'.view = value := by
  rw [wrSlEnsureBuffered]
  cases hvalid : wrap.bufferedRecord.valid with
  -- a valid record is kept
  | true =>
    obtain ⟨r, hr⟩ := h hvalid
    have hview := WrapperSlIt.view_of_reads hvalid hr
    have hkept : Lsmt.wrSlEnsureBuffered sl ⟨wrap.slIt, some r⟩ = some ⟨wrap.slIt, some r⟩ :=
      if_pos (Or.inr rfl)
    rw [hview, hkept] at hvalue
    refine ⟨wrap, if_pos (Or.inr rfl), h, ?_⟩
    rw [hview, Option.some.inj hvalue]
  -- otherwise the memtable is asked for its next node
  | false =>
    have hview := WrapperSlIt.view_of_invalid hvalid
    rw [hview, Lsmt.wrSlEnsureBuffered] at hvalue
    by_cases hact : wrap.slIt.active = false
    · rw [if_pos (Or.inl hact)] at hvalue
      refine ⟨wrap, if_pos (Or.inl hact), h, ?_⟩
      rw [hview, Option.some.inj hvalue]
    · rw [if_neg (by simpa using hact)] at hvalue
      rw [if_neg (by simpa using hact)]
      cases hnext : slIteratorNext sl wrap.slIt with
      | mk answer slIt =>
        simp only [hnext] at hvalue ⊢
        cases answer with
        | none =>
          cases hvalue
          exact ⟨_, rfl, WrapperSlIt.ok_of_invalid rfl, rfl⟩
        | some node =>
          simp only at hvalue ⊢
          split at hvalue
          · -- key and content are copied, which is possible for a readable content
            rename_i hread
            cases hvalue
            have hlen : (node.2.take (5 + contentLen node.2)).length = 5 + contentLen node.2 := by
              rw [List.length_take]
              exact min_eq_left hread.2
            -- two writes in a row read as one
            obtain ⟨b₁, b₂, hwrite₁, hwrite₂, -, hreads⟩ :=
              @Block.read_writes _ 0 wrap.buffer (keyBytes node.1)
                (node.2.take (5 + contentLen node.2)) (16 + (5 + contentLen node.2))
                (by rw [hlen, length_keyBytes])
            rw [length_keyBytes] at hwrite₂
            have hderef : deref b₂ ⟨node.1, some b₂.generation, 16 + (5 + contentLen node.2), true⟩ =
                some (rawOf node) := by
              rw [deref, Option.bind_some, hreads]
              rfl
            rw [if_pos hread]
            simp only [hwrite₁, hwrite₂, Option.map_some]
            exact ⟨_, rfl, fun _ => ⟨_, hderef⟩, WrapperSlIt.view_of_reads rfl hderef⟩
          · cases hvalue

/-! ## The iterator of the store -/

/-- A pointer into the buffer of the memtable wrapper or of an SST iterator. -/
inductive Pointer where
  | memtable (generation : Nat)
  | sst (pointer : SstPointer)

/-- `lsmt_iterator_t`; `slIt` is `sl_its[0]` when `sl_count` is 1. -/
structure LsmtIterator where
  active : Bool
  slIt : Option WrapperSlIt
  sstList : SstKIterators
  bufferedSstRecord : KvRawRecord SstPointer

/-- `lsmt_iterator_create`. -/
def lsmtIteratorCreate (lsmt : LsmtState) : LsmtIterator where
  active := true
  slIt := if lsmt.memtable.size > 0 then some (wrSlItCreate lsmt.memtable) else none
  sstList := sstKIteratorsCreate (lsmt.metadata.records.map fun sst => (sst, IoFaults.none))
  bufferedSstRecord := KvRawRecord.zero SstPointer

/-- `lsmt_iterator_seek`. -/
def lsmtIteratorSeek (memtable : Sl) (it : LsmtIterator) (startKey endKey : SlUint128) :
    LsmtIterator :=
  { it with
    active := true
    slIt := it.slIt.map fun wrap => (wrSlIteratorSeek memtable wrap startKey endKey).2
    sstList :=
      if it.sstList.opened ++ it.sstList.pending = [] then it.sstList
      else sstKIteratorsSeek it.sstList startKey endKey }

/-- The memtable half of `lsmt_iterator_next`. -/
def lsmtPeekMemtable (memtable : Sl) : Option WrapperSlIt → Option (Option WrapperSlIt)
  | none => some none
  | some wrap => (wrSlEnsureBuffered memtable wrap).map some

/-- The SST half of `lsmt_iterator_next`: the record is copied, its bytes are not. -/
def lsmtPeekSst (it : LsmtIterator) : Option (KvRawRecord SstPointer × SstKIterators) :=
  if it.bufferedSstRecord.valid = false ∧ it.sstList.active = true then
    (sstKIteratorsNext it.sstList).map fun answer =>
      match answer.1 with
      | none => (it.bufferedSstRecord, answer.2)
      | some rec => ({ rec with valid := true }, answer.2)
  else some (it.bufferedSstRecord, it.sstList)

/-- `mem_rec` and `sst_rec`: a record, unless it is not valid. -/
def ifValid {ρ : Type} (record : KvRawRecord ρ) : Option (KvRawRecord ρ) :=
  if record.valid then some record else none

/-- `lsmt_iterator_next`; the record is not valid when the scan is over. `none` when a copy leaves its
source or its buffer. -/
def lsmtIteratorNext (memtable : Sl) (it : LsmtIterator) :
    Option (KvRawRecord Pointer × LsmtIterator) :=
  if it.active = false then some (KvRawRecord.zero Pointer, it)
  else
    match lsmtPeekMemtable memtable it.slIt, lsmtPeekSst it with
    | some slIt, some (held, sstList) =>
      let it := { it with slIt := slIt, sstList := sstList, bufferedSstRecord := held }
      let taken := { it with slIt := slIt.map WrapperSlIt.consume }
      match slIt.bind fun wrap => ifValid wrap.bufferedRecord, ifValid held with
      | some mem, some sst =>
        if keyCompare mem.key sst.key ≤ 0 then
          some (mem.mapPointer Pointer.memtable,
            if keyCompare mem.key sst.key = 0 then
              { taken with bufferedSstRecord := { held with valid := false } }
            else taken)
        else
          some (sst.mapPointer Pointer.sst,
            { it with bufferedSstRecord := { held with valid := false } })
      | some mem, none => some (mem.mapPointer Pointer.memtable, taken)
      | none, some sst =>
        some (sst.mapPointer Pointer.sst,
          { it with bufferedSstRecord := { held with valid := false } })
      | none, none => some (KvRawRecord.zero Pointer, { it with active := false })
    | _, _ => none

namespace LsmtIterator

/-- What a record reads as, in the buffers as they are. -/
def deref (it : LsmtIterator) (record : KvRawRecord Pointer) : Option Lsmt.KvRawRecord :=
  match record.rawData with
  | none => none
  | some (.memtable generation) =>
    it.slIt.bind fun wrap =>
      Buffers.deref wrap.buffer { record with rawData := some generation }
  | some (.sst pointer) => it.sstList.deref { record with rawData := some pointer }

/-- The iterator with all buffered records read. -/
def view (it : LsmtIterator) : Lsmt.LsmtIterator where
  active := it.active
  slIt := it.slIt.map WrapperSlIt.view
  sstList := it.sstList.view
  bufferedSstRecord :=
    if it.bufferedSstRecord.valid then it.sstList.deref it.bufferedSstRecord else none

/-- The invariant: every record that is buffered or held back can be read. -/
structure Ok (it : LsmtIterator) : Prop where
  slIt : ∀ wrap, it.slIt = some wrap → wrap.Ok
  sstList : it.sstList.Ok
  held : it.bufferedSstRecord.valid = true →
    ∃ r, it.sstList.deref it.bufferedSstRecord = some r

end LsmtIterator

/-- The record read through its pointer is the value: the key is its key, and it is flagged valid. -/
structure Shows (it : LsmtIterator) (record : KvRawRecord Pointer) (r : Lsmt.KvRawRecord) : Prop
    where
  valid : record.valid = true
  key_eq : record.key = r.key
  reads : it.deref record = some r

theorem lsmtPeekMemtable_view {memtable : Sl} {slIt : Option WrapperSlIt}
    (h : ∀ wrap, slIt = some wrap → wrap.Ok) {value : Option Lsmt.WrapperSlIt}
    (hvalue : Lsmt.lsmtPeekMemtable memtable (slIt.map WrapperSlIt.view) = some value) :
    ∃ slIt', lsmtPeekMemtable memtable slIt = some slIt' ∧ (∀ wrap, slIt' = some wrap → wrap.Ok) ∧
      slIt'.map WrapperSlIt.view = value := by
  cases slIt with
  | none =>
    cases hvalue
    exact ⟨none, rfl, by simp, rfl⟩
  | some wrap =>
    rw [Option.map_some, Lsmt.lsmtPeekMemtable] at hvalue
    obtain ⟨value', hvalue', rfl⟩ := Option.map_eq_some_iff.mp hvalue
    obtain ⟨wrap', hwrap', hok, rfl⟩ := wrSlEnsureBuffered_view (h wrap rfl) hvalue'
    refine ⟨some wrap', by rw [lsmtPeekMemtable, hwrap', Option.map_some], ?_, rfl⟩
    rintro x ⟨⟩
    exact hok

theorem lsmtPeekSst_view {it : LsmtIterator} (h : it.Ok)
    {value : Option Lsmt.KvRawRecord × Lsmt.SstKIterators}
    (hvalue : Lsmt.lsmtPeekSst it.view = some value) :
    ∃ held sstList, lsmtPeekSst it = some (held, sstList) ∧ sstList.Ok ∧
      (held.valid = true → ∃ r, sstList.deref held = some r) ∧
      value = (if held.valid then sstList.deref held else none, sstList.view) := by
  rw [lsmtPeekSst]
  rw [Lsmt.lsmtPeekSst] at hvalue
  cases hvalid : it.bufferedSstRecord.valid with
  | true =>
    -- nothing is read while a record is held back
    obtain ⟨r, hr⟩ := h.held hvalid
    have hview : it.view.bufferedSstRecord = some r := by
      rw [← hr]
      exact if_pos hvalid
    rw [hview, if_neg (by simp)] at hvalue
    refine ⟨_, _, if_neg (by simp), h.sstList, h.held, ?_⟩
    rw [if_pos hvalid, hr]
    exact (Option.some.inj hvalue).symm
  | false =>
    have hview : it.view.bufferedSstRecord = none := by simp [LsmtIterator.view, hvalid]
    rw [hview] at hvalue
    cases hact : it.sstList.active with
    | false =>
      have hactView : it.view.sstList.active = false := hact
      -- the merge of the SSTs is over
      rw [hactView, if_neg (by simp)] at hvalue
      refine ⟨_, _, if_neg (by simp), h.sstList, h.held, ?_⟩
      rw [hvalid, if_neg Bool.false_ne_true]
      exact (Option.some.inj hvalue).symm
    | true =>
      have hactView : it.view.sstList.active = true := hact
      rw [hactView, if_pos (by simp)] at hvalue
      -- the next record of the merge, if there is one
      obtain ⟨answer, k', hnext, hok, hvalueNext, hshown⟩ := sstKIteratorsNext_view h.sstList
      have heq : value = (answer.bind k'.deref, k'.view) :=
        (Option.some.inj (hvalueNext.symm.trans hvalue)).symm
      rw [if_pos (by simp), hnext, Option.map_some]
      cases answer with
      | none =>
        refine ⟨_, _, rfl, hok, fun hv => absurd hv (by simp [hvalid]), ?_⟩
        rw [heq, hvalid, if_neg Bool.false_ne_true, Option.bind_none]
      | some rec =>
        obtain ⟨-, r, hr⟩ := hshown rec rfl
        refine ⟨_, _, rfl, hok, fun _ => ⟨r, hr⟩, ?_⟩
        rw [heq, if_pos rfl, Option.bind_some]
        rfl

/-- What a call leaves behind: the iterator whose view is the value, and a record that reads as the
one handed out there. -/
structure NextView (value : Option Lsmt.KvRawRecord × Lsmt.LsmtIterator)
    (answer : KvRawRecord Pointer × LsmtIterator) : Prop where
  ok : answer.2.Ok
  view : answer.2.view = value.2
  ended : value.1 = none → answer.1.valid = false
  shows : ∀ r, value.1 = some r → Shows answer.2 answer.1 r

/-- A record of the wrapper reads the same through the iterator. -/
theorem shows_memtable {it : LsmtIterator} {wrap : WrapperSlIt} {record : KvRawRecord Nat}
    {r : Lsmt.KvRawRecord} (hvalid : record.valid = true) (hslIt : it.slIt = some wrap)
    (h : deref wrap.buffer record = some r) : Shows it (record.mapPointer Pointer.memtable) r := by
  refine ⟨hvalid, (key_of_deref h).symm, ?_⟩
  obtain ⟨generation, hraw, -⟩ := Option.bind_eq_some_iff.mp h
  simp only [LsmtIterator.deref, KvRawRecord.mapPointer, hraw, Option.map_some, hslIt,
    Option.bind_some]
  rw [← h, deref, deref, hraw]

theorem key_of_derefSst {k : SstKIterators} {record : KvRawRecord SstPointer}
    {r : Lsmt.KvRawRecord} (h : k.deref record = some r) : r.key = record.key := by
  obtain ⟨pointer, -, hread⟩ := Option.bind_eq_some_iff.mp h
  obtain ⟨it, -, hread⟩ := Option.bind_eq_some_iff.mp hread
  exact key_of_deref hread

theorem shows_sst {it : LsmtIterator} {record : KvRawRecord SstPointer} {r : Lsmt.KvRawRecord}
    (hvalid : record.valid = true) (h : it.sstList.deref record = some r) :
    Shows it (record.mapPointer Pointer.sst) r := by
  refine ⟨hvalid, (key_of_derefSst h).symm, ?_⟩
  obtain ⟨pointer, hraw, -⟩ := Option.bind_eq_some_iff.mp h
  simp only [LsmtIterator.deref, KvRawRecord.mapPointer, hraw, Option.map_some]
  rw [← h, SstKIterators.deref, SstKIterators.deref, hraw]

/-- The wrapper shows no record, or one that reads as the value. -/
theorem memtable_cases {slIt : Option WrapperSlIt} (h : ∀ wrap, slIt = some wrap → wrap.Ok) :
    (slIt.bind fun wrap => ifValid wrap.bufferedRecord) = none ∧
        (slIt.map WrapperSlIt.view).bind Lsmt.WrapperSlIt.bufferedRecord = none ∨
      ∃ wrap r, slIt = some wrap ∧ wrap.bufferedRecord.valid = true ∧
        deref wrap.buffer wrap.bufferedRecord = some r := by
  cases slIt with
  | none => exact Or.inl ⟨rfl, rfl⟩
  | some wrap =>
    cases hvalid : wrap.bufferedRecord.valid with
    | false =>
      refine Or.inl ⟨?_, ?_⟩
      · rw [Option.bind_some, ifValid, hvalid, if_neg Bool.false_ne_true]
      · rw [Option.map_some, Option.bind_some, WrapperSlIt.view_of_invalid hvalid]
    | true =>
      obtain ⟨r, hr⟩ := h wrap rfl hvalid
      exact Or.inr ⟨wrap, r, rfl, hvalid, hr⟩

theorem view_consume (wrap : WrapperSlIt) : wrap.consume.view = ⟨wrap.slIt, none⟩ :=
  WrapperSlIt.view_of_invalid rfl

theorem ok_consume {slIt : Option WrapperSlIt} :
    ∀ wrap, slIt.map WrapperSlIt.consume = some wrap → wrap.Ok := by
  intro wrap hwrap
  obtain ⟨x, -, rfl⟩ := Option.map_eq_some_iff.mp hwrap
  exact WrapperSlIt.ok_of_invalid rfl

/-- One call does to the view what the call over values does. -/
theorem lsmtIteratorNext_view {memtable : Sl} {it : LsmtIterator} (h : it.Ok)
    {value : Option Lsmt.KvRawRecord × Lsmt.LsmtIterator}
    (hvalue : Lsmt.lsmtIteratorNext memtable it.view = some value) :
    ∃ answer, lsmtIteratorNext memtable it = some answer ∧ NextView value answer := by
  rw [Lsmt.lsmtIteratorNext] at hvalue
  rw [lsmtIteratorNext]
  by_cases hact : it.active = false
  · have hview : it.view.active = false := hact
    rw [if_pos hview] at hvalue
    cases hvalue
    rw [if_pos hact]
    exact ⟨_, rfl, h, rfl, fun _ => rfl, by simp⟩
  · have hview : ¬ it.view.active = false := hact
    rw [if_neg hview] at hvalue
    rw [if_neg hact]
    -- the call returned, so both peeks did
    cases hmemValue : Lsmt.lsmtPeekMemtable memtable it.view.slIt with
    | none => simp [hmemValue] at hvalue
    | some memValue =>
      cases hsstValue : Lsmt.lsmtPeekSst it.view with
      | none => simp [hmemValue, hsstValue] at hvalue
      | some sstValue =>
        obtain ⟨slIt, hmem, hslIt, hmemView⟩ := lsmtPeekMemtable_view h.slIt hmemValue
        obtain ⟨held, sstList, hsst, hok, hheld, rfl⟩ := lsmtPeekSst_view h hsstValue
        subst hmemView
        rw [hmemValue, hsstValue] at hvalue
        rw [hmem, hsst]
        simp only at hvalue ⊢
        -- the record held back, and the one the wrapper shows
        cases hvalid : held.valid with
        | false =>
          have hnone : ifValid held = none := by rw [ifValid, hvalid, if_neg Bool.false_ne_true]
          rw [hvalid, if_neg Bool.false_ne_true] at hvalue
          rcases memtable_cases hslIt with ⟨hlow, hhigh⟩ | ⟨wrap, r, rfl, hwvalid, hreads⟩
          · rw [hhigh] at hvalue
            -- neither side has a record: the iterator is done
            rw [hlow, hnone]
            cases hvalue
            refine ⟨_, rfl, ⟨hslIt, hok, hheld⟩, ?_, fun _ => rfl, by simp⟩
            simp [LsmtIterator.view, hvalid]
          · have hlow : (some wrap).bind (fun wrap => ifValid wrap.bufferedRecord) =
                some wrap.bufferedRecord := if_pos hwvalid
            rw [Option.map_some, Option.bind_some, WrapperSlIt.view_of_reads hwvalid hreads]
              at hvalue
            -- only the memtable has one
            rw [hlow, hnone]
            cases hvalue
            refine ⟨_, rfl, ⟨@ok_consume (some wrap), hok, hheld⟩, ?_, by simp, ?_⟩
            · simp [LsmtIterator.view, hvalid, view_consume, Lsmt.WrapperSlIt.consume]
            · rintro _ ⟨⟩
              exact shows_memtable hwvalid rfl hreads
        | true =>
          obtain ⟨s, hs⟩ := hheld hvalid
          have hsome : ifValid held = some held := if_pos hvalid
          rw [hvalid, if_pos rfl, hs] at hvalue
          rcases memtable_cases hslIt with ⟨hlow, hhigh⟩ | ⟨wrap, r, rfl, hwvalid, hreads⟩
          · rw [hhigh] at hvalue
            -- only the SSTs have one
            rw [hlow, hsome]
            cases hvalue
            refine ⟨_, rfl, ⟨hslIt, hok, by simp⟩, by simp [LsmtIterator.view], by simp, ?_⟩
            rintro _ ⟨⟩
            exact shows_sst hvalid hs
          · have hlow : (some wrap).bind (fun wrap => ifValid wrap.bufferedRecord) =
                some wrap.bufferedRecord := if_pos hwvalid
            rw [Option.map_some, Option.bind_some, WrapperSlIt.view_of_reads hwvalid hreads]
              at hvalue
            -- both have one: the memtable's goes first unless its key is greater
            rw [hlow, hsome]
            simp only [key_of_deref hreads, key_of_derefSst hs] at hvalue ⊢
            split at hvalue
            · rename_i hle
              -- the memtable's record goes first, and the other one is dropped if it has the same key
              rw [if_pos hle]
              cases hvalue
              split
              · refine ⟨_, rfl, ⟨@ok_consume (some wrap), hok, by simp⟩, ?_, by simp, ?_⟩
                · simp [LsmtIterator.view, view_consume, Lsmt.WrapperSlIt.consume]
                · rintro _ ⟨⟩
                  exact shows_memtable hwvalid rfl hreads
              · refine ⟨_, rfl, ⟨@ok_consume (some wrap), hok, hheld⟩, ?_, by simp, ?_⟩
                · simp [LsmtIterator.view, hvalid, hs, view_consume, Lsmt.WrapperSlIt.consume]
                · rintro _ ⟨⟩
                  exact shows_memtable hwvalid rfl hreads
            · rename_i hle
              -- the record of the memtable is held back
              rw [if_neg hle]
              cases hvalue
              refine ⟨_, rfl, ⟨hslIt, hok, by simp⟩, ?_, by simp, ?_⟩
              · simp [LsmtIterator.view, WrapperSlIt.view_of_reads hwvalid hreads]
              · rintro _ ⟨⟩
                exact shows_sst hvalid hs

/-! ## A whole scan -/

/-- A call until the iterator is inactive: the record and the buffers as the call leaves them. -/
def lsmtIteratorTake (memtable : Sl) (it : LsmtIterator) :
    Option (Option (KvRawRecord Pointer × LsmtIterator) × LsmtIterator) :=
  (lsmtIteratorNext memtable it).map fun answer =>
    (if answer.2.active then some answer else none, answer.2)

/-- Create an iterator, seek it and call it until it is inactive. -/
def lsmtScan (lsmt : LsmtState) (startKey endKey : SlUint128) :
    Option (List (KvRawRecord Pointer × LsmtIterator)) :=
  drain (lsmtIteratorTake lsmt.memtable) (scanFuel lsmt)
    (lsmtIteratorSeek lsmt.memtable (lsmtIteratorCreate lsmt) startKey endKey)

section Scan

variable {lsmt : LsmtState}

theorem view_lsmtIteratorCreate (lsmt : LsmtState) :
    (lsmtIteratorCreate lsmt).view = Lsmt.lsmtIteratorCreate lsmt := by
  simp only [LsmtIterator.view, lsmtIteratorCreate, Lsmt.lsmtIteratorCreate,
    view_sstKIteratorsCreate]
  congr 1
  split <;> rfl

/-- A seek reads nothing: the views agree. -/
theorem view_lsmtIteratorSeek {memtable : Sl} {it : LsmtIterator}
    (hheld : it.bufferedSstRecord.valid = false) (startKey endKey : SlUint128) :
    (lsmtIteratorSeek memtable it startKey endKey).view =
      Lsmt.lsmtIteratorSeek memtable it.view startKey endKey := by
  have hnil : it.view.sstList.opened ++ it.view.sstList.pending = [] ↔
      it.sstList.opened ++ it.sstList.pending = [] := by
    simp [LsmtIterator.view, SstKIterators.view]
  have hslIt : (it.slIt.map fun wrap => (wrSlIteratorSeek memtable wrap startKey endKey).2).map
      WrapperSlIt.view =
        (it.slIt.map WrapperSlIt.view).map
          fun wrap => (Lsmt.wrSlIteratorSeek memtable wrap startKey endKey).2 := by
    rw [Option.map_map, Option.map_map]
    rfl
  simp only [lsmtIteratorSeek, Lsmt.lsmtIteratorSeek, hnil]
  by_cases h : it.sstList.opened ++ it.sstList.pending = []
  · simp only [if_pos h]
    simp only [LsmtIterator.view, hheld, Bool.false_eq_true, if_false, hslIt]
  · simp only [if_neg h]
    simp only [LsmtIterator.view, hheld, Bool.false_eq_true, if_false, hslIt,
      view_sstKIteratorsSeek]

theorem ok_lsmtIteratorSeek_create (hok : ∀ sst ∈ lsmt.metadata.records, SstOk sst)
    (hsize : ∀ r ∈ sstRecords lsmt.metadata.records, r.totalSize < 2 ^ 32) (memtable : Sl)
    (startKey endKey : SlUint128) :
    (lsmtIteratorSeek memtable (lsmtIteratorCreate lsmt) startKey endKey).Ok := by
  have hpending : ∀ it ∈ (lsmtIteratorCreate lsmt).sstList.pending, it.Pending := by
    intro it hit
    obtain ⟨i, hi, rfl⟩ := List.mem_map.mp (List.mem_mergeSort.mp hit)
    obtain ⟨sst, hsst, rfl⟩ := List.mem_map.mp hi
    exact pending_sstIteratorCreate (hok sst hsst) fun r hr =>
      hsize r (List.mem_flatMap.mpr ⟨sst, hsst, hr⟩)
  refine ⟨?_, ?_, fun hvalid => by cases hvalid⟩
  · intro wrap hwrap
    obtain ⟨x, -, rfl⟩ := Option.map_eq_some_iff.mp hwrap
    exact WrapperSlIt.ok_of_invalid rfl
  · simp only [lsmtIteratorSeek]
    split
    · exact ⟨by simp [lsmtIteratorCreate, sstKIteratorsCreate], hpending⟩
    · apply ok_sstKIteratorsSeek_create
      · intro i hi
        obtain ⟨sst, hsst, rfl⟩ := List.mem_map.mp hi
        exact hok sst hsst
      · intro i hi
        obtain ⟨sst, -, rfl⟩ := List.mem_map.mp hi
        rfl

/-- The record held back, if there is one, reads as a record of the SSTs. -/
def HeldReadable (ssts : List SstMetadataRecord) (it : LsmtIterator) : Prop :=
  it.bufferedSstRecord.valid = true →
    ∃ r ∈ sstRecords ssts, it.sstList.deref it.bufferedSstRecord = some r

/-- What a call over values hands out, and what the call over buffers does. -/
theorem lsmtIteratorTake_view (hm : lsmt.memtable.Ok) {it : LsmtIterator} (h : it.Ok)
    {ms rs : List Lsmt.KvRawRecord} (hrep : it.view.Represents lsmt.memtable ms rs)
    (hsub : rs ⊆ sstRecords lsmt.metadata.records) {r : Option Lsmt.KvRawRecord}
    {value : Lsmt.LsmtIterator}
    (hvalue : Lsmt.lsmtIteratorNext lsmt.memtable it.view = some (r, value)) :
    ∃ answer it', lsmtIteratorTake lsmt.memtable it = some (answer, it') ∧
      Option.Rel (fun p r => Shows p.2 p.1 r ∧ HeldReadable lsmt.metadata.records p.2) answer r ∧
      (r ≠ none → it'.Ok ∧ it'.view = value ∧
        ∃ ms rs, value.Represents lsmt.memtable ms rs ∧
          rs ⊆ sstRecords lsmt.metadata.records) := by
  obtain ⟨answer, hnext, hview⟩ := lsmtIteratorNext_view h hvalue
  obtain ⟨value', hvalue', hspec⟩ := lsmtIteratorNext_spec hm hrep
  rw [hvalue] at hvalue'
  cases hvalue'
  have hactive : answer.2.active = value.active := congrArg Lsmt.LsmtIterator.active hview.view
  refine ⟨_, answer.2, by rw [lsmtIteratorTake, hnext, Option.map_some], ?_, ?_⟩
  · -- the answer, with the record that is held back behind it
    cases hstep : mergeStep Lsmt.KvRawRecord.key ms rs with
    | none =>
      obtain ⟨hr, hidle⟩ := hspec.ended hstep
      simp only at hr hidle
      rw [hr, hactive, hidle, if_neg Bool.false_ne_true]
      exact Option.Rel.none
    | some p =>
      obtain ⟨a, ms', rs'⟩ := p
      obtain ⟨hr, hrep'⟩ := hspec.more a ms' rs' hstep
      obtain ⟨-, -, hrs⟩ := mergeStep_subset hstep
      simp only at hr hrep'
      rw [hr, hactive, hrep'.active, if_pos rfl]
      refine Option.Rel.some ⟨hview.shows a hr, fun hvalid => ?_⟩
      obtain ⟨s, hs⟩ := hview.ok.held hvalid
      -- a record held back is the head of what the SSTs still have
      refine ⟨s, hsub (hrs ?_), hs⟩
      obtain ⟨fuel, tail, -, rfl⟩ := hrep'.sst
      have hheld : value.bufferedSstRecord = some s := by
        rw [← hs]
        exact (congrArg Lsmt.LsmtIterator.bufferedSstRecord hview.view).symm.trans
          (if_pos hvalid)
      rw [hheld]
      exact List.mem_cons_self
  · intro hr
    cases hstep : mergeStep Lsmt.KvRawRecord.key ms rs with
    | none => exact absurd (hspec.ended hstep).1 hr
    | some p =>
      obtain ⟨a, ms', rs'⟩ := p
      obtain ⟨-, -, hrs⟩ := mergeStep_subset hstep
      exact ⟨hview.ok, hview.view, ms', rs', (hspec.more a ms' rs' hstep).2,
        List.Subset.trans hrs hsub⟩

/-- The records of a range in the memtable and, under the other keys, in the SSTs. -/
def InUnion (lsmt : LsmtState) (startKey endKey : SlUint128) (r : Lsmt.KvRawRecord) : Prop :=
  InRange Lsmt.KvRawRecord.key startKey endKey r ∧
    (r ∈ lsmt.memtable.records ∨
      r ∈ sstRecords lsmt.metadata.records ∧ ∀ m ∈ lsmt.memtable.records, m.key ≠ r.key)

theorem mem_shadowMerge_rangeFilter (hm : lsmt.memtable.Wf) {startKey endKey : SlUint128}
    {rs : List Lsmt.KvRawRecord} (hrs : StrictBy Lsmt.KvRawRecord.key rs)
    (hperm : rs.Perm (rangeFilter Lsmt.KvRawRecord.key startKey endKey
      (sstRecords lsmt.metadata.records))) (r : Lsmt.KvRawRecord) :
    r ∈ shadowMerge Lsmt.KvRawRecord.key
        (rangeFilter Lsmt.KvRawRecord.key startKey endKey lsmt.memtable.records) rs ↔
      InUnion lsmt startKey endKey r := by
  rw [mem_shadowMerge_iff (hm.strict_records.sublist (rangeFilter_sublist _ _ _)) hrs,
    hperm.mem_iff, mem_rangeFilter, mem_rangeFilter, InUnion]
  constructor
  · rintro (⟨hr, hin⟩ | ⟨⟨hr, hin⟩, hkeys⟩)
    · exact ⟨hin, Or.inl hr⟩
    · refine ⟨hin, Or.inr ⟨hr, fun m hmem hkey => ?_⟩⟩
      -- a memtable record under the same key is in range too
      refine hkeys m (mem_rangeFilter.mpr ⟨hmem, ?_⟩) hkey
      rwa [InRange, hkey]
  · rintro ⟨hin, hr | ⟨hr, hkeys⟩⟩
    · exact Or.inl ⟨hr, hin⟩
    · exact Or.inr ⟨⟨hr, hin⟩, fun m hmem => hkeys m (mem_rangeFilter.mp hmem).1⟩

/-- A scan over SSTs that share no key, and whose records have lengths of 32 bits, hands out the
records of the union in strictly increasing order until the iterator is inactive. Each is flagged
valid and reads as its record as the call leaves the buffers, and so does the record held back. -/
theorem scan_hands_out_union (hm : lsmt.memtable.Ok)
    (hok : ∀ sst ∈ lsmt.metadata.records, SstOk sst)
    (hdistinct : ((sstRecords lsmt.metadata.records).map Lsmt.KvRawRecord.key).Nodup)
    (hsize : ∀ r ∈ sstRecords lsmt.metadata.records, r.totalSize < 2 ^ 32)
    (startKey endKey : SlUint128) :
    ∃ out records, lsmtScan lsmt startKey endKey = some out ∧
      List.Forall₂ (fun p r => Shows p.2 p.1 r) out records ∧
      StrictBy Lsmt.KvRawRecord.key records ∧
      (∀ r, r ∈ records ↔ InUnion lsmt startKey endKey r) ∧
      ∀ p ∈ out, HeldReadable lsmt.metadata.records p.2 := by
  obtain ⟨rs, hrep, hscan⟩ := represents_seek_create hm hok startKey endKey
  have hvalue := drain_of_represents hm hrep (hscan.length_lt_scanFuel hok)
  have hview : (lsmtIteratorSeek lsmt.memtable (lsmtIteratorCreate lsmt) startKey endKey).view =
      Lsmt.lsmtIteratorSeek lsmt.memtable (Lsmt.lsmtIteratorCreate lsmt) startKey endKey := by
    rw [view_lsmtIteratorSeek rfl, view_lsmtIteratorCreate]
  obtain ⟨out, hout, hall⟩ := drain_rel
    (R := fun (it : LsmtIterator) (value : Lsmt.LsmtIterator) => it.Ok ∧ it.view = value ∧
      ∃ ms rs, value.Represents lsmt.memtable ms rs ∧ rs ⊆ sstRecords lsmt.metadata.records)
    (by
      rintro it _ r value' ⟨hit, rfl, ms, rs, hrep, hsub⟩ hnext
      exact lsmtIteratorTake_view hm hit hrep hsub hnext)
    (scanFuel lsmt)
    ⟨ok_lsmtIteratorSeek_create hok hsize lsmt.memtable startKey endKey, hview, _, rs, hrep,
      hscan.subset⟩ hvalue
  have hrs := hscan.strict hdistinct
  have hperm := hscan.perm (scannable_of_nodup hok hdistinct startKey)
  obtain ⟨hheld, hshows⟩ := (List.forall₂_and_left _ _).mp (hall.imp fun p r h => ⟨h.2, h.1⟩)
  refine ⟨out, _, hout, hshows, strictBy_shadowMerge ?_ hrs,
    mem_shadowMerge_rangeFilter hm.wf hrs hperm, hheld⟩
  exact hm.wf.strict_records.sublist (rangeFilter_sublist _ _ _)

end Scan

theorem scan_hands_out_union_twoSources :
    ∃ out records, lsmtScan twoSources ⟨0, 0⟩ ⟨9, 0⟩ = some out ∧
      List.Forall₂ (fun p r => Shows p.2 p.1 r) out records ∧
      StrictBy Lsmt.KvRawRecord.key records ∧
      (∀ r, r ∈ records ↔ InUnion twoSources ⟨0, 0⟩ ⟨9, 0⟩ r) ∧
      ∀ p ∈ out, HeldReadable twoSources.metadata.records p.2 := by
  refine scan_hands_out_union memtableOk_twoSources sstOk_twoSources ?_ ?_ ⟨0, 0⟩ ⟨9, 0⟩
  · rw [sstRecords_twoSources]
    exact List.nodup_singleton _
  · rw [sstRecords_twoSources]
    intro r hr
    rw [List.mem_singleton.mp hr]
    decide

end RaftLsmt.Lsmt.Buffers
