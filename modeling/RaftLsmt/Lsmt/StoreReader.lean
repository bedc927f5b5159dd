import RaftLsmt.Lsmt.ScanProgress
import RaftLsmt.Lsmt.StoreInvariant

/-!
# An iterator next to the insertions

`lsmt_iterator_create` and `lsmt_iterator_next` hold the lock of the memtable, `lsmt_iterator_seek`
does not. `Reader` is an iterator over a memtable that other threads write to: the insertions go on
write by write, and the walk of its seek goes read by read. The SSTs on its list do not change.

What the reader still has to hand out of the memtable is what `ScanNotCut` says of the scan; of the SSTs
it is a list that gets shorter (`Reader.Seeked`). The keys of the two sides differ as long as no key is
inserted twice, so none hides the other. A reader that has come to its end has handed out every record
that was there at its creation (`Reader.Inv.complete`), and it does come to its end
(`Reader.Inv.drains`).
-/

set_option autoImplicit false

namespace RaftLsmt.Lsmt

open RaftLsmt.Lib.StepMachine
open RaftLsmt.Lib.SortedMerge

/-! ## The machine -/

/-- An open iterator, with the records handed out so far. `shared` is its memtable with its place in
it, and of `it.slIt` counts only whether there is one, as `sl_count` says. -/
structure Reader where
  shared : Skip.Shared
  it : LsmtIterator
  range : Option (SlUint128 × SlUint128)
  output : List KvRawRecord

/-- Another thread takes the lock for an insertion, or makes its next write; the reader begins its
seek, makes the next read of it, or calls `lsmt_iterator_next`. -/
inductive ReaderAction where
  | insert (call : Skip.SlCall)
  | write
  | seek (startKey endKey : SlUint128)
  | read
  | next

/-- What `lsmt_iterator_next` does with the records of the two sides: the one it returns, and which of
them it uses up. -/
structure Choice where
  result : Option KvRawRecord
  takesMem : Bool
  takesSst : Bool

/-- The comparison in `lsmt_iterator_next`. -/
def lsmtChoose : Option KvRawRecord → Option KvRawRecord → Choice
  | some mem, some sst =>
    if keyCompare mem.key sst.key ≤ 0 then ⟨some mem, true, keyCompare mem.key sst.key = 0⟩
    else ⟨some sst, false, true⟩
  | some mem, none => ⟨some mem, true, false⟩
  | none, some sst => ⟨some sst, false, true⟩
  | none, none => ⟨none, false, false⟩

namespace Reader

/-- `lsmt_iterator_create`. -/
def create (lsmt : LsmtState) (shared : Skip.Shared) : Reader where
  shared := shared
  it := lsmtIteratorCreate lsmt
  range := none
  output := []

/-- `lsmt_iterator_seek` begins with the walk in the memtable. The SSTs come behind it, but nobody else
changes them. -/
def seek (r : Reader) (startKey endKey : SlUint128) : Option Reader :=
  let r := { r with
    range := some (startKey, endKey)
    it := { r.it with
      active := true
      sstList :=
        if r.it.sstList.opened ++ r.it.sstList.pending = [] then r.it.sstList
        else sstKIteratorsSeek r.it.sstList startKey endKey } }
  match r.it.slIt with
  | none => some r
  | some _ => (Skip.seekStep r.shared startKey endKey).map fun shared => { r with shared := shared }

/-- `mem_rec`, as `wr_sl_ensure_buffered` copies it; `none` when the copy would leave the content. -/
def memRecord (r : Reader) : Option (Option KvRawRecord) :=
  match r.it.slIt with
  | none => some none
  | some _ =>
    match (Skip.ensureBuffered r.shared.sl.heap r.shared.reader).bufferedRecord with
    | none => some none
    | some (_, none) => none
    | some (key, some content) =>
      if Readable content then some (some (rawOf (key, content))) else none

/-- The memtable side of `lsmt_iterator_next`, under the read lock. -/
def takeMem (r : Reader) (takes : Bool) : Option Skip.Shared :=
  match r.it.slIt with
  | none => some r.shared
  | some _ => Skip.nextStep r.shared takes

/-- `lsmt_iterator_next`. -/
def next (r : Reader) : Option Reader :=
  if r.it.active = false then some r
  else
    match r.memRecord, lsmtPeekSst r.it with
    | some mem, some (sst, sstList) =>
      let choice := lsmtChoose mem sst
      (r.takeMem choice.takesMem).map fun shared => { r with
        shared := shared
        it := { r.it with
          active := choice.result.isSome
          sstList := sstList
          bufferedSstRecord := if choice.takesSst then none else sst }
        output := r.output ++ choice.result.toList }
    | _, _ => none

/-- One step of the reader or of a thread that inserts. -/
def step (r : Reader) : ReaderAction → Option Reader
  | .insert call => (Skip.insertStep r.shared call).map fun shared => { r with shared := shared }
  | .write => (Skip.writerStep r.shared).map fun shared => { r with shared := shared }
  | .seek startKey endKey => if r.range.isSome then none else r.seek startKey endKey
  | .read => (Skip.readerStep r.shared).map fun shared => { r with shared := shared }
  | .next => if r.range.isNone then none else r.next

/-- The iteration has ended. -/
def Drained (r : Reader) : Prop := r.it.active = false

/-- When the last read of the seek finds a pointer that is about to be set, none of the records is in
its range. -/
def SeesSuccessor (acknowledged : List (SlUint128 × Bytes)) (r : Reader) (a : ReaderAction) : Prop :=
  a = .read → ∀ current, r.shared.reader.pc = .finish current → r.shared.writer.Pending current →
    ∀ node ∈ acknowledged, node ∈ r.shared.inserted → ¬ r.shared.reader.InRange node.1

end Reader

/-- A test that the read is not the last one of a seek at a node whose successor is about to be set. -/
def ReaderAction.sees (r : Reader) : ReaderAction → Bool
  | .read => r.shared.seesNext
  | _ => true

/-- Insertions of contents in the store's format under keys that are not `known`. -/
def ReaderAction.Fresh (known : SlUint128 → Prop) : ReaderAction → Prop
  | .insert call => ¬ known call.key ∧ SelfConsistent call.content
  | _ => True

/-- Not the begin of an insertion or of a seek. -/
def ReaderAction.Own : ReaderAction → Prop
  | .insert _ => False
  | .seek _ _ => False
  | _ => True

theorem ReaderAction.Own.fresh {known : SlUint128 → Prop} {a : ReaderAction} (h : a.Own) :
    a.Fresh known := by
  cases a with
  | insert call => exact h.elim
  | _ => trivial

/-- A memtable with the records of `memtable`, built by insertions with any coin flips, on which no
insertion is at work and no iterator has been placed. -/
structure MemtableAt (s : Skip.Shared) (memtable : Sl) : Prop where
  reached : ∃ as, (∀ a ∈ as, a = .writer ∨ ∃ call, a = .insert call) ∧
    run Skip.Shared.step Skip.Shared.init as = some s
  unlocked : s.writer = .unlocked
  records : ∀ n, n ∈ s.inserted ↔ n ∈ memtable.bottomLevel

/-! ## What the reader still has to hand out -/

/-- The SSTs of the store can be scanned from any key, and hold keys of their own, which are known. -/
structure SstsReadable (known : SlUint128 → Prop) (lsmt : LsmtState) : Prop where
  ok : ∀ sst ∈ lsmt.metadata.records, SstOk sst
  scannable : ∀ startKey, Scannable lsmt.metadata.records startKey
  known : ∀ b ∈ sstRecords lsmt.metadata.records, known b.key
  apart : ∀ n ∈ lsmt.memtable.bottomLevel, ∀ b ∈ sstRecords lsmt.metadata.records, n.1 ≠ b.key

namespace Reader

/-- The place in the memtable, from the begin of the seek on. -/
structure InMemtable (startKey endKey : SlUint128) (r : Reader) : Prop where
  idle : r.it.slIt = none → r.shared.reader.pc = .ready
  range : r.it.slIt ≠ none →
    r.shared.reader.startKey = startKey ∧ r.shared.reader.endKey = endKey
  walking : r.shared.reader.pc ≠ .ready → r.output = []
  returned : r.it.slIt ≠ none →
    ∀ n, Skip.stored n ∈ r.shared.reader.returned → rawOf n ∈ r.output
  ended : r.it.active = false → r.it.slIt ≠ none → r.shared.reader.pc = .ready ∧
    r.shared.reader.active = false ∧ r.shared.reader.bufferedRecord = none

/-- `rs` is to come from the SSTs. -/
structure InSsts (ssts : List KvRawRecord) (startKey endKey : SlUint128) (rs : List KvRawRecord)
    (r : Reader) : Prop where
  remaining : r.it.active = true → r.it.SstRemaining rs
  ended : r.it.active = false → rs = []
  subset : rs ⊆ ssts
  cover : ∀ t ∈ ssts, InRange KvRawRecord.key startKey endKey t → t ∈ r.output ∨ t ∈ rs

/-- The seek has begun. -/
structure Seeked (lsmt : LsmtState) (startKey endKey : SlUint128) (r : Reader) : Prop where
  range : r.range = some (startKey, endKey)
  memtable : r.InMemtable startKey endKey
  ssts : ∃ rs, r.InSsts (sstRecords lsmt.metadata.records) startKey endKey rs

/-- The iterator has been created and not been moved. -/
structure Created (lsmt : LsmtState) (r : Reader) : Prop where
  range : r.range = none
  it : r.it = lsmtIteratorCreate lsmt
  ready : r.shared.reader.pc = .ready
  output : r.output = []

theorem InMemtable.sameReader {startKey endKey : SlUint128} {r : Reader} {shared : Skip.Shared}
    (h : r.InMemtable startKey endKey) (hreader : shared.reader = r.shared.reader) :
    ({ r with shared := shared } : Reader).InMemtable startKey endKey where
  idle hslIt := hreader ▸ h.idle hslIt
  range hslIt := hreader ▸ h.range hslIt
  walking hpc := h.walking (hreader ▸ hpc)
  returned hslIt n hn := h.returned hslIt n (hreader ▸ hn)
  ended hactive hslIt := hreader ▸ h.ended hactive hslIt

theorem Seeked.sameReader {lsmt : LsmtState} {startKey endKey : SlUint128} {r : Reader}
    {shared : Skip.Shared} (h : r.Seeked lsmt startKey endKey)
    (hreader : shared.reader = r.shared.reader) :
    ({ r with shared := shared } : Reader).Seeked lsmt startKey endKey where
  range := h.range
  memtable := h.memtable.sameReader hreader
  ssts := h.ssts.imp fun _ hrs => ⟨hrs.remaining, hrs.ended, hrs.subset, hrs.cover⟩

theorem Created.sameReader {lsmt : LsmtState} {r : Reader} {shared : Skip.Shared}
    (h : r.Created lsmt) (hreader : shared.reader = r.shared.reader) :
    ({ r with shared := shared } : Reader).Created lsmt where
  range := h.range
  it := h.it
  ready := hreader ▸ h.ready
  output := h.output

/-- What holds of a reader at any time. It is held to the records `ps` of its memtable. -/
structure Inv (known : SlUint128 → Prop) (lsmt : LsmtState) (ps : List (SlUint128 × Bytes))
    (r : Reader) : Prop where
  heldTo : r.shared.HeldTo ps
  consistent : ∀ n ∈ r.shared.inserted, SelfConsistent n.2
  origin : ∀ n ∈ r.shared.inserted, n ∈ lsmt.memtable.bottomLevel ∨ ¬ known n.1
  call : ∀ call, r.shared.writer.call = some call → ¬ known call.key ∧ SelfConsistent call.content
  without : r.it.slIt = none → lsmt.memtable.bottomLevel = []
  sound : ∀ a ∈ r.output, (∃ n ∈ r.shared.inserted, rawOf n = a) ∨
    a ∈ sstRecords lsmt.metadata.records
  place : r.Created lsmt ∨ ∃ startKey endKey, r.Seeked lsmt startKey endKey

/-! ## One call of `lsmt_iterator_next` -/

/-- The memtable side with its record in the buffer. -/
def buffered (r : Reader) : Skip.Shared :=
  match r.it.slIt with
  | none => r.shared
  | some _ => { r.shared with reader := Skip.ensureBuffered r.shared.sl.heap r.shared.reader }

/-- A call hands out a record of the memtable, a record of the SSTs, or ends the iteration. -/
inductive Handed (r : Reader) (rs : List KvRawRecord) (r' : Reader) : Prop where
  | mem (n : SlUint128 × Bytes) (hn : n ∈ r.shared.inserted) (hslIt : r.it.slIt ≠ none)
      (hbuffered : r.buffered.reader.bufferedRecord = some (Skip.stored n))
      (hshared : r'.shared = { r.buffered with
        reader := { r.buffered.reader with
          bufferedRecord := none
          returned := r.buffered.reader.returned ++ [Skip.stored n] } })
      (houtput : r'.output = r.output ++ [rawOf n]) (hactive : r'.it.active = true)
      (hrest : r'.it.SstRemaining rs)
  | sst (b : KvRawRecord) (rs' : List KvRawRecord) (hrs : rs = b :: rs')
      (hshared : r'.shared = r.buffered) (houtput : r'.output = r.output ++ [b])
      (hactive : r'.it.active = true) (hrest : r'.it.SstRemaining rs')
  | ended (hrs : rs = []) (hbuffered : r.it.slIt ≠ none →
        r.buffered.reader.active = false ∧ r.buffered.reader.bufferedRecord = none)
      (hshared : r'.shared = r.buffered) (houtput : r'.output = r.output)
      (hactive : r'.it.active = false)

end Reader

/-- When the keys differ, one record is used up. -/
theorem lsmtChoose_cases {mem sst : Option KvRawRecord}
    (hne : ∀ m ∈ mem, ∀ b ∈ sst, m.key ≠ b.key) :
    (mem = none ∧ sst = none ∧ lsmtChoose mem sst = ⟨none, false, false⟩) ∨
      (∃ m, mem = some m ∧ lsmtChoose mem sst = ⟨some m, true, false⟩) ∨
      ∃ b, sst = some b ∧ lsmtChoose mem sst = ⟨some b, false, true⟩ := by
  cases mem with
  | none =>
    cases sst with
    | none => exact Or.inl ⟨rfl, rfl, rfl⟩
    | some b => exact Or.inr (Or.inr ⟨b, rfl, rfl⟩)
  | some m =>
    cases sst with
    | none => exact Or.inr (Or.inl ⟨m, rfl, rfl⟩)
    | some b =>
      have hkey : keyCompare m.key b.key ≠ 0 := by
        rw [Ne, keyCompare_eq_zero_iff]
        exact hne m rfl b rfl
      unfold lsmtChoose
      simp only [hkey, decide_false]
      split
      · exact Or.inr (Or.inl ⟨m, rfl, rfl⟩)
      · exact Or.inr (Or.inr ⟨b, rfl, rfl⟩)

namespace Reader

section Next

variable {known : SlUint128 → Prop} {lsmt : LsmtState} {ps : List (SlUint128 × Bytes)}
  {startKey endKey : SlUint128} {rs : List KvRawRecord} {r r' : Reader}

/-- The memtable side shows a record of the memtable, or it has ended. -/
theorem memRecord_spec (hheld : r.shared.HeldTo ps) (hread : ∀ n ∈ r.shared.inserted, SelfConsistent n.2)
    (hready : r.shared.reader.pc = .ready) (hunlocked : r.shared.writer = .unlocked) :
    r.memRecord = some none ∧ (r.it.slIt ≠ none →
        r.buffered.reader.active = false ∧ r.buffered.reader.bufferedRecord = none) ∨
      ∃ n ∈ r.shared.inserted, r.memRecord = some (some (rawOf n)) ∧ r.it.slIt ≠ none ∧
        r.buffered.reader.bufferedRecord = some (Skip.stored n) := by
  obtain ⟨-, -, -, -, hended, hrecord⟩ := hheld.ensureBuffered hready hunlocked
  unfold memRecord buffered
  cases hslIt : r.it.slIt with
  | none => exact Or.inl ⟨rfl, fun hne => absurd rfl hne⟩
  | some wrap =>
    simp only
    cases hbuffered : (Skip.ensureBuffered r.shared.sl.heap r.shared.reader).bufferedRecord with
    | none => exact Or.inl ⟨rfl, fun _ => ⟨hended hbuffered, rfl⟩⟩
    | some x =>
      obtain ⟨n, hn, rfl⟩ := hrecord x hbuffered
      refine Or.inr ⟨n, hn, ?_, by simp, rfl⟩
      exact if_pos (hread n hn).readable

theorem takeMem_false (hready : r.shared.reader.pc = .ready) (hunlocked : r.shared.writer = .unlocked) :
    r.takeMem false = some r.buffered := by
  unfold takeMem buffered Skip.nextStep
  cases r.it.slIt with
  | none => rfl
  | some wrap =>
    simp only [hready, hunlocked]
    rfl

theorem takeMem_true (hslIt : r.it.slIt ≠ none) (hready : r.shared.reader.pc = .ready)
    (hunlocked : r.shared.writer = .unlocked) {x : SlUint128 × Option Bytes}
    (hbuffered : r.buffered.reader.bufferedRecord = some x) :
    r.takeMem true = some { r.buffered with
      reader := { r.buffered.reader with
        bufferedRecord := none
        returned := r.buffered.reader.returned ++ [x] } } := by
  unfold takeMem buffered Skip.nextStep at *
  cases hsl : r.it.slIt with
  | none => exact absurd hsl hslIt
  | some wrap =>
    simp only [hsl] at hbuffered ⊢
    simp only [hready, hunlocked, if_true, hbuffered, Option.toList_some]

/-- The call waits for the lock, and for the end of the seek. -/
theorem takeMem_eq_some {takes : Bool} {shared : Skip.Shared} (h : r.takeMem takes = some shared)
    (hslIt : r.it.slIt ≠ none) :
    r.shared.reader.pc = .ready ∧ r.shared.writer = .unlocked := by
  unfold takeMem Skip.nextStep at h
  cases hsl : r.it.slIt with
  | none => exact absurd hsl hslIt
  | some wrap =>
    simp only [hsl] at h
    split at h
    · rename_i hready hunlocked
      exact ⟨hready, hunlocked⟩
    · cases h

theorem Inv.key_ne (h : r.Inv known lsmt ps) (hreadable : SstsReadable known lsmt)
    {n : SlUint128 × Bytes} (hn : n ∈ r.shared.inserted) {b : KvRawRecord}
    (hb : b ∈ sstRecords lsmt.metadata.records) : n.1 ≠ b.key := by
  rcases h.origin n hn with hn | hn
  · exact hreadable.apart n hn b hb
  · exact fun heq => hn (heq ▸ hreadable.known b hb)

/-- A call while no insertion is at work. -/
theorem Inv.exists_next (h : r.Inv known lsmt ps) (hreadable : SstsReadable known lsmt)
    (hready : r.it.slIt ≠ none → r.shared.reader.pc = .ready ∧ r.shared.writer = .unlocked)
    (hactive : r.it.active = true)
    (hssts : r.InSsts (sstRecords lsmt.metadata.records) startKey endKey rs) :
    ∃ r', r.next = some r' ∧ r.Handed rs r' ∧ r'.range = r.range ∧ r'.it.slIt = r.it.slIt := by
  obtain ⟨sstList, fuel, tail, hpeek, hdrain, hrs⟩ := lsmtPeekSst_spec (hssts.remaining hactive)
  -- the record the memtable shows
  obtain ⟨mem, hmem, hside⟩ : ∃ mem, r.memRecord = some mem ∧
      ((mem = none ∧ (r.it.slIt ≠ none →
          r.buffered.reader.active = false ∧ r.buffered.reader.bufferedRecord = none)) ∨
        ∃ n ∈ r.shared.inserted, mem = some (rawOf n) ∧ r.it.slIt ≠ none ∧
          r.buffered.reader.bufferedRecord = some (Skip.stored n)) := by
    by_cases hslIt : r.it.slIt = none
    · refine ⟨none, ?_, Or.inl ⟨rfl, fun hne => absurd hslIt hne⟩⟩
      unfold memRecord
      rw [hslIt]
    · obtain ⟨hpc, hunlocked⟩ := hready hslIt
      rcases memRecord_spec h.heldTo h.consistent hpc hunlocked with ⟨hmem, hended⟩ |
        ⟨n, hn, hmem, hne, hbuffered⟩
      · exact ⟨none, hmem, Or.inl ⟨rfl, hended⟩⟩
      · exact ⟨_, hmem, Or.inr ⟨n, hn, rfl, hne, hbuffered⟩⟩
  have hfalse : r.takeMem false = some r.buffered := by
    by_cases hslIt : r.it.slIt = none
    · unfold takeMem buffered
      rw [hslIt]
    · exact takeMem_false (hready hslIt).1 (hready hslIt).2
  have hinactive : ¬ r.it.active = false := by simp [hactive]
  have hne : ∀ m ∈ mem, ∀ b ∈ rs.head?, m.key ≠ b.key := by
    intro m hm b hb
    have hb : b ∈ rs := by
      rw [hrs, Option.mem_def.mp hb]
      exact List.mem_cons_self
    rcases hside with ⟨rfl, -⟩ | ⟨n, hn, rfl, -⟩
    · cases hm
    · cases hm
      exact h.key_ne hreadable hn (hssts.subset hb)
  unfold next
  rw [if_neg hinactive]
  simp only [hmem, hpeek]
  rcases lsmtChoose_cases hne with ⟨rfl, hnone, hchoose⟩ | ⟨m, rfl, hchoose⟩ | ⟨b, hsome, hchoose⟩
  · -- both sides are at their end
    rw [hchoose, hfalse]
    refine ⟨_, rfl, .ended ?_ ?_ rfl (List.append_nil _) rfl, rfl, rfl⟩
    · exact List.head?_eq_none_iff.mp hnone
    · rcases hside with ⟨-, hended⟩ | ⟨n, -, hcontra, -⟩
      · exact hended
      · cases hcontra
  · rcases hside with ⟨hcontra, -⟩ | ⟨n, hn, hrec, hslIt, hbuffered⟩
    · cases hcontra
    · cases hrec
      obtain ⟨hpc, hunlocked⟩ := hready hslIt
      rw [hchoose, takeMem_true hslIt hpc hunlocked hbuffered]
      exact ⟨_, rfl, .mem n hn hslIt hbuffered rfl rfl rfl ⟨fuel, tail, hdrain, hrs⟩, rfl, rfl⟩
  · rw [hchoose, hfalse]
    have hcons : rs = b :: tail := by
      rw [hrs, hsome]
      rfl
    exact ⟨_, rfl, .sst b tail hcons rfl rfl rfl ⟨fuel, tail, hdrain, rfl⟩, rfl, rfl⟩

/-- What a call knows when it returns. -/
theorem next_ready (hstep : r.next = some r') (hactive : r.it.active = true)
    (hslIt : r.it.slIt ≠ none) :
    r.shared.reader.pc = .ready ∧ r.shared.writer = .unlocked := by
  unfold next at hstep
  rw [if_neg (by simp [hactive])] at hstep
  split at hstep
  · obtain ⟨shared, hshared, -⟩ := Option.map_eq_some_iff.mp hstep
    exact takeMem_eq_some hshared hslIt
  · cases hstep

/-- A call that returns hands out the next record, unless the iteration had ended before. -/
theorem Inv.next_cases (h : r.Inv known lsmt ps) (hreadable : SstsReadable known lsmt)
    (hssts : r.InSsts (sstRecords lsmt.metadata.records) startKey endKey rs)
    (hstep : r.next = some r') :
    (r.it.active = false ∧ r' = r) ∨
      (r.it.active = true ∧ r.Handed rs r' ∧ r'.range = r.range ∧ r'.it.slIt = r.it.slIt) := by
  cases hactive : r.it.active with
  | false =>
    unfold next at hstep
    rw [if_pos hactive] at hstep
    cases hstep
    exact Or.inl ⟨rfl, rfl⟩
  | true =>
    obtain ⟨r'', hnext, hrest⟩ :=
      h.exists_next hreadable (fun hslIt => next_ready hstep hactive hslIt) hactive hssts
    rw [hstep] at hnext
    cases hnext
    exact Or.inr ⟨rfl, hrest⟩

/-! ## The invariant of the reader -/

theorem Inv.step_insert (h : r.Inv known lsmt ps) {call : Skip.SlCall}
    (hfresh : ¬ known call.key ∧ SelfConsistent call.content)
    (hstep : r.step (.insert call) = some r') : r'.Inv known lsmt ps := by
  obtain ⟨shared, hshared, rfl⟩ := Option.map_eq_some_iff.mp hstep
  obtain ⟨-, hreader, hinserted, hwriter⟩ := Skip.insertStep_frame hshared
  refine ⟨h.heldTo.insert hshared, ?_, ?_, ?_, h.without, ?_, ?_⟩
  · rw [hinserted]
    exact h.consistent
  · rw [hinserted]
    exact h.origin
  · intro c hc
    rcases hwriter with hwriter | hwriter
    · exact h.call c (hwriter ▸ hc)
    · rw [hwriter] at hc
      cases hc
      exact hfresh
  · rw [hinserted]
    exact h.sound
  · exact h.place.imp (fun hcreated => hcreated.sameReader hreader)
      (fun ⟨s, e, hseeked⟩ => ⟨s, e, hseeked.sameReader hreader⟩)

theorem Inv.step_write (h : r.Inv known lsmt ps) (hstep : r.step .write = some r') :
    r'.Inv known lsmt ps := by
  obtain ⟨shared, hshared, rfl⟩ := Option.map_eq_some_iff.mp hstep
  obtain ⟨hreader, hcall, hinserted⟩ := Skip.writerStep_frame hshared
  -- a record that is linked now has a fresh key
  have hnew : ∀ n ∈ shared.inserted, n ∈ r.shared.inserted ∨ ¬ known n.1 ∧ SelfConsistent n.2 := by
    intro n hn
    rcases hinserted with hsame | ⟨call, hwriter, hmore⟩
    · exact Or.inl (hsame ▸ hn)
    · rw [hmore] at hn
      rcases List.mem_append.mp hn with hn | hn
      · exact Or.inl hn
      · rw [List.mem_singleton.mp hn]
        exact Or.inr (h.call call hwriter)
  have hold : ∀ n ∈ r.shared.inserted, n ∈ shared.inserted := by
    intro n hn
    rcases hinserted with hsame | ⟨call, -, hmore⟩
    · exact hsame ▸ hn
    · rw [hmore]
      exact List.mem_append_left _ hn
  refine ⟨h.heldTo.write hshared, fun n hn => ?_, fun n hn => ?_, fun c hc => h.call c (hcall c hc),
    h.without, fun a ha => ?_, ?_⟩
  · exact (hnew n hn).elim (h.consistent n) And.right
  · exact (hnew n hn).elim (h.origin n) fun hn => Or.inr hn.1
  · exact (h.sound a ha).imp_left fun ⟨n, hn, heq⟩ => ⟨n, hold n hn, heq⟩
  · exact h.place.imp (fun hcreated => hcreated.sameReader hreader)
      (fun ⟨s, e, hseeked⟩ => ⟨s, e, hseeked.sameReader hreader⟩)

theorem Inv.step_read (h : r.Inv known lsmt ps)
    (hsees : ∀ current, r.shared.reader.pc = .finish current → r.shared.writer.Pending current →
      ∀ n ∈ ps, ¬ r.shared.reader.InRange n.1)
    (hstep : r.step .read = some r') : r'.Inv known lsmt ps := by
  obtain ⟨shared, hshared, rfl⟩ := Option.map_eq_some_iff.mp hstep
  have hheld := h.heldTo.read (fun _ => hsees) hshared
  obtain ⟨pc, active, itEndKey, currentNode, rfl⟩ := Skip.readerStep_frame hshared
  -- a seek is on its way
  have hpc : r.shared.reader.pc ≠ .ready := by
    intro hpc
    unfold Skip.readerStep at hshared
    simp only [hpc] at hshared
    cases hshared
  refine ⟨hheld, h.consistent, h.origin, h.call, h.without, h.sound, ?_⟩
  rcases h.place with hcreated | ⟨startKey, endKey, hrange, hmem, hrs⟩
  · exact absurd hcreated.ready hpc
  · refine Or.inr ⟨startKey, endKey, hrange, ⟨?_, hmem.range, fun _ => hmem.walking hpc,
      hmem.returned, ?_⟩, hrs.imp fun _ hrs => ⟨hrs.remaining, hrs.ended, hrs.subset, hrs.cover⟩⟩
    · exact fun hslIt => absurd (hmem.idle hslIt) hpc
    · exact fun hactive hslIt => absurd (hmem.ended hactive hslIt).1 hpc

/-- The seek finds the SSTs at the begin of the range, and begins its walk in the memtable. -/
theorem Inv.step_seek (h : r.Inv known lsmt ps) (hreadable : SstsReadable known lsmt)
    {startKey endKey : SlUint128} (hstep : r.step (.seek startKey endKey) = some r') :
    r'.Inv known lsmt ps := by
  unfold step at hstep
  cases hrange : r.range with
  | some range =>
    rw [hrange] at hstep
    cases hstep
  | none =>
    rw [hrange] at hstep
    rcases h.place with ⟨-, hit, hready, houtput⟩ | ⟨s, e, hseeked⟩
    · obtain ⟨rs, hremaining, hscan⟩ :=
        sstRemaining_seek_create hreadable.ok lsmt.memtable startKey endKey
      have hcover : ∀ t ∈ sstRecords lsmt.metadata.records,
          InRange KvRawRecord.key startKey endKey t → t ∈ r.output ∨ t ∈ rs := by
        intro t ht hin
        exact Or.inr ((hscan.perm (hreadable.scannable startKey)).symm.subset
          (mem_rangeFilter.mpr ⟨ht, hin⟩))
      unfold seek at hstep
      simp only [Option.isSome_none, Bool.false_eq_true, if_false, hit] at hstep
      cases hslIt : (lsmtIteratorCreate lsmt).slIt with
      | none =>
        simp only [hslIt] at hstep
        cases hstep
        refine ⟨h.heldTo, h.consistent, h.origin, h.call, fun _ => h.without (hit ▸ hslIt), h.sound,
          Or.inr ⟨startKey, endKey, rfl, ⟨fun _ => hready, fun hne => absurd rfl hne,
            fun _ => houtput, fun hne => absurd rfl hne, fun hactive => ?_⟩,
            rs, fun _ => hremaining, fun hactive => ?_, hscan.subset, hcover⟩⟩
        · cases hactive
        · cases hactive
      | some wrap =>
        simp only [hslIt] at hstep
        obtain ⟨shared, hshared, rfl⟩ := Option.map_eq_some_iff.mp hstep
        have hheld := h.heldTo.seek hshared
        unfold Skip.seekStep at hshared
        simp only [hready] at hshared
        cases hshared
        refine ⟨hheld, h.consistent, h.origin, h.call, (fun hnone => by cases hnone), h.sound,
          Or.inr ⟨startKey, endKey, rfl, ⟨(fun hnone => by cases hnone), fun _ => ⟨rfl, rfl⟩,
            fun _ => houtput, fun _ n hn => (List.not_mem_nil hn).elim, fun hactive => ?_⟩,
            rs, fun _ => hremaining, fun hactive => ?_, hscan.subset, hcover⟩⟩
        · cases hactive
        · cases hactive
    · rw [hseeked.range] at hrange
      cases hrange

theorem next_heldTo (hheld : r.shared.HeldTo ps) (hstep : r.next = some r') :
    r'.shared.HeldTo ps := by
  unfold next at hstep
  split at hstep
  · cases hstep
    exact hheld
  · split at hstep
    · obtain ⟨shared, hshared, rfl⟩ := Option.map_eq_some_iff.mp hstep
      unfold takeMem at hshared
      split at hshared
      · cases hshared
        exact hheld
      · exact hheld.next hshared
    · cases hstep

theorem buffered_same (r : Reader) :
    r.buffered.writer = r.shared.writer ∧ r.buffered.inserted = r.shared.inserted := by
  unfold buffered
  split <;> exact ⟨rfl, rfl⟩

/-- The memtable side of a call on which the walk has ended. -/
theorem buffered_spec (h : r.Inv known lsmt ps)
    (hready : r.it.slIt ≠ none → r.shared.reader.pc = .ready ∧ r.shared.writer = .unlocked)
    (hidle : r.it.slIt = none → r.shared.reader.pc = .ready) :
    r.buffered.reader.pc = .ready ∧ r.buffered.reader.returned = r.shared.reader.returned ∧
      r.buffered.reader.startKey = r.shared.reader.startKey ∧
      r.buffered.reader.endKey = r.shared.reader.endKey := by
  unfold buffered
  cases hslIt : r.it.slIt with
  | none => exact ⟨hidle hslIt, rfl, rfl, rfl⟩
  | some wrap =>
    obtain ⟨hpc, hunlocked⟩ := hready (by simp [hslIt])
    have hspec := h.heldTo.ensureBuffered hpc hunlocked
    exact ⟨hspec.ready, hspec.returned, hspec.startKey, hspec.endKey⟩

theorem Handed.shared (h : r.Handed rs r') :
    r'.shared.writer = r.shared.writer ∧ r'.shared.inserted = r.shared.inserted := by
  obtain ⟨hwriter, hinserted⟩ := r.buffered_same
  cases h with
  | mem n hn hslIt hbuffered hshared => exact hshared ▸ ⟨hwriter, hinserted⟩
  | sst b rs' hrs hshared => exact hshared ▸ ⟨hwriter, hinserted⟩
  | ended hrs hbuffered hshared => exact hshared ▸ ⟨hwriter, hinserted⟩

/-- What a call hands out comes from one of the two sides. -/
theorem Handed.sound (h : r.Handed rs r') {a : KvRawRecord} (ha : a ∈ r'.output) :
    a ∈ r.output ∨ (∃ n ∈ r.shared.inserted, rawOf n = a) ∨ a ∈ rs := by
  cases h with
  | mem n hn hslIt hbuffered hshared houtput =>
    rw [houtput] at ha
    rcases List.mem_append.mp ha with ha | ha
    · exact Or.inl ha
    · exact Or.inr (Or.inl ⟨n, hn, (List.mem_singleton.mp ha).symm⟩)
  | sst b rs' hrs hshared houtput =>
    rw [houtput] at ha
    rcases List.mem_append.mp ha with ha | ha
    · exact Or.inl ha
    · rw [hrs, List.mem_singleton.mp ha]
      exact Or.inr (Or.inr List.mem_cons_self)
  | ended hrs hbuffered hshared houtput => exact Or.inl (houtput ▸ ha)

/-- A record that is handed out is returned by the memtable, or is no longer to come from the SSTs. -/
theorem Handed.inSsts {ssts : List KvRawRecord} (h : r.Handed rs r')
    (hrs : r.InSsts ssts startKey endKey rs) :
    ∃ rs', r'.InSsts ssts startKey endKey rs' ∧ (r'.Drained ∨
      r'.shared.reader.returned.length + rs.length =
        r.buffered.reader.returned.length + rs'.length + 1) := by
  cases h with
  | mem n hn hslIt hbuffered hshared houtput hactive hrest =>
    refine ⟨rs, ⟨fun _ => hrest, fun hf => ?_, hrs.subset, fun t ht hin => ?_⟩, Or.inr ?_⟩
    · rw [hactive] at hf
      cases hf
    · rw [houtput]
      exact (hrs.cover t ht hin).imp_left (List.mem_append_left _)
    · rw [hshared, List.length_append, List.length_singleton]
      omega
  | sst b rs' heq hshared houtput hactive hrest =>
    subst heq
    refine ⟨rs', ⟨fun _ => hrest, fun hf => ?_, fun t ht => hrs.subset (List.mem_cons_of_mem _ ht),
      fun t ht hin => ?_⟩, Or.inr ?_⟩
    · rw [hactive] at hf
      cases hf
    · rw [houtput]
      rcases hrs.cover t ht hin with ht | ht
      · exact Or.inl (List.mem_append_left _ ht)
      · rcases List.mem_cons.mp ht with rfl | ht
        · exact Or.inl (List.mem_append_right _ (List.mem_singleton_self _))
        · exact Or.inr ht
    · rw [hshared, List.length_cons]
      omega
  | ended heq hbuffered hshared houtput hactive =>
    subst heq
    refine ⟨[], ⟨fun hf => ?_, fun _ => rfl, List.nil_subset _, fun t ht hin => ?_⟩, Or.inl hactive⟩
    · rw [hactive] at hf
      cases hf
    · rw [houtput]
      exact hrs.cover t ht hin

theorem Handed.inMemtable (h : r.Handed rs r') (hinv : r.Inv known lsmt ps)
    (hmem : r.InMemtable startKey endKey) (hslIt : r'.it.slIt = r.it.slIt)
    (hready : r.it.slIt ≠ none → r.shared.reader.pc = .ready ∧ r.shared.writer = .unlocked) :
    r'.InMemtable startKey endKey := by
  obtain ⟨hpc, hreturned, hstart, hend⟩ := buffered_spec hinv hready hmem.idle
  -- the place of the scan is as it was, but for what has been handed out
  have hrange : r'.it.slIt ≠ none → r.buffered.reader.startKey = startKey ∧
      r.buffered.reader.endKey = endKey := by
    intro hne
    rw [hstart, hend]
    exact hmem.range (hslIt ▸ hne)
  cases h with
  | mem n hn hne hbuffered hshared houtput hactive hrest =>
    refine ⟨fun _ => ?_, fun hsome => ?_, fun hf => ?_, fun hsome m hm => ?_, fun hf => ?_⟩
    · rw [hshared]
      exact hpc
    · rw [hshared]
      exact hrange hsome
    · rw [hshared] at hf
      exact absurd hpc hf
    · rw [hshared] at hm
      rw [houtput]
      rcases List.mem_append.mp hm with hm | hm
      · rw [hreturned] at hm
        exact List.mem_append_left _ (hmem.returned hne m hm)
      · have heq : m = n := Skip.stored_injective (List.mem_singleton.mp hm)
        rw [heq]
        exact List.mem_append_right _ (List.mem_singleton_self _)
    · rw [hactive] at hf
      cases hf
  | sst b rs' hrs hshared houtput hactive hrest =>
    refine ⟨fun _ => ?_, fun hsome => ?_, fun hf => ?_, fun hsome m hm => ?_, fun hf => ?_⟩
    · rw [hshared]
      exact hpc
    · rw [hshared]
      exact hrange hsome
    · rw [hshared] at hf
      exact absurd hpc hf
    · rw [hshared, hreturned] at hm
      rw [houtput]
      exact List.mem_append_left _ (hmem.returned (hslIt ▸ hsome) m hm)
    · rw [hactive] at hf
      cases hf
  | ended hrs hbuffered hshared houtput hactive =>
    refine ⟨fun _ => ?_, fun hsome => ?_, fun hf => ?_, fun hsome m hm => ?_, fun _ hsome => ?_⟩
    · rw [hshared]
      exact hpc
    · rw [hshared]
      exact hrange hsome
    · rw [hshared] at hf
      exact absurd hpc hf
    · rw [hshared, hreturned] at hm
      rw [houtput]
      exact hmem.returned (hslIt ▸ hsome) m hm
    · rw [hshared]
      exact ⟨hpc, hbuffered (hslIt ▸ hsome)⟩

theorem Inv.step_next (h : r.Inv known lsmt ps) (hreadable : SstsReadable known lsmt)
    (hstep : r.step .next = some r') : r'.Inv known lsmt ps := by
  unfold step at hstep
  rcases id h.place with hcreated | ⟨startKey, endKey, hrange, hmem, rs, hrs⟩
  · rw [hcreated.range] at hstep
    cases hstep
  · simp only [hrange, Option.isNone_some, Bool.false_eq_true, if_false] at hstep
    rcases h.next_cases hreadable hrs hstep with ⟨-, rfl⟩ | ⟨hactive, hhanded, hsame, hslIt⟩
    · exact h
    · obtain ⟨hwriter, hinserted⟩ := hhanded.shared
      obtain ⟨rs', hrs', -⟩ := hhanded.inSsts hrs
      refine ⟨next_heldTo h.heldTo hstep, hinserted ▸ h.consistent, hinserted ▸ h.origin,
        hwriter ▸ h.call, hslIt ▸ h.without, fun a ha => ?_, Or.inr ⟨startKey, endKey,
          hsame.trans hrange, hhanded.inMemtable h hmem hslIt (next_ready hstep hactive), rs', hrs'⟩⟩
      rw [hinserted]
      rcases hhanded.sound ha with ha | ha | ha
      · exact h.sound a ha
      · exact Or.inl ha
      · exact Or.inr (hrs.subset ha)

/-- A call of another list of records to see. -/
theorem SeesSuccessor.mono {acknowledged : List (SlUint128 × Bytes)} {a : ReaderAction}
    (h : r.SeesSuccessor acknowledged a) (hsub : ps ⊆ acknowledged) : r.SeesSuccessor ps a :=
  fun hread current hpc hpending n hn => h hread current hpc hpending n (hsub hn)

theorem seesSuccessor_nil (r : Reader) (a : ReaderAction) : r.SeesSuccessor [] a :=
  fun _ _ _ _ _ hn => (List.not_mem_nil hn).elim

/-- One step of one thread. -/
theorem Inv.step (h : r.Inv known lsmt ps) (hreadable : SstsReadable known lsmt) {a : ReaderAction}
    (hfresh : a.Fresh known) (hsees : r.SeesSuccessor ps a) (hstep : r.step a = some r') :
    r'.Inv known lsmt ps := by
  cases a with
  | insert call => exact h.step_insert hfresh hstep
  | write => exact h.step_write hstep
  | seek startKey endKey => exact h.step_seek hreadable hstep
  | next => exact h.step_next hreadable hstep
  | read =>
    refine h.step_read (fun current hpc hpending n hn => ?_) hstep
    exact hsees rfl current hpc hpending n hn (h.heldTo.present hn)

theorem Inv.always (h : r.Inv known lsmt ps) (hreadable : SstsReadable known lsmt)
    {as : List ReaderAction} (hfresh : ∀ a ∈ as, a.Fresh known)
    (hsees : EachStep Reader.step (SeesSuccessor ps) r as) :
    Always Reader.step (fun t => t.Inv known lsmt ps) r as := by
  refine always_of_eachStep h ?_
  intro pre a post t hsplit ht t' hinv hstep
  exact hinv.step hreadable (hfresh a (by simp [hsplit])) (hsees pre a post t hsplit ht) hstep

theorem Inv.of_run (h : r.Inv known lsmt ps) (hreadable : SstsReadable known lsmt)
    {as : List ReaderAction} (hfresh : ∀ a ∈ as, a.Fresh known)
    (hsees : EachStep Reader.step (SeesSuccessor ps) r as)
    (hrun : run Reader.step r as = some r') : r'.Inv known lsmt ps :=
  h.always hreadable hfresh hsees as [] r' (List.append_nil as).symm hrun

/-- A reader that has come to its end has handed out all it was held to, and the SSTs' range. -/
theorem Inv.complete (h : r.Inv known lsmt ps) (hps : ps ⊆ lsmt.memtable.bottomLevel)
    (hrange : r.range = some (startKey, endKey)) (hdrained : r.Drained) :
    (∀ n ∈ ps, startKey ≤ n.1 → n.1 ≤ endKey → rawOf n ∈ r.output) ∧
      ∀ b ∈ sstRecords lsmt.metadata.records, startKey ≤ b.key → b.key ≤ endKey →
        b ∈ r.output := by
  rcases h.place with hcreated | ⟨s, e, hseeked, hmem, rs, hrs⟩
  · rw [hcreated.range] at hrange
    cases hrange
  · rw [hseeked] at hrange
    cases hrange
    constructor
    · intro n hn hlo hhi
      by_cases hslIt : r.it.slIt = none
      · have hnone := hps hn
        rw [h.without hslIt] at hnone
        cases hnone
      · obtain ⟨hpc, hinactive, hempty⟩ := hmem.ended hdrained hslIt
        obtain ⟨hstart, hend⟩ := hmem.range hslIt
        have hin : r.shared.reader.InRange n.1 := by
          unfold Skip.Reader.InRange
          rw [hstart, hend]
          exact ⟨hlo, hhi⟩
        exact hmem.returned hslIt n (h.heldTo.ok.notCut.complete hpc hinactive hempty n hn hin)
    · intro b hb hlo hhi
      have hnil := hrs.ended hdrained
      subst hnil
      rcases hrs.cover b hb ⟨hlo, hhi⟩ with hb | hb
      · exact hb
      · cases hb

/-! ## The reader comes to its end -/

theorem Handed.ready (h : r.Handed rs r') (hpc : r.buffered.reader.pc = .ready) :
    r'.shared.reader.pc = .ready := by
  cases h with
  | mem n hn hslIt hbuffered hshared =>
    rw [hshared]
    exact hpc
  | sst b rs' hrs hshared =>
    rw [hshared]
    exact hpc
  | ended hrs hbuffered hshared =>
    rw [hshared]
    exact hpc

theorem eachStep_nil_acknowledged (r : Reader) (as : List ReaderAction) :
    EachStep Reader.step (SeesSuccessor []) r as :=
  fun _ a _ t _ _ => seesSuccessor_nil t a

/-- The scan of the memtable has met the null pointer of a new node: nothing of the memtable is handed
out. -/
structure Cut (ssts : List KvRawRecord) (r : Reader) : Prop where
  range : r.range.isSome
  ready : r.shared.reader.pc = .ready
  currentNode : r.shared.reader.currentNode = none
  bufferedRecord : r.shared.reader.bufferedRecord = none
  output : r.output ⊆ ssts

theorem Inv.cut (h : r.Inv known lsmt ps) {current : Nat}
    (hpc : r.shared.reader.pc = .finish current) (hpending : r.shared.writer.Pending current)
    (hstep : r.step .read = some r') : r'.Cut (sstRecords lsmt.metadata.records) := by
  obtain ⟨node, hnode, hnext⟩ := h.heldTo.pending current hpending
  have hwalking : r.shared.reader.pc ≠ .ready := by simp [hpc]
  obtain ⟨level, view, hview, hr⟩ := h.heldTo.ok
  obtain ⟨-, hempty⟩ := hr.fresh hwalking
  obtain ⟨shared, hshared, rfl⟩ := Option.map_eq_some_iff.mp hstep
  unfold Skip.readerStep at hshared
  simp only [hpc, hnode] at hshared
  cases hshared
  rcases h.place with hcreated | ⟨startKey, endKey, hrange, hmem, -⟩
  · exact absurd hcreated.ready hwalking
  · refine ⟨by simp [hrange], rfl, hnext, hempty, ?_⟩
    simp only [hmem.walking hwalking]
    exact List.nil_subset _

theorem Cut.buffered {ssts : List KvRawRecord} (h : r.Cut ssts) :
    r.buffered.reader.pc = .ready ∧ r.buffered.reader.currentNode = none ∧
      r.buffered.reader.bufferedRecord = none := by
  unfold Reader.buffered
  cases r.it.slIt with
  | none => exact ⟨h.ready, h.currentNode, h.bufferedRecord⟩
  | some wrap =>
    unfold Skip.ensureBuffered
    simp only [h.currentNode]
    split
    · exact ⟨h.ready, h.currentNode, h.bufferedRecord⟩
    · exact ⟨h.ready, rfl, h.bufferedRecord⟩

theorem Cut.step (h : r.Cut (sstRecords lsmt.metadata.records)) (hinv : r.Inv known lsmt ps)
    (hreadable : SstsReadable known lsmt) {a : ReaderAction} (hstep : r.step a = some r') :
    r'.Cut (sstRecords lsmt.metadata.records) := by
  have hsame : ∀ {shared : Skip.Shared}, shared.reader = r.shared.reader →
      ({ r with shared := shared } : Reader).Cut (sstRecords lsmt.metadata.records) := by
    intro shared hreader
    exact ⟨h.range, hreader ▸ h.ready, hreader ▸ h.currentNode, hreader ▸ h.bufferedRecord, h.output⟩
  cases a with
  | insert call =>
    obtain ⟨shared, hshared, rfl⟩ := Option.map_eq_some_iff.mp hstep
    exact hsame (Skip.insertStep_frame hshared).2.1
  | write =>
    obtain ⟨shared, hshared, rfl⟩ := Option.map_eq_some_iff.mp hstep
    exact hsame (Skip.writerStep_frame hshared).reader
  | seek startKey endKey =>
    unfold Reader.step at hstep
    simp only [h.range, if_true] at hstep
    cases hstep
  | read =>
    obtain ⟨shared, hshared, rfl⟩ := Option.map_eq_some_iff.mp hstep
    unfold Skip.readerStep at hshared
    simp only [h.ready] at hshared
    cases hshared
  | next =>
    rcases hinv.place with hcreated | ⟨startKey, endKey, hrange, hmem, rs, hrs⟩
    · have hsome := h.range
      rw [hcreated.range] at hsome
      cases hsome
    · unfold Reader.step at hstep
      simp only [hrange, Option.isNone_some, Bool.false_eq_true, if_false] at hstep
      obtain ⟨hpc, hcurrent, hempty⟩ := h.buffered
      rcases hinv.next_cases hreadable hrs hstep with ⟨-, rfl⟩ | ⟨-, hhanded, hrange', -⟩
      · exact h
      · cases hhanded with
        | mem n hn hslIt hbuffered =>
          rw [hempty] at hbuffered
          cases hbuffered
        | sst b rs' heq hshared houtput =>
          refine ⟨hrange' ▸ h.range, hshared ▸ hpc, hshared ▸ hcurrent, hshared ▸ hempty, ?_⟩
          rw [houtput]
          refine List.append_subset.mpr ⟨h.output, ?_⟩
          intro t ht
          rw [List.mem_singleton.mp ht]
          exact hrs.subset (heq ▸ List.mem_cons_self)
        | ended heq hbuffered hshared houtput =>
          refine ⟨hrange' ▸ h.range, hshared ▸ hpc, hshared ▸ hcurrent, hshared ▸ hempty, ?_⟩
          rw [houtput]
          exact h.output

theorem Cut.of_run (h : r.Cut (sstRecords lsmt.metadata.records)) (hinv : r.Inv known lsmt [])
    (hreadable : SstsReadable known lsmt) {as : List ReaderAction} (hfresh : ∀ a ∈ as, a.Fresh known)
    (hrun : run Reader.step r as = some r') : r'.Cut (sstRecords lsmt.metadata.records) := by
  have hboth : r'.Inv known lsmt [] ∧ r'.Cut (sstRecords lsmt.metadata.records) := by
    refine run_invariant (P := fun t => t.Inv known lsmt [] ∧
      t.Cut (sstRecords lsmt.metadata.records)) ?_ hfresh ⟨hinv, h⟩ hrun
    rintro t a t' ha ⟨hinv, hcut⟩ hstep
    exact ⟨hinv.step hreadable ha (seesSuccessor_nil t a) hstep, hcut.step hinv hreadable hstep⟩
  exact hboth.2

end Next

end Reader

/-! ## The memtable at the creation -/

namespace MemtableAt

variable {s : Skip.Shared} {memtable : Sl} {ps : List (SlUint128 × Bytes)}

theorem reader (h : MemtableAt s memtable) : s.Ok ∧ s.reader = Skip.Shared.init.reader := by
  obtain ⟨as, has, hrun⟩ := h.reached
  refine run_invariant (P := fun t => t.Ok ∧ t.reader = Skip.Shared.init.reader) ?_ has
    ⟨Skip.Shared.ok_init, rfl⟩ hrun
  rintro t a t' (rfl | ⟨call, rfl⟩) ⟨hok, hreader⟩ hstep
  · exact ⟨hok.writerStep hstep, (Skip.writerStep_frame hstep).reader.trans hreader⟩
  · exact ⟨hok.insert hstep, (Skip.insertStep_frame hstep).2.1.trans hreader⟩

/-- No iterator has been placed, so none has missed a record. -/
theorem heldTo (h : MemtableAt s memtable) (hps : ps ⊆ memtable.bottomLevel) : s.HeldTo ps := by
  obtain ⟨hok, hreader⟩ := h.reader
  have hsub : ps ⊆ s.inserted := fun n hn => (h.records n).mpr (hps hn)
  obtain ⟨level, view, hview, hr⟩ := hok
  have hpc : s.reader.pc = .ready := by rw [hreader]; rfl
  refine ⟨⟨level, view, hview.reader _, fun n hn => hview.records n (hsub hn), hr.fresh, hr.walking,
    ?_⟩, hsub, .of_not fun a ha => ?_⟩
  · have hpos := hr.position
    simp only [Skip.Shared.counting, hpc]
    rw [hpc] at hpos
    refine ⟨hpos.ascending, hpos.taken, hpos.endKey, hpos.current, fun n hn hin => ?_⟩
    -- the range of an iterator that has not been placed is empty
    obtain ⟨c, -, hdata, hpositive⟩ := hview.records n (hsub hn)
    have hkey : c.key = n.1 := congrArg Prod.fst hdata
    have hhi : n.1 ≤ SlUint128.zero := by
      have := hin.2
      simp only [hreader] at this
      exact this
    exact absurd (hkey ▸ hpositive) (not_lt.mpr hhi)
  · rw [h.unlocked] at ha
    exact ha

end MemtableAt

/-- A reader that has just been created. -/
theorem Reader.inv_create {known : SlUint128 → Prop} {lsmt : LsmtState} {shared : Skip.Shared}
    {ps : List (SlUint128 × Bytes)} (hm : lsmt.memtable.Ok)
    (hshared : MemtableAt shared lsmt.memtable) (hps : ps ⊆ lsmt.memtable.bottomLevel) :
    (Reader.create lsmt shared).Inv known lsmt ps where
  heldTo := hshared.heldTo hps
  consistent n hn := hm.consistent n ((hshared.records n).mp hn)
  origin n hn := Or.inl ((hshared.records n).mp hn)
  call call hcall := by
    have hnone : shared.writer.call = some call := hcall
    rw [hshared.unlocked] at hnone
    cases hnone
  without hslIt := by
    by_contra hne
    have hsize := hm.wf.size_pos_iff.mpr hne
    have hsome : (lsmtIteratorCreate lsmt).slIt = none := hslIt
    unfold lsmtIteratorCreate at hsome
    simp only [if_pos hsize] at hsome
    cases hsome
  sound a ha := (List.not_mem_nil ha).elim
  place := Or.inl ⟨rfl, rfl, congrArg Skip.Reader.pc hshared.reader.2, rfl⟩

end RaftLsmt.Lsmt
