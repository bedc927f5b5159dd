import RaftLsmt.Lsmt.SharedMemtable

/-!
# Scans of a memtable are not cut short

A scan meets every intermediate shape of the list at its seek. One of them is cut: the new node is
linked into the bottom level before its successor is set, and a seek that ends at it takes the end of
the list for its position. `scan_not_cut` says that the scan returns all records of its range that were
present when the seek began, in every run in which no seek ends so.
-/

set_option autoImplicit false

namespace RaftLsmt.Lsmt.Skip

open RaftLsmt.Lib.SkipLevels
open RaftLsmt.Lib.SortedMerge
open RaftLsmt.Lib.StepMachine

/-- A key of the range of the seek. -/
def Reader.InRange (r : Reader) (key : SlUint128) : Prop := r.startKey ≤ key ∧ key ≤ r.endKey

/-- The scan crashes nowhere and returns records of the memtable in strictly ascending order; when it
has come to its end it has returned every record of the range that was present when the seek began. -/
structure Shared.NotCut (s : Shared) : Prop where
  not_crashed : s.reader.pc ≠ .crashed
  ascending : StrictBy Prod.fst s.reader.returned
  from_memtable : ∀ x ∈ s.reader.returned, ∃ record ∈ s.inserted, x = stored record
  complete : s.reader.pc = .ready → s.reader.active = false → s.reader.bufferedRecord = none →
    ∀ record ∈ s.reader.present, s.reader.InRange record.1 → stored record ∈ s.reader.returned

/-- A seek with a record in its range does not end at a node whose successor is about to be set. -/
def Shared.SeesSuccessor (s : Shared) (a : ScanAction) : Prop :=
  a = .reader → ∀ current, s.reader.pc = .finish current → s.writer.Pending current →
    ∀ record ∈ s.reader.present, ¬ s.reader.InRange record.1

/-- A test that the read is not the last one of a seek at such a node. -/
def Shared.seesNext (s : Shared) : Bool :=
  match s.reader.pc with
  | .finish current => decide (¬ s.writer.Pending current)
  | _ => true

theorem Shared.not_pending_of_seesNext {s : Shared} (h : s.seesNext = true) {current : Nat}
    (hpc : s.reader.pc = .finish current) : ¬ s.writer.Pending current := by
  unfold Shared.seesNext at h
  rw [hpc] at h
  exact of_decide_eq_true h

/-- The test for each step of a run. -/
def ScanAction.sees (s : Shared) : ScanAction → Bool
  | .reader => s.seesNext
  | _ => true

theorem eachStep_of_sees {s : Shared} {as : List ScanAction}
    (h : allSteps Shared.step ScanAction.sees s as = true) :
    EachStep Shared.step Shared.SeesSuccessor s as := by
  refine eachStep_of_allSteps ?_ h
  rintro t a ht rfl current hpc hpending
  exact absurd hpending (Shared.not_pending_of_seesNext ht hpc)

/-! ## The scan keeps its place -/

/-- A cell in front of the range. -/
def Reader.Before (r : Reader) (c : Cell) : Prop := c.key = SlUint128.zero ∨ c.key < r.startKey

/-- The walk is at a cell in front of the range. -/
def Reader.At (r : Reader) (levels : Nat) (level : Nat → List Cell) (a : Nat) : Prop :=
  ∃ i c, i < levels ∧ c ∈ level i ∧ c.addr = a ∧ r.Before c

/-- There is a cell in front of the range behind the one at which the walk is. -/
def Reader.Ahead (r : Reader) (levels : Nat) (level : Nat → List Cell) (a : Nat) : Prop :=
  ∃ i c d, i < levels ∧ c ∈ level i ∧ d ∈ level i ∧ c.addr = a ∧ c.key < d.key ∧
    d.key < r.startKey

/-- What the scan has taken from the list, the buffered record last. -/
def Reader.taken (r : Reader) : List (SlUint128 × Option Bytes) :=
  r.returned ++ r.bufferedRecord.toList

/-- The scan is at the node. -/
def Reader.AtNode (r : Reader) (level : Nat → List Cell) (c : Cell) : Prop :=
  r.active = true ∧ r.currentNode = some c.addr ∧ c ∈ level 0

/-- The seek is over: what is taken ascends, the current node is behind it, and a record of the range
that is not taken is there or behind. -/
structure ReadyOk (inserted : List (SlUint128 × Bytes)) (level : Nat → List Cell) (r : Reader) :
    Prop where
  ascending : StrictBy Prod.fst r.taken
  taken : ∀ x ∈ r.taken, ∃ record ∈ inserted, x = stored record
  endKey : r.active = true → r.itEndKey = r.endKey
  current : ∀ a, r.active = true → r.currentNode = some a → ∃ c ∈ level 0, c.addr = a ∧
    SlUint128.zero < c.key ∧ ∀ x ∈ r.taken, x.1 < c.key
  complete : ∀ record ∈ r.present, r.InRange record.1 →
    stored record ∈ r.taken ∨ ∃ c, r.AtNode level c ∧ c.key ≤ record.1

/-- What the scan knows at each read. -/
def ReaderAt (sl : Skiplist) (inserted : List (SlUint128 × Bytes)) (level : Nat → List Cell)
    (r : Reader) : ReaderPc → Prop
  | .checkMax => True
  | .checkMin => True
  | .top => True
  | .peek a => r.At sl.levels level a
  | .compare a => r.At sl.levels level a ∧ HasNext sl.heap a
  | .move a => r.Ahead sl.levels level a ∧ HasNext sl.heap a
  | .drop a => r.At sl.levels level a
  | .finish a => ∃ c ∈ level 0, c.addr = a ∧ r.Before c
  | .ready => ReadyOk inserted level r
  | .crashed => False

/-- The bounds have been compared. -/
def ReaderPc.Walking : ReaderPc → Prop
  | .checkMax => False
  | .checkMin => False
  | .ready => False
  | .crashed => False
  | _ => True

/-- The scan in a list of the given levels. -/
structure ReaderOk (sl : Skiplist) (inserted : List (SlUint128 × Bytes)) (level : Nat → List Cell)
    (r : Reader) : Prop where
  present : ∀ record ∈ r.present, ∃ c ∈ level 0, data c = stored record ∧ SlUint128.zero < c.key
  fresh : r.pc ≠ .ready → r.returned = [] ∧ r.bufferedRecord = none
  walking : r.pc.Walking → r.active = true ∧ r.itEndKey = r.endKey
  position : ReaderAt sl inserted level r r.pc

/-- The insertion does not move the scan. -/
theorem ReaderAt.grows {s s' : Shared} {level level' : Nat → List Cell} {view : Heap}
    (hview : s.Viewed level view)
    (hgrows : s.Grows level s' level') {r : Reader} {pc : ReaderPc}
    (h : ReaderAt s.sl s.inserted level r pc) : ReaderAt s'.sl s'.inserted level' r pc := by
  have htower := hview.shaped.tower
  have hbottom := hgrows.mem 0 htower.pos
  -- the cell under the scan is still there, and its key is the same
  have hat : ∀ a, r.At s.sl.levels level a → r.At s'.sl.levels level' a := by
    rintro a ⟨i, c, hi, hc, haddr, hbefore⟩
    exact ⟨i, c, Nat.lt_of_lt_of_le hi hgrows.levels_le, hgrows.mem i hi c hc, haddr, hbefore⟩
  have hlt : ∀ i c, i < s.sl.levels → c ∈ level i → c.addr < s.sl.nextAddr :=
    fun i c hi hc => htower.bounded i hi c hc
  cases pc with
  | checkMax => trivial
  | checkMin => trivial
  | top => trivial
  | peek a => exact hat a h
  | drop a => exact hat a h
  -- a successor that was seen does not become null again
  | compare a =>
    obtain ⟨hpos, hnext⟩ := h
    obtain ⟨i, c, hi, hc, rfl, -⟩ := id hpos
    exact ⟨hat _ hpos, hgrows.hasNext _ (hlt i c hi hc) hnext⟩
  | move a =>
    obtain ⟨⟨i, c, d, hi, hc, hd, rfl, hcd, hds⟩, hnext⟩ := h
    exact ⟨⟨i, c, d, Nat.lt_of_lt_of_le hi hgrows.levels_le, hgrows.mem i hi c hc,
      hgrows.mem i hi d hd, rfl, hcd, hds⟩, hgrows.hasNext _ (hlt i c hi hc) hnext⟩
  | finish a =>
    obtain ⟨c, hc, haddr, hbefore⟩ := h
    exact ⟨c, hbottom c hc, haddr, hbefore⟩
  | crashed => exact h
  -- nothing that was taken is taken back
  | ready =>
    refine ⟨h.ascending, ?_, h.endKey, ?_, ?_⟩
    · intro x hx
      obtain ⟨record, hrecord, heq⟩ := h.taken x hx
      exact ⟨record, hgrows.inserted record hrecord, heq⟩
    · intro a hactive hcurrent
      obtain ⟨c, hc, hrest⟩ := h.current a hactive hcurrent
      exact ⟨c, hbottom c hc, hrest⟩
    · intro record hrecord hrange
      refine (h.complete record hrecord hrange).imp_right ?_
      rintro ⟨c, ⟨hactive, hcurrent, hc⟩, hle⟩
      exact ⟨c, ⟨hactive, hcurrent, hbottom c hc⟩, hle⟩

theorem ReaderOk.grows {s s' : Shared} {level level' : Nat → List Cell} {view : Heap}
    (hview : s.Viewed level view)
    (hgrows : s.Grows level s' level') {r : Reader}
    (h : ReaderOk s.sl s.inserted level r) : ReaderOk s'.sl s'.inserted level' r := by
  refine ⟨?_, h.fresh, h.walking, h.position.grows hview hgrows⟩
  intro record hrecord
  obtain ⟨c, hc, hdata⟩ := h.present record hrecord
  exact ⟨c, hgrows.mem 0 hview.shaped.tower.pos c hc, hdata⟩

/-- What is read at a cell: the pointer to the next cell of its level, unless the cell is the last one
or the next pointer is about to be set. -/
theorem Shared.Viewed.read {s : Shared} {level : Nat → List Cell} {view : Heap}
    (h : s.Viewed level view) {i : Nat} (hi : i < s.sl.levels) {c : Cell} (hc : c ∈ level i) :
    ∃ next, s.sl.heap c.addr = some (c.node next) ∧
      (next = none ∧ (s.writer.Pending c.addr ∨ ∀ e ∈ level i, e.key ≤ c.key) ∨
        ∃ d ∈ level i, next = some d.addr ∧ c.key < d.key ∧
          ∀ e ∈ level i, c.key < e.key → d.key ≤ e.key) := by
  have hlt := h.shaped.tower.bounded i hi c hc
  rcases h.shaped.tower.next_spec hi hc with ⟨hnode, hlast⟩ | ⟨d, hd, hnode, hcd, hleast⟩
  · obtain ⟨next, hheap, hnext⟩ := h.node _ _ hnode hlt
    refine ⟨next, hheap, Or.inl ⟨?_, Or.inr hlast⟩⟩
    rcases hnext with hnext | ⟨hnext, -⟩
    · exact hnext
    · exact hnext
  · obtain ⟨next, hheap, hnext | ⟨hnext, hpending⟩⟩ := h.node _ _ hnode hlt
    · exact ⟨next, hheap, Or.inr ⟨d, hd, hnext, hcd, hleast⟩⟩
    · exact ⟨next, hheap, Or.inl ⟨hnext, Or.inl hpending⟩⟩

/-- The insertion does not look at the scan. -/
theorem Shared.Viewed.reader {s : Shared} {level : Nat → List Cell} {view : Heap}
    (h : s.Viewed level view) (r : Reader) :
    ({ s with reader := r } : Shared).Viewed level view :=
  ⟨h.shaped, h.node, h.bounds, h.records, h.inserted, h.writer⟩

/-! ## Reads of the seek -/

section Seek

variable {s : Shared} {level : Nat → List Cell} {view : Heap}

/-- A read of the walk that leaves the rest of the iterator alone. -/
theorem ReaderOk.walk {sl : Skiplist} {inserted : List (SlUint128 × Bytes)} {r : Reader}
    (h : ReaderOk sl inserted level r) (hpc : r.pc.Walking) {pc : ReaderPc} (hne : pc ≠ .ready)
    (hpos : ReaderAt sl inserted level r pc) : ReaderOk sl inserted level { r with pc := pc } where
  present := h.present
  fresh := fun _ => h.fresh fun heq => by
    rw [heq] at hpc
    exact hpc
  walking := fun _ => h.walking hpc
  position := by
    cases pc with
    | ready => exact absurd rfl hne
    | checkMax => exact hpos
    | checkMin => exact hpos
    | top => exact hpos
    | peek a => exact hpos
    | compare a => exact hpos
    | move a => exact hpos
    | drop a => exact hpos
    | finish a => exact hpos
    | crashed => exact hpos

/-- Looking for a next node. -/
theorem Shared.Viewed.peek (hview : s.Viewed level view) {r : Reader} {a : Nat}
    (h : r.At s.sl.levels level a) :
    (s.peekNext a).Walking ∧ ReaderAt s.sl s.inserted level r (s.peekNext a) := by
  obtain ⟨i, c, hi, hc, rfl, hbefore⟩ := id h
  obtain ⟨next, hnode, -⟩ := hview.read hi hc
  unfold Shared.peekNext Shared.readNode
  rw [hnode]
  cases next with
  | none => exact ⟨trivial, h⟩
  | some next => exact ⟨trivial, h, _, next, hnode, rfl⟩

/-- Comparing the key of the next node: it is still there, be it another one by now. -/
theorem Shared.Viewed.compare (hview : s.Viewed level view) {r : Reader} {a : Nat}
    (h : r.At s.sl.levels level a) (hnext : HasNext s.sl.heap a) :
    (s.compareNext r.startKey a).Walking ∧
      ReaderAt s.sl s.inserted level r (s.compareNext r.startKey a) := by
  obtain ⟨i, c, hi, hc, rfl, hbefore⟩ := id h
  obtain ⟨next, hnode, hcase⟩ := hview.read hi hc
  have hsome : next ≠ none := by
    rintro rfl
    obtain ⟨n, next, hn, hnone⟩ := hnext
    rw [hnode] at hn
    cases hn
    cases hnone
  rcases hcase with ⟨hnone, -⟩ | ⟨d, hd, rfl, hcd, -⟩
  · exact absurd hnone hsome
  · obtain ⟨dnext, hdnode, -⟩ := hview.read hi hd
    have hread : s.compareNext r.startKey c.addr =
        if keyCompare d.key r.startKey < 0 then .move c.addr else .drop c.addr := by
      unfold Shared.compareNext Shared.readNode
      simp only [hnode, hdnode, Cell.node]
    rw [hread]
    by_cases hlt : keyCompare d.key r.startKey < 0
    · rw [if_pos hlt]
      exact ⟨trivial, ⟨i, c, d, hi, hc, hd, rfl, hcd, keyCompare_neg_iff.mp hlt⟩, hnext⟩
    · rw [if_neg hlt]
      exact ⟨trivial, h⟩

/-- Moving to the next node, which is not behind the one that was compared. -/
theorem Shared.Viewed.move (hview : s.Viewed level view) {r : Reader} {a : Nat}
    (h : r.Ahead s.sl.levels level a) (hnext : HasNext s.sl.heap a) :
    (s.moveNext a).Walking ∧ ReaderAt s.sl s.inserted level r (s.moveNext a) := by
  obtain ⟨i, c, d, hi, hc, hd, rfl, hcd, hds⟩ := h
  obtain ⟨next, hnode, hcase⟩ := hview.read hi hc
  obtain ⟨n, next', hn, hsome⟩ := hnext
  rw [hnode] at hn
  cases hn
  unfold Shared.moveNext Shared.readNode
  rcases hcase with ⟨rfl, -⟩ | ⟨e, he, rfl, -, hleast⟩
  · cases hsome
  · rw [hnode]
    exact ⟨trivial, i, e, hi, he, rfl, Or.inr (lt_of_le_of_lt (hleast d hd hcd) hds)⟩

/-- Going down a level; the walk ends in the bottom level only. -/
theorem Shared.Viewed.drop (hview : s.Viewed level view) {r : Reader} {a : Nat}
    (h : r.At s.sl.levels level a) :
    (s.dropLevel a).Walking ∧ ReaderAt s.sl s.inserted level r (s.dropLevel a) := by
  obtain ⟨i, c, hi, hc, rfl, hbefore⟩ := h
  obtain ⟨next, hnode, -⟩ := hview.read hi hc
  unfold Shared.dropLevel Shared.readNode
  rw [hnode]
  have htower := hview.shaped.tower
  cases i with
  | zero =>
    simp only [Cell.node, htower.bottom c hc]
    exact ⟨trivial, c, hc, rfl, hbefore⟩
  | succ i =>
    obtain ⟨d, hd, hlower, hkey, -⟩ := htower.down i hi c hc
    simp only [Cell.node, hlower]
    refine ⟨trivial, i, d, Nat.lt_of_succ_lt hi, hd, rfl, ?_⟩
    unfold Reader.Before
    rw [hkey]
    exact hbefore

/-- The end of the walk: the node behind the last one in front of the range, if it can be seen. -/
theorem Shared.Viewed.finish (hview : s.Viewed level view) {r : Reader} {c : Cell}
    (hr : ReaderOk s.sl s.inserted level r) (hpc : r.pc = .finish c.addr) (hc : c ∈ level 0)
    (hbefore : r.Before c) (hsees : s.writer.Pending c.addr →
      ∀ record ∈ r.present, ¬ r.InRange record.1) :
    ∃ next, s.sl.heap c.addr = some (c.node next) ∧
      ReaderOk s.sl s.inserted level { r with currentNode := next, pc := .ready } := by
  obtain ⟨hreturned, hbuffered⟩ := hr.fresh (by rw [hpc]; exact fun h => by cases h)
  obtain ⟨hactive, hend⟩ := hr.walking (by rw [hpc]; trivial)
  -- the link of `c` as it is in the heap, which may lack its write
  obtain ⟨next, hnode, hcase⟩ := hview.read hview.shaped.tower.pos hc
  -- the scan has handed out nothing yet
  have htaken : ∀ x, x ∉ ({ r with currentNode := next, pc := .ready } : Reader).taken := by
    intro x hx
    unfold Reader.taken at hx
    simp only [hreturned, hbuffered] at hx
    cases hx
  have hnil : ({ r with currentNode := next, pc := .ready } : Reader).taken = [] :=
    List.eq_nil_iff_forall_not_mem.mpr htaken
  refine ⟨next, hnode, hr.present, fun hne => absurd rfl hne, fun h => h.elim, ?_, ?_, fun _ => hend,
    ?_, ?_⟩
  · rw [hnil]
    exact List.Pairwise.nil
  · -- nothing to be ascending
    intro x hx
    exact absurd hx (htaken x)
  · rintro a - hcurrent
    rcases hcase with ⟨rfl, -⟩ | ⟨d, hd, rfl, hcd, -⟩
    · cases hcurrent
    · cases hcurrent
      exact ⟨d, hd, rfl, lt_of_le_of_lt (SlUint128.zero_le _) hcd, fun x hx => absurd hx (htaken x)⟩
  · -- every record of the range that was there at the seek is at or behind the next node
    intro record hrecord hrange
    refine Or.inr ?_
    obtain ⟨e, he, hdata, hpos⟩ := hr.present record hrecord
    have hkey : e.key = record.1 := congrArg Prod.fst hdata
    -- the record's cell is behind `c`
    have hce : c.key < e.key := by
      rcases hbefore with hzero | hlt
      · rw [hzero]
        exact hpos
      · rw [hkey]
        exact lt_of_lt_of_le hlt hrange.1
    rcases hcase with ⟨-, hpending | hlast⟩ | ⟨d, hd, rfl, -, hleast⟩
    · -- a pending link hides no record of the range
      exact absurd hrange (hsees hpending record hrecord)
    · exact absurd hce (not_lt.mpr (hlast e he))
    · exact ⟨d, ⟨hactive, rfl, hd⟩, hkey ▸ hleast e he hce⟩

/-- The range lies outside of the bounds. -/
theorem ReaderOk.outside {sl : Skiplist} {inserted : List (SlUint128 × Bytes)} {r : Reader}
    (h : ReaderOk sl inserted level r) (hpc : r.pc ≠ .ready)
    (hnone : ∀ record ∈ r.present, ¬ r.InRange record.1) :
    ReaderOk sl inserted level { r with active := false, pc := .ready } := by
  obtain ⟨hreturned, hbuffered⟩ := h.fresh hpc
  have hnil : ({ r with active := false, pc := .ready } : Reader).taken = [] := by
    unfold Reader.taken
    simp only [hreturned, hbuffered]
    rfl
  refine ⟨h.present, fun hne => absurd rfl hne, fun hwalking => hwalking.elim, ?_, ?_, ?_, ?_, ?_⟩
  · rw [hnil]
    exact List.Pairwise.nil
  · rw [hnil]
    intro x hx
    cases hx
  · intro hactive
    cases hactive
  · intro a hactive
    cases hactive
  · exact fun record hrecord hrange => absurd hrange (hnone record hrecord)

/-- The first node of the walk. -/
theorem Shared.Viewed.at_top (hview : s.Viewed level view) (r : Reader) :
    r.At s.sl.levels level s.sl.topLevel := by
  have hlt : s.sl.levels - 1 < s.sl.levels := Nat.sub_lt hview.shaped.tower.pos Nat.one_pos
  obtain ⟨head, cells, hlevel, hkey⟩ := hview.shaped.tower.sentinel _ hlt
  have htop : first (level (s.sl.levels - 1)) = some s.sl.topLevel := hview.shaped.top
  rw [hlevel] at htop
  exact ⟨_, head, hlt, hlevel ▸ List.mem_cons_self, Option.some.inj htop, Or.inl hkey⟩

/-- Each read of a seek keeps the place. -/
theorem Shared.Viewed.readerStep (hview : s.Viewed level view)
    (hr : ReaderOk s.sl s.inserted level s.reader) (hsees : s.SeesSuccessor .reader) {s' : Shared}
    (hstep : readerStep s = some s') :
    ∃ r, s' = { s with reader := r } ∧ ReaderOk s.sl s.inserted level r := by
  have hpos := hr.position
  -- a read that only moves along the list keeps everything but the place
  have hwalk : ∀ pc, s.reader.pc.Walking → pc.Walking → ReaderAt s.sl s.inserted level s.reader pc →
      ReaderOk s.sl s.inserted level { s.reader with pc := pc } := by
    intro pc hfrom hto hat
    refine hr.walk hfrom ?_ hat
    rintro rfl
    exact hto
  -- what was there at the seek is within the bounds of the list
  have hbound : ∀ record ∈ s.reader.present, s.sl.minKey ≤ record.1 ∧ record.1 ≤ s.sl.maxKey := by
    intro record hrecord
    obtain ⟨c, hc, hdata, hkey⟩ := hr.present record hrecord
    have hsame : c.key = record.1 := congrArg Prod.fst hdata
    rw [← hsame]
    exact hview.bounds c hc hkey
  unfold Skip.readerStep at hstep
  cases hpc : s.reader.pc with
  | checkMax =>
    simp only [hpc] at hstep
    split at hstep
    · -- the list ends in front of the range
      rename_i hlt
      cases hstep
      refine ⟨_, rfl, hr.outside (by rw [hpc]; exact fun h => by cases h) ?_⟩
      intro record hrecord hrange
      exact absurd (lt_of_lt_of_le (keyCompare_neg_iff.mp hlt) hrange.1)
        (not_lt.mpr (hbound record hrecord).2)
    · cases hstep
      refine ⟨_, rfl, hr.present, ?_, fun hwalking => hwalking.elim, trivial⟩
      exact fun _ => hr.fresh (by rw [hpc]; exact fun h => by cases h)
  | checkMin =>
    simp only [hpc] at hstep
    split at hstep
    · rename_i hgt
      cases hstep
      refine ⟨_, rfl, hr.outside (by rw [hpc]; exact fun h => by cases h) ?_⟩
      intro record hrecord hrange
      exact absurd (lt_of_le_of_lt hrange.2 (keyCompare_pos_iff.mp hgt))
        (not_lt.mpr (hbound record hrecord).1)
    · cases hstep
      refine ⟨_, rfl, hr.present, ?_, fun _ => ⟨rfl, rfl⟩, trivial⟩
      exact fun _ => hr.fresh (by rw [hpc]; exact fun h => by cases h)
  | top =>
    simp only [hpc] at hstep
    cases hstep
    exact ⟨_, rfl, hwalk _ (by rw [hpc]; trivial) trivial (hview.at_top s.reader)⟩
  | peek a =>
    rw [hpc] at hpos
    obtain ⟨hwalking, hat⟩ := hview.peek hpos
    simp only [hpc] at hstep
    cases hstep
    exact ⟨_, rfl, hwalk _ (by rw [hpc]; trivial) hwalking hat⟩
  | compare a =>
    rw [hpc] at hpos
    obtain ⟨hwalking, hat⟩ := hview.compare hpos.1 hpos.2
    simp only [hpc] at hstep
    cases hstep
    exact ⟨_, rfl, hwalk _ (by rw [hpc]; trivial) hwalking hat⟩
  | move a =>
    rw [hpc] at hpos
    obtain ⟨hwalking, hat⟩ := hview.move hpos.1 hpos.2
    simp only [hpc] at hstep
    cases hstep
    exact ⟨_, rfl, hwalk _ (by rw [hpc]; trivial) hwalking hat⟩
  | drop a =>
    rw [hpc] at hpos
    obtain ⟨hwalking, hat⟩ := hview.drop hpos
    simp only [hpc] at hstep
    cases hstep
    exact ⟨_, rfl, hwalk _ (by rw [hpc]; trivial) hwalking hat⟩
  | finish a =>
    rw [hpc] at hpos
    obtain ⟨c, hc, rfl, hbefore⟩ := hpos
    obtain ⟨next, hnode, hok⟩ := hview.finish hr hpc hc hbefore (hsees rfl c.addr hpc)
    simp only [hpc, hnode] at hstep
    cases hstep
    exact ⟨_, rfl, hok⟩
  | ready =>
    simp only [hpc] at hstep
    cases hstep
  | crashed =>
    rw [hpc] at hpos
    exact hpos.elim

end Seek

/-! ## Runs -/

section Buffer

variable {s : Shared} {level : Nat → List Cell} {r : Reader}

/-- The scan comes to its end. -/
theorem ReadyOk.stop {inserted : List (SlUint128 × Bytes)} (h : ReadyOk inserted level r)
    (hall : ∀ c, r.AtNode level c → r.endKey < c.key) :
    ReadyOk inserted level { r with active := false } where
  ascending := h.ascending
  taken := h.taken
  endKey := fun hactive => by cases hactive
  current := fun _ hactive => by cases hactive
  complete := by
    intro record hrecord hrange
    rcases h.complete record hrecord hrange with htaken | ⟨c, hc, hle⟩
    · exact Or.inl htaken
    · exact absurd (le_trans hle hrange.2) (not_le.mpr (hall c hc))

/-- The current node is the only one the scan is at. -/
theorem Reader.AtNode.eq {view : Heap} (hview : s.Viewed level view) {c d : Cell}
    (hc : r.AtNode level c) (hd : r.AtNode level d) : c = d := by
  obtain ⟨-, hcurrent, hmem⟩ := hc
  obtain ⟨-, hcurrent', hmem'⟩ := hd
  rw [hcurrent] at hcurrent'
  exact hview.shaped.tower.cell_eq hview.shaped.tower.pos hmem hmem' (Option.some.inj hcurrent')

/-- The record of the current node goes into the buffer, and the scan on to the next node, while no
insertion is at work. -/
theorem ReadyOk.take {view : Heap} (hview : s.Viewed level view) (hunlocked : s.writer = .unlocked)
    (hpresent : ∀ record ∈ r.present, ∃ c ∈ level 0, data c = stored record ∧
      SlUint128.zero < c.key)
    (h : ReadyOk s.inserted level r) (hempty : r.bufferedRecord = none) {c : Cell}
    (hc : r.AtNode level c) (hzero : SlUint128.zero < c.key) (hbehind : ∀ x ∈ r.taken, x.1 < c.key) :
    ∃ next, s.sl.heap c.addr = some (c.node next) ∧
      ReadyOk s.inserted level { r with bufferedRecord := some (data c), currentNode := next } := by
  obtain ⟨hactive, -, hmem⟩ := id hc
  have htower := hview.shaped.tower
  -- no write is due, so the link in the heap is that of the level
  obtain ⟨next, hnode, hcase⟩ := hview.read htower.pos hmem
  -- the buffered record counts as taken
  have htaken : ({ r with bufferedRecord := some (data c), currentNode := next } : Reader).taken =
      r.taken ++ [data c] := by
    unfold Reader.taken
    rw [hempty, Option.toList_none, List.append_nil]
    rfl
  have hupto : ∀ key, c.key < key → ∀ x ∈ r.taken ++ [data c], x.1 < key := by
    intro key hkey x hx
    rcases List.mem_append.mp hx with hx | hx
    · exact lt_trans (hbehind x hx) hkey
    · rw [List.mem_singleton.mp hx]
      exact hkey
  refine ⟨next, hnode, ?_, ?_, h.endKey, ?_, ?_⟩
  · -- the keys ascend, for all taken so far are in front of the current node
    rw [htaken]
    refine List.pairwise_append.mpr ⟨h.ascending, List.pairwise_singleton _ _, ?_⟩
    intro x hx y hy
    rw [List.mem_singleton.mp hy]
    exact hbehind x hx
  · rw [htaken]
    intro x hx
    rcases List.mem_append.mp hx with hx | hx
    · exact h.taken x hx
    · rw [List.mem_singleton.mp hx]
      exact hview.inserted c hmem hzero
  · rw [htaken]
    rintro b - hb
    rcases hcase with ⟨rfl, -⟩ | ⟨d, hd, rfl, hcd, -⟩
    · cases hb
    · cases hb
      exact ⟨d, hd, rfl, lt_trans hzero hcd, hupto d.key hcd⟩
  · rw [htaken]
    intro record hrecord hrange
    rcases h.complete record hrecord hrange with htaken | ⟨d, hd, hle⟩
    · exact Or.inl (List.mem_append_left _ htaken)
    · rw [hd.eq hview hc] at hle
      obtain ⟨e, he, hdata, -⟩ := hpresent record hrecord
      have hkey : e.key = record.1 := congrArg Prod.fst hdata
      rw [← hkey] at hle ⊢
      -- the record is behind the current node, or it is the one that is taken
      rcases lt_or_eq_of_le hle with hlt | heq
      · refine Or.inr ?_
        rcases hcase with ⟨-, hpending | hlast⟩ | ⟨f, hf, rfl, -, hleast⟩
        · rw [hunlocked] at hpending
          exact hpending.elim
        · exact absurd hlt (not_lt.mpr (hlast e he))
        · exact ⟨f, ⟨hactive, rfl, hf⟩, hleast e he hlt⟩
      · have hce : c = e :=
          List.inj_on_of_nodup_map (htower.strict 0 htower.pos).nodup_keys hmem he heq
        rw [← hdata, ← hce]
        exact Or.inl (List.mem_append_right _ (List.mem_singleton_self _))

/-- `wr_sl_ensure_buffered`, while no insertion is at work. -/
theorem ReadyOk.ensureBuffered {view : Heap} (hview : s.Viewed level view)
    (hunlocked : s.writer = .unlocked) (hpresent : ∀ record ∈ r.present, ∃ c ∈ level 0,
      data c = stored record ∧ SlUint128.zero < c.key)
    (h : ReadyOk s.inserted level r) :
    (ensureBuffered s.sl.heap r).pc = r.pc ∧ (ensureBuffered s.sl.heap r).present = r.present ∧
      ReadyOk s.inserted level (ensureBuffered s.sl.heap r) := by
  -- a record is buffered already, or the scan is over
  by_cases hskip : r.active = false ∨ r.bufferedRecord.isSome
  · have heq : Skip.ensureBuffered s.sl.heap r = r := if_pos hskip
    rw [heq]
    exact ⟨rfl, rfl, h⟩
  · obtain ⟨hinactive, hfull⟩ := not_or.mp hskip
    have hactive : r.active = true := Bool.eq_true_of_not_eq_false hinactive
    have hempty : r.bufferedRecord = none := Option.not_isSome_iff_eq_none.mp hfull
    cases hcurrent : r.currentNode with
    | none =>
      have heq : Skip.ensureBuffered s.sl.heap r = { r with active := false } := by
        unfold Skip.ensureBuffered
        rw [if_neg hskip, hcurrent]
      rw [heq]
      refine ⟨rfl, rfl, h.stop ?_⟩
      rintro c ⟨-, hc, -⟩
      rw [hcurrent] at hc
      cases hc
    | some a =>
      obtain ⟨c, hmem, rfl, hzero, hbehind⟩ := h.current a hactive hcurrent
      have hc : r.AtNode level c := ⟨hactive, hcurrent, hmem⟩
      obtain ⟨next, hnode, hready⟩ := h.take hview hunlocked hpresent hempty hc hzero hbehind
      -- behind the end of the range the scan stops
      by_cases hgt : keyCompare c.key r.itEndKey > 0
      · have heq : Skip.ensureBuffered s.sl.heap r = { r with active := false } := by
          unfold Skip.ensureBuffered
          rw [if_neg hskip, hcurrent]
          simp only [hnode]
          exact if_pos hgt
        rw [heq]
        refine ⟨rfl, rfl, h.stop ?_⟩
        intro d hd
        rw [hd.eq hview hc, ← h.endKey hactive]
        exact keyCompare_pos_iff.mp hgt
      · have heq : Skip.ensureBuffered s.sl.heap r =
            { r with bufferedRecord := some (data c), currentNode := next } := by
          unfold Skip.ensureBuffered
          rw [if_neg hskip, hcurrent]
          simp only [hnode]
          exact if_neg hgt
        rw [heq]
        exact ⟨rfl, rfl, hready⟩

end Buffer

/-- Some levels lie behind the list and the scan keeps its place in them. -/
def Shared.Ok (s : Shared) : Prop :=
  ∃ level view, s.Viewed level view ∧ ReaderOk s.sl s.inserted level s.reader

/-- The start of a seek. -/
theorem Shared.Ok.seek {s s' : Shared} (h : s.Ok) {startKey endKey : SlUint128}
    (hstep : seekStep s startKey endKey = some s') : s'.Ok := by
  obtain ⟨level, view, hview, hr⟩ := h
  unfold seekStep at hstep
  cases hpc : s.reader.pc with
  | ready =>
    simp only [hpc] at hstep
    cases hstep
    exact ⟨level, view, hview.reader _, hview.records, fun _ => ⟨rfl, rfl⟩,
      fun hwalking => hwalking.elim, trivial⟩
  | _ =>
    simp only [hpc] at hstep
    cases hstep

/-- The start of an insertion. -/
theorem Shared.Ok.insert {s s' : Shared} (h : s.Ok) {call : SlCall}
    (hstep : insertStep s call = some s') : s'.Ok := by
  obtain ⟨level, view, hview, hr⟩ := h
  unfold insertStep at hstep
  cases hpc : s.writer with
  | unlocked =>
    simp only [hpc] at hstep
    have hwriter := hview.writer
    rw [hpc] at hwriter
    obtain rfl : view = s.sl.heap := hwriter
    split at hstep
    · cases hstep
      exact ⟨level, _, hview, hr⟩
    · rename_i hid
      cases hstep
      exact ⟨level, s.sl.heap, .of_heap hview.shaped hview.bounds hview.records hview.inserted
        ⟨rfl, SlUint128.zero_lt_of_id_ne_zero hid⟩, hr⟩
  | _ =>
    simp only [hpc] at hstep
    cases hstep

/-- A call of `lsmt_iterator_next`. -/
theorem Shared.Ok.next {s s' : Shared} (h : s.Ok) {takes : Bool}
    (hstep : nextStep s takes = some s') : s'.Ok := by
  obtain ⟨level, view, hview, hr⟩ := h
  unfold nextStep at hstep
  split at hstep
  · rename_i hpc hunlocked
    have hwriter := hview.writer
    rw [hunlocked] at hwriter
    obtain rfl : view = s.sl.heap := hwriter
    have hpos := hr.position
    rw [hpc] at hpos
    obtain ⟨hpc', hpresent, hready⟩ := hpos.ensureBuffered hview hunlocked hr.present
    rw [hpc] at hpc'
    have hok : ∀ r : Reader, r.pc = .ready → r.present = s.reader.present →
        ReadyOk s.inserted level r → ReaderOk s.sl s.inserted level r := by
      intro r hrpc hrpresent hrok
      refine ⟨hrpresent ▸ hr.present, fun hne => absurd hrpc hne, ?_, ?_⟩
      · rw [hrpc]
        exact fun hwalking => hwalking.elim
      · rw [hrpc]
        exact hrok
    split at hstep
    · cases hstep
      refine ⟨level, _, hview.reader _, hok _ hpc' hpresent ?_⟩
      have htaken : ({ ensureBuffered s.sl.heap s.reader with
          bufferedRecord := none
          returned := (ensureBuffered s.sl.heap s.reader).returned ++
            (ensureBuffered s.sl.heap s.reader).bufferedRecord.toList } : Reader).taken =
          (ensureBuffered s.sl.heap s.reader).taken := List.append_nil _
      exact ⟨htaken ▸ hready.ascending, htaken ▸ hready.taken, hready.endKey,
        htaken ▸ hready.current, htaken ▸ hready.complete⟩
    · cases hstep
      exact ⟨level, _, hview.reader _, hok _ hpc' hpresent hready⟩
  · cases hstep

/-- One step of one thread. -/
theorem Shared.Ok.step {s s' : Shared} {a : ScanAction} (h : s.Ok) (hsees : s.SeesSuccessor a)
    (hstep : s.step a = some s') : s'.Ok := by
  cases a with
  | insert call => exact h.insert hstep
  | seek startKey endKey => exact h.seek hstep
  | next takes => exact h.next hstep
  | writer =>
    obtain ⟨level, view, hview, hr⟩ := h
    obtain ⟨level', view', hview', hgrows⟩ := hview.writerStep hstep
    refine ⟨level', view', hview', ?_⟩
    rw [hgrows.reader_eq]
    exact hr.grows hview hgrows
  | reader =>
    obtain ⟨level, view, hview, hr⟩ := h
    obtain ⟨r, rfl, hok⟩ := hview.readerStep hr hsees hstep
    exact ⟨level, view, hview.reader r, hok⟩

theorem Shared.ok_init : Shared.init.Ok := by
  have hshaped := (represents_slInit 0).shaped
  refine ⟨_, _, .of_heap hshaped ?_ ?_ ?_ rfl, ?_⟩
  · intro c hc hpos
    rw [List.mem_singleton.mp hc] at hpos
    exact absurd hpos (lt_irrefl _)
  · intro record hrecord
    cases hrecord
  · intro c hc hpos
    rw [List.mem_singleton.mp hc] at hpos
    exact absurd hpos (lt_irrefl _)
  · refine ⟨?_, fun hne => absurd rfl hne, fun hwalking => hwalking.elim, ?_, ?_, ?_, ?_, ?_⟩
    · intro record hrecord
      cases hrecord
    · exact List.Pairwise.nil
    · intro x hx
      cases hx
    · intro hactive
      cases hactive
    · intro a hactive
      cases hactive
    · intro record hrecord
      cases hrecord

theorem Shared.Ok.notCut {s : Shared} (h : s.Ok) : s.NotCut := by
  obtain ⟨level, view, hview, hr⟩ := h
  have hpos := hr.position
  by_cases hpc : s.reader.pc = .ready
  · rw [hpc] at hpos
    have hsub : s.reader.returned.Sublist s.reader.taken := List.sublist_append_left _ _
    refine ⟨?_, hpos.ascending.sublist hsub, fun x hx => hpos.taken x (hsub.subset hx), ?_⟩
    · rw [hpc]
      exact fun h => by cases h
    · intro _ hinactive hnone record hrecord hrange
      rcases hpos.complete record hrecord hrange with htaken | ⟨c, ⟨hactive, -, -⟩, -⟩
      · unfold Reader.taken at htaken
        rw [hnone] at htaken
        simpa using htaken
      · rw [hinactive] at hactive
        cases hactive
  · obtain ⟨hreturned, -⟩ := hr.fresh hpc
    refine ⟨?_, ?_, ?_, fun hready => absurd hready hpc⟩
    · intro hcrashed
      rw [hcrashed] at hpos
      exact hpos
    · rw [hreturned]
      exact List.Pairwise.nil
    · rw [hreturned]
      intro x hx
      cases hx

/-- In every run of insertions and a scan, write by write and read by read, in which no seek ends at a
node whose successor is about to be set, the scan is not cut short. -/
theorem scan_not_cut (as : List ScanAction)
    (hsees : EachStep Shared.step Shared.SeesSuccessor Shared.init as) :
    Always Shared.step Shared.NotCut Shared.init as := by
  have hok : Always Shared.step Shared.Ok Shared.init as :=
    always_of_eachStep Shared.ok_init fun pre a post t has ht t' hI ht' =>
      hI.step (hsees pre a post t has ht) ht'
  exact fun pre post t has ht => (hok pre post t has ht).notCut

/-- While a record in front of the range is linked, the scan makes its seek: some reads before the last
writes of the insertion, and the others behind them. -/
def scanNextToInsert (early late : Nat) : List ScanAction :=
  List.flatten
    [[.insert ⟨⟨20, 0⟩, [1], []⟩], List.replicate 7 .writer, [.insert ⟨⟨10, 0⟩, [1], []⟩],
      List.replicate 4 .writer, [.seek ⟨15, 0⟩ ⟨30, 0⟩], List.replicate early .reader,
      List.replicate 3 .writer, List.replicate late .reader, [.next true, .next true]]

/-- Only the last read of the seek comes behind the write it depends on. -/
theorem scan_not_cut_one :
    (run Shared.step Shared.init (scanNextToInsert 8 1)).map
        (fun t => (t.reader.active, t.reader.returned)) = some (false, [(⟨20, 0⟩, some [1])]) ∧
      Always Shared.step Shared.NotCut Shared.init (scanNextToInsert 8 1) := by
  refine ⟨by decide +kernel, scan_not_cut _ (eachStep_of_sees ?_)⟩
  decide +kernel

/-- With all reads in front of that write the seek ends at the new node. -/
theorem not_scan_not_cut : ¬ ∀ as, Always Shared.step Shared.NotCut Shared.init as := by
  intro h
  cases hrun : run Shared.step Shared.init (scanNextToInsert 9 0) with
  | none =>
    have hsome : (run Shared.step Shared.init (scanNextToInsert 9 0)).isSome = true := by decide +kernel
    rw [hrun] at hsome
    cases hsome
  | some t =>
    have hend : (run Shared.step Shared.init (scanNextToInsert 9 0)).map (fun t => t.reader) = some
      { pc := .ready
        active := false
        startKey := ⟨15, 0⟩
        endKey := ⟨30, 0⟩
        itEndKey := ⟨30, 0⟩
        currentNode := none
        bufferedRecord := none
        returned := []
        present := [(⟨20, 0⟩, [1]), (⟨10, 0⟩, [1])] } := by decide +kernel
    rw [hrun] at hend
    have hreader := Option.some.inj hend
    have hcut := (h (scanNextToInsert 9 0) _ [] t (List.append_nil _).symm hrun).complete
    dsimp only at hreader
    rw [hreader] at hcut
    have hmem := hcut rfl rfl rfl (⟨20, 0⟩, [1]) List.mem_cons_self
      (by constructor <;> decide)
    cases hmem

end RaftLsmt.Lsmt.Skip
