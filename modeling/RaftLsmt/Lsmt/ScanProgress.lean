import RaftLsmt.Lsmt.ConcurrentScan

/-!
# A scan comes to its end

When no further insertion begins, the one at work ends with its last write (`Shared.Ok.unlocks`) and the
walk of a seek ends in the bottom level (`Shared.Ok.walkEnds`): it moves along a level as long as there
are cells ahead, and goes down to the next level otherwise. The calls of `lsmt_iterator_next` return no
more records than there are.

A scan may be held to other records than those that were there when its seek began: `Shared.HeldTo` is
the invariant for a given list of them, and says all but what was missed when the list is empty.
-/

set_option autoImplicit false

namespace RaftLsmt.Lsmt.Skip

open RaftLsmt.Lib.SkipLevels
open RaftLsmt.Lib.StepMachine

/-! ## The insertion ends -/

/-- The writes that are left at most. -/
def WriterPc.left : WriterPc → Nat
  | .unlocked => 0
  | .minKey call => call.flips.length + 7
  | .maxKey call => call.flips.length + 6
  | .searching call => call.flips.length + 5
  | .linking call _ _ _ _ => call.flips.length + 4
  | .completing call _ _ _ => call.flips.length + 3
  | .promoting _ _ _ _ flips => flips.length + 2
  | .sizing _ => 1
  | .crashed => 0

theorem Shared.write_writer (s : Shared) (sl : Option Skiplist) (writer : WriterPc) :
    (s.write sl writer).writer = .crashed ∨ (s.write sl writer).writer = writer := by
  cases sl with
  | none => exact Or.inl rfl
  | some sl => exact Or.inr rfl

theorem Shared.Ok.not_crashed {s : Shared} (h : s.Ok) : s.writer ≠ .crashed := by
  obtain ⟨level, view, hview, -⟩ := h
  intro hcrashed
  have hwriter := hview.writer
  rw [hcrashed] at hwriter
  exact hwriter

theorem Shared.Ok.writerStep {s s' : Shared} (h : s.Ok) (hstep : Skip.writerStep s = some s') :
    s'.Ok :=
  Shared.Ok.step (a := .writer) h (fun heq => by cases heq) hstep

/-- Some reads lead to the end of the seek. -/
def WalkEnds (s : Shared) : Prop :=
  ∃ n s', run Shared.step s (List.replicate n .reader) = some s' ∧ s'.reader.pc = .ready

theorem WalkEnds.of_ready {s : Shared} (h : s.reader.pc = .ready) : WalkEnds s := ⟨0, s, rfl, h⟩

theorem WalkEnds.cons {s t : Shared} (h : readerStep s = some t) (ht : WalkEnds t) : WalkEnds s := by
  obtain ⟨n, s', hrun, hs'⟩ := ht
  exact ⟨n + 1, s', run_cons_eq_some.mpr ⟨t, h, hrun⟩, hs'⟩

/-- The number of cells behind `c`. -/
def ahead (cells : List Cell) (c : Cell) : Nat := (cells.filter fun e => c.key < e.key).length

theorem ahead_lt {cells : List Cell} {c d : Cell} (hd : d ∈ cells) (hcd : c.key < d.key) :
    ahead cells d < ahead cells c := by
  have hsame : ahead cells d =
      (cells.filter fun e => c.key < e.key).countP fun e => decide (d.key < e.key) := by
    unfold ahead
    rw [List.countP_filter, ← List.countP_eq_length_filter]
    apply List.countP_congr
    intro e _
    simp only [decide_eq_true_eq, Bool.and_eq_true]
    exact ⟨fun h => ⟨h, lt_trans hcd h⟩, And.left⟩
  rw [hsame]
  unfold ahead
  rw [List.countP_lt_length_iff]
  exact ⟨d, List.mem_filter.mpr ⟨hd, decide_eq_true hcd⟩, by simp⟩

section Walk

variable {s : Shared} {level : Nat → List Cell} {view : Heap}

/-- What is read at a cell, whether or not an insertion is at work. -/
theorem Shared.Viewed.next_cases (hview : s.Viewed level view) {i : Nat} (hi : i < s.sl.levels)
    {c : Cell} (hc : c ∈ level i) :
    s.sl.heap c.addr = some (c.node none) ∨
      ∃ d ∈ level i, s.sl.heap c.addr = some (c.node (some d.addr)) ∧ c.key < d.key := by
  obtain ⟨next, hnode, ⟨rfl, -⟩ | ⟨d, hd, rfl, hcd, -⟩⟩ := hview.read hi hc
  · exact Or.inl hnode
  · exact Or.inr ⟨d, hd, hnode, hcd⟩

/-- A read of the walk at a cell. -/
theorem walkEnds_of (r : Reader) {pc : ReaderPc} (next : ReaderPc)
    (hstep : readerStep { s with reader := { r with pc := pc } } =
      some { s with reader := { r with pc := next } })
    (h : WalkEnds { s with reader := { r with pc := next } }) :
    WalkEnds { s with reader := { r with pc := pc } } :=
  .cons hstep h

/-- The last read. -/
theorem walkEnds_finish {c : Cell} {next : Option Nat} (hnode : s.sl.heap c.addr = some (c.node next))
    (r : Reader) : WalkEnds { s with reader := { r with pc := .finish c.addr } } := by
  refine .cons (t := { s with reader := { r with currentNode := next, pc := .ready } }) ?_
    (.of_ready rfl)
  unfold readerStep
  simp only [hnode]
  rfl

/-- The move to the next cell. -/
theorem walkEnds_move {c d : Cell} (hnode : s.sl.heap c.addr = some (c.node (some d.addr))) (r : Reader)
    (hpeek : WalkEnds { s with reader := { r with pc := .peek d.addr } }) :
    WalkEnds { s with reader := { r with pc := .move c.addr } } := by
  have hmove : s.moveNext c.addr = .peek d.addr := by
    simp only [Shared.moveNext, Shared.readNode, hnode, Cell.node]
  refine walkEnds_of r (s.moveNext c.addr) rfl ?_
  rw [hmove]
  exact hpeek

/-- The comparison of the next cell, behind which the walk moves or goes down. -/
theorem walkEnds_compare (hview : s.Viewed level view) {i : Nat} (hi : i < s.sl.levels) {c d : Cell}
    (hd : d ∈ level i) (hnode : s.sl.heap c.addr = some (c.node (some d.addr))) (r : Reader)
    (hdrop : WalkEnds { s with reader := { r with pc := .drop c.addr } })
    (hpeek : WalkEnds { s with reader := { r with pc := .peek d.addr } }) :
    WalkEnds { s with reader := { r with pc := .compare c.addr } } := by
  obtain ⟨next, hdnode, -⟩ := hview.read hi hd
  have hcompare : s.compareNext r.startKey c.addr =
      if keyCompare d.key r.startKey < 0 then .move c.addr else .drop c.addr := by
    simp only [Shared.compareNext, Shared.readNode, hnode, hdnode, Cell.node]
  refine walkEnds_of r (s.compareNext r.startKey c.addr) rfl ?_
  rw [hcompare]
  split
  · exact walkEnds_move hnode r hpeek
  · exact hdrop

/-- Along a level, when the walk ends from below each of its cells: the induction is on the number of
cells ahead. -/
theorem walkEnds_along (hview : s.Viewed level view) {i : Nat} (hi : i < s.sl.levels)
    (hdrop : ∀ c ∈ level i, ∀ r : Reader, WalkEnds { s with reader := { r with pc := .drop c.addr } })
    {c : Cell} (hc : c ∈ level i) (r : Reader) :
    WalkEnds { s with reader := { r with pc := .peek c.addr } } := by
  induction hn : ahead (level i) c using Nat.strong_induction_on generalizing c with
  | _ n ih =>
    rcases hview.next_cases hi hc with hnode | ⟨d, hd, hnode, hcd⟩
    · -- the last cell of the level
      have hpeek : s.peekNext c.addr = .drop c.addr := by
        simp only [Shared.peekNext, Shared.readNode, hnode, Cell.node]
      refine walkEnds_of r (s.peekNext c.addr) rfl ?_
      rw [hpeek]
      exact hdrop c hc r
    · have hpeek : s.peekNext c.addr = .compare c.addr := by
        simp only [Shared.peekNext, Shared.readNode, hnode, Cell.node]
      refine walkEnds_of r (s.peekNext c.addr) rfl ?_
      rw [hpeek]
      exact walkEnds_compare hview hi hd hnode r (hdrop c hc r) (ih _ (hn ▸ ahead_lt hd hcd) hd rfl)

/-- Down from any cell: the induction is on the level. -/
theorem walkEnds_drop (hview : s.Viewed level view) {i : Nat} (hi : i < s.sl.levels) :
    ∀ c ∈ level i, ∀ r : Reader, WalkEnds { s with reader := { r with pc := .drop c.addr } } := by
  have htower := hview.shaped.tower
  induction i with
  | zero =>
    intro c hc r
    obtain ⟨next, hnode, -⟩ := hview.read hi hc
    have hdrop : s.dropLevel c.addr = .finish c.addr := by
      simp only [Shared.dropLevel, Shared.readNode, hnode, Cell.node, htower.bottom c hc]
    refine walkEnds_of r (s.dropLevel c.addr) rfl ?_
    rw [hdrop]
    exact walkEnds_finish hnode r
  | succ i ih =>
    intro c hc r
    obtain ⟨next, hnode, -⟩ := hview.read hi hc
    obtain ⟨d, hd, hlower, -, -⟩ := htower.down i hi c hc
    have hdrop : s.dropLevel c.addr = .peek d.addr := by
      simp only [Shared.dropLevel, Shared.readNode, hnode, Cell.node, hlower]
    refine walkEnds_of r (s.dropLevel c.addr) rfl ?_
    rw [hdrop]
    exact walkEnds_along hview (Nat.lt_of_succ_lt hi) (ih (Nat.lt_of_succ_lt hi)) hd r

/-- The walk ends from wherever it is. -/
theorem ReaderAt.walkEnds (hview : s.Viewed level view) {r : Reader} {pc : ReaderPc}
    (hwalking : pc.Walking) (h : ReaderAt s.sl s.inserted level r pc) :
    WalkEnds { s with reader := { r with pc := pc } } := by
  have hpeek : ∀ i c, i < s.sl.levels → c ∈ level i →
      WalkEnds { s with reader := { r with pc := .peek c.addr } } :=
    fun i c hi hc => walkEnds_along hview hi (walkEnds_drop hview hi) hc r
  -- the cell behind a pointer that is not null
  have hnext : ∀ i c, i < s.sl.levels → c ∈ level i → HasNext s.sl.heap c.addr →
      ∃ d ∈ level i, s.sl.heap c.addr = some (c.node (some d.addr)) := by
    intro i c hi hc ⟨n, next, hn, hsome⟩
    rcases hview.next_cases hi hc with hnode | ⟨d, hd, hnode, -⟩
    · rw [hnode] at hn
      cases hn
      cases hsome
    · exact ⟨d, hd, hnode⟩
  cases pc with
  | top =>
    obtain ⟨i, c, hi, hc, haddr, -⟩ := hview.at_top r
    refine walkEnds_of r (.peek s.sl.topLevel) rfl ?_
    rw [← haddr]
    exact hpeek i c hi hc
  | peek a =>
    obtain ⟨i, c, hi, hc, rfl, -⟩ := h
    exact hpeek i c hi hc
  | drop a =>
    obtain ⟨i, c, hi, hc, rfl, -⟩ := h
    exact walkEnds_drop hview hi c hc r
  | compare a =>
    obtain ⟨⟨i, c, hi, hc, rfl, -⟩, hsome⟩ := h
    obtain ⟨d, hd, hnode⟩ := hnext i c hi hc hsome
    exact walkEnds_compare hview hi hd hnode r (walkEnds_drop hview hi c hc r) (hpeek i d hi hd)
  | move a =>
    obtain ⟨⟨i, c, -, hi, hc, -, rfl, -, -⟩, hsome⟩ := h
    obtain ⟨d, hd, hnode⟩ := hnext i c hi hc hsome
    exact walkEnds_move hnode r (hpeek i d hi hd)
  | finish a =>
    obtain ⟨c, hc, rfl, -⟩ := h
    obtain ⟨next, hnode, -⟩ := hview.read hview.shaped.tower.pos hc
    exact walkEnds_finish hnode r
  | checkMax => cases hwalking
  | checkMin => cases hwalking
  | ready => cases hwalking
  | crashed => cases hwalking

end Walk

/-- A seek that has begun comes to its end. -/
theorem Shared.Ok.walkEnds {s : Shared} (h : s.Ok) : WalkEnds s := by
  obtain ⟨level, view, hview, hr⟩ := h
  have hpos := hr.position
  have htop : ∀ r : Reader, WalkEnds { s with reader := { r with pc := .top } } :=
    fun r => @ReaderAt.walkEnds s level view hview r .top trivial trivial
  have hcheckMin : ∀ r : Reader, r.pc = .checkMin → WalkEnds { s with reader := r } := by
    intro r hpc
    by_cases hgt : keyCompare s.sl.minKey r.endKey > 0
    · refine .cons (t := { s with reader := { r with active := false, pc := .ready } }) ?_
        (.of_ready rfl)
      simp only [readerStep, hpc, if_pos hgt]
    · refine .cons (t := { s with reader :=
        { r with itEndKey := r.endKey, active := true, pc := .top } }) ?_
        (htop { r with itEndKey := r.endKey, active := true })
      simp only [readerStep, hpc, if_neg hgt]
  by_cases hwalking : s.reader.pc.Walking
  · exact hpos.walkEnds hview hwalking
  · cases hpc : s.reader.pc with
    | ready => exact .of_ready hpc
    | crashed =>
      rw [hpc] at hpos
      exact hpos.elim
    | checkMin => exact hcheckMin s.reader hpc
    | checkMax =>
      by_cases hlt : keyCompare s.sl.maxKey s.reader.startKey < 0
      · refine .cons (t := { s with reader := { s.reader with active := false, pc := .ready } }) ?_
          (.of_ready rfl)
        simp only [readerStep, hpc, if_pos hlt]
      · refine .cons (t := { s with reader := { s.reader with pc := .checkMin } }) ?_
          (hcheckMin _ rfl)
        simp only [readerStep, hpc, if_neg hlt]
    | _ =>
      rw [hpc] at hwalking
      exact absurd trivial hwalking

/-! ## What a step leaves alone -/

/-- The insertion at work. -/
def WriterPc.call : WriterPc → Option SlCall
  | .unlocked => none
  | .minKey call => some call
  | .maxKey call => some call
  | .searching call => some call
  | .linking call _ _ _ _ => some call
  | .completing call _ _ _ => some call
  | .promoting call _ _ _ _ => some call
  | .sizing call => some call
  | .crashed => none

theorem insertStep_frame {s s' : Shared} {call : SlCall} (hstep : insertStep s call = some s') :
    s'.sl = s.sl ∧ s'.reader = s.reader ∧ s'.inserted = s.inserted ∧
      (s'.writer = s.writer ∨ s'.writer = .minKey call) := by
  unfold insertStep at hstep
  cases hpc : s.writer with
  | unlocked =>
    simp only [hpc] at hstep
    split at hstep
    · cases hstep
      exact ⟨rfl, rfl, rfl, Or.inl hpc⟩
    · cases hstep
      exact ⟨rfl, rfl, rfl, Or.inr rfl⟩
  | _ =>
    simp only [hpc] at hstep
    cases hstep

/-- What a write of an insertion may change. -/
structure WriterFrame (s s' : Shared) : Prop where
  reader : s'.reader = s.reader
  call : ∀ call, s'.writer.call = some call → s.writer.call = some call
  inserted : s'.inserted = s.inserted ∨
    ∃ call, s.writer.call = some call ∧ s'.inserted = s.inserted ++ [(call.key, call.content)]

theorem WriterFrame.write {s : Shared} {call : SlCall} (hcall : s.writer.call = some call)
    (sl : Option Skiplist) (writer : WriterPc) (hwriter : writer.call = some call) :
    WriterFrame s (s.write sl writer) := by
  cases sl with
  | none => exact ⟨rfl, (fun _ h => by cases h), Or.inl rfl⟩
  | some sl => exact ⟨rfl, fun _ h => hcall.trans (hwriter.symm.trans h), Or.inl rfl⟩

theorem writerStep_frame {s s' : Shared} (hstep : writerStep s = some s') : WriterFrame s s' := by
  -- a state in which the insertion goes on with the same call, has ended or has crashed
  have hsame : ∀ (sl : Skiplist) (writer : WriterPc),
      (∀ call, writer.call = some call → s.writer.call = some call) →
      WriterFrame s { s with sl := sl, writer := writer } :=
    fun sl writer h => ⟨rfl, h, Or.inl rfl⟩
  unfold writerStep at hstep
  cases hpc : s.writer with
  | unlocked =>
    simp only [hpc] at hstep
    cases hstep
  | crashed =>
    simp only [hpc] at hstep
    cases hstep
  | minKey call =>
    simp only [hpc] at hstep
    cases hstep
    exact hsame _ _ fun _ h => by rwa [hpc]
  | maxKey call =>
    simp only [hpc] at hstep
    cases hstep
    exact hsame _ _ fun _ h => by rwa [hpc]
  | searching call =>
    simp only [hpc] at hstep
    split at hstep
    · cases hstep
      exact hsame s.sl .crashed fun _ h => by cases h
    · cases hstep
      exact hsame s.sl .unlocked fun _ h => by cases h
    · split at hstep <;> cases hstep
      · exact hsame s.sl .crashed fun _ h => by cases h
      · exact hsame _ _ fun _ h => by rwa [hpc]
  | linking call promotions node prev current =>
    simp only [hpc] at hstep
    cases hstep
    have hcall : s.writer.call = some call := by rw [hpc]; rfl
    obtain ⟨hreader, hsome, -⟩ := WriterFrame.write hcall (writeNext s.sl prev (some node))
      (.completing call promotions node current) rfl
    exact ⟨hreader, hsome, Or.inr ⟨call, hcall, rfl⟩⟩
  | completing call promotions node current =>
    simp only [hpc] at hstep
    cases hstep
    exact WriterFrame.write (by rw [hpc]; rfl) _ _ rfl
  | promoting call promotions last i flips =>
    simp only [hpc] at hstep
    cases flips with
    | nil =>
      cases hstep
      exact hsame s.sl _ fun _ h => by rwa [hpc]
    | cons flip flips =>
      cases flip with
      | false =>
        cases hstep
        exact hsame s.sl _ fun _ h => by rwa [hpc]
      | true =>
        simp only at hstep
        split at hstep <;> cases hstep
        · exact hsame s.sl .crashed fun _ h => by cases h
        · exact hsame _ _ fun _ h => by rwa [hpc]
  | sizing call =>
    simp only [hpc] at hstep
    cases hstep
    exact hsame _ .unlocked fun _ h => by cases h

theorem readerStep_frame {s s' : Shared} (hstep : readerStep s = some s') :
    ∃ pc active itEndKey currentNode, s' = { s with
      reader := { s.reader with
        pc := pc
        active := active
        itEndKey := itEndKey
        currentNode := currentNode } } := by
  unfold readerStep at hstep
  cases hpc : s.reader.pc with
  | checkMax =>
    simp only [hpc] at hstep
    split at hstep <;> cases hstep
    · exact ⟨.ready, false, s.reader.itEndKey, s.reader.currentNode, rfl⟩
    · exact ⟨.checkMin, s.reader.active, s.reader.itEndKey, s.reader.currentNode, rfl⟩
  | checkMin =>
    simp only [hpc] at hstep
    split at hstep <;> cases hstep
    · exact ⟨.ready, false, s.reader.itEndKey, s.reader.currentNode, rfl⟩
    · exact ⟨.top, true, s.reader.endKey, s.reader.currentNode, rfl⟩
  | finish a =>
    simp only [hpc] at hstep
    split at hstep <;> cases hstep
    · exact ⟨.crashed, s.reader.active, s.reader.itEndKey, s.reader.currentNode, rfl⟩
    · exact ⟨.ready, s.reader.active, s.reader.itEndKey, _, rfl⟩
  | ready =>
    simp only [hpc] at hstep
    cases hstep
  | crashed =>
    simp only [hpc] at hstep
    cases hstep
  | _ =>
    simp only [hpc] at hstep
    cases hstep
    exact ⟨_, s.reader.active, s.reader.itEndKey, s.reader.currentNode, rfl⟩

/-! ## The records a scan is held to -/

/-- The scan with other records for those that were there when its seek began. -/
def Shared.counting (s : Shared) (ps : List (SlUint128 × Bytes)) : Shared :=
  { s with reader := { s.reader with present := ps } }

theorem writerStep_counting (s : Shared) (ps : List (SlUint128 × Bytes)) :
    writerStep (s.counting ps) = (writerStep s).map fun t => t.counting ps := by
  have hwrite : ∀ (sl : Option Skiplist) (writer : WriterPc),
      (s.counting ps).write sl writer = (s.write sl writer).counting ps := by
    intro sl writer
    cases sl with
    | none => rfl
    | some sl => rfl
  unfold writerStep
  cases hpc : s.writer with
  | searching call =>
    simp only [Shared.counting, hpc]
    cases hsearch : slSearch s.sl call.key with
    | none => rfl
    | some found =>
      cases found with
      | missing promotions =>
        simp only
        cases slPosition (alloc s.sl (newNode call.key (some call.content))) promotions call.key with
        | none => rfl
        | some place => rfl
      | _ => rfl
  | linking call promotions node prev current =>
    have hcounting : (s.counting ps).writer = .linking call promotions node prev current := hpc
    simp only [hcounting, Option.map_some, hwrite]
    rfl
  | completing call promotions node current =>
    have hcounting : (s.counting ps).writer = .completing call promotions node current := hpc
    simp only [hcounting, Option.map_some, hwrite]
    rfl
  | promoting call promotions last i flips =>
    simp only [Shared.counting, hpc]
    cases flips with
    | nil => rfl
    | cons flip flips =>
      cases flip with
      | false => rfl
      | true =>
        simp only
        cases slPromote s.sl promotions last i with
        | none => rfl
        | some promoted => rfl
  | _ =>
    simp only [Shared.counting, hpc]
    rfl

theorem readerStep_counting (s : Shared) (ps : List (SlUint128 × Bytes)) :
    readerStep (s.counting ps) = (readerStep s).map fun t => t.counting ps := by
  unfold readerStep
  cases hpc : s.reader.pc with
  | checkMax =>
    simp only [Shared.counting, hpc]
    split <;> rfl
  | checkMin =>
    simp only [Shared.counting, hpc]
    split <;> rfl
  | finish a =>
    simp only [Shared.counting, hpc]
    cases s.sl.heap a with
    | none => rfl
    | some node => rfl
  | _ =>
    simp only [Shared.counting, hpc]
    rfl

theorem ensureBuffered_counting (heap : Heap) (r : Reader) (ps : List (SlUint128 × Bytes)) :
    ensureBuffered heap { r with present := ps } =
      { ensureBuffered heap r with present := ps } := by
  unfold ensureBuffered
  simp only
  split
  · rfl
  · cases r.currentNode with
    | none => rfl
    | some a =>
      simp only
      cases heap a with
      | none => rfl
      | some node =>
        simp only
        split <;> rfl

theorem ensureBuffered_same (heap : Heap) (r : Reader) :
    (ensureBuffered heap r).returned = r.returned ∧ (ensureBuffered heap r).startKey = r.startKey ∧
      (ensureBuffered heap r).endKey = r.endKey := by
  unfold ensureBuffered
  split
  · exact ⟨rfl, rfl, rfl⟩
  · split
    · exact ⟨rfl, rfl, rfl⟩
    · split
      · exact ⟨rfl, rfl, rfl⟩
      · split <;> exact ⟨rfl, rfl, rfl⟩

/-- Without a record in the buffer the scan is at its end. -/
theorem ensureBuffered_none {heap : Heap} {r : Reader} (hpc : (ensureBuffered heap r).pc ≠ .crashed)
    (hnone : (ensureBuffered heap r).bufferedRecord = none) :
    (ensureBuffered heap r).active = false := by
  by_cases hskip : r.active = false ∨ r.bufferedRecord.isSome
  · have heq : ensureBuffered heap r = r := if_pos hskip
    rw [heq] at hnone ⊢
    exact hskip.resolve_right (by simp [hnone])
  · unfold ensureBuffered at hpc hnone ⊢
    rw [if_neg hskip] at hpc hnone ⊢
    cases hcurrent : r.currentNode with
    | none => rfl
    | some a =>
      simp only [hcurrent] at hpc hnone ⊢
      cases hnode : heap a with
      | none =>
        simp only [hnode] at hpc
        exact absurd rfl hpc
      | some node =>
        simp only [hnode] at hnone ⊢
        split at hnone
        · rename_i hgt
          rw [if_pos hgt]
        · cases hnone

/-- What buffering the next record does to a scan whose seek is over. -/
structure EnsureBuffered (inserted : List (SlUint128 × Bytes)) (r t : Reader) : Prop where
  ready : t.pc = .ready
  returned : t.returned = r.returned
  startKey : t.startKey = r.startKey
  endKey : t.endKey = r.endKey
  ended : t.bufferedRecord = none → t.active = false
  record : ∀ x, t.bufferedRecord = some x → ∃ n ∈ inserted, x = stored n

theorem nextStep_counting (s : Shared) (ps : List (SlUint128 × Bytes)) (takes : Bool) :
    nextStep (s.counting ps) takes = (nextStep s takes).map fun t => t.counting ps := by
  unfold nextStep
  simp only [Shared.counting, ensureBuffered_counting]
  split
  · split <;> rfl
  · rfl

theorem run_counting {s : Shared} {ps : List (SlUint128 × Bytes)} {as : List ScanAction}
    (has : ∀ a ∈ as, a = .writer ∨ a = .reader) :
    run Shared.step (s.counting ps) as = (run Shared.step s as).map fun t => t.counting ps := by
  induction as generalizing s with
  | nil => rfl
  | cons a as ih =>
    have hstep : (s.counting ps).step a = (s.step a).map fun t => t.counting ps := by
      rcases has a List.mem_cons_self with rfl | rfl
      · exact writerStep_counting s ps
      · exact readerStep_counting s ps
    unfold run
    rw [hstep]
    cases s.step a with
    | none => rfl
    | some t => exact ih fun b hb => has b (List.mem_cons_of_mem _ hb)

/-- Fewer records to see. -/
theorem Shared.Ok.counting {s : Shared} (h : s.Ok) {ps : List (SlUint128 × Bytes)}
    (hps : ps ⊆ s.reader.present) : (s.counting ps).Ok := by
  obtain ⟨level, view, hview, hr⟩ := h
  refine ⟨level, view, hview.reader _, fun record hrecord => hr.present record (hps hrecord), hr.fresh,
    hr.walking, ?_⟩
  have hpos := hr.position
  simp only [Shared.counting]
  cases hpc : s.reader.pc with
  | ready =>
    rw [hpc] at hpos
    exact ⟨hpos.ascending, hpos.taken, hpos.endKey, hpos.current,
      fun record hrecord => hpos.complete record (hps hrecord)⟩
  | _ =>
    rw [hpc] at hpos
    exact hpos

/-- The pointer that is about to be set is null. -/
def Shared.PendingNull (s : Shared) : Prop :=
  ∀ a, s.writer.Pending a → ∃ node, s.sl.heap a = some node ∧ node.next = none

theorem Shared.PendingNull.of_not {s : Shared} (h : ∀ a, ¬ s.writer.Pending a) : s.PendingNull :=
  fun a ha => absurd ha (h a)

/-- The new node is linked with a null pointer, and the next write sets it. -/
theorem Shared.Viewed.pendingNull {s s' : Shared} {level : Nat → List Cell} {view : Heap}
    (h : s.Viewed level view) (hstep : Skip.writerStep s = some s') : s'.PendingNull := by
  unfold Skip.writerStep at hstep
  cases hpc : s.writer with
  | linking call promotions node prev current =>
    have hwriter := h.writer
    rw [hpc] at hwriter
    obtain ⟨-, before, xs, c, ys, hsl, rfl, hbefore, -, hlevel, rfl, -, hlt, hgt⟩ := hwriter
    obtain ⟨linked, -, hlink, -, hnew, -⟩ := hbefore.link_spec hlevel hlt hgt call.content
    rw [← hsl] at hlink
    simp only [hpc, Shared.write, hlink] at hstep
    cases hstep
    intro a ha
    cases current with
    | none => exact ha.elim
    | some next =>
      obtain rfl : a = before.nextAddr := ha
      exact ⟨_, hnew, rfl⟩
  | completing call promotions node current =>
    simp only [hpc] at hstep
    cases hstep
    apply Shared.PendingNull.of_not
    intro a ha
    rcases s.write_writer (slComplete s.sl node current)
      (.promoting call promotions node 1 call.flips) with hwriter | hwriter
    · rw [hwriter] at ha
      exact ha
    · rw [hwriter] at ha
      exact ha
  | searching call =>
    simp only [hpc] at hstep
    split at hstep
    · cases hstep
      exact .of_not fun a ha => ha
    · cases hstep
      exact .of_not fun a ha => ha
    · split at hstep <;> cases hstep <;> exact .of_not fun a ha => ha
  | promoting call promotions last i flips =>
    simp only [hpc] at hstep
    cases flips with
    | nil =>
      cases hstep
      exact .of_not fun a ha => ha
    | cons flip flips =>
      cases flip with
      | false =>
        cases hstep
        exact .of_not fun a ha => ha
      | true =>
        simp only at hstep
        split at hstep <;> cases hstep <;> exact .of_not fun a ha => ha
  | unlocked =>
    simp only [hpc] at hstep
    cases hstep
  | crashed =>
    simp only [hpc] at hstep
    cases hstep
  | _ =>
    simp only [hpc] at hstep
    cases hstep
    exact .of_not fun a ha => ha

/-- The list is sound, and the scan will see all of `ps` that lies in its range. -/
structure Shared.HeldTo (s : Shared) (ps : List (SlUint128 × Bytes)) : Prop where
  ok : (s.counting ps).Ok
  present : ps ⊆ s.inserted
  pending : s.PendingNull

namespace Shared.HeldTo

variable {s s' : Shared} {ps : List (SlUint128 × Bytes)}

theorem insert (h : s.HeldTo ps) {call : SlCall} (hstep : insertStep s call = some s') :
    s'.HeldTo ps := by
  obtain ⟨hsl, hreader, hinserted, hwriter⟩ := insertStep_frame hstep
  have hcounting : insertStep (s.counting ps) call = some (s'.counting ps) := by
    unfold insertStep at hstep ⊢
    simp only [Shared.counting]
    cases hpc : s.writer with
    | unlocked =>
      simp only [hpc] at hstep
      split at hstep <;> cases hstep
      · rename_i hid
        simp only [hpc, if_pos hid]
      · rename_i hid
        simp only [if_neg hid]
    | _ =>
      simp only [hpc] at hstep
      cases hstep
  refine ⟨h.ok.insert hcounting, hinserted ▸ h.present, fun a ha => ?_⟩
  rw [hsl]
  rcases hwriter with hwriter | hwriter
  · rw [hwriter] at ha
    exact h.pending a ha
  · rw [hwriter] at ha
    exact ha.elim

theorem write (h : s.HeldTo ps) (hstep : Skip.writerStep s = some s') : s'.HeldTo ps := by
  obtain ⟨level, view, hview, -⟩ := id h.ok
  have hcounting : Skip.writerStep (s.counting ps) = some (s'.counting ps) := by
    rw [writerStep_counting, hstep]
    rfl
  refine ⟨h.ok.writerStep hcounting, fun n hn => ?_, (hview.reader s.reader).pendingNull hstep⟩
  rcases (writerStep_frame hstep).inserted with hsame | ⟨call, -, hmore⟩
  · exact hsame ▸ h.present hn
  · rw [hmore]
    exact List.mem_append_left _ (h.present hn)

theorem read (h : s.HeldTo ps) (hsees : (s.counting ps).SeesSuccessor .reader)
    (hstep : readerStep s = some s') : s'.HeldTo ps := by
  have hcounting : readerStep (s.counting ps) = some (s'.counting ps) := by
    rw [readerStep_counting, hstep]
    rfl
  obtain ⟨pc, active, itEndKey, currentNode, rfl⟩ := readerStep_frame hstep
  exact ⟨Shared.Ok.step (a := .reader) h.ok hsees hcounting, h.present, h.pending⟩

theorem seek (h : s.HeldTo ps) {startKey endKey : SlUint128}
    (hstep : seekStep s startKey endKey = some s') : s'.HeldTo ps := by
  have hcounting : seekStep (s.counting ps) startKey endKey = some s' := by
    unfold seekStep at hstep ⊢
    exact hstep
  have hok := h.ok.seek hcounting
  unfold seekStep at hstep
  cases hpc : s.reader.pc with
  | ready =>
    simp only [hpc] at hstep
    cases hstep
    exact ⟨hok.counting h.present, h.present, h.pending⟩
  | _ =>
    simp only [hpc] at hstep
    cases hstep

theorem next (h : s.HeldTo ps) {takes : Bool} (hstep : nextStep s takes = some s') :
    s'.HeldTo ps := by
  have hcounting : nextStep (s.counting ps) takes = some (s'.counting ps) := by
    rw [nextStep_counting, hstep]
    rfl
  have hok := h.ok.next hcounting
  unfold nextStep at hstep
  split at hstep
  · split at hstep <;> cases hstep <;> exact ⟨hok, h.present, h.pending⟩
  · cases hstep

/-- Buffering the next record finds one of the memtable, or the end of the scan. -/
theorem ensureBuffered (h : s.HeldTo ps) (hready : s.reader.pc = .ready)
    (hunlocked : s.writer = .unlocked) :
    EnsureBuffered s.inserted s.reader (Skip.ensureBuffered s.sl.heap s.reader) := by
  obtain ⟨level, view, hview, hr⟩ := h.ok
  have hpos := hr.position
  have hpc : (s.counting ps).reader.pc = .ready := hready
  rw [hpc] at hpos
  obtain ⟨hsame, -, hok⟩ := hpos.ensureBuffered hview hunlocked hr.present
  have hcounting : Skip.ensureBuffered (s.counting ps).sl.heap (s.counting ps).reader =
      { Skip.ensureBuffered s.sl.heap s.reader with present := ps } :=
    ensureBuffered_counting s.sl.heap s.reader ps
  rw [hcounting] at hsame hok
  have hready' : (Skip.ensureBuffered s.sl.heap s.reader).pc = .ready := hsame.trans hready
  obtain ⟨hreturned, hstart, hend⟩ := ensureBuffered_same s.sl.heap s.reader
  refine ⟨hready', hreturned, hstart, hend, ensureBuffered_none (by rw [hready']; simp), ?_⟩
  intro x hx
  refine hok.taken x (List.mem_append_right _ ?_)
  show x ∈ (Skip.ensureBuffered s.sl.heap s.reader).bufferedRecord.toList
  rw [hx]
  exact List.mem_singleton_self x

/-- A seek that has begun comes to its end. -/
theorem walkEnds (h : s.HeldTo ps) : WalkEnds s := by
  obtain ⟨n, t, hrun, ht⟩ := h.ok.walkEnds
  rw [run_counting fun a ha => Or.inr (List.eq_of_mem_replicate ha)] at hrun
  obtain ⟨s', hs', rfl⟩ := Option.map_eq_some_iff.mp hrun
  exact ⟨n, s', hs', ht⟩

end Shared.HeldTo

end RaftLsmt.Lsmt.Skip
