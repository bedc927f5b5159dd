import RaftLsmt.Lsmt.Skiplist

/-!
# A memtable shared by an insertion and a scan

`lsmt_insert` holds `memtable_rwlock` for writing around `sl_insert`, and `lsmt_iterator_next` holds it
for reading around the step along the bottom level. `lsmt_iterator_seek` walks the levels without it,
so it meets every intermediate shape of the list. Here `sl_insert` is a sequence of writes and
`sl_iterator_seek` a sequence of reads; `insert_computes` puts the writes together again.

Between any two writes the list is `Viewed`: the levels are there but for one pointer, the successor of
the new node in the bottom level, which is set after the node is linked.
-/

set_option autoImplicit false

namespace RaftLsmt.Lsmt.Skip

open RaftLsmt.Lib.SkipLevels
open RaftLsmt.Lib.SortedMerge
open RaftLsmt.Lib.StepMachine

/-! ## The insertion, write by write -/

/-- `sl_insert` under the write lock: about to write each bound; about to search; with a node to link
into the bottom level; about to write the successor of the node; at a turn of the promotion loop; about
to add the size and release the lock. -/
inductive WriterPc where
  | unlocked
  | minKey (call : SlCall)
  | maxKey (call : SlCall)
  | searching (call : SlCall)
  | linking (call : SlCall) (promotions : Promotions) (node prev : Nat) (current : Option Nat)
  | completing (call : SlCall) (promotions : Promotions) (node : Nat) (current : Option Nat)
  | promoting (call : SlCall) (promotions : Promotions) (lastPromoted promotionLevel : Nat)
      (flips : List Bool)
  | sizing (call : SlCall)
  | crashed

/-- `sl_iterator_seek`, read by read: about to compare each bound; about to read `top_level`; about to
look for a next node, to compare its key, to move to it; about to go down a level; about to read the
node behind the last one in front of the range. Then `sl_iterator_next` may run. -/
inductive ReaderPc where
  | checkMax
  | checkMin
  | top
  | peek (current : Nat)
  | compare (current : Nat)
  | move (current : Nat)
  | drop (current : Nat)
  | finish (current : Nat)
  | ready
  | crashed
  deriving DecidableEq

/-- `wrapper_sl_it_t` on the memtable, with the arguments of its seek and what the scan has returned.
`present` is history: the records in the memtable when the seek began. -/
structure Reader where
  pc : ReaderPc
  active : Bool
  startKey : SlUint128
  endKey : SlUint128
  itEndKey : SlUint128
  currentNode : Option Nat
  bufferedRecord : Option (SlUint128 × Option Bytes)
  returned : List (SlUint128 × Option Bytes)
  present : List (SlUint128 × Bytes)
  deriving DecidableEq

/-- A memtable, the insertion at work, a scan, and the records that have been linked. -/
structure Shared where
  sl : Skiplist
  writer : WriterPc
  reader : Reader
  inserted : List (SlUint128 × Bytes)

/-- An empty memtable and an iterator on it. -/
def Shared.init : Shared where
  sl := slInit
  writer := .unlocked
  reader :=
    { pc := .ready
      active := false
      startKey := SlUint128.zero
      endKey := SlUint128.zero
      itEndKey := SlUint128.zero
      currentNode := none
      bufferedRecord := none
      returned := []
      present := [] }
  inserted := []

/-- The list behind a write, and the next state of the insertion. -/
def Shared.write (s : Shared) (sl : Option Skiplist) (writer : WriterPc) : Shared :=
  match sl with
  | none => { s with writer := .crashed }
  | some sl => { s with sl := sl, writer := writer }

/-- A call of `lsmt_insert` takes the lock. -/
def insertStep (s : Shared) (call : SlCall) : Option Shared :=
  match s.writer with
  | .unlocked => if call.key.id = 0 then some s else some { s with writer := .minKey call }
  | _ => none

/-- The next write of the insertion. -/
def writerStep (s : Shared) : Option Shared :=
  match s.writer with
  | .unlocked => none
  | .minKey call => some { s with sl := widenMin s.sl call.key, writer := .maxKey call }
  | .maxKey call => some { s with sl := widenMax s.sl call.key, writer := .searching call }
  | .searching call =>
    match slSearch s.sl call.key with
    | none => some { s with writer := .crashed }
    | some .exists => some { s with writer := .unlocked }
    | some (.missing promotions) =>
      let sl := alloc s.sl (newNode call.key (some call.content))
      match slPosition sl promotions call.key with
      | none => some { s with writer := .crashed }
      | some (prev, current) =>
        some { s with sl := sl, writer := .linking call promotions s.sl.nextAddr prev current }
  | .linking call promotions node prev current =>
    some { s.write (writeNext s.sl prev (some node)) (.completing call promotions node current) with
      inserted := s.inserted ++ [(call.key, call.content)] }
  | .completing call promotions node current =>
    some (s.write (slComplete s.sl node current) (.promoting call promotions node 1 call.flips))
  | .promoting call promotions lastPromoted promotionLevel (true :: flips) =>
    match slPromote s.sl promotions lastPromoted promotionLevel with
    | none => some { s with writer := .crashed }
    | some (promoted, sl) =>
      some { s with
        sl := sl
        writer := .promoting call promotions promoted (promotionLevel + 1) flips }
  | .promoting call _ _ _ _ => some { s with writer := .sizing call }
  | .sizing call =>
    some { s with
      sl := { s.sl with size := s.sl.size + 16 + call.content.length }
      writer := .unlocked }
  | .crashed => none

/-! ## The scan -/

/-- A call of `lsmt_iterator_seek`. -/
def seekStep (s : Shared) (startKey endKey : SlUint128) : Option Shared :=
  match s.reader.pc with
  | .ready =>
    some { s with
      reader := { s.reader with
        pc := .checkMax
        startKey := startKey
        endKey := endKey
        bufferedRecord := none
        returned := []
        present := s.inserted } }
  | _ => none

/-- Read a node; the reader crashes when there is none. -/
def Shared.readNode (s : Shared) (a : Nat) (next : Node → ReaderPc) : ReaderPc :=
  match s.sl.heap a with
  | none => .crashed
  | some node => next node

/-- `current->next != NULL`. -/
def Shared.peekNext (s : Shared) (current : Nat) : ReaderPc :=
  s.readNode current fun node =>
    match node.next with
    | none => .drop current
    | some _ => .compare current

/-- `key_compare(current->next->key, start_key) < 0`; the pointer is read once more. -/
def Shared.compareNext (s : Shared) (startKey : SlUint128) (current : Nat) : ReaderPc :=
  s.readNode current fun node =>
    match node.next with
    | none => .crashed
    | some next => s.readNode next fun nextNode =>
      if keyCompare nextNode.key startKey < 0 then .move current else .drop current

/-- `current = current->next`. -/
def Shared.moveNext (s : Shared) (current : Nat) : ReaderPc :=
  s.readNode current fun node =>
    match node.next with
    | none => .crashed
    | some next => .peek next

/-- `current = current->lower_level`, where there is one. -/
def Shared.dropLevel (s : Shared) (current : Nat) : ReaderPc :=
  s.readNode current fun node =>
    match node.lowerLevel with
    | none => .finish current
    | some lowerLevel => .peek lowerLevel

/-- The next read of the seek. -/
def readerStep (s : Shared) : Option Shared :=
  let r := s.reader
  match r.pc with
  | .checkMax =>
    if keyCompare s.sl.maxKey r.startKey < 0 then
      some { s with reader := { r with active := false, pc := .ready } }
    else some { s with reader := { r with pc := .checkMin } }
  | .checkMin =>
    if keyCompare s.sl.minKey r.endKey > 0 then
      some { s with reader := { r with active := false, pc := .ready } }
    else some { s with reader := { r with itEndKey := r.endKey, active := true, pc := .top } }
  | .top => some { s with reader := { r with pc := .peek s.sl.topLevel } }
  | .peek current => some { s with reader := { r with pc := s.peekNext current } }
  | .compare current => some { s with reader := { r with pc := s.compareNext r.startKey current } }
  | .move current => some { s with reader := { r with pc := s.moveNext current } }
  | .drop current => some { s with reader := { r with pc := s.dropLevel current } }
  | .finish current =>
    match s.sl.heap current with
    | none => some { s with reader := { r with pc := .crashed } }
    | some node => some { s with reader := { r with currentNode := node.next, pc := .ready } }
  | .ready => none
  | .crashed => none

/-- `wr_sl_ensure_buffered` with `sl_iterator_next`. -/
def ensureBuffered (heap : Heap) (r : Reader) : Reader :=
  if r.active = false ∨ r.bufferedRecord.isSome then r
  else
    match r.currentNode with
    | none => { r with active := false }
    | some current =>
      match heap current with
      | none => { r with pc := .crashed }
      | some node =>
        if keyCompare node.key r.itEndKey > 0 then { r with active := false }
        else { r with bufferedRecord := some (node.key, node.content), currentNode := node.next }

/-- The memtable side of a call of `lsmt_iterator_next`, under the read lock. The merge takes the
buffered record or leaves it for a later call. -/
def nextStep (s : Shared) (takes : Bool) : Option Shared :=
  match s.reader.pc, s.writer with
  | .ready, .unlocked =>
    let r := ensureBuffered s.sl.heap s.reader
    if takes then
      some { s with
        reader := { r with
          bufferedRecord := none
          returned := r.returned ++ r.bufferedRecord.toList } }
    else some { s with reader := r }
  | _, _ => none

/-- What the threads do next. -/
inductive ScanAction where
  | insert (call : SlCall)
  | writer
  | seek (startKey endKey : SlUint128)
  | reader
  | next (takes : Bool)

/-- One step of one thread. -/
def Shared.step (s : Shared) : ScanAction → Option Shared
  | .insert call => insertStep s call
  | .writer => writerStep s
  | .seek startKey endKey => seekStep s startKey endKey
  | .reader => readerStep s
  | .next takes => nextStep s takes

/-- The new node is linked and its successor is not set. -/
def WriterPc.Pending (a : Nat) : WriterPc → Prop
  | .completing _ _ node (some _) => a = node
  | _ => False

instance (a : Nat) : (pc : WriterPc) → Decidable (pc.Pending a)
  | .unlocked => .isFalse id
  | .minKey _ => .isFalse id
  | .maxKey _ => .isFalse id
  | .searching _ => .isFalse id
  | .linking _ _ _ _ _ => .isFalse id
  | .completing _ _ _ none => .isFalse id
  | .completing _ _ node (some _) => inferInstanceAs (Decidable (a = node))
  | .promoting _ _ _ _ _ => .isFalse id
  | .sizing _ => .isFalse id
  | .crashed => .isFalse id

/-! ## The writes of one insertion -/

/-- Some writes in a row. -/
def Writes (s s' : Shared) : Prop :=
  ∃ n, run Shared.step s (List.replicate n .writer) = some s'

theorem Writes.refl (s : Shared) : Writes s s := ⟨0, rfl⟩

theorem Writes.cons {s t u : Shared} (h : writerStep s = some t) (hu : Writes t u) : Writes s u := by
  obtain ⟨n, hn⟩ := hu
  exact ⟨n + 1, run_cons_eq_some.mpr ⟨t, h, hn⟩⟩

/-- The node has a successor. -/
def HasNext (heap : Heap) (a : Nat) : Prop := ∃ node next, heap a = some node ∧ node.next = some next

/-- What the insertion knows about the list and about the heap as it will be behind the write that is
due. -/
def WriterOk (sl : Skiplist) (level : Nat → List Cell) (view : Heap) : WriterPc → Prop
  | .unlocked => view = sl.heap
  | .minKey call => view = sl.heap ∧ SlUint128.zero < call.key
  | .maxKey call => view = sl.heap ∧ SlUint128.zero < call.key ∧ sl.minKey ≤ call.key
  | .searching call =>
    view = sl.heap ∧ SlUint128.zero < call.key ∧ sl.minKey ≤ call.key ∧ call.key ≤ sl.maxKey
  | .linking call promotions node prev current =>
    (view = sl.heap ∧ SlUint128.zero < call.key ∧ sl.minKey ≤ call.key ∧ call.key ≤ sl.maxKey) ∧
      ∃ before xs c ys, sl = alloc before (newNode call.key (some call.content)) ∧
        node = before.nextAddr ∧ Shaped before level ∧
        PlacedFrom 0 before.levels level call.key promotions ∧ level 0 = xs ++ c :: ys ∧
        prev = c.addr ∧ current = first ys ∧ c.key < call.key ∧ ∀ y ∈ ys, call.key < y.key
  | .completing call promotions node current =>
    slComplete sl node current = some { sl with heap := view } ∧
      Promoting { sl with heap := view } level call.key call.content promotions node 1
  | .promoting call promotions lastPromoted promotionLevel _ =>
    view = sl.heap ∧
      Promoting sl level call.key call.content promotions lastPromoted promotionLevel
  | .sizing _ => view = sl.heap
  | .crashed => False

/-- The levels as they will be behind the write that is due; all nodes but the pending one have their
pointers already. -/
structure Shared.Viewed (s : Shared) (level : Nat → List Cell) (view : Heap) : Prop where
  shaped : Shaped { s.sl with heap := view } level
  node : ∀ a n, view a = some n → a < s.sl.nextAddr →
    ∃ next, s.sl.heap a = some { n with next := next } ∧
      (next = n.next ∨ next = none ∧ s.writer.Pending a)
  bounds : ∀ c ∈ level 0, SlUint128.zero < c.key → s.sl.minKey ≤ c.key ∧ c.key ≤ s.sl.maxKey
  records : ∀ record ∈ s.inserted, ∃ c ∈ level 0, data c = stored record ∧ SlUint128.zero < c.key
  inserted : ∀ c ∈ level 0, SlUint128.zero < c.key → ∃ record ∈ s.inserted, data c = stored record
  writer : WriterOk s.sl level view s.writer

/-- The insertion has moved on: the levels have only grown, and no pointer has become null. -/
structure Shared.Grows (s : Shared) (level : Nat → List Cell) (s' : Shared)
    (level' : Nat → List Cell) : Prop where
  reader_eq : s'.reader = s.reader
  levels_le : s.sl.levels ≤ s'.sl.levels
  mem : ∀ i, i < s.sl.levels → ∀ c ∈ level i, c ∈ level' i
  nextAddr_le : s.sl.nextAddr ≤ s'.sl.nextAddr
  inserted : ∀ record ∈ s.inserted, record ∈ s'.inserted
  hasNext : ∀ a, a < s.sl.nextAddr → HasNext s.sl.heap a → HasNext s'.sl.heap a

theorem hasNext_alloc {sl : Skiplist} {node : Node} {a : Nat} (ha : a < sl.nextAddr)
    (h : HasNext sl.heap a) : HasNext (alloc sl node).heap a := by
  obtain ⟨n, next, hn, hnext⟩ := h
  refine ⟨n, next, ?_, hnext⟩
  show Function.update _ _ _ _ = _
  rw [Function.update_of_ne (Nat.ne_of_lt ha)]
  exact hn

theorem writeNext_eq_some {sl sl' : Skiplist} {b : Nat} {next : Option Nat}
    (h : writeNext sl b next = some sl') :
    ∃ node, sl.heap b = some node ∧
      sl' = { sl with heap := Function.update sl.heap b (some { node with next := next }) } := by
  obtain ⟨heap, hheap, rfl⟩ := Option.map_eq_some_iff.mp h
  obtain ⟨node, hnode, rfl⟩ := Option.map_eq_some_iff.mp hheap
  exact ⟨node, hnode, rfl⟩

theorem hasNext_writeNext {sl sl' : Skiplist} {a b next : Nat}
    (hwrite : writeNext sl b (some next) = some sl') (h : HasNext sl.heap a) :
    HasNext sl'.heap a := by
  obtain ⟨node, hnode, rfl⟩ := writeNext_eq_some hwrite
  obtain ⟨n, next', hn, hnext⟩ := h
  by_cases hab : a = b
  · subst hab
    exact ⟨{ node with next := some next }, next, Function.update_self _ _ _, rfl⟩
  · exact ⟨n, next', (Function.update_of_ne hab _ _).trans hn, hnext⟩

theorem slPromote_heap {sl sl' : Skiplist} {promotions : Promotions} {last i promoted : Nat}
    (hpromote : slPromote sl promotions last i = some (promoted, sl')) :
    sl.nextAddr ≤ sl'.nextAddr ∧
      ∀ a, a < sl.nextAddr → HasNext sl.heap a → HasNext sl'.heap a := by
  unfold slPromote at hpromote
  split at hpromote
  · cases hpromote
  · split at hpromote
    · split at hpromote
      · cases hpromote
      · split at hpromote
        · cases hpromote
        · obtain ⟨written, hwrite, heq⟩ := Option.map_eq_some_iff.mp hpromote
          cases heq
          refine ⟨?_, fun a ha h => hasNext_writeNext hwrite (hasNext_alloc ha h)⟩
          obtain ⟨node, -, rfl⟩ := writeNext_eq_some hwrite
          exact Nat.le_succ _
    · split at hpromote
      · cases hpromote
      · cases hpromote
        refine ⟨Nat.le_add_right _ 2, fun a ha h => ?_⟩
        exact hasNext_alloc (Nat.lt_succ_of_lt ha) (hasNext_alloc ha h)

/-- Where no write is due the heap is the view. -/
theorem Shared.Viewed.of_heap {s : Shared} {level : Nat → List Cell} (shaped : Shaped s.sl level)
    (bounds : ∀ c ∈ level 0, SlUint128.zero < c.key → s.sl.minKey ≤ c.key ∧ c.key ≤ s.sl.maxKey)
    (records : ∀ record ∈ s.inserted, ∃ c ∈ level 0, data c = stored record ∧
      SlUint128.zero < c.key)
    (inserted : ∀ c ∈ level 0, SlUint128.zero < c.key →
      ∃ record ∈ s.inserted, data c = stored record)
    (writer : WriterOk s.sl level s.sl.heap s.writer) : s.Viewed level s.sl.heap :=
  ⟨shaped, fun _ n hn _ => ⟨n.next, hn, Or.inl rfl⟩, bounds, records, inserted, writer⟩

theorem Shared.Grows.refl {s s' : Shared} (level : Nat → List Cell) (hreader : s'.reader = s.reader)
    (hlevels : s'.sl.levels = s.sl.levels) (haddr : s'.sl.nextAddr = s.sl.nextAddr)
    (hheap : s'.sl.heap = s.sl.heap) (hinserted : s'.inserted = s.inserted) :
    s.Grows level s' level :=
  ⟨hreader, Nat.le_of_eq hlevels.symm, fun _ _ _ hc => hc, Nat.le_of_eq haddr.symm,
    fun _ h => hinserted ▸ h, fun _ _ h => hheap ▸ h⟩

theorem widenMin_le (sl : Skiplist) (key : SlUint128) :
    (widenMin sl key).minKey ≤ sl.minKey ∧ (widenMin sl key).minKey ≤ key := by
  show (if keyCompare key sl.minKey < 0 then key else sl.minKey) ≤ _ ∧
    (if keyCompare key sl.minKey < 0 then key else sl.minKey) ≤ _
  simp only [keyCompare_neg_iff]
  split
  · rename_i hlt
    exact ⟨le_of_lt hlt, le_refl _⟩
  · rename_i hge
    exact ⟨le_refl _, not_lt.mp hge⟩

theorem le_widenMax (sl : Skiplist) (key : SlUint128) :
    sl.maxKey ≤ (widenMax sl key).maxKey ∧ key ≤ (widenMax sl key).maxKey := by
  show _ ≤ (if keyCompare key sl.maxKey > 0 then key else sl.maxKey) ∧
    _ ≤ (if keyCompare key sl.maxKey > 0 then key else sl.maxKey)
  simp only [keyCompare_pos_iff]
  split
  · rename_i hlt
    exact ⟨le_of_lt hlt, le_refl _⟩
  · rename_i hge
    exact ⟨le_refl _, not_lt.mp hge⟩

/-- The search, and the allocation of the new node. -/
theorem Shared.Viewed.search {s s' : Shared} {level : Nat → List Cell} {view : Heap}
    (h : s.Viewed level view) {call : SlCall} (hpc : s.writer = .searching call)
    (hstep : writerStep s = some s') :
    ∃ level' view', s'.Viewed level' view' ∧ s.Grows level s' level' := by
  obtain ⟨hshaped, -, hbounds, hrecords, hinserted, hwriter⟩ := h
  rw [hpc] at hwriter
  obtain ⟨rfl, hkey, hmin, hmax⟩ := hwriter
  have hshaped : Shaped s.sl level := hshaped
  unfold Skip.writerStep at hstep
  rw [hpc] at hstep
  rcases hshaped.slSearch_spec hkey with ⟨hsearch, -⟩ | ⟨promotions, hsearch, hplaced⟩
  · simp only [hsearch] at hstep
    cases hstep
    exact ⟨level, _, .of_heap hshaped hbounds hrecords hinserted rfl, .refl level rfl rfl rfl rfl rfl⟩
  · obtain ⟨xs, c, ys, hlevel, hlt, hgt, hposition⟩ :=
      (hshaped.alloc (newNode call.key (some call.content))).slPosition_spec hplaced
    simp only [hsearch, hposition] at hstep
    cases hstep
    refine ⟨level, _, .of_heap (hshaped.alloc _) hbounds hrecords hinserted ?_, ⟨rfl, Nat.le_refl _,
      fun _ _ _ hc => hc, Nat.le_succ _, fun _ hr => hr, fun _ ha => hasNext_alloc ha⟩⟩
    exact ⟨⟨rfl, hkey, hmin, hmax⟩, s.sl, xs, c, ys, rfl, rfl, hshaped, hplaced, hlevel, rfl, rfl, hlt,
      hgt⟩

/-- The link of the new node into the bottom level. -/
theorem Shared.Viewed.link {s s' : Shared} {level : Nat → List Cell} {view : Heap}
    (h : s.Viewed level view) {call : SlCall} {promotions : Promotions} {node prev : Nat}
    {current : Option Nat} (hpc : s.writer = .linking call promotions node prev current)
    (hstep : writerStep s = some s') :
    ∃ level' view', s'.Viewed level' view' ∧ s.Grows level s' level' := by
  -- the search has found the place between `c` and the rest of the level
  obtain ⟨-, -, hbounds, hrecords, hinserted, hwriter⟩ := h
  rw [hpc] at hwriter
  obtain ⟨⟨rfl, hkey, hmin, hmax⟩, before, xs, c, ys, hsl, rfl, hbefore, hplaced, hlevel, rfl, rfl,
    hlt, hgt⟩ := hwriter
  obtain ⟨linked, complete, hlink, hcomplete, hnew, hdone, hother, hshaped⟩ :=
    hbefore.link_spec hlevel hlt hgt call.content
  rw [← hsl] at hlink
  unfold Skip.writerStep at hstep
  rw [hpc] at hstep
  simp only [Shared.write, hlink] at hstep
  cases hstep
  have hnext : ∀ a, HasNext s.sl.heap a → HasNext linked a :=
    fun _ => hasNext_writeNext hlink
  rw [hsl] at hbounds hmin hmax
  let d : Cell := ⟨before.nextAddr, call.key, some call.content, none⟩
  -- the level has one cell more
  have hmem : ∀ x, x ∈ Function.update level 0 (xs ++ c :: d :: ys) 0 ↔ x = d ∨ x ∈ level 0 := by
    intro x
    rw [Function.update_self, hlevel]
    exact mem_insert
  have hpromoting := hshaped.promoting hbefore.tower.pos hkey hplaced
  refine ⟨Function.update level 0 (xs ++ c :: d :: ys), complete, ⟨hshaped, ?_, ?_, ?_, ?_,
    ⟨hcomplete, hpromoting⟩⟩, ⟨rfl, ?_, ?_, ?_, ?_, ?_⟩⟩
  · -- only the node's own `next` is still to be written
    intro a n hn _
    by_cases ha : a = before.nextAddr
    · subst ha
      rw [hdone] at hn
      cases hn
      refine ⟨none, hnew, ?_⟩
      cases hfirst : first ys with
      | none => exact Or.inl rfl
      | some y => exact Or.inr ⟨rfl, rfl⟩
    · exact ⟨n.next, (hother a ha).trans hn, Or.inl rfl⟩
  · -- the bounds have been widened to the new key before
    intro x hx hpos
    rcases (hmem x).mp hx with rfl | hx
    · exact ⟨hmin, hmax⟩
    · exact hbounds x hx hpos
  · -- no record is lost, and the new one is there
    intro record hrecord
    rcases List.mem_append.mp hrecord with hrecord | hrecord
    · obtain ⟨x, hx, hdata⟩ := hrecords record hrecord
      exact ⟨x, (hmem x).mpr (Or.inr hx), hdata⟩
    · rw [List.mem_singleton.mp hrecord]
      exact ⟨d, (hmem d).mpr (Or.inl rfl), rfl, hkey⟩
  · intro x hx hpos
    rcases (hmem x).mp hx with rfl | hx
    · exact ⟨(call.key, call.content), List.mem_append_right _ (List.mem_singleton_self _), rfl⟩
    · obtain ⟨record, hrecord, hdata⟩ := hinserted x hx hpos
      exact ⟨record, List.mem_append_left _ hrecord, hdata⟩
  · rw [hsl]
    exact Nat.le_refl _
  · -- the levels above are as they were
    intro i _ x hx
    by_cases hi : i = 0
    · rw [hi] at hx ⊢
      exact (hmem x).mpr (Or.inr hx)
    · rw [Function.update_of_ne hi]
      exact hx
  · rw [hsl]
    exact Nat.le_refl _
  · exact fun _ hr => List.mem_append_left _ hr
  · exact fun a _ ha => hnext a ha

/-- One turn of the promotion loop. -/
theorem Shared.Viewed.promote {s s' : Shared} {level : Nat → List Cell} {view : Heap}
    (h : s.Viewed level view) {call : SlCall} {promotions : Promotions} {last i : Nat}
    {flips : List Bool} (hpc : s.writer = .promoting call promotions last i flips)
    (hstep : writerStep s = some s') :
    ∃ level' view', s'.Viewed level' view' ∧ s.Grows level s' level' := by
  obtain ⟨hshaped, -, hbounds, hrecords, hinserted, hwriter⟩ := h
  rw [hpc] at hwriter
  obtain ⟨rfl, hpromoting⟩ := hwriter
  have hend : ∀ t, t = { s with writer := .sizing call } →
      ∃ level' view', t.Viewed level' view' ∧ s.Grows level t level' := by
    rintro t rfl
    exact ⟨level, _, .of_heap hshaped hbounds hrecords hinserted rfl, .refl level rfl rfl rfl rfl rfl⟩
  unfold Skip.writerStep at hstep
  rw [hpc] at hstep
  cases flips with
  | nil =>
    cases hstep
    exact hend _ rfl
  | cons flip flips =>
    cases flip with
    | false =>
      cases hstep
      exact hend _ rfl
    | true =>
      obtain ⟨sl', level', hpromote, hpromoting', hextends, hbottom⟩ := hpromoting.slPromote_spec
      simp only [hpromote] at hstep
      cases hstep
      obtain ⟨haddr, hnext⟩ := slPromote_heap hpromote
      refine ⟨level', _, .of_heap hpromoting'.shaped ?_ ?_ ?_ ⟨rfl, hpromoting'⟩, ⟨rfl,
        hextends.levels_le, hextends.mem, haddr, fun _ hr => hr, hnext⟩⟩
      · rw [hbottom, hextends.minKey_eq, hextends.maxKey_eq]
        exact hbounds
      · rw [hbottom]
        exact hrecords
      · rw [hbottom]
        exact hinserted

/-- Each write of the insertion keeps the levels. -/
theorem Shared.Viewed.writerStep {s s' : Shared} {level : Nat → List Cell} {view : Heap}
    (h : s.Viewed level view) (hstep : writerStep s = some s') :
    ∃ level' view', s'.Viewed level' view' ∧ s.Grows level s' level' := by
  cases hpc : s.writer with
  | searching call => exact h.search hpc hstep
  | linking call promotions node prev current => exact h.link hpc hstep
  | promoting call promotions lastPromoted promotionLevel flips => exact h.promote hpc hstep
  -- the insertion is over
  | unlocked =>
    unfold Skip.writerStep at hstep
    rw [hpc] at hstep
    cases hstep
  | crashed =>
    unfold Skip.writerStep at hstep
    rw [hpc] at hstep
    cases hstep
  -- a bound is widened: the levels stay, and so do the bounds of what is in them
  | minKey call =>
    obtain ⟨hshaped, -, hbounds, hrecords, hinserted, hwriter⟩ := h
    rw [hpc] at hwriter
    obtain ⟨rfl, hkey⟩ := hwriter
    unfold Skip.writerStep at hstep
    rw [hpc] at hstep
    cases hstep
    obtain ⟨hold, hnew⟩ := widenMin_le s.sl call.key
    refine ⟨level, _, .of_heap ⟨hshaped.tower, hshaped.top, hshaped.bottom⟩ ?_ hrecords hinserted
      ⟨rfl, hkey, hnew⟩, .refl level rfl rfl rfl rfl rfl⟩
    intro c hc hpos
    exact ⟨le_trans hold (hbounds c hc hpos).1, (hbounds c hc hpos).2⟩
  | maxKey call =>
    obtain ⟨hshaped, -, hbounds, hrecords, hinserted, hwriter⟩ := h
    rw [hpc] at hwriter
    obtain ⟨rfl, hkey, hmin⟩ := hwriter
    unfold Skip.writerStep at hstep
    rw [hpc] at hstep
    cases hstep
    obtain ⟨hold, hnew⟩ := le_widenMax s.sl call.key
    refine ⟨level, _, .of_heap ⟨hshaped.tower, hshaped.top, hshaped.bottom⟩ ?_ hrecords hinserted
      ⟨rfl, hkey, hmin, hnew⟩, .refl level rfl rfl rfl rfl rfl⟩
    intro c hc hpos
    exact ⟨(hbounds c hc hpos).1, le_trans (hbounds c hc hpos).2 hold⟩
  -- the heap becomes the view that was already complete
  | completing call promotions node current =>
    obtain ⟨hshaped, -, hbounds, hrecords, hinserted, hwriter⟩ := h
    rw [hpc] at hwriter
    obtain ⟨hcomplete, hpromoting⟩ := hwriter
    have hnext : ∀ a, HasNext s.sl.heap a → HasNext view a := by
      intro a ha
      cases current with
      | none =>
        have hsame : s.sl.heap = view := congrArg Skiplist.heap (Option.some.inj hcomplete)
        exact hsame ▸ ha
      | some next => exact hasNext_writeNext hcomplete ha
    unfold Skip.writerStep at hstep
    rw [hpc] at hstep
    simp only [Shared.write, hcomplete] at hstep
    cases hstep
    exact ⟨level, view, .of_heap hshaped hbounds hrecords hinserted ⟨rfl, hpromoting⟩, ⟨rfl,
      Nat.le_refl _, fun _ _ _ hc => hc, Nat.le_refl _, fun _ hr => hr, fun a _ ha => hnext a ha⟩⟩
  | sizing call =>
    obtain ⟨hshaped, -, hbounds, hrecords, hinserted, hwriter⟩ := h
    rw [hpc] at hwriter
    obtain rfl := hwriter
    unfold Skip.writerStep at hstep
    rw [hpc] at hstep
    cases hstep
    exact ⟨level, _, .of_heap ⟨hshaped.tower, hshaped.top, hshaped.bottom⟩ hbounds hrecords hinserted
      rfl, .refl level rfl rfl rfl rfl rfl⟩

end RaftLsmt.Lsmt.Skip
