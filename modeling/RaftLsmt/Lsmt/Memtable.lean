import RaftLsmt.Lsmt.SstFile
import Mathlib.Data.List.TakeWhile

/-!
# The memtable

`sl_t` seen along its bottom level: the nodes in key order, with the byte count `size` that triggers
a rotation and the bounds `min_key` and `max_key`. The upper levels only shorten searches; a search
that ends on the bottom level ends at the first node that is not below the key.

`slInsert` refuses the reserved id and a key that is present and accepts every other one
(`slInsert_cases`). An iterator points at a node of the list, and later insertions may put nodes in
front of it or behind it; `SlIterator.rest` lists the nodes it still visits, read off the list as it
is now, so an insertion can only add to it (`SlIterator.rest_subset_slInsert`). The scan turns nodes
into raw records (`wrSlEnsureBuffered_spec`), and so does the flush (`memtableToDisk`).
-/

set_option autoImplicit false

namespace RaftLsmt.Lsmt

open RaftLsmt.Lib.SortedMerge

/-- `sl_t`; `addr` is the address of the structure. -/
structure Sl where
  addr : Nat
  bottomLevel : List (SlUint128 × Bytes)
  size : Nat
  minKey : SlUint128
  maxKey : SlUint128

/-- `sl_init`. -/
def slInit (addr : Nat) : Sl where
  addr := addr
  bottomLevel := []
  size := 0
  minKey := SlUint128.max
  maxKey := SlUint128.zero

/-- `sl_insert`. The bounds move before the search finds a duplicate. -/
def slInsert (sl : Sl) (key : SlUint128) (content : Bytes) : Sl × Int :=
  if key.id = 0 then (sl, -1)
  else
    let sl := { sl with
      minKey := if keyCompare key sl.minKey < 0 then key else sl.minKey
      maxKey := if keyCompare key sl.maxKey > 0 then key else sl.maxKey }
    match insertNew Prod.fst (key, content) sl.bottomLevel with
    | none => (sl, -1)
    | some bottomLevel =>
      ({ sl with bottomLevel := bottomLevel, size := sl.size + 16 + content.length }, 0)

/-- The bytes a node counts for in `size`. -/
def nodeSize (node : SlUint128 × Bytes) : Nat := 16 + node.2.length

namespace Sl

/-- The invariant of a memtable. -/
structure Wf (sl : Sl) : Prop where
  strict : StrictBy Prod.fst sl.bottomLevel
  id_ne_zero : ∀ n ∈ sl.bottomLevel, n.1.id ≠ 0
  minKey_le : ∀ n ∈ sl.bottomLevel, sl.minKey ≤ n.1
  le_maxKey : ∀ n ∈ sl.bottomLevel, n.1 ≤ sl.maxKey
  size_eq : sl.size = (sl.bottomLevel.map nodeSize).sum

theorem wf_slInit (addr : Nat) : (slInit addr).Wf where
  strict := strictBy_nil
  id_ne_zero := by simp [slInit]
  minKey_le := by simp [slInit]
  le_maxKey := by simp [slInit]
  size_eq := rfl

theorem Wf.size_pos_iff {sl : Sl} (h : sl.Wf) : 0 < sl.size ↔ sl.bottomLevel ≠ [] := by
  rw [h.size_eq]
  cases sl.bottomLevel with
  | nil => simp
  | cons n l =>
    simp only [List.map_cons, List.sum_cons, nodeSize, ne_eq, reduceCtorEq, not_false_eq_true,
      iff_true]
    omega

end Sl

/-- The keys `sl_insert` refuses: the reserved id and the keys that are present. -/
def Sl.Refuses (sl : Sl) (key : SlUint128) : Prop := key.id = 0 ∨ ∃ n ∈ sl.bottomLevel, n.1 = key

/-- The outcomes of an insertion. A refusal leaves the memtable as it was. -/
theorem slInsert_cases {sl : Sl} (h : sl.Wf) (key : SlUint128) (content : Bytes) :
    (slInsert sl key content = (sl, -1) ∧ sl.Refuses key) ∨
    ∃ sl', slInsert sl key content = (sl', 0) ∧ ¬ sl.Refuses key ∧ sl'.Wf ∧ sl'.addr = sl.addr ∧
      sl'.bottomLevel.Perm ((key, content) :: sl.bottomLevel) := by
  rw [slInsert]
  by_cases hid : key.id = 0
  · rw [if_pos hid]
    exact Or.inl ⟨rfl, Or.inl hid⟩
  · rw [if_neg hid]
    cases hins : insertNew Prod.fst (key, content) sl.bottomLevel with
    -- the key is there: nothing is linked in
    | none =>
      obtain ⟨n, hn, rfl⟩ := (insertNew_eq_none_iff h.strict).mp hins
      -- the bounds already cover a key that is present
      have hmin : ¬ keyCompare n.1 sl.minKey < 0 := by
        rw [keyCompare_neg_iff, not_lt]
        exact h.minKey_le n hn
      have hmax : ¬ keyCompare n.1 sl.maxKey > 0 := by
        rw [keyCompare_pos_iff, not_lt]
        exact h.le_maxKey n hn
      refine Or.inl ⟨?_, Or.inr ⟨n, hn, rfl⟩⟩
      simp only [if_neg hmin, if_neg hmax]
      exact hins ▸ rfl
    -- the node is linked in, and the bounds are widened to its key
    | some bottomLevel =>
      have hperm := insertNew_perm hins
      have hfresh : ∀ n ∈ sl.bottomLevel, n.1 ≠ key := by
        intro n hn hkey
        have hnone := (insertNew_eq_none_iff (a := (key, content)) h.strict).mpr ⟨n, hn, hkey⟩
        rw [hins] at hnone
        cases hnone
      refine Or.inr ⟨{
        addr := sl.addr
        bottomLevel := bottomLevel
        size := sl.size + 16 + content.length
        minKey := if keyCompare key sl.minKey < 0 then key else sl.minKey
        maxKey := if keyCompare key sl.maxKey > 0 then key else sl.maxKey },
        ?_, ?_, ?_, rfl, hperm⟩
      · simp only [hins]
      · rintro (hzero | ⟨n, hn, hkey⟩)
        · exact hid hzero
        · exact hfresh n hn hkey
      refine ⟨strictBy_insertNew h.strict hins, fun n hn => ?_, fun n hn => ?_, fun n hn => ?_, ?_⟩
      · rcases List.mem_cons.mp (hperm.subset hn) with rfl | hn
        · exact hid
        · exact h.id_ne_zero n hn
      · simp only [keyCompare_neg_iff]
        rcases List.mem_cons.mp (hperm.subset hn) with rfl | hn
        · split
          · exact le_refl _
          · rename_i hlt
            exact not_lt.mp hlt
        · split
          · rename_i hlt
            exact le_trans (le_of_lt hlt) (h.minKey_le n hn)
          · exact h.minKey_le n hn
      · simp only [keyCompare_pos_iff]
        rcases List.mem_cons.mp (hperm.subset hn) with rfl | hn
        · split
          · exact le_refl _
          · rename_i hlt
            exact not_lt.mp hlt
        · split
          · rename_i hlt
            exact le_trans (h.le_maxKey n hn) (le_of_lt hlt)
          · exact h.le_maxKey n hn
      · rw [(hperm.map nodeSize).sum_eq]
        simp only [List.map_cons, List.sum_cons, nodeSize, h.size_eq]
        omega

/-! ## The iterator -/

/-- `sl_iterator_t`; `current_node` is a node of the bottom level, here its key. -/
structure SlIterator where
  active : Bool
  currentNode : Option SlUint128
  startKey : SlUint128
  endKey : SlUint128

/-- `sl_iterator_create`. -/
def slIteratorCreate (sl : Sl) : SlIterator where
  active := false
  currentNode := none
  startKey := sl.minKey
  endKey := sl.maxKey

/-- `sl_iterator_seek`. -/
def slIteratorSeek (sl : Sl) (it : SlIterator) (startKey endKey : SlUint128) : Bool × SlIterator :=
  if keyCompare sl.maxKey startKey < 0 ∨ keyCompare sl.minKey endKey > 0 then
    (false, { it with active := false })
  else
    (true, {
      active := true
      currentNode := (sl.bottomLevel.find? fun n => ¬ keyCompare n.1 startKey < 0).map Prod.fst
      startKey := startKey
      endKey := endKey })

/-- The nodes from `current_node` on. -/
def nodesFrom (sl : Sl) : Option SlUint128 → List (SlUint128 × Bytes)
  | none => []
  | some key => sl.bottomLevel.dropWhile fun n => n.1 ≠ key

/-- `sl_iterator_next`. -/
def slIteratorNext (sl : Sl) (it : SlIterator) : Option (SlUint128 × Bytes) × SlIterator :=
  if it.active = false then (none, it)
  else
    match nodesFrom sl it.currentNode with
    | [] => (none, { it with active := false })
    | node :: next =>
      if keyCompare node.1 it.endKey > 0 then (none, { it with active := false })
      else (some node, { it with currentNode := next.head?.map Prod.fst })

namespace SlIterator

/-- The nodes the iterator still visits. -/
def rest (sl : Sl) (it : SlIterator) : List (SlUint128 × Bytes) :=
  if it.active then (nodesFrom sl it.currentNode).takeWhile fun n => n.1 ≤ it.endKey else []

/-- The iterator points into the list. -/
def PointsInto (sl : Sl) (it : SlIterator) : Prop :=
  ∀ key, it.currentNode = some key → ∃ n ∈ sl.bottomLevel, n.1 = key

theorem rest_of_inactive {sl : Sl} {it : SlIterator} (h : it.active = false) :
    it.rest sl = [] := by
  simp [rest, h]

theorem rest_of_active {sl : Sl} {it : SlIterator} (h : it.active = true) :
    it.rest sl = (nodesFrom sl it.currentNode).takeWhile fun n => n.1 ≤ it.endKey := by
  simp [rest, h]

theorem PointsInto.mono {sl sl' : Sl} {it : SlIterator} (h : it.PointsInto sl)
    (hsub : sl.bottomLevel ⊆ sl'.bottomLevel) : it.PointsInto sl' := by
  intro key hkey
  obtain ⟨n, hn, hnk⟩ := h key hkey
  exact ⟨n, hsub hn, hnk⟩

/-- The current node splits the list. -/
theorem PointsInto.split {sl : Sl} (hsl : StrictBy Prod.fst sl.bottomLevel) {it : SlIterator}
    (h : it.PointsInto sl) :
    ∃ pre, sl.bottomLevel = pre ++ nodesFrom sl it.currentNode ∧
      ((nodesFrom sl it.currentNode).head?.map Prod.fst = it.currentNode ∨
        it.currentNode = none) := by
  cases hcur : it.currentNode with
  | none => exact ⟨sl.bottomLevel, by simp [nodesFrom], Or.inr rfl⟩
  | some key =>
    obtain ⟨n, hn, rfl⟩ := h key hcur
    obtain ⟨pre, next, hsplit⟩ := List.append_of_mem hn
    have hfrom : nodesFrom sl (some n.1) = n :: next := by
      rw [nodesFrom, hsplit]
      exact (hsplit ▸ hsl).dropWhile_ne
    exact ⟨pre, by rw [hfrom, hsplit], Or.inl (by rw [hfrom]; rfl)⟩

/-- In a strict list the rest is what lies between the current node and the end of the range. -/
theorem mem_rest {sl : Sl} (hsl : StrictBy Prod.fst sl.bottomLevel) {it : SlIterator}
    (h : it.PointsInto sl) (hact : it.active = true) {n : SlUint128 × Bytes} :
    n ∈ it.rest sl ↔
      n ∈ sl.bottomLevel ∧ n.1 ≤ it.endKey ∧ ∃ key, it.currentNode = some key ∧ key ≤ n.1 := by
  obtain ⟨pre, hsplit, hhead⟩ := h.split hsl
  rw [rest_of_active hact]
  cases hfrom : nodesFrom sl it.currentNode with
  | nil =>
    rw [hfrom] at hhead
    have hnone : it.currentNode = none := hhead.elim Eq.symm id
    simp [hnone]
  | cons m next =>
    rw [hfrom] at hhead hsplit
    have hcur : it.currentNode = some m.1 := by
      rcases hhead with h | h
      · exact h.symm
      · rw [h] at hfrom
        cases hfrom
    rw [hsplit] at hsl
    obtain ⟨-, hstrict, hpre⟩ := List.pairwise_append.mp hsl
    rw [(StrictBy.sortedBy hstrict).takeWhile_eq_rangeFilter m.1, mem_rangeFilter, hsplit]
    · constructor
      · rintro ⟨hn, hin⟩
        exact ⟨List.mem_append_right pre hn, hin.2, m.1, hcur, hin.1⟩
      · rintro ⟨hn, hle, key, hkey, hge⟩
        rw [hcur] at hkey
        cases hkey
        refine ⟨?_, hge, hle⟩
        rcases List.mem_append.mp hn with hn | hn
        · exact absurd hge (not_le.mpr (hpre n hn m List.mem_cons_self))
        · exact hn
    · intro x hx
      rcases List.mem_cons.mp hx with rfl | hx
      · exact le_refl _
      · exact le_of_lt ((strictBy_cons.mp hstrict).1 x hx)

theorem rest_subset_bottomLevel (sl : Sl) (it : SlIterator) : it.rest sl ⊆ sl.bottomLevel := by
  have hfrom : nodesFrom sl it.currentNode ⊆ sl.bottomLevel := by
    cases it.currentNode with
    | none => exact List.nil_subset _
    | some key => exact (List.dropWhile_sublist _).subset
  rw [rest]
  split
  · exact fun n hn => hfrom ((List.takeWhile_sublist _).subset hn)
  · exact List.nil_subset _

/-- A longer list only adds to the rest. -/
theorem rest_subset {sl sl' : Sl} (hsl : StrictBy Prod.fst sl.bottomLevel)
    (hsl' : StrictBy Prod.fst sl'.bottomLevel) {it : SlIterator} (h : it.PointsInto sl)
    (hsub : sl.bottomLevel ⊆ sl'.bottomLevel) : it.rest sl ⊆ it.rest sl' := by
  intro n hn
  cases hact : it.active with
  | false =>
    rw [rest_of_inactive hact] at hn
    cases hn
  | true =>
    rw [mem_rest hsl h hact] at hn
    rw [mem_rest hsl' (h.mono hsub) hact]
    exact ⟨hsub hn.1, hn.2⟩

end SlIterator

/-- One step of the iterator hands out the head of the rest. -/
structure SlNextSpec (sl : Sl) (it : SlIterator)
    (answer : Option (SlUint128 × Bytes) × SlIterator) : Prop where
  shown : answer.1 = (it.rest sl).head?
  tail : answer.2.rest sl = (it.rest sl).tail
  points : answer.2.PointsInto sl
  active : answer.1 ≠ none → answer.2.active = true

theorem slNextSpec_end {sl : Sl} {it : SlIterator} (hp : it.PointsInto sl)
    (hrest : it.rest sl = []) : SlNextSpec sl it (none, { it with active := false }) where
  shown := by simp [hrest]
  tail := by rw [hrest, SlIterator.rest_of_inactive rfl, List.tail_nil]
  points key hkey := hp key hkey
  active h := absurd rfl h

theorem slIteratorNext_spec {sl : Sl} (hsl : StrictBy Prod.fst sl.bottomLevel) {it : SlIterator}
    (hp : it.PointsInto sl) : SlNextSpec sl it (slIteratorNext sl it) := by
  rw [slIteratorNext]
  by_cases hact : it.active = false
  · rw [if_pos hact]
    have hrest := @SlIterator.rest_of_inactive sl _ hact
    exact ⟨by simp [hrest], by simp [hrest], hp, fun h => absurd rfl h⟩
  · have hact' : it.active = true := by simpa using hact
    rw [if_neg hact]
    obtain ⟨pre, hsplit, -⟩ := hp.split hsl
    have hrest := @SlIterator.rest_of_active sl _ hact'
    cases hfrom : nodesFrom sl it.currentNode with
    | nil =>
      rw [hfrom] at hrest
      exact slNextSpec_end hp hrest
    | cons node next =>
      rw [hfrom] at hrest hsplit
      by_cases hgt : keyCompare node.1 it.endKey > 0
      · have hle : ¬ node.1 ≤ it.endKey := not_le.mpr (keyCompare_pos_iff.mp hgt)
        rw [List.takeWhile_cons_of_neg (by simpa using hle)] at hrest
        simp only [if_pos hgt]
        exact slNextSpec_end hp hrest
      · have hle : node.1 ≤ it.endKey := not_lt.mp fun h => hgt (keyCompare_pos_iff.mpr h)
        rw [List.takeWhile_cons_of_pos (by simpa using hle)] at hrest
        simp only [if_neg hgt]
        have hnext : nodesFrom sl (next.head?.map Prod.fst) = next := by
          cases next with
          | nil => rfl
          | cons m next =>
            have hmove : pre ++ node :: m :: next = (pre ++ [node]) ++ m :: next := by simp
            rw [hmove] at hsplit
            show sl.bottomLevel.dropWhile (fun n => n.1 ≠ m.1) = m :: next
            rw [hsplit]
            exact (hsplit ▸ hsl).dropWhile_ne
        refine ⟨by simp [hrest], ?_, fun key hkey => ?_, fun _ => hact'⟩
        · rw [hrest, List.tail_cons]
          simp only [SlIterator.rest, hact', if_true, hnext]
        · obtain ⟨m, hm, hmk⟩ := Option.map_eq_some_iff.mp hkey
          have hmem : m ∈ next := List.mem_of_head? hm
          exact ⟨m, by rw [hsplit]; simp [hmem], hmk⟩

/-- The seek ends on the first node that is not below the start key. -/
theorem nodesFrom_find? {sl : Sl} (hsl : StrictBy Prod.fst sl.bottomLevel) (startKey : SlUint128) :
    nodesFrom sl ((sl.bottomLevel.find? fun n => ¬ keyCompare n.1 startKey < 0).map Prod.fst) =
      sl.bottomLevel.dropWhile fun n => n.1 < startKey := by
  have hfind : (sl.bottomLevel.find? fun n => ¬ keyCompare n.1 startKey < 0) =
      (sl.bottomLevel.dropWhile fun n => n.1 < startKey).head? := by
    rw [← List.find?_not_eq_head?_dropWhile]
    simp only [keyCompare_neg_iff, decide_not]
  rw [hfind]
  cases hdrop : sl.bottomLevel.dropWhile fun n => n.1 < startKey with
  | nil => rfl
  | cons n next =>
    have hsplit := List.takeWhile_append_dropWhile (p := fun n : SlUint128 × Bytes => n.1 < startKey)
      (l := sl.bottomLevel)
    rw [hdrop] at hsplit
    show sl.bottomLevel.dropWhile (fun m => m.1 ≠ n.1) = n :: next
    rw [← hsplit] at hsl ⊢
    exact hsl.dropWhile_ne

/-- A seek leaves the nodes of the range. -/
theorem rest_slIteratorSeek {sl : Sl} (h : sl.Wf) (it : SlIterator) (startKey endKey : SlUint128) :
    (slIteratorSeek sl it startKey endKey).2.rest sl =
      rangeFilter Prod.fst startKey endKey sl.bottomLevel := by
  rw [slIteratorSeek]
  split
  · rename_i hout
    simp only [keyCompare_neg_iff, keyCompare_pos_iff] at hout
    rw [SlIterator.rest_of_inactive rfl, rangeFilter_eq_nil]
    intro n hn hin
    rcases hout with hout | hout
    · exact absurd (le_trans hin.1 (h.le_maxKey n hn)) (not_le_of_gt hout)
    · exact absurd (le_trans (h.minKey_le n hn) hin.2) (not_le_of_gt hout)
  · rw [SlIterator.rest_of_active rfl, nodesFrom_find? h.strict,
      h.strict.sortedBy.dropWhile_takeWhile_eq_rangeFilter]

theorem pointsInto_slIteratorSeek {sl : Sl} {it : SlIterator} (hp : it.PointsInto sl)
    (startKey endKey : SlUint128) :
    (slIteratorSeek sl it startKey endKey).2.PointsInto sl := by
  rw [slIteratorSeek]
  split
  · exact fun key hkey => hp key hkey
  · intro key hkey
    obtain ⟨n, hn, hnk⟩ := Option.map_eq_some_iff.mp hkey
    exact ⟨n, List.mem_of_find?_eq_some hn, hnk⟩

/-! ## Memtable records as raw records -/

/-- `wrapper_sl_it_t`. -/
structure WrapperSlIt where
  slIt : SlIterator
  bufferedRecord : Option KvRawRecord

/-- `wr_sl_it_create`. -/
def wrSlItCreate (sl : Sl) : WrapperSlIt where
  slIt := slIteratorCreate sl
  bufferedRecord := none

/-- `wr_sl_iterator_seek`. -/
def wrSlIteratorSeek (sl : Sl) (wrap : WrapperSlIt) (startKey endKey : SlUint128) :
    Bool × WrapperSlIt :=
  let (active, slIt) := slIteratorSeek sl wrap.slIt startKey endKey
  (active, ⟨slIt, none⟩)

/-- `wr_sl_ensure_buffered`; `none` when the copy would leave the stored content. -/
def wrSlEnsureBuffered (sl : Sl) (wrap : WrapperSlIt) : Option WrapperSlIt :=
  if wrap.slIt.active = false ∨ wrap.bufferedRecord.isSome then some wrap
  else
    match slIteratorNext sl wrap.slIt with
    | (none, slIt) => some ⟨slIt, none⟩
    | (some node, slIt) => if Readable node.2 then some ⟨slIt, some (rawOf node)⟩ else none

namespace WrapperSlIt

/-- The records the wrapper still hands out. -/
def remaining (sl : Sl) (wrap : WrapperSlIt) : List KvRawRecord :=
  wrap.bufferedRecord.toList ++ (wrap.slIt.rest sl).map rawOf

end WrapperSlIt

/-- What buffering the next record leaves behind. -/
structure EnsureBufferedSpec (sl : Sl) (wrap wrap' : WrapperSlIt) : Prop where
  shown : wrap'.bufferedRecord = (wrap.remaining sl).head?
  same : wrap'.remaining sl = wrap.remaining sl
  points : wrap'.slIt.PointsInto sl

theorem wrSlEnsureBuffered_spec {sl : Sl} (hsl : sl.Wf)
    (hread : ∀ n ∈ sl.bottomLevel, Readable n.2) {wrap : WrapperSlIt}
    (hp : wrap.slIt.PointsInto sl) :
    ∃ wrap', wrSlEnsureBuffered sl wrap = some wrap' ∧ EnsureBufferedSpec sl wrap wrap' := by
  obtain ⟨slIt, bufferedRecord⟩ := wrap
  rw [wrSlEnsureBuffered]
  cases bufferedRecord with
  | some rec => exact ⟨_, if_pos (Or.inr rfl), ⟨rfl, rfl, hp⟩⟩
  | none =>
    by_cases hact : slIt.active = false
    · have hrest := @SlIterator.rest_of_inactive sl _ hact
      exact ⟨_, if_pos (Or.inl hact), ⟨by simp [WrapperSlIt.remaining, hrest], rfl, hp⟩⟩
    · rw [if_neg (by simpa using hact)]
      have hspec := slIteratorNext_spec hsl.strict hp
      cases hnext : slIteratorNext sl slIt with
      | mk answer slIt' =>
        rw [hnext] at hspec
        obtain ⟨hshown, htail, hpoints, hactive⟩ := hspec
        simp only at hshown htail hpoints
        cases answer with
        | none =>
          have hnil : slIt.rest sl = [] := List.head?_eq_none_iff.mp hshown.symm
          rw [hnil, List.tail_nil] at htail
          exact ⟨_, rfl, ⟨by simp [WrapperSlIt.remaining, hnil],
            by simp [WrapperSlIt.remaining, hnil, htail], hpoints⟩⟩
        | some node =>
          obtain ⟨next, hrest⟩ := List.head?_eq_some_iff.mp hshown.symm
          rw [hrest, List.tail_cons] at htail
          have hnode : node ∈ sl.bottomLevel :=
            SlIterator.rest_subset_bottomLevel sl slIt (by rw [hrest]; exact List.mem_cons_self)
          refine ⟨_, if_pos (hread node hnode), ?_, ?_, hpoints⟩
          · simp [WrapperSlIt.remaining, hrest]
          · simp [WrapperSlIt.remaining, hrest, htail]

theorem remaining_wrSlIteratorSeek {sl : Sl} (h : sl.Wf) (wrap : WrapperSlIt)
    (startKey endKey : SlUint128) :
    (wrSlIteratorSeek sl wrap startKey endKey).2.remaining sl =
      (rangeFilter Prod.fst startKey endKey sl.bottomLevel).map rawOf := by
  simp only [wrSlIteratorSeek, WrapperSlIt.remaining, rest_slIteratorSeek h, Option.toList_none,
    List.nil_append]

theorem WrapperSlIt.remaining_subset {sl sl' : Sl} (hsl : StrictBy Prod.fst sl.bottomLevel)
    (hsl' : StrictBy Prod.fst sl'.bottomLevel) {wrap : WrapperSlIt}
    (h : wrap.slIt.PointsInto sl) (hsub : sl.bottomLevel ⊆ sl'.bottomLevel) :
    wrap.remaining sl ⊆ wrap.remaining sl' := by
  intro r hr
  rcases List.mem_append.mp hr with hr | hr
  · exact List.mem_append_left _ hr
  · obtain ⟨n, hn, rfl⟩ := List.mem_map.mp hr
    exact List.mem_append_right _
      (List.mem_map_of_mem (SlIterator.rest_subset hsl hsl' h hsub hn))

/-! ## Flushing a memtable -/

/-- The outcomes of `memtable_to_disk`: result code 1 for an empty memtable, a written SST, or a copy
that leaves the stored content. -/
inductive FlushResult where
  | writeError
  | written (sst : SstMetadataRecord)
  | undefined

/-- `memtable_to_disk`. -/
def memtableToDisk (memtable : Sl) : FlushResult :=
  if memtable.bottomLevel = [] then .writeError
  else if ∀ n ∈ memtable.bottomLevel, Copyable n.2 then
    .written (writeSst 0 0 (memtable.bottomLevel.map dumpOf))
  else .undefined

theorem strictBy_map_rawOf {l : List (SlUint128 × Bytes)} :
    StrictBy KvRawRecord.key (l.map rawOf) ↔ StrictBy Prod.fst l := List.pairwise_map

/-- The records are the ones that a scan hands out, as far as their sizes have 32 bits. -/
theorem map_dumpOf_eq {l : List (SlUint128 × Bytes)} (h : ∀ n ∈ l, 21 + contentLen n.2 < 2 ^ 32) :
    l.map dumpOf = l.map rawOf := List.map_congr_left fun n hn => dumpOf_eq_rawOf (h n hn)

/-- A memtable with readable contents whose records have sizes of 32 bits is written out completely. -/
theorem memtableToDisk_eq_written {sl : Sl} (h : sl.Wf)
    (hread : ∀ n ∈ sl.bottomLevel, Readable n.2 ∧ 21 + contentLen n.2 < 2 ^ 32)
    (hne : sl.bottomLevel ≠ []) :
    ∃ sst, memtableToDisk sl = .written sst ∧ sst.level = 0 ∧
      SstHolds sst (sl.bottomLevel.map rawOf) := by
  have hcopy : ∀ n ∈ sl.bottomLevel, Copyable n.2 := fun n hn => copyable_of_readable (hread n hn)
  refine ⟨_, by rw [memtableToDisk, if_neg hne, if_pos hcopy,
    map_dumpOf_eq fun n hn => (hread n hn).2], rfl, ?_⟩
  apply sstHolds_writeSst
  · intro r hr
    obtain ⟨n, hn, rfl⟩ := List.mem_map.mp hr
    exact rawOf_wf (hread n hn).1
  · intro r hr
    obtain ⟨n, hn, rfl⟩ := List.mem_map.mp hr
    rw [totalSize_rawOf (hread n hn).1]
    exact (hread n hn).2
  · intro r hr
    obtain ⟨n, hn, rfl⟩ := List.mem_map.mp hr
    exact SlUint128.zero_lt_of_id_ne_zero (h.id_ne_zero n hn)
  · exact (strictBy_map_rawOf.mpr h.strict).sortedBy

end RaftLsmt.Lsmt
