import RaftLsmt.Lsmt.Skiplist

/-!
# The two lookups of a skip list

`sl_get` walks a level from the first node behind the sentinel, or from the node below the last one in
front of the key; where a level has nothing in front of the key it starts over behind the sentinel of
the next one. `sl_iterator_seek` never leaves the last node in front of its range, and
`sl_iterator_next` goes on along the bottom level.

`slGet_spec` and `slRange_spec` say what both read off the records, and `lookups_agree` what they
answer behind any insertions. The loop of `sl_get` ends on a level that is empty, so it needs that only
the bottom level can be (`Occupied`).
-/

set_option autoImplicit false

namespace RaftLsmt.Lsmt.Skip

open RaftLsmt.Lib.SkipLevels
open RaftLsmt.Lib.SortedMerge
open RaftLsmt.Lib.StepMachine

/-! ## `sl_get` -/

/-- The loop along a level: `prev`, if any, and `current` where the keys stop being smaller. -/
def getAdvance (heap : Heap) (key : SlUint128) :
    Nat → Option Nat → Option Nat → Option (Option Nat × Option Nat)
  | 0, _, _ => none
  | _ + 1, prev, none => some (prev, none)
  | fuel + 1, prev, some current =>
    match heap current with
    | none => none
    | some node =>
      if keyCompare node.key key < 0 then getAdvance heap key fuel (some current) node.next
      else some (prev, some current)

/-- `current->content`. -/
def currentContent (heap : Heap) : Option Nat → Option (Option Bytes)
  | none => none
  | some current => (heap current).map Node.content

/-- Where the next level starts. Without a level below, `current` stays. -/
def getDescend (heap : Heap) (head : Node) (prev current : Option Nat) : Option (Option Nat) :=
  match prev with
  | none =>
    match head.lowerLevel with
    | none => some current
    | some below => (heap below).map Node.next
  | some prev => (heap prev).map Node.lowerLevel

/-- The loop over the levels, with `fuel` of them to go and `steps` nodes on each at most. It ends on a
level where there is no node to start at. -/
def getLevels (heap : Heap) (key : SlUint128) (steps : Nat) :
    Nat → Option Nat → Option Nat → Option (Option Bytes)
  | 0, _, _ => none
  | _ + 1, none, _ => some none
  | _ + 1, some _, none => some none
  | fuel + 1, some lvlHead, some current =>
    match getAdvance heap key steps none (some current) with
    | none => none
    | some (prev, current) =>
      match isKey heap key current with
      | none => none
      | some true => currentContent heap current
      | some false =>
        match heap lvlHead with
        | none => none
        | some head =>
          match getDescend heap head prev current with
          | none => none
          | some current => getLevels heap key steps fuel head.lowerLevel current

/-- `sl_get`: `some none` for `NULL`, and `none` when it leaves defined behaviour. -/
def slGet (sl : Skiplist) (key : SlUint128) : Option (Option Bytes) :=
  match sl.heap sl.topLevel with
  | none => none
  | some top =>
    getLevels sl.heap key (sl.nextAddr + 1) (sl.levels + 1) (some sl.topLevel) top.next

/-! ## The iterator -/

/-- `sl_iterator_t` on a list that is there. -/
structure SkipIterator where
  active : Bool
  currentNode : Option Nat
  startKey : SlUint128
  endKey : SlUint128

/-- `sl_kv_t`. -/
abbrev SlKv := SlUint128 × Option Bytes

/-- `sl_iterator_create`. -/
def slIteratorCreate (sl : Skiplist) : SkipIterator where
  active := false
  currentNode := none
  startKey := sl.minKey
  endKey := sl.maxKey

/-- The descent of `sl_iterator_seek` from `current`: the last node in front of the key. -/
def seekLevels (heap : Heap) (key : SlUint128) (steps : Nat) : Nat → Nat → Option Nat
  | 0, _ => none
  | fuel + 1, current =>
    match heap current with
    | none => none
    | some node =>
      match advance heap key steps current node.next with
      | none => none
      | some (current, _) =>
        match heap current with
        | none => none
        | some node =>
          match node.lowerLevel with
          | none => some current
          | some lowerLevel => seekLevels heap key steps fuel lowerLevel

/-- `sl_iterator_seek`. -/
def slIteratorSeek (sl : Skiplist) (it : SkipIterator) (startKey endKey : SlUint128) :
    Option (Bool × SkipIterator) :=
  if keyCompare sl.maxKey startKey < 0 ∨ keyCompare sl.minKey endKey > 0 then
    some (false, { it with active := false })
  else
    match seekLevels sl.heap startKey (sl.nextAddr + 1) sl.levels sl.topLevel with
    | none => none
    | some current =>
      (sl.heap current).map fun node =>
        (true, { active := true, currentNode := node.next, startKey := startKey, endKey := endKey })

/-- `sl_iterator_next`; the record is all zero when there is none. -/
def slIteratorNext (heap : Heap) (it : SkipIterator) : Option (SlKv × SkipIterator) :=
  if it.active = false then some ((SlUint128.zero, none), it)
  else
    match it.currentNode with
    | none => some ((SlUint128.zero, none), { it with active := false })
    | some current =>
      match heap current with
      | none => none
      | some node =>
        if keyCompare node.key it.endKey > 0 then
          some ((SlUint128.zero, none), { it with active := false })
        else some ((node.key, node.content), { it with currentNode := node.next })

/-- The records of `sl_iterator_next` until the iterator is inactive. -/
def slIteratorDrain (heap : Heap) : Nat → SkipIterator → Option (List SlKv)
  | 0, _ => none
  | fuel + 1, it =>
    match slIteratorNext heap it with
    | none => none
    | some (record, it) =>
      if it.active then (slIteratorDrain heap fuel it).map (record :: ·) else some []

/-- A seek with the calls of `sl_iterator_next` behind it. -/
def slRange (sl : Skiplist) (it : SkipIterator) (startKey endKey : SlUint128) :
    Option (List SlKv) :=
  match slIteratorSeek sl it startKey endKey with
  | none => none
  | some (_, it) => slIteratorDrain sl.heap (sl.nextAddr + 1) it

/-! ## The descent of `sl_get` -/

/-- The loop along a level stops in front of the first key that is not smaller. -/
theorem getAdvance_spec {heap : Heap} {key : SlUint128} {steps : Nat} {ys : List Cell}
    (hchain : Chain heap ys) (hstrict : StrictBy Cell.key ys) (hsteps : ys.length < steps)
    (prev : Option Nat) :
    ∃ ws zs, ys = ws ++ zs ∧ (∀ w ∈ ws, w.key < key) ∧ (∀ z ∈ zs, key ≤ z.key) ∧
      getAdvance heap key steps prev (first ys) =
        some ((ws.getLast?.map Cell.addr).or prev, first zs) := by
  induction ys generalizing steps prev with
  | nil =>
    obtain ⟨steps, rfl⟩ := Nat.exists_eq_succ_of_ne_zero (Nat.ne_zero_of_lt hsteps)
    exact ⟨[], [], rfl, by simp, by simp, rfl⟩
  | cons y ys ih =>
    obtain ⟨steps, rfl⟩ := Nat.exists_eq_succ_of_ne_zero (Nat.ne_zero_of_lt hsteps)
    obtain ⟨hnode, hrest⟩ := hchain
    obtain ⟨hy, hys⟩ := strictBy_cons.mp hstrict
    rw [first_cons, getAdvance, hnode]
    by_cases hlt : y.key < key
    · obtain ⟨ws, zs, rfl, hws, hzs, hadvance⟩ :=
        ih hrest hys (Nat.lt_of_succ_lt_succ hsteps) (some y.addr)
      refine ⟨y :: ws, zs, rfl, ?_, hzs, ?_⟩
      · intro w hw
        rcases List.mem_cons.mp hw with rfl | hw
        · exact hlt
        · exact hws w hw
      · refine (if_pos (keyCompare_neg_iff.mpr hlt)).trans (hadvance.trans ?_)
        cases ws using List.reverseRecOn with
        | nil => rfl
        | append_singleton ws w => simp [List.getLast?_cons]
    · refine ⟨[], y :: ys, rfl, by simp, ?_, if_neg fun hneg => hlt (keyCompare_neg_iff.mp hneg)⟩
      intro z hz
      rcases List.mem_cons.mp hz with rfl | hz
      · exact not_lt.mp hlt
      · exact le_trans (not_lt.mp hlt) (le_of_lt (hy z hz))

/-- What a lookup may answer: the content of a cell behind the sentinel of the bottom level, or `NULL`
where none of them has the key. -/
def Answers (level : Nat → List Cell) (key : SlUint128) (content : Option Bytes) : Prop :=
  (∃ c ∈ level 0, SlUint128.zero < c.key ∧ c.key = key ∧ c.content = content) ∨
    content = none ∧ ∀ c ∈ level 0, SlUint128.zero < c.key → c.key ≠ key

namespace Shaped

variable {sl : Skiplist} {level : Nat → List Cell}

/-- The cells behind a sentinel have greater keys. -/
theorem pos_of_mem (h : Shaped sl level) {i : Nat} (hi : i < sl.levels) {head : Cell}
    {cells : List Cell} (hhead : level i = head :: cells) (hzero : head.key = SlUint128.zero)
    {c : Cell} (hc : c ∈ cells) : SlUint128.zero < c.key := by
  have hstrict := h.tower.strict i hi
  rw [hhead] at hstrict
  rw [← hzero]
  exact (strictBy_cons.mp hstrict).1 c hc

theorem mem_of_pos {head : Cell} {cells : List Cell} (hzero : head.key = SlUint128.zero) {c : Cell}
    (hc : c ∈ head :: cells) (hpos : SlUint128.zero < c.key) : c ∈ cells := by
  rcases List.mem_cons.mp hc with rfl | hc
  · rw [hzero] at hpos
    exact absurd hpos (lt_irrefl _)
  · exact hc

/-- A key found on any level is that of a record. -/
theorem answers_of_mem (h : Shaped sl level) {key : SlUint128} {i : Nat} (hi : i < sl.levels)
    {c : Cell} (hc : c ∈ level i) (hpos : SlUint128.zero < c.key) (hkey : c.key = key) :
    Answers level key c.content := by
  obtain ⟨d, hd, hsame, hcontent⟩ := h.tower.exists_below hi hc (Nat.zero_le i)
  exact Or.inl ⟨d, hd, hsame ▸ hpos, hsame.trans hkey, hcontent⟩

/-- One level of the lookup: it finds the key, or goes down from the last node in front of it. -/
theorem getLevels_turn (h : Shaped sl level) (key : SlUint128) {i : Nat} (hi : i < sl.levels)
    (fuel : Nat) {head : Cell} {cells xs ys : List Cell} (hhead : level i = head :: cells)
    (hcells : cells = xs ++ ys) (hne : ys ≠ []) :
    (∃ c ∈ cells, c.key = key ∧
        getLevels sl.heap key (sl.nextAddr + 1) (fuel + 1) (some head.addr) (first ys) =
          some c.content) ∨
      ∃ ws zs, ys = ws ++ zs ∧ (∀ w ∈ ws, w.key < key) ∧ (∀ z ∈ zs, key < z.key) ∧
        getLevels sl.heap key (sl.nextAddr + 1) (fuel + 1) (some head.addr) (first ys) =
          (getDescend sl.heap (head.node (first cells)) (ws.getLast?.map Cell.addr) (first zs)).bind
            (getLevels sl.heap key (sl.nextAddr + 1) fuel head.lowerLevel) := by
  have hlength := h.tower.length_le hi
  have hchain := h.tower.chain i hi
  have hstrict := h.tower.strict i hi
  rw [hhead] at hchain hstrict hlength
  have hnode : sl.heap head.addr = some (head.node (first cells)) := hchain.1
  have hbehind : Chain sl.heap cells := hchain.2
  have hsorted := (strictBy_cons.mp hstrict).2
  rw [hcells] at hbehind hsorted hlength
  rw [List.length_cons, List.length_append] at hlength
  -- the loop stops in front of the first node that is not below the key
  obtain ⟨ws, zs, hys, hws, hzs, hadvance⟩ := @getAdvance_spec sl.heap key (sl.nextAddr + 1) ys
    hbehind.append (hsorted.sublist (List.sublist_append_right xs ys)) (by omega) none
  have hzchain : Chain sl.heap zs := (hys ▸ hbehind.append : Chain sl.heap (ws ++ zs)).append
  have hzstrict : StrictBy Cell.key zs := hsorted.sublist
    ((hys ▸ List.sublist_append_right ws zs).trans (List.sublist_append_right xs ys))
  obtain ⟨y, ys', hy⟩ := List.exists_cons_of_ne_nil hne
  have hstart : first ys = some y.addr := congrArg first hy
  rw [Option.or_none, hstart] at hadvance
  rw [hstart, getLevels, hadvance]
  rcases isKey_first hzchain hzstrict hzs with ⟨hfound, z, hz, hkey⟩ | ⟨hmissing, hgt⟩
  · -- the key is that of the node the loop stopped at
    obtain ⟨c, zs, rfl⟩ := List.exists_cons_of_ne_nil (List.ne_nil_of_mem hz)
    obtain ⟨hcnode, -⟩ := hzchain
    refine Or.inl ⟨c, ?_, ?_, ?_⟩
    · rw [hcells, hys]
      simp
    · apply le_antisymm
      · rw [← hkey]
        rcases List.mem_cons.mp hz with rfl | hz
        · exact le_refl _
        · exact le_of_lt ((strictBy_cons.mp hzstrict).1 z hz)
      · exact hzs c List.mem_cons_self
    · rw [first_cons] at hfound
      simp only [hfound, first_cons, currentContent, hcnode]
      rfl
  · refine Or.inr ⟨ws, zs, hys, hws, hgt, ?_⟩
    simp only [hmissing, hnode]
    cases getDescend sl.heap (head.node (first cells)) (ws.getLast?.map Cell.addr) (first zs) with
    | none => rfl
    | some current => rfl

/-- The lookup from level `i` on. -/
theorem getLevels_spec (h : Shaped sl level) {key : SlUint128} {i : Nat} (hi : i < sl.levels)
    {fuel : Nat} (hfuel : i + 1 < fuel) {head : Cell} {cells xs ys : List Cell}
    (hhead : level i = head :: cells) (hzero : head.key = SlUint128.zero) (hcells : cells = xs ++ ys)
    (hxs : ∀ x ∈ xs, x.key < key) (hne : ys ≠ []) :
    ∃ content, getLevels sl.heap key (sl.nextAddr + 1) fuel (some head.addr) (first ys) =
      some content ∧ Answers level key content := by
  induction i generalizing fuel head cells xs ys with
  | zero =>
    obtain ⟨fuel, rfl⟩ : ∃ k, fuel = k + 2 := ⟨fuel - 2, by omega⟩
    rcases h.getLevels_turn key hi (fuel + 1) hhead hcells hne with
      ⟨c, hc, hkey, hget⟩ | ⟨ws, zs, rfl, hws, hgt, hturn⟩
    · exact ⟨c.content, hget, h.answers_of_mem hi (hhead ▸ List.mem_cons_of_mem _ hc)
        (h.pos_of_mem hi hhead hzero hc) hkey⟩
    · have hbottom : head.lowerLevel = none := h.tower.bottom head (hhead ▸ List.mem_cons_self)
      refine ⟨none, ?_, Or.inr ⟨rfl, ?_⟩⟩
      · rw [hturn, hbottom]
        cases ws using List.reverseRecOn with
        | nil =>
          simp only [List.getLast?_nil, Option.map_none, getDescend, Cell.node, hbottom,
            Option.bind_some]
          rfl
        | append_singleton ws q =>
          have hq : q ∈ level 0 := by
            rw [hhead, hcells]
            simp
          obtain ⟨next, hqnode⟩ := (h.tower.chain 0 hi).exists_node hq
          simp only [List.getLast?_concat, Option.map_some, getDescend, hqnode, Option.bind_some]
          rfl
      · intro c hc hpos
        have hc' := mem_of_pos hzero (hhead ▸ hc) hpos
        rw [hcells] at hc'
        rcases List.mem_append.mp hc' with hx | hc'
        · exact ne_of_lt (hxs c hx)
        · rcases List.mem_append.mp hc' with hw | hz
          · exact ne_of_lt (hws c hw)
          · exact ne_of_gt (hgt c hz)
  | succ i ih =>
    obtain ⟨fuel, rfl⟩ : ∃ k, fuel = k + 1 := ⟨fuel - 1, by omega⟩
    have hi' : i < sl.levels := Nat.lt_of_succ_lt hi
    obtain ⟨below, cells', hbelow, hzero', hlower⟩ := h.head_down hi hhead hzero
    -- a key of this level is behind the sentinel of the next one
    have hdown : ∀ q ∈ cells, ∃ d ∈ cells', q.lowerLevel = some d.addr ∧ d.key = q.key := by
      intro q hq
      obtain ⟨d, hd, hqlower, hsame, -⟩ := h.tower.down i hi q (hhead ▸ List.mem_cons_of_mem _ hq)
      refine ⟨d, ?_, hqlower, hsame⟩
      exact mem_of_pos hzero' (hbelow ▸ hd) (hsame ▸ h.pos_of_mem hi hhead hzero hq)
    rcases h.getLevels_turn key hi fuel hhead hcells hne with
      ⟨c, hc, hkey, hget⟩ | ⟨ws, zs, rfl, hws, hgt, hturn⟩
    · exact ⟨c.content, hget, h.answers_of_mem hi (hhead ▸ List.mem_cons_of_mem _ hc)
        (h.pos_of_mem hi hhead hzero hc) hkey⟩
    · rw [hturn, hlower]
      cases ws using List.reverseRecOn with
      | nil =>
        -- nothing in front of the key: the next level from behind its sentinel
        obtain ⟨y, ys, hy⟩ := List.exists_cons_of_ne_nil hne
        obtain ⟨d, hd, -⟩ := hdown y (by rw [hcells, hy]; simp)
        have hbnode := h.tower.chain i hi'
        rw [hbelow] at hbnode
        have hdescend : getDescend sl.heap (head.node (first cells)) none (first zs) =
            some (first cells') := by
          simp only [getDescend, Cell.node, hlower, hbnode.1, Option.map_some]
        simp only [List.getLast?_nil, Option.map_none, hdescend, Option.bind_some]
        exact ih hi' (by omega) hbelow hzero' (List.nil_append cells').symm
          (fun x hx => absurd hx List.not_mem_nil) (List.ne_nil_of_mem hd)
      | append_singleton ws q =>
        have hq : q ∈ cells := by
          rw [hcells]
          simp
        have hqkey : q.key < key := hws q (by simp)
        obtain ⟨d, hd, hqlower, hsame⟩ := hdown q hq
        obtain ⟨xs', ys', hsplit⟩ := List.append_of_mem hd
        obtain ⟨next, hqnode⟩ :=
          (h.tower.chain (i + 1) hi).exists_node (hhead ▸ List.mem_cons_of_mem _ hq)
        have hstrict := h.tower.strict i hi'
        rw [hbelow, hsplit] at hstrict
        have hcross := (List.pairwise_append.mp (strictBy_cons.mp hstrict).2).2.2
        simp only [List.getLast?_concat, Option.map_some, getDescend, hqnode, Option.bind_some,
          Cell.node, hqlower]
        refine ih hi' (by omega) hbelow hzero' hsplit ?_ (List.cons_ne_nil d ys')
        intro x hx
        exact lt_trans (hcross x hx d List.mem_cons_self) (hsame ▸ hqkey)

/-- `sl_get` where only the bottom level can be empty. -/
theorem slGet_answers (h : Shaped sl level) (hocc : Occupied sl level) (key : SlUint128) :
    ∃ content, slGet sl key = some content ∧ Answers level key content := by
  have hlast : sl.levels - 1 < sl.levels := Nat.sub_lt h.tower.pos Nat.one_pos
  obtain ⟨head, cells, hhead, hzero⟩ := h.tower.sentinel (sl.levels - 1) hlast
  have htop := h.top
  rw [hhead] at htop
  have htop : head.addr = sl.topLevel := Option.some.inj htop
  have hchain := h.tower.chain (sl.levels - 1) hlast
  rw [hhead] at hchain
  rw [slGet, ← htop, hchain.1]
  cases cells with
  | nil =>
    -- an empty level is the only one
    refine ⟨none, rfl, Or.inr ⟨rfl, ?_⟩⟩
    have hone : sl.levels - 1 = 0 := by
      by_contra hpos
      obtain ⟨c, hc, hkey⟩ := hocc _ (Nat.pos_of_ne_zero hpos) hlast
      exact absurd (mem_of_pos hzero (hhead ▸ hc) hkey) List.not_mem_nil
    rw [hone] at hhead
    intro c hc hpos
    exact absurd (mem_of_pos hzero (hhead ▸ hc) hpos) List.not_mem_nil
  | cons c cells =>
    exact h.getLevels_spec hlast (by omega) hhead hzero (List.nil_append _).symm
      (fun x hx => absurd hx List.not_mem_nil) (List.cons_ne_nil c cells)

end Shaped

namespace Represents

variable {sl : Skiplist} {level : Nat → List Cell} {m : Sl}

/-- The cells behind the sentinel of the bottom level are those of the records. -/
theorem mem_level_iff (h : Represents sl level m) (hm : m.Wf) {key : SlUint128}
    {content : Option Bytes} :
    (∃ c ∈ level 0, SlUint128.zero < c.key ∧ c.key = key ∧ c.content = content) ↔
      ∃ bytes, content = some bytes ∧ (key, bytes) ∈ m.bottomLevel := by
  constructor
  · rintro ⟨c, hc, hpos, rfl, rfl⟩
    have hmem : data c ∈ (level 0).map data := List.mem_map_of_mem hc
    rw [h.records] at hmem
    rcases List.mem_cons.mp hmem with hzero | hmem
    · rw [show c.key = SlUint128.zero from congrArg Prod.fst hzero] at hpos
      exact absurd hpos (lt_irrefl _)
    · obtain ⟨r, hr, heq⟩ := List.mem_map.mp hmem
      obtain ⟨hkey, hcontent⟩ := Prod.mk.inj heq
      refine ⟨r.2, hcontent.symm, ?_⟩
      rw [← hkey]
      exact hr
  · rintro ⟨bytes, rfl, hr⟩
    have hmem : stored (key, bytes) ∈ (level 0).map data := by
      rw [h.records]
      exact List.mem_cons_of_mem _ (List.mem_map_of_mem hr)
    obtain ⟨c, hc, heq⟩ := List.mem_map.mp hmem
    obtain ⟨hkey, hcontent⟩ := Prod.mk.inj heq
    refine ⟨c, hc, ?_, hkey, hcontent⟩
    rw [hkey]
    exact SlUint128.zero_lt_of_id_ne_zero (hm.id_ne_zero _ hr)

/-- `sl_get` is the lookup in the records. -/
theorem slGet_spec (h : Represents sl level m) (hm : m.Wf) (hocc : Occupied sl level)
    (key : SlUint128) :
    ∃ content, slGet sl key = some content ∧
      ∀ bytes, content = some bytes ↔ (key, bytes) ∈ m.bottomLevel := by
  obtain ⟨content, hget, hanswers⟩ := h.shaped.slGet_answers hocc key
  refine ⟨content, hget, ?_⟩
  intro bytes
  rcases hanswers with hfound | ⟨rfl, hnone⟩
  · obtain ⟨bytes', rfl, hr⟩ := (h.mem_level_iff hm).mp hfound
    constructor
    · intro heq
      rw [← Option.some.inj heq]
      exact hr
    · intro hr'
      have heq := List.inj_on_of_nodup_map hm.strict.nodup_keys hr hr' rfl
      exact congrArg some (Prod.mk.inj heq).2
  · refine iff_of_false (Option.some_ne_none bytes).symm fun hr => ?_
    obtain ⟨c, hc, hpos, hkey, -⟩ := (h.mem_level_iff hm).mpr ⟨bytes, rfl, hr⟩
    exact hnone c hc hpos hkey

end Represents

/-! ## The range of the iterator -/

/-- The loop along a level from a node of it. -/
theorem advance_from {heap : Heap} {key : SlUint128} {steps : Nat} {q : Cell} {ys : List Cell}
    (hchain : Chain heap (q :: ys)) (hstrict : StrictBy Cell.key (q :: ys))
    (hsteps : ys.length < steps) :
    ∃ us p zs, q :: ys = us ++ p :: zs ∧ (p = q ∨ p.key < key) ∧ (∀ z ∈ zs, key ≤ z.key) ∧
      advance heap key steps q.addr (first ys) = some (p.addr, first zs) := by
  induction ys generalizing q steps with
  | nil =>
    obtain ⟨steps, rfl⟩ := Nat.exists_eq_succ_of_ne_zero (Nat.ne_zero_of_lt hsteps)
    exact ⟨[], q, [], rfl, Or.inl rfl, by simp, rfl⟩
  | cons y ys ih =>
    obtain ⟨steps, rfl⟩ := Nat.exists_eq_succ_of_ne_zero (Nat.ne_zero_of_lt hsteps)
    obtain ⟨-, hrest⟩ := hchain
    obtain ⟨-, hys⟩ := strictBy_cons.mp hstrict
    rw [first_cons, advance, hrest.1]
    by_cases hlt : y.key < key
    · obtain ⟨us, p, zs, heq, hp, hzs, hadvance⟩ := ih hrest hys (Nat.lt_of_succ_lt_succ hsteps)
      refine ⟨q :: us, p, zs, congrArg (q :: ·) heq, Or.inr ?_, hzs, ?_⟩
      · rcases hp with rfl | hp
        · exact hlt
        · exact hp
      · exact (if_pos (keyCompare_neg_iff.mpr hlt)).trans hadvance
    · refine ⟨[], q, y :: ys, rfl, Or.inl rfl, ?_, if_neg fun hneg => hlt (keyCompare_neg_iff.mp hneg)⟩
      intro z hz
      rcases List.mem_cons.mp hz with rfl | hz
      · exact not_lt.mp hlt
      · exact le_trans (not_lt.mp hlt) (le_of_lt ((strictBy_cons.mp hys).1 z hz))

/-- One level of the descent: it goes on to the last cell in front of the key and down from there. -/
theorem Shaped.seekLevels_turn {sl : Skiplist} {level : Nat → List Cell} (h : Shaped sl level)
    {key : SlUint128} {i : Nat} (hi : i < sl.levels) {q : Cell} (hq : q ∈ level i)
    (hbefore : q.key = SlUint128.zero ∨ q.key < key) (fuel : Nat) :
    ∃ us p zs, level i = us ++ p :: zs ∧ (p.key = SlUint128.zero ∨ p.key < key) ∧
      (∀ z ∈ zs, key ≤ z.key) ∧
      seekLevels sl.heap key (sl.nextAddr + 1) (fuel + 1) q.addr =
        match p.lowerLevel with
        | none => some p.addr
        | some below => seekLevels sl.heap key (sl.nextAddr + 1) fuel below := by
  obtain ⟨xs, ys, hlevel⟩ := List.append_of_mem hq
  have hchain := h.tower.chain i hi
  have hstrict := h.tower.strict i hi
  have hlength := h.tower.length_le hi
  rw [hlevel] at hchain hstrict hlength
  rw [List.length_append, List.length_cons] at hlength
  obtain ⟨us, p, zs, hsplit, hp, hzs, hadvance⟩ := @advance_from sl.heap key (sl.nextAddr + 1) q ys
    hchain.append (hstrict.sublist (List.sublist_append_right xs (q :: ys))) (by omega)
  have hlevel' : level i = (xs ++ us) ++ p :: zs := by
    rw [hlevel, hsplit, List.append_assoc]
  refine ⟨xs ++ us, p, zs, hlevel', ?_, hzs, ?_⟩
  · rcases hp with rfl | hp
    · exact hbefore
    · exact Or.inr hp
  · have hnode : sl.heap q.addr = some (q.node (first ys)) := hchain.node_eq
    have hpnode : sl.heap p.addr = some (p.node (first zs)) := by
      have hchain' := h.tower.chain i hi
      rw [hlevel'] at hchain'
      exact hchain'.node_eq
    rw [seekLevels]
    simp only [hnode, Cell.node, hadvance, hpnode]

/-- The descent ends at the last cell of the bottom level in front of the key, the sentinel at least. -/
theorem Shaped.seekLevels_spec {sl : Skiplist} {level : Nat → List Cell} (h : Shaped sl level)
    {key : SlUint128} {i : Nat} (hi : i < sl.levels) {fuel : Nat} (hfuel : i < fuel) {q : Cell}
    (hq : q ∈ level i) (hbefore : q.key = SlUint128.zero ∨ q.key < key) :
    ∃ us p zs, level 0 = us ++ p :: zs ∧ (p.key = SlUint128.zero ∨ p.key < key) ∧
      (∀ z ∈ zs, key ≤ z.key) ∧
      seekLevels sl.heap key (sl.nextAddr + 1) fuel q.addr = some p.addr := by
  induction i generalizing fuel q with
  | zero =>
    obtain ⟨fuel, rfl⟩ := Nat.exists_eq_succ_of_ne_zero (Nat.ne_zero_of_lt hfuel)
    obtain ⟨us, p, zs, hlevel, hp, hzs, hturn⟩ := h.seekLevels_turn hi hq hbefore fuel
    have hbottom : p.lowerLevel = none := by
      apply h.tower.bottom
      rw [hlevel]
      simp
    refine ⟨us, p, zs, hlevel, hp, hzs, ?_⟩
    rw [hturn, hbottom]
  | succ i ih =>
    obtain ⟨fuel, rfl⟩ := Nat.exists_eq_succ_of_ne_zero (Nat.ne_zero_of_lt hfuel)
    obtain ⟨us, p, zs, hlevel, hp, -, hturn⟩ := h.seekLevels_turn hi hq hbefore fuel
    obtain ⟨d, hd, hlower, hsame, -⟩ := h.tower.down i hi p (by rw [hlevel]; simp)
    rw [hturn, hlower]
    exact ih (Nat.lt_of_succ_lt hi) (Nat.lt_of_succ_lt_succ hfuel) hd (hsame ▸ hp)

/-- The calls of `sl_iterator_next` hand out the cells up to the end of the range. -/
theorem slIteratorDrain_spec {heap : Heap} {zs : List Cell} (hchain : Chain heap zs) {fuel : Nat}
    (hfuel : zs.length < fuel) (startKey endKey : SlUint128) :
    slIteratorDrain heap fuel ⟨true, first zs, startKey, endKey⟩ =
      some ((zs.takeWhile fun c => c.key ≤ endKey).map data) := by
  induction zs generalizing fuel with
  | nil =>
    obtain ⟨fuel, rfl⟩ := Nat.exists_eq_succ_of_ne_zero (Nat.ne_zero_of_lt hfuel)
    rfl
  | cons z zs ih =>
    obtain ⟨fuel, rfl⟩ := Nat.exists_eq_succ_of_ne_zero (Nat.ne_zero_of_lt hfuel)
    obtain ⟨hnode, hrest⟩ := hchain
    by_cases hgt : endKey < z.key
    · have hnext : slIteratorNext heap ⟨true, first (z :: zs), startKey, endKey⟩ =
          some ((SlUint128.zero, none), ⟨false, first (z :: zs), startKey, endKey⟩) := by
        simp only [slIteratorNext, first_cons, hnode]
        exact if_pos (keyCompare_pos_iff.mpr hgt)
      rw [slIteratorDrain, hnext, List.takeWhile_cons_of_neg (by simpa using hgt)]
      rfl
    · have hnext : slIteratorNext heap ⟨true, first (z :: zs), startKey, endKey⟩ =
          some (data z, ⟨true, first zs, startKey, endKey⟩) := by
        simp only [slIteratorNext, first_cons, hnode]
        exact if_neg fun hpos => hgt (keyCompare_pos_iff.mp hpos)
      rw [slIteratorDrain, hnext, List.takeWhile_cons_of_pos (by simpa using hgt)]
      show (slIteratorDrain heap fuel ⟨true, first zs, startKey, endKey⟩).map (data z :: ·) = _
      rw [ih hrest (Nat.lt_of_succ_lt_succ hfuel)]
      rfl

namespace Represents

variable {sl : Skiplist} {level : Nat → List Cell} {m : Sl}

/-- The cells behind the place for a key are those of the records from the key on. -/
theorem takeWhile_eq (h : Represents sl level m) (hm : m.Wf) {startKey : SlUint128}
    {us zs : List Cell} {p : Cell} (hlevel : level 0 = us ++ p :: zs)
    (hp : p.key = SlUint128.zero ∨ p.key < startKey) (hzs : ∀ z ∈ zs, startKey ≤ z.key)
    (endKey : SlUint128) :
    (zs.takeWhile fun c => c.key ≤ endKey).map data =
      (rangeFilter Prod.fst startKey endKey m.bottomLevel).map stored := by
  obtain ⟨as, bs, hsplit, has, hbs⟩ := h.split_cells hlevel
  have hstrict := h.shaped.tower.strict 0 h.shaped.tower.pos
  rw [hlevel] at hstrict
  obtain ⟨-, -, hcross⟩ := List.pairwise_append.mp hstrict
  -- the records in front of the place have keys below the start
  have hbelow : ∀ r ∈ as, r.1 < startKey := by
    intro r hr
    have hrpos : SlUint128.zero < r.1 := by
      refine SlUint128.zero_lt_of_id_ne_zero (hm.id_ne_zero r ?_)
      rw [hsplit]
      exact List.mem_append_left bs hr
    have hmem : stored r ∈ (us ++ [p]).map data := by
      rw [has]
      exact List.mem_cons_of_mem _ (List.mem_map_of_mem hr)
    obtain ⟨e, he, heq⟩ := List.mem_map.mp hmem
    have hkey : e.key = r.1 := congrArg Prod.fst heq
    have hle : e.key ≤ p.key := by
      rcases List.mem_append.mp he with he | he
      · exact le_of_lt (hcross e he p List.mem_cons_self)
      · rw [List.mem_singleton.mp he]
    rw [← hkey] at hrpos ⊢
    rcases hp with hzero | hlt
    · exact absurd (lt_of_lt_of_le hrpos hle) (hzero ▸ lt_irrefl _)
    · exact lt_of_le_of_lt hle hlt
  -- those behind it have the others
  have habove : ∀ r ∈ bs, startKey ≤ r.1 := by
    intro r hr
    have hmem : stored r ∈ zs.map data := by
      rw [hbs]
      exact List.mem_map_of_mem hr
    obtain ⟨e, he, heq⟩ := List.mem_map.mp hmem
    have hkey : e.key = r.1 := congrArg Prod.fst heq
    rw [← hkey]
    exact hzs e he
  have hsorted : SortedBy Prod.fst bs := by
    have hall := hm.strict
    rw [hsplit] at hall
    exact StrictBy.sortedBy (hall.sublist (List.sublist_append_right as bs))
  have hnone : rangeFilter Prod.fst startKey endKey as = [] :=
    rangeFilter_eq_nil fun r hr hin => absurd hin.1 (not_le.mpr (hbelow r hr))
  rw [hsplit, rangeFilter_append, hnone, List.nil_append,
    ← hsorted.takeWhile_eq_rangeFilter startKey habove]
  -- the end key cuts cells and records at the same place
  calc (zs.takeWhile fun c => c.key ≤ endKey).map data
      = (zs.map data).takeWhile fun d => d.1 ≤ endKey := by
        rw [List.takeWhile_map]
        rfl
    _ = (bs.map stored).takeWhile fun d => d.1 ≤ endKey := by rw [hbs]
    _ = (bs.takeWhile fun r => r.1 ≤ endKey).map stored := by
        rw [List.takeWhile_map]
        rfl

/-- A seek and the calls behind it return the records of the range. -/
theorem slRange_spec (h : Represents sl level m) (hm : m.Wf) (it : SkipIterator)
    (startKey endKey : SlUint128) :
    slRange sl it startKey endKey =
      some ((rangeFilter Prod.fst startKey endKey m.bottomLevel).map stored) := by
  by_cases hcut : keyCompare sl.maxKey startKey < 0 ∨ keyCompare sl.minKey endKey > 0
  · -- the bounds leave no record in the range
    have hnone : rangeFilter Prod.fst startKey endKey m.bottomLevel = [] := by
      rw [keyCompare_neg_iff, keyCompare_pos_iff, h.maxKey_eq, h.minKey_eq] at hcut
      refine rangeFilter_eq_nil fun r hr hin => ?_
      rcases hcut with hmax | hmin
      · exact absurd (lt_of_le_of_lt (hm.le_maxKey r hr) hmax) (not_lt.mpr hin.1)
      · exact absurd (lt_of_lt_of_le hmin (hm.minKey_le r hr)) (not_lt.mpr hin.2)
    rw [hnone, slRange, slIteratorSeek, if_pos hcut]
    rfl
  · have hlast : sl.levels - 1 < sl.levels := Nat.sub_lt h.shaped.tower.pos Nat.one_pos
    obtain ⟨head, cells, hhead, hzero⟩ := h.shaped.tower.sentinel (sl.levels - 1) hlast
    have htop := h.shaped.top
    rw [hhead] at htop
    have htop : head.addr = sl.topLevel := Option.some.inj htop
    obtain ⟨us, p, zs, hlevel, hp, hzs, hseek⟩ := @Shaped.seekLevels_spec sl level h.shaped startKey
      (sl.levels - 1) hlast sl.levels hlast head (hhead ▸ List.mem_cons_self) (Or.inl hzero)
    have hchain := h.shaped.tower.chain 0 h.shaped.tower.pos
    have hlength := h.shaped.tower.length_le h.shaped.tower.pos
    rw [hlevel] at hchain hlength
    rw [List.length_append, List.length_cons] at hlength
    have hnode : sl.heap p.addr = some (p.node (first zs)) := hchain.node_eq
    rw [htop] at hseek
    rw [slRange, slIteratorSeek, if_neg hcut]
    simp only [hseek, hnode, Cell.node, Option.map_some]
    rw [slIteratorDrain_spec hchain.append.2 (by omega), h.takeWhile_eq hm hlevel hp hzs endKey]

end Represents

/-! ## All sequences of insertions -/

/-- One of the calls was accepted with the key and the content. -/
def Accepted (calls : List SlCall) (key : SlUint128) (content : Bytes) : Prop :=
  ∃ before call after sl sl', calls = before ++ call :: after ∧ call.key = key ∧
    call.content = content ∧ run SlCall.step slInit before = some sl ∧
    slInsert sl call.key call.content call.flips = some (sl', 0)

/-- The records hold the key when one of the calls has it. -/
theorem FirstInsertions.find?_eq_none {calls : List SlCall} {records : List (SlUint128 × Bytes)}
    (h : FirstInsertions calls records) {key : SlUint128} (hid : key.id ≠ 0) :
    (calls.find? fun call => call.key = key) = none ↔ ∀ r ∈ records, r.1 ≠ key := by
  constructor
  · rintro hnone ⟨_, content⟩ hr rfl
    have hfound := ((h _ content).mp hr).2
    rw [hnone] at hfound
    cases hfound
  · intro hfree
    by_contra hfound
    obtain ⟨call, hcall⟩ := Option.ne_none_iff_exists'.mp hfound
    refine hfree (key, call.content) ((h key call.content).mpr ⟨hid, ?_⟩) rfl
    rw [hcall]
    rfl

/-- A call is accepted when it is the first one with its key. -/
theorem accepted_iff (calls : List SlCall) (key : SlUint128) (content : Bytes) :
    Accepted calls key content ↔
      key.id ≠ 0 ∧ (calls.find? fun call => call.key = key).map SlCall.content = some content := by
  constructor
  · rintro ⟨before, call, after, sl, sl', rfl, rfl, rfl, hrun, hinsert⟩
    obtain ⟨sl₀, level, m, hrun₀, h, hm, hbounds, hfirst, -⟩ := exists_represents before
    obtain rfl : sl₀ = sl := Option.some.inj (hrun₀.symm.trans hrun)
    obtain ⟨_, code, hanswer, hcode, -⟩ := h.answersRight hm hbounds call
    rw [hinsert] at hanswer
    cases hanswer
    obtain ⟨hid, hfree⟩ := hcode.mp rfl
    refine ⟨hid, ?_⟩
    rw [List.find?_append, (hfirst.find?_eq_none hid).mpr hfree, Option.none_or,
      List.find?_cons_of_pos (by simp)]
    rfl
  · rintro ⟨hid, hfound⟩
    obtain ⟨call, hcall, rfl⟩ := Option.map_eq_some_iff.mp hfound
    obtain ⟨hkey, before, after, rfl, hbefore⟩ := List.find?_eq_some_iff_append.mp hcall
    obtain rfl : call.key = key := by simpa using hkey
    obtain ⟨sl, level, m, hrun, h, hm, hbounds, hfirst, -⟩ := exists_represents before
    obtain ⟨sl', code, hanswer, hcode, -⟩ := h.answersRight hm hbounds call
    have hnone : (before.find? fun c => c.key = call.key) = none :=
      List.find?_eq_none.mpr fun c hc => by simpa using hbefore c hc
    obtain rfl : code = 0 := hcode.mpr ⟨hid, (hfirst.find?_eq_none hid).mp hnone⟩
    exact ⟨before, call, after, sl, sl', rfl, rfl, rfl, hrun, hanswer⟩

/-- `sl_get` answers an accepted content, and a scan the accepted keys of its range in order. -/
theorem lookups_agree (calls : List SlCall) :
    ∃ sl, run SlCall.step slInit calls = some sl ∧
      (∀ key, ∃ content, slGet sl key = some content ∧
        ∀ bytes, content = some bytes ↔ Accepted calls key bytes) ∧
      ∀ it startKey endKey, ∃ out, slRange sl it startKey endKey = some out ∧
        StrictBy Prod.fst out ∧
        (∀ key content, (key, content) ∈ out ↔ startKey ≤ key ∧ key ≤ endKey ∧
          ∃ bytes, content = some bytes ∧ Accepted calls key bytes) ∧
        ∀ key, startKey ≤ key → key ≤ endKey →
          ∀ bytes, slGet sl key = some (some bytes) ↔ (key, some bytes) ∈ out := by
  obtain ⟨sl, level, m, hrun, h, hm, hbounds, hfirst, hocc⟩ := exists_represents calls
  have haccepted : ∀ key bytes, (key, bytes) ∈ m.bottomLevel ↔ Accepted calls key bytes := by
    intro key bytes
    rw [accepted_iff]
    exact hfirst key bytes
  -- a lookup answers what the abstract memtable holds, which is what was accepted
  have hget : ∀ key, ∃ content, slGet sl key = some content ∧
      ∀ bytes, content = some bytes ↔ Accepted calls key bytes := by
    intro key
    obtain ⟨content, hget, hcontent⟩ := h.slGet_spec hm hocc key
    exact ⟨content, hget, fun bytes => (hcontent bytes).trans (haccepted key bytes)⟩
  refine ⟨sl, hrun, hget, ?_⟩
  intro it startKey endKey
  -- a range of it holds the accepted keys between its bounds
  have hmem : ∀ key content,
      (key, content) ∈ (rangeFilter Prod.fst startKey endKey m.bottomLevel).map stored ↔
        startKey ≤ key ∧ key ≤ endKey ∧
          ∃ bytes, content = some bytes ∧ Accepted calls key bytes := by
    intro key content
    rw [List.mem_map]
    constructor
    · rintro ⟨r, hr, heq⟩
      obtain ⟨hr, hin⟩ := mem_rangeFilter.mp hr
      obtain ⟨rfl, rfl⟩ := Prod.mk.inj heq
      exact ⟨hin.1, hin.2, r.2, rfl, (haccepted r.1 r.2).mp hr⟩
    · rintro ⟨hlo, hhi, bytes, rfl, hbytes⟩
      exact ⟨(key, bytes), mem_rangeFilter.mpr ⟨(haccepted key bytes).mpr hbytes, hlo, hhi⟩, rfl⟩
  refine ⟨_, h.slRange_spec hm it startKey endKey, ?_, hmem, ?_⟩
  · exact List.pairwise_map.mpr (hm.strict.sublist (rangeFilter_sublist startKey endKey _))
  · intro key hlo hhi bytes
    obtain ⟨content, hcontent, haccept⟩ := hget key
    rw [hmem, hcontent, Option.some.injEq, haccept]
    constructor
    · intro hbytes
      exact ⟨hlo, hhi, bytes, rfl, hbytes⟩
    · rintro ⟨-, -, bytes', heq, hbytes⟩
      rw [Option.some.inj heq]
      exact hbytes

end RaftLsmt.Lsmt.Skip
