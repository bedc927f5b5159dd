import RaftLsmt.Lib.SkipLevels
import RaftLsmt.Lsmt.Memtable

/-!
# The skip list of a memtable

`sl_insert` searches the levels from the top, keeps the last node in front of the key for each of
them, links a new node into the bottom level and promotes it as long as the coin shows heads. The
levels lie in a heap; the coins are a parameter.

`Represents` says that the levels form a tower over the records of a memtable, and `slInsert_spec`
that an insertion keeps it and does to the records what `Lsmt.slInsert` does.
-/

set_option autoImplicit false

namespace RaftLsmt.Lsmt.Skip

open RaftLsmt.Lib.SkipLevels
open RaftLsmt.Lib.SortedMerge
open RaftLsmt.Lib.StepMachine

/-- `node_t`; a sentinel has no content. -/
abbrev Node := Lib.SkipLevels.Node SlUint128 (Option Bytes)

abbrev Heap := Lib.SkipLevels.Heap SlUint128 (Option Bytes)

abbrev Cell := Lib.SkipLevels.Cell SlUint128 (Option Bytes)

/-- `sl_t` and the memory it lies in. `nextAddr` is the address the next node gets. -/
structure Skiplist where
  heap : Heap
  nextAddr : Nat
  topLevel : Nat
  bottomLevel : Nat
  size : Nat
  levels : Nat
  minKey : SlUint128
  maxKey : SlUint128

/-- `new_node`. -/
def newNode (key : SlUint128) (content : Option Bytes) : Node := ⟨key, content, none, none⟩

/-- `new_promoted_node`; `none` when there is no node at the address. -/
def newPromotedNode (heap : Heap) (node : Nat) : Option Node :=
  (heap node).map fun n => { n with next := none, lowerLevel := some node }

/-- `malloc` of a node. -/
def alloc (sl : Skiplist) (node : Node) : Skiplist :=
  { sl with heap := Function.update sl.heap sl.nextAddr (some node), nextAddr := sl.nextAddr + 1 }

/-- `sl_init`. -/
def slInit : Skiplist where
  heap := Function.update (fun _ => none) 0 (some (newNode SlUint128.zero none))
  nextAddr := 1
  topLevel := 0
  bottomLevel := 0
  size := 0
  levels := 1
  minKey := SlUint128.max
  maxKey := SlUint128.zero

/-- The bounds of `sl_insert`, the lower one first. -/
def widenMin (sl : Skiplist) (key : SlUint128) : Skiplist :=
  { sl with minKey := if keyCompare key sl.minKey < 0 then key else sl.minKey }

def widenMax (sl : Skiplist) (key : SlUint128) : Skiplist :=
  { sl with maxKey := if keyCompare key sl.maxKey > 0 then key else sl.maxKey }

/-- The loop along a level: `prev` and `current` where the keys stop being smaller. -/
def advance (heap : Heap) (key : SlUint128) : Nat → Nat → Option Nat → Option (Nat × Option Nat)
  | 0, _, _ => none
  | _ + 1, prev, none => some (prev, none)
  | fuel + 1, prev, some current =>
    match heap current with
    | none => none
    | some node =>
      if keyCompare node.key key < 0 then advance heap key fuel current node.next
      else some (prev, some current)

/-- `current != NULL && key_compare(current->key, key) == 0`; `none` for a pointer to nowhere. -/
def isKey (heap : Heap) (key : SlUint128) : Option Nat → Option Bool
  | none => some false
  | some current => (heap current).map fun node => keyCompare node.key key = 0

/-- The `promotions` array: `none` outside of it and where nothing has been written. -/
abbrev Promotions := Nat → Option Nat

/-- What the search finds: the key, or the place for it in each level. -/
inductive Found where
  | exists
  | missing (promotions : Promotions)

/-- The search of `sl_insert` from the sentinel `lvlHead` on, with `fuel` levels to go and `steps`
nodes on each at most. A write outside of `promotions[levels]` is undefined. -/
def search (heap : Heap) (key : SlUint128) (levels steps : Nat) :
    Nat → Option Nat → Option Nat → Int → Promotions → Option Found
  | 0, _, _, _, _ => none
  | _ + 1, none, _, _, promotions => some (.missing promotions)
  | fuel + 1, some lvlHead, current, currentLevel, promotions =>
    match advance heap key steps lvlHead current with
    | none => none
    | some (prev, current) =>
      match isKey heap key current with
      | none => none
      | some true => some .exists
      | some false =>
        if 0 ≤ currentLevel ∧ currentLevel < levels then
          match heap prev, heap lvlHead with
          | some prevNode, some headNode =>
            search heap key levels steps fuel headNode.lowerLevel prevNode.lowerLevel
              (currentLevel - 1) (Function.update promotions currentLevel.toNat (some prev))
          | _, _ => none
        else none

/-- The search as `sl_insert` starts it. -/
def slSearch (sl : Skiplist) (key : SlUint128) : Option Found :=
  match sl.heap sl.topLevel with
  | none => none
  | some top =>
    search sl.heap key sl.levels (sl.nextAddr + 1) (sl.levels + 1) (some sl.topLevel) top.next
      (sl.levels - 1) fun _ => none

/-- The place for the new node in the bottom level. -/
def slPosition (sl : Skiplist) (promotions : Promotions) (key : SlUint128) :
    Option (Nat × Option Nat) :=
  match promotions 0 with
  | none => none
  | some prev =>
    match sl.heap prev with
    | none => none
    | some prevNode => advance sl.heap key (sl.nextAddr + 1) prev prevNode.next

/-- `a->next = next`. -/
def writeNext (sl : Skiplist) (a : Nat) (next : Option Nat) : Option Skiplist :=
  (setNext sl.heap a next).map fun heap => { sl with heap := heap }

/-- `node_to_insert->next = current` where there is a current node. -/
def slComplete (sl : Skiplist) (node : Nat) (current : Option Nat) : Option Skiplist :=
  match current with
  | none => some sl
  | some current => writeNext sl node (some current)

/-- One turn of the promotion loop: the address of the promoted node, linked into a level or the
first one of a new level. -/
def slPromote (sl : Skiplist) (promotions : Promotions) (lastPromoted promotionLevel : Nat) :
    Option (Nat × Skiplist) :=
  match newPromotedNode sl.heap lastPromoted with
  | none => none
  | some promoted =>
    if promotionLevel < sl.levels then
      match promotions promotionLevel with
      | none => none
      | some prev =>
        match sl.heap prev with
        | none => none
        | some prevNode =>
          (writeNext (alloc sl { promoted with next := prevNode.next }) prev
            (some sl.nextAddr)).map fun sl' => (sl.nextAddr, sl')
    else
      match newPromotedNode sl.heap sl.topLevel with
      | none => none
      | some levelHead =>
        let sl' := alloc (alloc sl promoted) { levelHead with next := some sl.nextAddr }
        some (sl.nextAddr, { sl' with topLevel := sl.nextAddr + 1, levels := sl.levels + 1 })

/-- The promotion loop; `flips` are the low bits of what `rand` returns, up to the first 0. -/
def slPromoteAll (promotions : Promotions) : List Bool → Nat → Nat → Skiplist → Option Skiplist
  | true :: flips, lastPromoted, promotionLevel, sl =>
    match slPromote sl promotions lastPromoted promotionLevel with
    | none => none
    | some (promoted, sl) => slPromoteAll promotions flips promoted (promotionLevel + 1) sl
  | _, _, _, sl => some sl

/-- `sl_insert` behind the search for a key that is missing. -/
def slAdd (sl : Skiplist) (promotions : Promotions) (key : SlUint128) (content : Bytes)
    (flips : List Bool) : Option Skiplist :=
  let node := sl.nextAddr
  let sl := alloc sl (newNode key (some content))
  match slPosition sl promotions key with
  | none => none
  | some (prev, current) =>
    match writeNext sl prev (some node) with
    | none => none
    | some sl =>
      match slComplete sl node current with
      | none => none
      | some sl =>
        (slPromoteAll promotions flips node 1 sl).map fun sl =>
          { sl with size := sl.size + 16 + content.length }

/-- `sl_insert`; `none` when it leaves defined behaviour. -/
def slInsert (sl : Skiplist) (key : SlUint128) (content : Bytes) (flips : List Bool) :
    Option (Skiplist × Int) :=
  if key.id = 0 then some (sl, -1)
  else
    let sl := widenMax (widenMin sl key) key
    match slSearch sl key with
    | none => none
    | some .exists => some (sl, -1)
    | some (.missing promotions) => (slAdd sl promotions key content flips).map fun sl => (sl, 0)

/-! ## The search -/

/-- The levels lie in the heap as a tower between the two pointers. -/
structure Shaped (sl : Skiplist) (level : Nat → List Cell) : Prop where
  tower : Tower sl.heap SlUint128.zero sl.levels level sl.nextAddr
  top : first (level (sl.levels - 1)) = some sl.topLevel
  bottom : first (level 0) = some sl.bottomLevel

/-- The array names the place for the key in each level from `i` on. -/
def PlacedFrom (i n : Nat) (level : Nat → List Cell) (key : SlUint128) (promotions : Promotions) :
    Prop :=
  ∀ j, i ≤ j → j < n → ∃ a, promotions j = some a ∧ Splits (level j) key a

/-- The loop along a level goes on to the last cell in front of the key. It starts behind a cell in
front of the key, or at one. -/
theorem advance_spec {heap : Heap} {key : SlUint128} {steps : Nat} {xs ys : List Cell}
    (hchain : Chain heap ys) (hstrict : StrictBy Cell.key ys) (hsteps : ys.length < steps)
    {prev : Nat} (hprev : (∃ ws p, xs = ws ++ [p] ∧ p.addr = prev ∧ p.key < key) ∨
      ∃ y zs, ys = y :: zs ∧ y.key < key) :
    ∃ ws q zs, xs ++ ys = ws ++ q :: zs ∧
      advance heap key steps prev (first ys) = some (q.addr, first zs) ∧ q.key < key ∧
      ∀ z ∈ zs, key ≤ z.key := by
  induction ys generalizing xs prev steps with
  | nil =>
    obtain ⟨steps, rfl⟩ := Nat.exists_eq_succ_of_ne_zero (Nat.ne_zero_of_lt hsteps)
    rcases hprev with ⟨ws, p, rfl, rfl, hlt⟩ | ⟨y, zs, hnil, -⟩
    · refine ⟨ws, p, [], List.append_nil _, rfl, hlt, ?_⟩
      intro z hz
      cases hz
    · cases hnil
  | cons y ys ih =>
    obtain ⟨steps, rfl⟩ := Nat.exists_eq_succ_of_ne_zero (Nat.ne_zero_of_lt hsteps)
    obtain ⟨hnode, hrest⟩ := hchain
    obtain ⟨hy, hys⟩ := strictBy_cons.mp hstrict
    rw [first_cons, advance, hnode]
    by_cases hlt : y.key < key
    · obtain ⟨ws, q, zs, heq, hadvance, hq⟩ := @ih steps (xs ++ [y]) hrest hys
        (Nat.lt_of_succ_lt_succ hsteps) y.addr (Or.inl ⟨xs, y, rfl, rfl, hlt⟩)
      refine ⟨ws, q, zs, ?_, ?_, hq⟩
      · rw [← heq, List.append_assoc]
        rfl
      · exact (if_pos (keyCompare_neg_iff.mpr hlt)).trans hadvance
    · rcases hprev with ⟨ws, p, rfl, rfl, hp⟩ | ⟨y', zs, hcons, hlt'⟩
      · refine ⟨ws, p, y :: ys, ?_, ?_, hp, ?_⟩
        · rw [List.append_assoc]
          rfl
        · exact if_neg fun hneg => hlt (keyCompare_neg_iff.mp hneg)
        · intro z hz
          rcases List.mem_cons.mp hz with rfl | hz
          · exact not_lt.mp hlt
          · exact le_trans (not_lt.mp hlt) (le_of_lt (hy z hz))
      · cases hcons
        exact absurd hlt' hlt

/-- Whether the cell behind the place has the key. -/
theorem isKey_first {heap : Heap} {key : SlUint128} {zs : List Cell} (hchain : Chain heap zs)
    (hstrict : StrictBy Cell.key zs) (hle : ∀ z ∈ zs, key ≤ z.key) :
    (isKey heap key (first zs) = some true ∧ ∃ z ∈ zs, z.key = key) ∨
      isKey heap key (first zs) = some false ∧ ∀ z ∈ zs, key < z.key := by
  cases zs with
  | nil =>
    refine Or.inr ⟨rfl, ?_⟩
    intro z hz
    cases hz
  | cons z zs =>
    obtain ⟨hnode, -⟩ := hchain
    obtain ⟨hz, -⟩ := strictBy_cons.mp hstrict
    rw [first_cons, isKey, hnode]
    by_cases heq : z.key = key
    · refine Or.inl ⟨?_, z, List.mem_cons_self, heq⟩
      exact congrArg some (decide_eq_true (keyCompare_eq_zero_iff.mpr heq))
    · have hlt : key < z.key := lt_of_le_of_ne (hle z List.mem_cons_self) (Ne.symm heq)
      refine Or.inr ⟨?_, ?_⟩
      · exact congrArg some (decide_eq_false fun hzero => heq (keyCompare_eq_zero_iff.mp hzero))
      · intro y hy
        rcases List.mem_cons.mp hy with rfl | hy
        · exact hlt
        · exact lt_trans hlt (hz y hy)

namespace Shaped

variable {sl : Skiplist} {level : Nat → List Cell}

/-- The sentinel of an upper level points down to that of the next one. -/
theorem head_down (h : Shaped sl level) {i : Nat} (hi : i + 1 < sl.levels) {head : Cell}
    {cells : List Cell} (hhead : level (i + 1) = head :: cells) (hkey : head.key = SlUint128.zero) :
    ∃ below cells', level i = below :: cells' ∧ below.key = SlUint128.zero ∧
      head.lowerLevel = some below.addr := by
  obtain ⟨d, hd, hlower, hsame, -⟩ := h.tower.down i hi head (hhead ▸ List.mem_cons_self)
  obtain ⟨below, cells', hbelow, hzero⟩ := h.tower.sentinel i (Nat.lt_of_succ_lt hi)
  refine ⟨below, cells', hbelow, hzero, ?_⟩
  have hd' : d = below := List.inj_on_of_nodup_map
    (h.tower.strict i (Nat.lt_of_succ_lt hi)).nodup_keys hd (hbelow ▸ List.mem_cons_self)
    (by rw [hsame, hkey, hzero])
  rw [hlower, hd']

/-- One level of the search: it finds the key, or notes the last node in front of it and goes down. -/
theorem search_turn (h : Shaped sl level) {key : SlUint128} {i : Nat} (hi : i < sl.levels)
    (fuel : Nat) {head : Cell} {xs ys cells : List Cell} (hhead : level i = head :: cells)
    (hsplit : level i = xs ++ ys)
    (hstart : (∃ ws p, xs = ws ++ [p] ∧ p.addr = head.addr ∧ p.key < key) ∨
      ∃ y zs, ys = y :: zs ∧ y.key < key)
    {promotions : Promotions} (hplaced : PlacedFrom (i + 1) sl.levels level key promotions) :
    (search sl.heap key sl.levels (sl.nextAddr + 1) (fuel + 1) (some head.addr) (first ys) i
        promotions = some .exists ∧ ∃ c ∈ level i, c.key = key) ∨
      ∃ q, q ∈ level i ∧ q.key < key ∧
        search sl.heap key sl.levels (sl.nextAddr + 1) (fuel + 1) (some head.addr) (first ys) i
          promotions = search sl.heap key sl.levels (sl.nextAddr + 1) fuel head.lowerLevel
            q.lowerLevel (i - 1) (Function.update promotions i (some q.addr)) ∧
        PlacedFrom i sl.levels level key (Function.update promotions i (some q.addr)) := by
  have hchain := h.tower.chain i hi
  have hstrict := h.tower.strict i hi
  have hlength := h.tower.length_le hi
  rw [hsplit] at hchain hstrict hlength
  rw [List.length_append] at hlength
  -- the walk stops at `q`, the last node below the key
  obtain ⟨ws, q, zs, heq, hadvance, hlt, hle⟩ := advance_spec hchain.append
    (hstrict.sublist (List.sublist_append_right xs ys)) (by omega : ys.length < sl.nextAddr + 1) hstart
  rw [heq] at hchain hstrict
  have hq : level i = ws ++ q :: zs := hsplit.trans heq
  have hzs : StrictBy Cell.key zs := (strictBy_cons.mp
    (hstrict.sublist (List.sublist_append_right ws (q :: zs)))).2
  -- the node behind `q` has the key or a larger one
  rcases isKey_first hchain.append.2 hzs hle with ⟨hfound, z, hz, hkey⟩ | ⟨hmissing, hgt⟩
  · refine Or.inl ⟨?_, z, ?_, hkey⟩
    · rw [search, hadvance]
      simp only [hfound]
    · rw [hq]
      exact List.mem_append_right _ (List.mem_cons_of_mem _ hz)
  · refine Or.inr ⟨q, ?_, hlt, ?_, ?_⟩
    · rw [hq]
      exact List.mem_append_right _ List.mem_cons_self
    · -- without it the search goes on below `q`
      have hbounds : (0 : Int) ≤ i ∧ (i : Int) < sl.levels := by omega
      obtain ⟨next, hnode⟩ := (h.tower.chain i hi).exists_node (hhead ▸ List.mem_cons_self)
      rw [search, hadvance]
      simp only [hmissing, if_pos hbounds, hchain.node_eq, hnode, Int.toNat_natCast]
      rfl
    · intro j hij hj
      -- the levels above keep their nodes, this one gets `q`
      rcases Nat.lt_or_eq_of_le hij with hlt' | rfl
      · rw [Function.update_of_ne (Nat.ne_of_gt hlt')]
        exact hplaced j hlt' hj
      · exact ⟨q.addr, Function.update_self _ _ _, ws, q, zs, hq, rfl, hlt, hgt⟩

/-- The search from level `i` on. -/
theorem search_spec (h : Shaped sl level) {key : SlUint128} {i : Nat}
    (hi : i < sl.levels) {fuel : Nat} (hfuel : i + 1 < fuel) {head : Cell} {xs ys cells : List Cell}
    (hhead : level i = head :: cells) (hzero : head.key = SlUint128.zero)
    (hsplit : level i = xs ++ ys)
    (hstart : (∃ ws p, xs = ws ++ [p] ∧ p.addr = head.addr ∧ p.key < key) ∨
      ∃ y zs, ys = y :: zs ∧ y.key < key)
    {promotions : Promotions} (hplaced : PlacedFrom (i + 1) sl.levels level key promotions) :
    (search sl.heap key sl.levels (sl.nextAddr + 1) fuel (some head.addr) (first ys) i promotions =
        some .exists ∧ ∃ c ∈ level 0, c.key = key) ∨
      ∃ promotions', search sl.heap key sl.levels (sl.nextAddr + 1) fuel (some head.addr) (first ys) i
          promotions = some (.missing promotions') ∧
        PlacedFrom 0 sl.levels level key promotions' := by
  induction i generalizing fuel head xs ys cells promotions with
  | zero =>
    obtain ⟨fuel, rfl⟩ : ∃ k, fuel = k + 2 := ⟨fuel - 2, by omega⟩
    rcases h.search_turn hi (fuel + 1) hhead hsplit hstart hplaced with hfound |
      ⟨q, -, -, hturn, hplaced'⟩
    · exact Or.inl hfound
    · refine Or.inr ⟨_, ?_, hplaced'⟩
      rw [hturn, h.tower.bottom head (hhead ▸ List.mem_cons_self)]
      rfl
  | succ i ih =>
    obtain ⟨fuel, rfl⟩ : ∃ k, fuel = k + 1 := ⟨fuel - 1, by omega⟩
    rcases h.search_turn hi fuel hhead hsplit hstart hplaced with ⟨hfound, c, hc, hkey⟩ |
      ⟨q, hq, hlt, hturn, hplaced'⟩
    · obtain ⟨d, hd, hsame, -⟩ := h.tower.exists_below hi hc (Nat.zero_le _)
      exact Or.inl ⟨hfound, d, hd, hsame.trans hkey⟩
    · -- the search goes on below the node it stands at
      obtain ⟨below, cells', hbelow, hzero', hlower⟩ := h.head_down hi hhead hzero
      obtain ⟨d, hd, hlower', hsame, -⟩ := h.tower.down i hi q hq
      obtain ⟨xs', zs', hsplit'⟩ := List.append_of_mem hd
      have hcast : ((i + 1 : Nat) : Int) - 1 = i := by omega
      rw [hturn, hlower, hlower', hcast]
      exact ih (Nat.lt_of_succ_lt hi) (by omega) hbelow hzero' hsplit'
        (Or.inr ⟨d, zs', rfl, hsame ▸ hlt⟩) hplaced'

/-- The search finds the key, or its place in each level. -/
theorem slSearch_spec (h : Shaped sl level) {key : SlUint128} (hkey : SlUint128.zero < key) :
    (slSearch sl key = some .exists ∧ ∃ c ∈ level 0, c.key = key) ∨
      ∃ promotions, slSearch sl key = some (.missing promotions) ∧
        PlacedFrom 0 sl.levels level key promotions := by
  have hpos := h.tower.pos
  have hlast : sl.levels - 1 < sl.levels := by omega
  obtain ⟨head, cells, hhead, hzero⟩ := h.tower.sentinel (sl.levels - 1) hlast
  have htop := h.top
  rw [hhead] at htop
  have htop : head.addr = sl.topLevel := Option.some.inj htop
  have hchain := h.tower.chain (sl.levels - 1) hlast
  rw [hhead] at hchain
  have hnone : PlacedFrom (sl.levels - 1 + 1) sl.levels level key fun _ => none := by
    intro j hlo hhi
    omega
  have hspec := h.search_spec hlast (by omega : sl.levels - 1 + 1 < sl.levels + 1) hhead hzero
    (hhead : level (sl.levels - 1) = [head] ++ cells)
    (Or.inl ⟨[], head, rfl, rfl, hzero ▸ hkey⟩) hnone
  have hcast : ((sl.levels - 1 : Nat) : Int) = sl.levels - 1 := by omega
  rw [hcast] at hspec
  rw [slSearch, ← htop, hchain.1]
  exact hspec

end Shaped

/-! ## The links -/

theorem first_insert (xs ys : List Cell) (c d : Cell) :
    first (xs ++ c :: d :: ys) = first (xs ++ c :: ys) := by
  cases xs with
  | nil => rfl
  | cons x xs => rfl

namespace Shaped

variable {sl : Skiplist} {level : Nat → List Cell}

/-- A node that nothing points to. -/
theorem alloc (h : Shaped sl level) (node : Node) : Shaped (alloc sl node) level where
  tower := (h.tower.congr fun _ ha => Function.update_of_ne (Nat.ne_of_lt ha) _ _).mono
    (Nat.le_succ _)
  top := h.top
  bottom := h.bottom

/-- A new node in a level. -/
theorem insert (h : Shaped sl level) {i : Nat} (hi : i < sl.levels) {xs ys : List Cell} {c d : Cell}
    (hlevel : level i = xs ++ c :: ys) (hd : d.addr = sl.nextAddr) (hlo : c.key < d.key)
    (hhi : ∀ y ∈ ys, d.key < y.key) (hbottom : i = 0 → d.lowerLevel = none)
    (hdown : ∀ j, i = j + 1 → ∃ e ∈ level j,
      d.lowerLevel = some e.addr ∧ e.key = d.key ∧ e.content = d.content) :
    Shaped { sl with
      heap := Function.update (Function.update sl.heap d.addr (some (d.node (first ys)))) c.addr
        (some (c.node (some d.addr)))
      nextAddr := sl.nextAddr + 1 } (Function.update level i (xs ++ c :: d :: ys)) := by
  have htower := h.tower.insert hi hlevel (Nat.le_of_eq hd.symm) hlo hhi hbottom hdown
  have hfirst : ∀ j, first (Function.update level i (xs ++ c :: d :: ys) j) = first (level j) := by
    intro j
    by_cases hj : j = i
    · rw [hj, Function.update_self, hlevel, first_insert]
    · rw [Function.update_of_ne hj]
  rw [hd] at htower ⊢
  exact ⟨htower, (hfirst _).trans h.top, (hfirst 0).trans h.bottom⟩

/-- The place in the bottom level is found again. -/
theorem slPosition_spec (h : Shaped sl level) {key : SlUint128} {promotions : Promotions}
    (hplaced : PlacedFrom 0 sl.levels level key promotions) :
    ∃ xs c ys, level 0 = xs ++ c :: ys ∧ c.key < key ∧ (∀ y ∈ ys, key < y.key) ∧
      slPosition sl promotions key = some (c.addr, first ys) := by
  obtain ⟨a, ha, xs, c, ys, hlevel, rfl, hlt, hgt⟩ := hplaced 0 (Nat.le_refl 0) h.tower.pos
  have hchain := h.tower.chain 0 h.tower.pos
  rw [hlevel] at hchain
  refine ⟨xs, c, ys, hlevel, hlt, hgt, ?_⟩
  unfold slPosition
  simp only [ha, hchain.node_eq]
  show advance sl.heap key (sl.nextAddr + 1) c.addr (first ys) = _
  cases ys with
  | nil => rfl
  | cons y ys =>
    rw [first_cons, advance, hchain.append.2.1]
    refine if_neg fun hneg => ?_
    exact absurd (keyCompare_neg_iff.mp hneg) (not_lt.mpr (le_of_lt (hgt y List.mem_cons_self)))

/-- The two writes to the bottom level. Between them the new node has no successor. -/
theorem link_spec (h : Shaped sl level) {key : SlUint128} {xs ys : List Cell} {c : Cell}
    (hlevel : level 0 = xs ++ c :: ys) (hlt : c.key < key) (hgt : ∀ y ∈ ys, key < y.key)
    (content : Bytes) :
    let d : Cell := ⟨sl.nextAddr, key, some content, none⟩
    ∃ linked complete : Heap,
      writeNext (Skip.alloc sl (newNode key (some content))) c.addr (some sl.nextAddr) =
          some { sl with heap := linked, nextAddr := sl.nextAddr + 1 } ∧
      slComplete { sl with heap := linked, nextAddr := sl.nextAddr + 1 } sl.nextAddr (first ys) =
          some { sl with heap := complete, nextAddr := sl.nextAddr + 1 } ∧
      linked sl.nextAddr = some (d.node none) ∧ complete sl.nextAddr = some (d.node (first ys)) ∧
      (∀ a, a ≠ sl.nextAddr → linked a = complete a) ∧
      Shaped { sl with heap := complete, nextAddr := sl.nextAddr + 1 }
        (Function.update level 0 (xs ++ c :: d :: ys)) := by
  intro d
  have hpos := h.tower.pos
  have hchain := h.tower.chain 0 hpos
  have hc : c.addr < sl.nextAddr := h.tower.bounded 0 hpos c (by rw [hlevel]; simp)
  rw [hlevel] at hchain
  have hne : sl.nextAddr ≠ c.addr := Nat.ne_of_gt hc
  -- behind the first write the new node is reachable and has no successor yet
  let linked : Heap := Function.update (Function.update sl.heap sl.nextAddr
    (some (newNode key (some content)))) c.addr (some (c.node (some sl.nextAddr)))
  -- behind the second one it has its own
  let complete : Heap := Function.update (Function.update sl.heap sl.nextAddr
    (some (d.node (first ys)))) c.addr (some (c.node (some sl.nextAddr)))
  have hnew : linked sl.nextAddr = some (d.node none) := by
    show Function.update _ _ _ _ = _
    rw [Function.update_of_ne hne, Function.update_self]
    rfl
  have hdone : complete sl.nextAddr = some (d.node (first ys)) := by
    show Function.update _ _ _ _ = _
    rw [Function.update_of_ne hne, Function.update_self]
  have hother : ∀ a, a ≠ sl.nextAddr → linked a = complete a := by
    intro a ha
    show Function.update _ _ _ _ = Function.update _ _ _ _
    by_cases hac : a = c.addr
    · rw [hac, Function.update_self, Function.update_self]
    · rw [Function.update_of_ne hac, Function.update_of_ne hac, Function.update_of_ne ha,
        Function.update_of_ne ha]
  refine ⟨linked, complete, ?_, ?_, hnew, hdone, hother, ?_⟩
  · -- the first write finds the node it writes to
    unfold writeNext setNext
    have hnode : (Skip.alloc sl (newNode key (some content))).heap c.addr = some (c.node (first ys)) := by
      show Function.update _ _ _ _ = _
      rw [Function.update_of_ne (Ne.symm hne)]
      exact hchain.node_eq
    rw [hnode]
    rfl
  · -- the second one writes nothing when the new node is the last
    have hfinal : ∀ y, first ys = some y →
        Function.update linked sl.nextAddr (some (d.node (some y))) = complete := by
      intro y hy
      funext a
      by_cases ha : a = sl.nextAddr
      · rw [ha, Function.update_self, hdone, hy]
      · rw [Function.update_of_ne ha, hother a ha]
    cases hfirst : first ys with
    -- the new node is the last one: it has its successor already
    | none =>
      have hsame : linked = complete := by
        funext a
        by_cases ha : a = sl.nextAddr
        · rw [ha, hnew, hdone, hfirst]
        · exact hother a ha
      rw [← hsame]
      rfl
    | some y =>
      unfold slComplete writeNext setNext
      simp only [hnew, Option.map_some, Option.some.injEq, Skiplist.mk.injEq, and_true]
      exact hfinal y hfirst
  · -- the levels with the new cell are those of the complete heap
    have hno : ∀ j, 0 = j + 1 → ∃ e ∈ level j,
        d.lowerLevel = some e.addr ∧ e.key = d.key ∧ e.content = d.content := by
      intro j hj
      cases hj
    exact h.insert (d := d) hpos hlevel rfl hlt hgt (fun _ => rfl) hno

end Shaped

/-! ## Promotion -/

/-- Every level above the bottom one has a key. -/
def Occupied (sl : Skiplist) (level : Nat → List Cell) : Prop :=
  ∀ i, 0 < i → i < sl.levels → ∃ c ∈ level i, SlUint128.zero < c.key

/-- The levels have only grown, the new ones have a key, and the rest of the structure is as it was. -/
structure Extends (sl : Skiplist) (level : Nat → List Cell) (sl' : Skiplist)
    (level' : Nat → List Cell) : Prop where
  levels_le : sl.levels ≤ sl'.levels
  mem : ∀ i, i < sl.levels → ∀ c ∈ level i, c ∈ level' i
  filled : ∀ i, sl.levels ≤ i → i < sl'.levels → ∃ c ∈ level' i, SlUint128.zero < c.key
  size_eq : sl'.size = sl.size
  minKey_eq : sl'.minKey = sl.minKey
  maxKey_eq : sl'.maxKey = sl.maxKey

theorem Extends.refl (sl : Skiplist) (level : Nat → List Cell) : Extends sl level sl level :=
  ⟨Nat.le_refl _, fun _ _ _ hc => hc, fun _ hlo hhi => absurd hhi (Nat.not_lt.mpr hlo), rfl, rfl,
    rfl⟩

theorem Extends.trans {sl sl' sl'' : Skiplist} {level level' level'' : Nat → List Cell}
    (h : Extends sl level sl' level') (h' : Extends sl' level' sl'' level'') :
    Extends sl level sl'' level'' where
  levels_le := Nat.le_trans h.levels_le h'.levels_le
  mem := fun i hi c hc => h'.mem i (Nat.lt_of_lt_of_le hi h.levels_le) c (h.mem i hi c hc)
  filled := by
    intro i hlo hhi
    by_cases hmid : i < sl'.levels
    · obtain ⟨c, hc, hpos⟩ := h.filled i hlo hmid
      exact ⟨c, h'.mem i hmid c hc, hpos⟩
    · exact h'.filled i (Nat.not_lt.mp hmid) hhi
  size_eq := h'.size_eq.trans h.size_eq
  minKey_eq := h'.minKey_eq.trans h.minKey_eq
  maxKey_eq := h'.maxKey_eq.trans h.maxKey_eq

theorem Extends.occupied {sl sl' : Skiplist} {level level' : Nat → List Cell}
    (h : Extends sl level sl' level') (hocc : Occupied sl level) : Occupied sl' level' := by
  intro i hpos hi
  by_cases hold : i < sl.levels
  · obtain ⟨c, hc, hkey⟩ := hocc i hpos hold
    exact ⟨c, h.mem i hold c hc, hkey⟩
  · exact h.filled i (Nat.not_lt.mp hold) hi

/-- The levels below `i` hold the new key, and the array names its place in the others. -/
structure Promoting (sl : Skiplist) (level : Nat → List Cell) (key : SlUint128) (content : Bytes)
    (promotions : Promotions) (lastPromoted i : Nat) : Prop where
  shaped : Shaped sl level
  pos : 0 < i
  le : i ≤ sl.levels
  last : ∃ e ∈ level (i - 1), e.addr = lastPromoted ∧ e.key = key ∧ e.content = some content
  placed : PlacedFrom i sl.levels level key promotions
  key_pos : SlUint128.zero < key

namespace Promoting

variable {sl : Skiplist} {level : Nat → List Cell} {key : SlUint128} {content : Bytes}
  {promotions : Promotions} {lastPromoted i : Nat}

theorem promoted_eq (h : Promoting sl level key content promotions lastPromoted i) :
    newPromotedNode sl.heap lastPromoted =
      some ⟨key, some content, none, some lastPromoted⟩ := by
  obtain ⟨e, he, rfl, rfl, hcontent⟩ := h.last
  have hlt : i - 1 < sl.levels := by
    have := h.pos
    have := h.le
    omega
  obtain ⟨next, hnode⟩ := (h.shaped.tower.chain (i - 1) hlt).exists_node he
  rw [newPromotedNode, hnode, ← hcontent]
  rfl

/-- The cell below the promoted one. -/
theorem exists_below (h : Promoting sl level key content promotions lastPromoted i) {d : Cell}
    (hlower : d.lowerLevel = some lastPromoted) (hkey : d.key = key)
    (hcontent : d.content = some content) :
    ∃ e ∈ level (i - 1), d.lowerLevel = some e.addr ∧ e.key = d.key ∧ e.content = d.content := by
  obtain ⟨e, he, haddr, hsame, hsame'⟩ := h.last
  refine ⟨e, he, ?_, ?_, ?_⟩
  · rw [hlower, haddr]
  · rw [hsame, hkey]
  · rw [hsame', hcontent]

/-- A promotion into a level that is there. -/
theorem slPromote_level (h : Promoting sl level key content promotions lastPromoted i)
    (hi : i < sl.levels) :
    ∃ sl' level', slPromote sl promotions lastPromoted i = some (sl.nextAddr, sl') ∧
      Promoting sl' level' key content promotions sl.nextAddr (i + 1) ∧
      Extends sl level sl' level' ∧ level' 0 = level 0 := by
  have hpos := h.pos
  -- the array names the node behind which the new one goes
  obtain ⟨a, ha, xs, q, ys, hlevel, rfl, hlt, hgt⟩ := h.placed i (Nat.le_refl i) hi
  -- the new node points down to the one promoted before
  let d : Cell := ⟨sl.nextAddr, key, some content, some lastPromoted⟩
  have hchain := h.shaped.tower.chain i hi
  rw [hlevel] at hchain
  have hq : q.addr < sl.nextAddr := h.shaped.tower.bounded i hi q (by rw [hlevel]; simp)
  have hdown : ∀ j, i = j + 1 → ∃ e ∈ level j,
      d.lowerLevel = some e.addr ∧ e.key = d.key ∧ e.content = d.content := by
    rintro j rfl
    exact h.exists_below (d := d) rfl rfl rfl
  have hshaped := h.shaped.insert (d := d) hi hlevel rfl hlt hgt (fun hzero => by omega) hdown
  refine ⟨_, _, ?_, ⟨hshaped, Nat.succ_pos i, hi, ?_, ?_, h.key_pos⟩, ⟨Nat.le_refl _, ?_,
    fun _ hlo hhi => absurd hhi (Nat.not_lt.mpr hlo), rfl, rfl, rfl⟩,
    Function.update_of_ne (Nat.ne_of_lt hpos) _ _⟩
  · -- the writes of the code
    have hnode : (alloc sl { d.node none with next := first ys }).heap q.addr =
        some (q.node (first ys)) := by
      show Function.update _ _ _ _ = _
      rw [Function.update_of_ne (Nat.ne_of_lt hq)]
      exact hchain.node_eq
    unfold slPromote
    simp only [h.promoted_eq, if_pos hi, ha, hchain.node_eq]
    show (writeNext (alloc sl { d.node none with next := first ys }) _ _).map _ = _
    unfold writeNext setNext
    rw [hnode]
    rfl
  · refine ⟨d, ?_, rfl, rfl, rfl⟩
    rw [Nat.add_sub_cancel, Function.update_self]
    simp
  · -- the levels above have not been written to, so their places still hold
    intro j hij hj
    obtain ⟨b, hb, hsplits⟩ := h.placed j (Nat.le_of_succ_le hij) hj
    refine ⟨b, hb, ?_⟩
    rw [Function.update_of_ne (Nat.ne_of_gt hij)]
    exact hsplits
  · intro j hj x hx
    by_cases heq : j = i
    · rw [heq, hlevel] at hx
      rw [heq, Function.update_self]
      exact mem_insert.mpr (Or.inr hx)
    · rw [Function.update_of_ne heq]
      exact hx

/-- A promotion into a new level. -/
theorem slPromote_raise (h : Promoting sl level key content promotions lastPromoted i)
    (hi : i = sl.levels) :
    ∃ sl' level', slPromote sl promotions lastPromoted i = some (sl.nextAddr, sl') ∧
      Promoting sl' level' key content promotions sl.nextAddr (i + 1) ∧
      Extends sl level sl' level' ∧ level' 0 = level 0 := by
  subst hi
  have hpos := h.shaped.tower.pos
  have hlast : sl.levels - 1 < sl.levels := by omega
  -- the new sentinel copies the one that was on top
  obtain ⟨head, cells, hhead, hzero⟩ := h.shaped.tower.sentinel (sl.levels - 1) hlast
  have htop := h.shaped.top
  rw [hhead] at htop
  have htop : head.addr = sl.topLevel := Option.some.inj htop
  have hmem : head ∈ level (sl.levels - 1) := hhead ▸ List.mem_cons_self
  obtain ⟨next, hnode⟩ := (h.shaped.tower.chain (sl.levels - 1) hlast).exists_node hmem
  let d : Cell := ⟨sl.nextAddr, key, some content, some lastPromoted⟩
  -- a new sentinel above it, and the new node behind that
  let s : Cell := ⟨sl.nextAddr + 1, SlUint128.zero, head.content, some sl.topLevel⟩
  have htower := h.shaped.tower.raise (s := s) (d := d) (Nat.le_refl _) rfl rfl h.key_pos
    ⟨head, hmem, congrArg some htop.symm, hzero, rfl⟩ (h.exists_below (d := d) rfl rfl rfl)
  -- the levels below are as they were
  have hold : ∀ j, j < sl.levels → Function.update level sl.levels [s, d] j = level j := fun j hj =>
    Function.update_of_ne (Nat.ne_of_lt hj) _ _
  -- both allocations and both links in one heap
  have hpromote : slPromote sl promotions lastPromoted sl.levels = some (sl.nextAddr, { sl with
      heap := Function.update (Function.update sl.heap d.addr (some (d.node none))) s.addr
        (some (s.node (some d.addr)))
      nextAddr := sl.nextAddr + 2
      topLevel := sl.nextAddr + 1
      levels := sl.levels + 1 }) := by
    have hsentinel : newPromotedNode sl.heap sl.topLevel =
        some ⟨SlUint128.zero, head.content, none, some sl.topLevel⟩ := by
      rw [newPromotedNode, ← htop, hnode, ← hzero]
      rfl
    unfold slPromote
    simp only [h.promoted_eq, if_neg (Nat.lt_irrefl _), hsentinel]
    rfl
  refine ⟨_, _, hpromote, ⟨⟨htower, ?_, ?_⟩, Nat.succ_pos _, Nat.le_refl _, ?_, ?_, h.key_pos⟩,
    ⟨Nat.le_succ _, ?_, ?_, rfl, rfl, rfl⟩, hold 0 hpos⟩
  · show first (Function.update level sl.levels [s, d] sl.levels) = _
    rw [Function.update_self]
    rfl
  · rw [hold 0 hpos]
    exact h.shaped.bottom
  · refine ⟨d, ?_, rfl, rfl, rfl⟩
    rw [Nat.add_sub_cancel, Function.update_self]
    simp
  · intro j hlo hhi
    have hhi : j < sl.levels + 1 := hhi
    omega
  · intro j hj x hx
    rw [hold j hj]
    exact hx
  · intro j hlo hhi
    -- the one new level is that of the promoted node
    obtain rfl : j = sl.levels := Nat.le_antisymm (Nat.lt_succ_iff.mp hhi) hlo
    refine ⟨d, ?_, h.key_pos⟩
    rw [Function.update_self]
    simp

/-- One turn of the promotion loop. -/
theorem slPromote_spec (h : Promoting sl level key content promotions lastPromoted i) :
    ∃ sl' level', slPromote sl promotions lastPromoted i = some (sl.nextAddr, sl') ∧
      Promoting sl' level' key content promotions sl.nextAddr (i + 1) ∧
      Extends sl level sl' level' ∧ level' 0 = level 0 := by
  rcases Nat.lt_or_eq_of_le h.le with hlt | heq
  · exact h.slPromote_level hlt
  · exact h.slPromote_raise heq

/-- The promotion loop, for any coins. -/
theorem slPromoteAll_spec (h : Promoting sl level key content promotions lastPromoted i)
    (flips : List Bool) :
    ∃ sl' level', slPromoteAll promotions flips lastPromoted i sl = some sl' ∧ Shaped sl' level' ∧
      Extends sl level sl' level' ∧ level' 0 = level 0 := by
  induction flips generalizing sl level lastPromoted i with
  | nil => exact ⟨sl, level, rfl, h.shaped, .refl sl level, rfl⟩
  | cons flip flips ih =>
    cases flip with
    | false => exact ⟨sl, level, rfl, h.shaped, .refl sl level, rfl⟩
    | true =>
      obtain ⟨sl₁, level₁, hpromote, h₁, hextends, hbottom⟩ := h.slPromote_spec
      obtain ⟨sl₂, level₂, hall, hshaped, hextends', hbottom'⟩ := ih h₁
      refine ⟨sl₂, level₂, ?_, hshaped, hextends.trans hextends', hbottom'.trans hbottom⟩
      rw [slPromoteAll, hpromote]
      exact hall

end Promoting

/-! ## The records -/

/-- What a cell of the bottom level holds. -/
def data (c : Cell) : SlUint128 × Option Bytes := (c.key, c.content)

/-- What the cell of a record holds. -/
def stored (record : SlUint128 × Bytes) : SlUint128 × Option Bytes := (record.1, some record.2)

theorem stored_injective : Function.Injective stored := by
  rintro ⟨key, content⟩ ⟨key', content'⟩ h
  cases h
  rfl

/-- The bottom level holds the records of the memtable behind its sentinel. -/
structure Represents (sl : Skiplist) (level : Nat → List Cell) (m : Sl) : Prop where
  shaped : Shaped sl level
  records : (level 0).map data = (SlUint128.zero, none) :: m.bottomLevel.map stored
  size_eq : sl.size = m.size
  minKey_eq : sl.minKey = m.minKey
  maxKey_eq : sl.maxKey = m.maxKey

theorem represents_slInit (addr : Nat) :
    Represents slInit (fun _ => [⟨0, SlUint128.zero, none, none⟩]) (Lsmt.slInit addr) where
  shaped := by
    refine ⟨⟨Nat.one_pos, ?_, ?_, ?_, ?_, ?_, ?_, ?_⟩, rfl, rfl⟩
    · exact fun _ _ => ⟨rfl, trivial⟩
    · exact fun _ _ => ⟨_, [], rfl, rfl⟩
    · exact fun _ _ => List.pairwise_singleton _ _
    · intro c hc
      rw [List.mem_singleton.mp hc]
    · intro i hi
      exact absurd hi (by simp [slInit])
    · intro i j hi hj c hc d hd hcd
      have hi : i < 1 := hi
      have hj : j < 1 := hj
      omega
    · intro i hi c hc
      rw [List.mem_singleton.mp hc]
      exact Nat.one_pos
  records := rfl
  size_eq := rfl
  minKey_eq := rfl
  maxKey_eq := rfl

/-- The new node in the bottom level is the first one to promote. -/
theorem Shaped.promoting {sl : Skiplist} {level : Nat → List Cell} {key : SlUint128}
    {content : Bytes} {node : Nat} {xs ys : List Cell} {c : Cell} {promotions : Promotions}
    (h : Shaped sl (Function.update level 0 (xs ++ c :: ⟨node, key, some content, none⟩ :: ys)))
    (hlevels : 0 < sl.levels) (hkey : SlUint128.zero < key)
    (hplaced : PlacedFrom 0 sl.levels level key promotions) :
    Promoting sl (Function.update level 0 (xs ++ c :: ⟨node, key, some content, none⟩ :: ys)) key
      content promotions node 1 := by
  refine ⟨h, Nat.one_pos, hlevels, ?_, ?_, hkey⟩
  · refine ⟨⟨node, key, some content, none⟩, ?_, rfl, rfl, rfl⟩
    rw [Nat.sub_self, Function.update_self]
    simp
  · intro j hlo hhi
    rw [Function.update_of_ne (Nat.ne_of_gt hlo)]
    exact hplaced j (Nat.zero_le j) hhi

/-- What `sl_insert` does behind its search. -/
theorem Shaped.slAdd_spec {sl : Skiplist} {level : Nat → List Cell} (h : Shaped sl level)
    {key : SlUint128} (hkey : SlUint128.zero < key) {promotions : Promotions}
    (hplaced : PlacedFrom 0 sl.levels level key promotions) (content : Bytes) (flips : List Bool) :
    ∃ sl' level' xs c ys, slAdd sl promotions key content flips = some sl' ∧ Shaped sl' level' ∧
      level 0 = xs ++ c :: ys ∧ c.key < key ∧ (∀ y ∈ ys, key < y.key) ∧
      level' 0 = xs ++ c :: ⟨sl.nextAddr, key, some content, none⟩ :: ys ∧
      sl'.size = sl.size + 16 + content.length ∧ sl'.minKey = sl.minKey ∧ sl'.maxKey = sl.maxKey ∧
      (Occupied sl level → Occupied sl' level') := by
  obtain ⟨xs, c, ys, hlevel, hlt, hgt, hposition⟩ :=
    (h.alloc (newNode key (some content))).slPosition_spec hplaced
  obtain ⟨linked, complete, hlink, hcomplete, -, -, -, hshaped⟩ := h.link_spec hlevel hlt hgt content
  have hpromoting := hshaped.promoting h.tower.pos hkey hplaced
  obtain ⟨sl', level', hall, hshaped', hextends, hbottom⟩ := hpromoting.slPromoteAll_spec flips
  refine ⟨{ sl' with size := sl'.size + 16 + content.length }, level', xs, c, ys, ?_,
    ⟨hshaped'.tower, hshaped'.top, hshaped'.bottom⟩, hlevel, hlt, hgt, ?_, ?_, hextends.minKey_eq,
    hextends.maxKey_eq, ?_⟩
  · unfold slAdd
    simp only [hposition, hlink, hcomplete, hall, Option.map_some]
  · rw [hbottom, Function.update_self]
  · show sl'.size + 16 + content.length = _
    rw [hextends.size_eq]
  · intro hocc
    refine hextends.occupied fun i hpos hi => ?_
    rw [Function.update_of_ne (Nat.ne_of_gt hpos)]
    exact hocc i hpos hi

namespace Represents

variable {sl : Skiplist} {level : Nat → List Cell} {m : Sl}

/-- The keys of the records are those of the cells behind the sentinel. -/
theorem mem_keys_iff (h : Represents sl level m) {key : SlUint128} (hkey : key ≠ SlUint128.zero) :
    (∃ c ∈ level 0, c.key = key) ↔ ∃ n ∈ m.bottomLevel, n.1 = key := by
  have hkeys := congrArg (List.map Prod.fst) h.records
  rw [List.map_map, List.map_cons, List.map_map] at hkeys
  have hcells : (∃ c ∈ level 0, c.key = key) ↔ key ∈ (level 0).map (Prod.fst ∘ data) :=
    List.mem_map.symm
  have hrecords : (∃ n ∈ m.bottomLevel, n.1 = key) ↔
      key ∈ m.bottomLevel.map (Prod.fst ∘ stored) := List.mem_map.symm
  rw [hcells, hkeys, List.mem_cons, or_iff_right hkey, hrecords]

/-- The records behind a cell of the bottom level. -/
theorem split_cells (h : Represents sl level m) {xs ys : List Cell} {c : Cell}
    (hlevel : level 0 = xs ++ c :: ys) :
    ∃ as bs, m.bottomLevel = as ++ bs ∧
      (xs ++ [c]).map data = (SlUint128.zero, none) :: as.map stored ∧
      ys.map data = bs.map stored := by
  have hrecords := h.records
  have happend : xs ++ c :: ys = (xs ++ [c]) ++ ys := by simp
  rw [hlevel, happend, List.map_append] at hrecords
  obtain ⟨x, ws, hws⟩ := List.exists_cons_of_ne_nil (List.append_ne_nil_of_right_ne_nil xs
    (List.cons_ne_nil c []))
  rw [hws, List.map_cons, List.cons_append, List.cons.injEq] at hrecords
  obtain ⟨as, bs, hsplit, has, hbs⟩ := List.map_eq_append_iff.mp hrecords.2.symm
  refine ⟨as, bs, hsplit, ?_, hbs.symm⟩
  rw [hws, List.map_cons, hrecords.1, has]

/-- The place of a missing key among the records. -/
theorem split_records (h : Represents sl level m) {key : SlUint128} {xs ys : List Cell} {c : Cell}
    (hlevel : level 0 = xs ++ c :: ys) (hlt : c.key < key) (hgt : ∀ y ∈ ys, key < y.key) :
    ∃ as bs, m.bottomLevel = as ++ bs ∧
      (xs ++ [c]).map data = (SlUint128.zero, none) :: as.map stored ∧
      ys.map data = bs.map stored ∧ (∀ r ∈ as, r.1 < key) ∧ ∀ r ∈ bs, key < r.1 := by
  obtain ⟨as, bs, hsplit, hdata, hbs⟩ := h.split_cells hlevel
  have hstrict := h.shaped.tower.strict 0 h.shaped.tower.pos
  rw [hlevel] at hstrict
  obtain ⟨-, -, hcross⟩ := List.pairwise_append.mp hstrict
  refine ⟨as, bs, hsplit, hdata, hbs, ?_, ?_⟩
  · intro r hr
    have hmem : stored r ∈ (xs ++ [c]).map data := by
      rw [hdata]
      exact List.mem_cons_of_mem _ (List.mem_map_of_mem hr)
    obtain ⟨e, he, heq⟩ := List.mem_map.mp hmem
    have hkey : e.key = r.1 := congrArg Prod.fst heq
    rw [← hkey]
    rcases List.mem_append.mp he with he | he
    · exact lt_trans (hcross e he c List.mem_cons_self) hlt
    · rw [List.mem_singleton.mp he]
      exact hlt
  · intro r hr
    have hmem : stored r ∈ ys.map data := by
      rw [hbs]
      exact List.mem_map_of_mem hr
    obtain ⟨e, he, heq⟩ := List.mem_map.mp hmem
    have hkey : e.key = r.1 := congrArg Prod.fst heq
    rw [← hkey]
    exact hgt e he

end Represents

/-- The lower bound is the first key and the upper one the last. -/
structure ExactBounds (m : Sl) : Prop where
  minKey : m.minKey = (m.bottomLevel.head?.map Prod.fst).getD SlUint128.max
  maxKey : m.maxKey = (m.bottomLevel.getLast?.map Prod.fst).getD SlUint128.zero

/-- A new record between those with smaller and those with greater keys. -/
theorem ExactBounds.insert {m m' : Sl} (h : ExactBounds m) {key : SlUint128} {content : Bytes}
    {as bs : List (SlUint128 × Bytes)} (hsplit : m.bottomLevel = as ++ bs)
    (has : ∀ r ∈ as, r.1 < key) (hbs : ∀ r ∈ bs, key < r.1)
    (hsplit' : m'.bottomLevel = as ++ (key, content) :: bs)
    (hmin : m'.minKey = if keyCompare key m.minKey < 0 then key else m.minKey)
    (hmax : m'.maxKey = if keyCompare key m.maxKey > 0 then key else m.maxKey) : ExactBounds m' := by
  simp only [keyCompare_neg_iff] at hmin
  simp only [keyCompare_pos_iff] at hmax
  refine ⟨?_, ?_⟩
  · rw [hmin, hsplit', h.minKey, hsplit]
    cases as with
    | cons r as =>
      have hlt := has r List.mem_cons_self
      exact if_neg (lt_asymm hlt)
    | nil =>
      cases bs with
      | cons r bs => exact if_pos (hbs r List.mem_cons_self)
      | nil =>
        show (if key < SlUint128.max then key else SlUint128.max) = key
        split
        · rfl
        · rename_i hge
          exact le_antisymm (not_lt.mp hge) (SlUint128.le_max key)
  · rw [hmax, hsplit', h.maxKey, hsplit]
    rcases List.eq_nil_or_concat bs with rfl | ⟨bs, r, rfl⟩
    · rw [List.append_nil, List.getLast?_concat]
      rcases List.eq_nil_or_concat as with rfl | ⟨as, r, rfl⟩
      · show (if SlUint128.zero < key then key else SlUint128.zero) = key
        split
        · rfl
        · rename_i hge
          exact le_antisymm (SlUint128.zero_le key) (not_lt.mp hge)
      · rw [List.concat_eq_append] at has ⊢
        rw [List.getLast?_concat]
        exact if_pos (has r (by simp))
    · rw [List.concat_eq_append] at hbs ⊢
      have hlt := hbs r (by simp)
      rw [← List.append_assoc, List.getLast?_concat, ← List.cons_append, ← List.append_assoc,
        List.getLast?_concat]
      exact if_neg (lt_asymm hlt)

/-- `sl_insert` does to the records what the insertion into the memtable does, and keeps the
levels. -/
theorem Represents.slInsert_spec {sl : Skiplist} {level : Nat → List Cell} {m : Sl}
    (h : Represents sl level m) (hm : m.Wf) (hbounds : ExactBounds m) (key : SlUint128)
    (content : Bytes) (flips : List Bool) :
    (slInsert sl key content flips = some (sl, -1) ∧ Lsmt.slInsert m key content = (m, -1) ∧
        m.Refuses key) ∨
      ∃ sl' level' m', slInsert sl key content flips = some (sl', 0) ∧
        Lsmt.slInsert m key content = (m', 0) ∧ ¬ m.Refuses key ∧ Represents sl' level' m' ∧
        m'.Wf ∧ ExactBounds m' ∧ m'.bottomLevel.Perm ((key, content) :: m.bottomLevel) ∧
        (Occupied sl level → Occupied sl' level') := by
  rcases slInsert_cases hm key content with ⟨hrefused, hrefuses⟩ |
    ⟨m', haccepted, hfree, hwf, -, hperm⟩
  · -- a refused key is reserved or present, and nothing is written
    refine Or.inl ⟨?_, hrefused, hrefuses⟩
    by_cases hid : key.id = 0
    · exact if_pos hid
    · obtain ⟨n, hn, hkey⟩ := hrefuses.resolve_left hid
      have hpos := SlUint128.zero_lt_of_id_ne_zero hid
      -- the bounds cover a key that is present
      have hwiden : widenMax (widenMin sl key) key = sl := by
        have hmin : ¬ keyCompare key sl.minKey < 0 := by
          rw [keyCompare_neg_iff, h.minKey_eq, not_lt, ← hkey]
          exact hm.minKey_le n hn
        have hmax : ¬ keyCompare key sl.maxKey > 0 := by
          rw [keyCompare_pos_iff, h.maxKey_eq, not_lt, ← hkey]
          exact hm.le_maxKey n hn
        unfold widenMax widenMin
        simp only [if_neg hmin, if_neg hmax]
      obtain ⟨c, hc, hcell⟩ := (h.mem_keys_iff (ne_of_gt hpos)).mpr ⟨n, hn, hkey⟩
      unfold slInsert
      simp only [if_neg hid, hwiden]
      rcases h.shaped.slSearch_spec hpos with ⟨hsearch, -⟩ | ⟨promotions, -, hplaced⟩
      · rw [hsearch]
      · obtain ⟨a, -, hsplits⟩ := hplaced 0 (Nat.le_refl 0) h.shaped.tower.pos
        exact absurd hcell (hsplits.ne (h.shaped.tower.strict 0 h.shaped.tower.pos) hc)
  · -- an accepted key goes between the cells where the search has stopped
    refine Or.inr ?_
    have hid : key.id ≠ 0 := fun hzero => hfree (Or.inl hzero)
    have hpos := SlUint128.zero_lt_of_id_ne_zero hid
    have hshaped : Shaped (widenMax (widenMin sl key) key) level :=
      ⟨h.shaped.tower, h.shaped.top, h.shaped.bottom⟩
    rcases hshaped.slSearch_spec hpos with ⟨-, hcell⟩ | ⟨promotions, hsearch, hplaced⟩
    · exact absurd (Or.inr ((h.mem_keys_iff (ne_of_gt hpos)).mp hcell)) hfree
    · obtain ⟨sl', level', xs, c, ys, hadd, hshaped', hlevel, hlt, hgt, hlevel', hsize, hmin, hmax,
        hocc⟩ := hshaped.slAdd_spec hpos hplaced content flips
      obtain ⟨as, bs, hsplit, has, hbs, hbelow, habove⟩ := h.split_records hlevel hlt hgt
      -- the memtable with the record at the same place
      let m₁ : Sl := { m with
        bottomLevel := as ++ (key, content) :: bs
        size := m.size + 16 + content.length
        minKey := if keyCompare key m.minKey < 0 then key else m.minKey
        maxKey := if keyCompare key m.maxKey > 0 then key else m.maxKey }
      have hinsert : Lsmt.slInsert m key content = (m₁, 0) := by
        have hnew : insertNew Prod.fst (key, content) (as ++ bs) = some (as ++ (key, content) :: bs) :=
          insertNew_append hbelow habove
        unfold Lsmt.slInsert
        rw [if_neg hid]
        simp only [hsplit, hnew]
        rfl
      obtain rfl : m' = m₁ := (Prod.mk.inj (haccepted.symm.trans hinsert)).1
      refine ⟨sl', level', m₁, ?_, hinsert, hfree, ⟨hshaped', ?_, ?_, ?_, ?_⟩, hwf,
        hbounds.insert hsplit hbelow habove rfl rfl rfl, hperm, hocc⟩
      · unfold slInsert
        simp only [if_neg hid, hsearch, hadd, Option.map_some]
      · have hmiddle : level' 0 = (xs ++ [c]) ++ ⟨sl.nextAddr, key, some content, none⟩ :: ys := by
          rw [hlevel', List.append_assoc]
          rfl
        rw [hmiddle, List.map_append, List.map_cons, has, hbs, List.cons_append]
        show _ = (SlUint128.zero, none) :: (as ++ (key, content) :: bs).map stored
        rw [List.map_append, List.map_cons]
        rfl
      · rw [hsize]
        exact congrArg (· + 16 + content.length) h.size_eq
      · rw [hmin]
        show (if keyCompare key sl.minKey < 0 then key else sl.minKey) = _
        rw [h.minKey_eq]
      · rw [hmax]
        show (if keyCompare key sl.maxKey > 0 then key else sl.maxKey) = _
        rw [h.maxKey_eq]

/-! ## All sequences of insertions -/

/-- A call of `sl_insert` with the coins it meets. -/
structure SlCall where
  key : SlUint128
  content : Bytes
  flips : List Bool

/-- The list behind the call. -/
def SlCall.step (sl : Skiplist) (call : SlCall) : Option Skiplist :=
  (slInsert sl call.key call.content call.flips).map Prod.fst

/-- The levels are a tower between the two pointers, the sentinel of an upper level lies above the
next one, and the bottom level holds the records; the rest of the structure sums them up. -/
structure WellFormed (sl : Skiplist) (level : Nat → List Cell)
    (records : List (SlUint128 × Bytes)) : Prop where
  shaped : Shaped sl level
  sentinels : ∀ i, i + 1 < sl.levels → ∀ head, (level (i + 1)).head? = some head →
    head.lowerLevel = first (level i)
  bottom_eq : (level 0).map data = (SlUint128.zero, none) :: records.map stored
  size_eq : sl.size = (records.map nodeSize).sum
  minKey_eq : ∀ r, records.head? = some r → sl.minKey = r.1
  maxKey_eq : ∀ r, records.getLast? = some r → sl.maxKey = r.1

theorem Represents.wellFormed {sl : Skiplist} {level : Nat → List Cell} {m : Sl}
    (h : Represents sl level m) (hm : m.Wf) (hbounds : ExactBounds m) :
    WellFormed sl level m.bottomLevel where
  shaped := h.shaped
  sentinels := by
    intro i hi head hhead
    obtain ⟨head', cells, hcells, hzero⟩ := h.shaped.tower.sentinel (i + 1) hi
    rw [hcells] at hhead
    cases hhead
    obtain ⟨below, cells', hbelow, -, hlower⟩ := h.shaped.head_down hi hcells hzero
    rw [hlower, hbelow]
    rfl
  bottom_eq := h.records
  size_eq := h.size_eq.trans hm.size_eq
  minKey_eq := by
    intro r hr
    rw [h.minKey_eq, hbounds.minKey, hr]
    rfl
  maxKey_eq := by
    intro r hr
    rw [h.maxKey_eq, hbounds.maxKey, hr]
    rfl

/-- The records are the first insertions of the keys. -/
def FirstInsertions (calls : List SlCall) (records : List (SlUint128 × Bytes)) : Prop :=
  ∀ key content, (key, content) ∈ records ↔
    key.id ≠ 0 ∧ (calls.find? fun call => call.key = key).map SlCall.content = some content

/-- What an insertion answers and leaves alone. -/
def AnswersRight (sl : Skiplist) (records : List (SlUint128 × Bytes)) (call : SlCall) : Prop :=
  ∃ sl' code, slInsert sl call.key call.content call.flips = some (sl', code) ∧
    (code = 0 ↔ call.key.id ≠ 0 ∧ ∀ r ∈ records, r.1 ≠ call.key) ∧ (code ≠ 0 → sl' = sl)

theorem Represents.answersRight {sl : Skiplist} {level : Nat → List Cell} {m : Sl}
    (h : Represents sl level m) (hm : m.Wf) (hbounds : ExactBounds m) (call : SlCall) :
    AnswersRight sl m.bottomLevel call := by
  rcases h.slInsert_spec hm hbounds call.key call.content call.flips with
    ⟨hinsert, -, hrefuses⟩ | ⟨sl', -, -, hinsert, -, hfree, -⟩
  · refine ⟨sl, -1, hinsert, ?_, fun _ => rfl⟩
    constructor
    · intro hcode
      cases hcode
    · rintro ⟨hid, hnone⟩
      rcases hrefuses with hzero | ⟨n, hn, hkey⟩
      · exact absurd hzero hid
      · exact absurd hkey (hnone n hn)
  · refine ⟨sl', 0, hinsert, ?_, fun hcode => absurd rfl hcode⟩
    refine iff_of_true rfl ⟨fun hzero => hfree (Or.inl hzero), fun r hr hkey => ?_⟩
    exact hfree (Or.inr ⟨r, hr, hkey⟩)

/-- A refused call adds no key. -/
theorem FirstInsertions.refused {calls : List SlCall} {m : Sl}
    (h : FirstInsertions calls m.bottomLevel) {call : SlCall} (hrefuses : m.Refuses call.key) :
    FirstInsertions (calls ++ [call]) m.bottomLevel := by
  intro key content
  rw [h key content, List.find?_append, and_congr_right_iff]
  intro hid
  by_cases hkey : call.key = key
  · subst hkey
    obtain ⟨n, hn, hsame⟩ := hrefuses.resolve_left hid
    have hfound := ((h n.1 n.2).mp hn).2
    rw [hsame] at hfound
    obtain ⟨first, hfirst, -⟩ := Option.map_eq_some_iff.mp hfound
    rw [hfirst, Option.some_or]
  · rw [List.find?_cons_of_neg (by simpa using hkey), List.find?_nil, Option.or_none]

/-- An accepted call is the first one with its key. -/
theorem FirstInsertions.accepted {calls : List SlCall} {m m' : Sl}
    (h : FirstInsertions calls m.bottomLevel) {call : SlCall} (hfree : ¬ m.Refuses call.key)
    (hperm : m'.bottomLevel.Perm ((call.key, call.content) :: m.bottomLevel)) :
    FirstInsertions (calls ++ [call]) m'.bottomLevel := by
  have hid : call.key.id ≠ 0 := fun hzero => hfree (Or.inl hzero)
  have hnew : ∀ content, (call.key, content) ∉ m.bottomLevel := fun content hmem =>
    hfree (Or.inr ⟨_, hmem, rfl⟩)
  have hnone : (calls.find? fun c => c.key = call.key) = none := by
    by_contra hfound
    obtain ⟨first, hfirst⟩ := Option.ne_none_iff_exists'.mp hfound
    refine hnew first.content ((h call.key first.content).mpr ⟨hid, ?_⟩)
    rw [hfirst]
    rfl
  intro key content
  rw [hperm.mem_iff, List.mem_cons, List.find?_append]
  by_cases hkey : call.key = key
  · subst hkey
    rw [hnone, Option.none_or, List.find?_cons_of_pos (by simp), or_iff_left (hnew content)]
    simp [hid, eq_comm]
  · rw [h key content, List.find?_cons_of_neg (by simpa using hkey), List.find?_nil, Option.or_none,
      or_iff_right]
    intro heq
    exact hkey (congrArg Prod.fst heq).symm

/-- Any sequence of insertions leaves a memtable of the first records, above whose bottom level there
are no empty levels. -/
theorem exists_represents (calls : List SlCall) :
    ∃ sl level m, run SlCall.step slInit calls = some sl ∧ Represents sl level m ∧ m.Wf ∧
      ExactBounds m ∧ FirstInsertions calls m.bottomLevel ∧ Occupied sl level := by
  induction calls using List.reverseRecOn with
  | nil =>
    refine ⟨slInit, _, Lsmt.slInit 0, rfl, represents_slInit 0, Sl.wf_slInit 0, ⟨rfl, rfl⟩, ?_, ?_⟩
    · intro key content
      simp [Lsmt.slInit]
    · intro i hpos hi
      have hi : i < 1 := hi
      omega
  | append_singleton calls call ih =>
    obtain ⟨sl, level, m, hrun, h, hm, hbounds, hfirst, hocc⟩ := ih
    rcases h.slInsert_spec hm hbounds call.key call.content call.flips with
      ⟨hinsert, -, hrefuses⟩ | ⟨sl', level', m', hinsert, -, hfree, h', hm', hbounds', hperm, hkept⟩
    · have hstep : call.step sl = some sl := by
        rw [SlCall.step, hinsert]
        rfl
      exact ⟨sl, level, m, run_append_eq_some.mpr ⟨sl, hrun, run_cons_eq_some.mpr ⟨sl, hstep, rfl⟩⟩,
        h, hm, hbounds, hfirst.refused hrefuses, hocc⟩
    · have hstep : call.step sl = some sl' := by
        rw [SlCall.step, hinsert]
        rfl
      exact ⟨sl', level', m',
        run_append_eq_some.mpr ⟨sl, hrun, run_cons_eq_some.mpr ⟨sl', hstep, rfl⟩⟩,
        h', hm', hbounds', hfirst.accepted hfree hperm, hkept hocc⟩

/-- The levels behind any sequence of insertions, and what the next one answers. -/
theorem skiplist_represents (calls : List SlCall) :
    ∃ sl level records, run SlCall.step slInit calls = some sl ∧ WellFormed sl level records ∧
      FirstInsertions calls records ∧ ∀ call, AnswersRight sl records call := by
  obtain ⟨sl, level, m, hrun, h, hm, hbounds, hfirst, -⟩ := exists_represents calls
  exact ⟨sl, level, m.bottomLevel, hrun, h.wellFormed hm hbounds, hfirst,
    fun call => h.answersRight hm hbounds call⟩

end RaftLsmt.Lsmt.Skip
