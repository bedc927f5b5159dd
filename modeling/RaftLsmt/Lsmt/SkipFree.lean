import RaftLsmt.Lsmt.Skiplist

/-!
# Freeing a skip list

`sl_free` walks the levels from the top and frees the nodes behind each sentinel, then goes down the
sentinels and frees those. `node_free` frees the content with the node of the bottom level, since the
promoted nodes share its pointer. `Freeing` is the memory while this goes on; a step that reads or
frees a node that is gone has no outcome.

`Complete` says that every node ever allocated lies in a level, which insertions keep, and
`slFree_complete` that `sl_free` then frees each node and each content once and leaves nothing.
-/

set_option autoImplicit false

namespace RaftLsmt.Lsmt.Skip

open RaftLsmt.Lib.SkipLevels
open RaftLsmt.Lib.SortedMerge
open RaftLsmt.Lib.StepMachine

/-! ## The code -/

/-- The nodes that are left, and the nodes and contents freed so far, in order. -/
structure Freeing where
  heap : Heap
  nodes : List Nat
  contents : List Bytes

/-- The content that goes with a node. -/
def owned (node : Node) : List Bytes :=
  if node.lowerLevel = none then node.content.toList else []

/-- `node_free`. -/
def nodeFree (f : Freeing) (a : Nat) : Option Freeing :=
  (f.heap a).map fun node => {
    heap := Function.update f.heap a none
    nodes := f.nodes ++ [a]
    contents := f.contents ++ owned node }

/-- The loop of `sl_free` along a level, with `fuel` nodes at most. -/
def freeLevel : Nat → Option Nat → Freeing → Option Freeing
  | 0, _, _ => none
  | _ + 1, none, f => some f
  | fuel + 1, some current, f =>
    match f.heap current with
    | none => none
    | some node =>
      match nodeFree f current with
      | none => none
      | some f => freeLevel fuel node.next f

/-- The loop of `sl_free` down the levels, which keeps the sentinels. `lower_level` is read behind
the walk along the level. -/
def freeLevels (steps : Nat) : Nat → Option Nat → Freeing → Option Freeing
  | 0, _, _ => none
  | _ + 1, none, f => some f
  | fuel + 1, some lvlHead, f =>
    match f.heap lvlHead with
    | none => none
    | some head =>
      match freeLevel steps head.next f with
      | none => none
      | some f =>
        match f.heap lvlHead with
        | none => none
        | some head => freeLevels steps fuel head.lowerLevel f

/-- The loop of `sl_free` down the sentinels. -/
def freeHeads : Nat → Option Nat → Freeing → Option Freeing
  | 0, _, _ => none
  | _ + 1, none, f => some f
  | fuel + 1, some topLevel, f =>
    match f.heap topLevel with
    | none => none
    | some top =>
      match nodeFree f topLevel with
      | none => none
      | some f => freeHeads fuel top.lowerLevel f

/-- `sl_free`; `none` when it reads or frees memory that is not there. -/
def slFree (sl : Skiplist) : Option Freeing :=
  match freeLevels (sl.nextAddr + 1) (sl.levels + 1) (some sl.topLevel) ⟨sl.heap, [], []⟩ with
  | none => none
  | some f => freeHeads (sl.levels + 1) (some sl.topLevel) f

/-! ## Every node lies in a level -/

/-- There is no node from `nextAddr` on. -/
def Fresh (sl : Skiplist) : Prop := ∀ a, sl.nextAddr ≤ a → sl.heap a = none

/-- Every address handed out is that of a cell. -/
def Covered (sl : Skiplist) (level : Nat → List Cell) : Prop :=
  ∀ a, a < sl.nextAddr → ∃ i, i < sl.levels ∧ ∃ c ∈ level i, c.addr = a

theorem Fresh.alloc {sl : Skiplist} (h : Fresh sl) (node : Node) : Fresh (alloc sl node) := by
  intro a ha
  have ha : sl.nextAddr + 1 ≤ a := ha
  show Function.update sl.heap sl.nextAddr (some node) a = none
  rw [Function.update_of_ne (by omega)]
  exact h a (by omega)

/-- A write goes to a node that is there. -/
theorem Fresh.writeNext {sl sl' : Skiplist} (h : Fresh sl) {a : Nat} {next : Option Nat}
    (hwrite : writeNext sl a next = some sl') :
    Fresh sl' ∧ sl'.nextAddr = sl.nextAddr ∧ sl'.levels = sl.levels := by
  unfold Skip.writeNext setNext at hwrite
  cases hnode : sl.heap a with
  | none =>
    rw [hnode] at hwrite
    cases hwrite
  | some node =>
    rw [hnode] at hwrite
    cases hwrite
    refine ⟨?_, rfl, rfl⟩
    intro b hb
    have hb : sl.nextAddr ≤ b := hb
    have hne : b ≠ a := by
      rintro rfl
      rw [h b hb] at hnode
      cases hnode
    show Function.update sl.heap a _ b = none
    rw [Function.update_of_ne hne]
    exact h b hb

/-- What a turn of the promotion loop allocates: a node, and a sentinel for a new level. -/
theorem slPromote_cases {sl sl' : Skiplist} {promotions : Promotions}
    {lastPromoted promotionLevel promoted : Nat} (hfresh : Fresh sl)
    (h : slPromote sl promotions lastPromoted promotionLevel = some (promoted, sl')) :
    Fresh sl' ∧ ((sl'.nextAddr = sl.nextAddr + 1 ∧ sl'.levels = sl.levels) ∨
      (sl'.nextAddr = sl.nextAddr + 2 ∧ sl'.levels = sl.levels + 1 ∧
        sl'.topLevel = sl.nextAddr + 1)) := by
  unfold slPromote at h
  split at h
  · cases h
  · split at h
    · split at h
      · cases h
      · split at h
        · cases h
        · obtain ⟨sl₁, hwrite, heq⟩ := Option.map_eq_some_iff.mp h
          cases heq
          obtain ⟨hfresh', hnext, hlevels⟩ := (hfresh.alloc _).writeNext hwrite
          exact ⟨hfresh', Or.inl ⟨hnext, hlevels⟩⟩
    · split at h
      · cases h
      · cases h
        exact ⟨(hfresh.alloc _).alloc _, Or.inr ⟨rfl, rfl, rfl⟩⟩

namespace Promoting

variable {sl : Skiplist} {level : Nat → List Cell} {key : SlUint128} {content : Bytes}
  {promotions : Promotions} {lastPromoted i : Nat}

/-- A turn of the promotion loop puts what it allocates into a level. -/
theorem slPromote_covered (h : Promoting sl level key content promotions lastPromoted i)
    (hfresh : Fresh sl) (hcovered : Covered sl level) :
    ∃ sl' level', slPromote sl promotions lastPromoted i = some (sl.nextAddr, sl') ∧
      Promoting sl' level' key content promotions sl.nextAddr (i + 1) ∧
      level' 0 = level 0 ∧ Fresh sl' ∧ Covered sl' level' := by
  obtain ⟨sl', level', hpromote, h', hextends, hbottom⟩ := h.slPromote_spec
  obtain ⟨hfresh', hcases⟩ := slPromote_cases hfresh hpromote
  refine ⟨sl', level', hpromote, h', hbottom, hfresh', ?_⟩
  have hold : ∀ a, a < sl.nextAddr → ∃ j, j < sl'.levels ∧ ∃ c ∈ level' j, c.addr = a := by
    intro a ha
    obtain ⟨j, hj, c, hc, haddr⟩ := hcovered a ha
    exact ⟨j, Nat.lt_of_lt_of_le hj hextends.levels_le, c, hextends.mem j hj c hc, haddr⟩
  -- the promoted node is the last one of the loop so far
  have hpromoted : ∃ j, j < sl'.levels ∧ ∃ c ∈ level' j, c.addr = sl.nextAddr := by
    obtain ⟨e, he, haddr, -, -⟩ := h'.last
    refine ⟨i, h'.le, e, ?_, haddr⟩
    rwa [Nat.add_sub_cancel] at he
  intro a ha
  rcases hcases with ⟨hnext, -⟩ | ⟨hnext, -, htop⟩
  · rcases Nat.lt_or_eq_of_le (Nat.lt_succ_iff.mp (hnext ▸ ha)) with hlt | rfl
    · exact hold a hlt
    · exact hpromoted
  · by_cases hlt : a < sl.nextAddr
    · exact hold a hlt
    · by_cases hnew : a = sl.nextAddr
      · rw [hnew]
        exact hpromoted
      · -- the new sentinel is on top
        have hlast : a = sl'.topLevel := by omega
        have hpos := h'.shaped.tower.pos
        obtain ⟨head, cells, hhead, -⟩ := h'.shaped.tower.sentinel (sl'.levels - 1) (by omega)
        have hfirst := h'.shaped.top
        rw [hhead, first_cons] at hfirst
        refine ⟨sl'.levels - 1, by omega, head, ?_, ?_⟩
        · rw [hhead]
          exact List.mem_cons_self
        · rw [hlast]
          exact Option.some.inj hfirst

theorem slPromoteAll_covered (h : Promoting sl level key content promotions lastPromoted i)
    (hfresh : Fresh sl) (hcovered : Covered sl level) (flips : List Bool) :
    ∃ sl' level', slPromoteAll promotions flips lastPromoted i sl = some sl' ∧ Shaped sl' level' ∧
      Fresh sl' ∧ Covered sl' level' := by
  induction flips generalizing sl level lastPromoted i with
  | nil => exact ⟨sl, level, rfl, h.shaped, hfresh, hcovered⟩
  | cons flip flips ih =>
    cases flip with
    | false => exact ⟨sl, level, rfl, h.shaped, hfresh, hcovered⟩
    | true =>
      obtain ⟨sl₁, level₁, hpromote, h₁, -, hfresh₁, hcovered₁⟩ :=
        h.slPromote_covered hfresh hcovered
      obtain ⟨sl₂, level₂, hall, hlevels⟩ := ih h₁ hfresh₁ hcovered₁
      refine ⟨sl₂, level₂, ?_, hlevels⟩
      rw [slPromoteAll, hpromote]
      exact hall

end Promoting

/-- The levels hold every node ever allocated. -/
def Complete (sl : Skiplist) : Prop :=
  Fresh sl ∧ ∃ level, Shaped sl level ∧ Covered sl level

theorem complete_slInit : Complete slInit := by
  refine ⟨?_, _, (represents_slInit 0).shaped, ?_⟩
  · intro a ha
    have hne : a ≠ 0 := Nat.ne_of_gt ha
    simp [slInit, Function.update_of_ne hne]
  · intro a ha
    obtain rfl : a = 0 := Nat.lt_one_iff.mp ha
    exact ⟨0, Nat.one_pos, _, List.mem_singleton_self _, rfl⟩

/-- What `sl_insert` allocates behind its search lies in a level. -/
theorem Shaped.slAdd_complete {sl : Skiplist} {level : Nat → List Cell} (h : Shaped sl level)
    (hfresh : Fresh sl) (hcovered : Covered sl level) {key : SlUint128}
    (hkey : SlUint128.zero < key) {promotions : Promotions}
    (hplaced : PlacedFrom 0 sl.levels level key promotions) (content : Bytes) (flips : List Bool) :
    ∃ sl', slAdd sl promotions key content flips = some sl' ∧ Complete sl' := by
  obtain ⟨xs, c, ys, hlevel, hlt, hgt, hposition⟩ :=
    (h.alloc (newNode key (some content))).slPosition_spec hplaced
  obtain ⟨linked, complete, hlink, hcomplete, hnew, hdone, hother, hshaped⟩ :=
    h.link_spec hlevel hlt hgt content
  have hpromoting := hshaped.promoting h.tower.pos hkey hplaced
  have hfresh' : Fresh { sl with heap := complete, nextAddr := sl.nextAddr + 1 } := by
    intro a ha
    have ha : sl.nextAddr + 1 ≤ a := ha
    have hlinked := ((hfresh.alloc (newNode key (some content))).writeNext hlink).1 a ha
    exact (hother a (by omega)).symm.trans hlinked
  have hcovered' : Covered { sl with heap := complete, nextAddr := sl.nextAddr + 1 }
      (Function.update level 0 (xs ++ c :: ⟨sl.nextAddr, key, some content, none⟩ :: ys)) := by
    intro a ha
    rcases Nat.lt_or_eq_of_le (Nat.lt_succ_iff.mp ha) with hold | rfl
    · obtain ⟨i, hi, d, hd, haddr⟩ := hcovered a hold
      refine ⟨i, hi, d, ?_, haddr⟩
      by_cases hzero : i = 0
      · subst hzero
        rw [hlevel] at hd
        rw [Function.update_self]
        exact mem_insert.mpr (Or.inr hd)
      · rw [Function.update_of_ne hzero]
        exact hd
    · refine ⟨0, h.tower.pos, ⟨sl.nextAddr, key, some content, none⟩, ?_, rfl⟩
      rw [Function.update_self]
      exact mem_insert.mpr (Or.inl rfl)
  obtain ⟨sl', level', hall, hshaped', hfresh'', hcovered''⟩ :=
    hpromoting.slPromoteAll_covered hfresh' hcovered' flips
  refine ⟨{ sl' with size := sl'.size + 16 + content.length }, ?_, hfresh'', level',
    ⟨hshaped'.tower, hshaped'.top, hshaped'.bottom⟩, hcovered''⟩
  unfold slAdd
  simp only [hposition, hlink, hcomplete, hall, Option.map_some]

/-- Insertions lose no node. -/
theorem Complete.slInsert {sl sl' : Skiplist} (h : Complete sl) {key : SlUint128} {content : Bytes}
    {flips : List Bool} {code : Int} (hinsert : slInsert sl key content flips = some (sl', code)) :
    Complete sl' := by
  obtain ⟨hfresh, level, hshaped, hcovered⟩ := h
  unfold Skip.slInsert at hinsert
  split at hinsert
  · cases hinsert
    exact ⟨hfresh, level, hshaped, hcovered⟩
  · rename_i hid
    have hwide : Shaped (widenMax (widenMin sl key) key) level :=
      ⟨hshaped.tower, hshaped.top, hshaped.bottom⟩
    simp only at hinsert
    split at hinsert
    · cases hinsert
    · cases hinsert
      exact ⟨hfresh, level, hwide, hcovered⟩
    · rename_i promotions hsearch
      have hpos := SlUint128.zero_lt_of_id_ne_zero hid
      rcases hwide.slSearch_spec hpos with ⟨hfound, -⟩ | ⟨promotions', hmissing, hplaced⟩
      · cases hfound.symm.trans hsearch
      · cases hmissing.symm.trans hsearch
        obtain ⟨sl₁, hadd, hcomplete⟩ := hwide.slAdd_complete hfresh hcovered hpos hplaced content flips
        rw [hadd] at hinsert
        cases hinsert
        exact hcomplete

/-! ## Freeing -/

/-- What is gone is what has been freed, and nothing has been freed twice. -/
structure Freeing.Ok (heap : Heap) (f : Freeing) : Prop where
  heap_eq : ∀ a, f.heap a = if a ∈ f.nodes then none else heap a
  nodup : f.nodes.Nodup
  allocated : ∀ a ∈ f.nodes, heap a ≠ none

/-- The contents that go with the nodes of some cells. -/
def ownedBy (cells : List Cell) : List Bytes := cells.flatMap fun c => owned (c.node none)

section Freeing

variable {heap : Heap} {f : Freeing}

theorem Freeing.Ok.read (hf : f.Ok heap) {a : Nat} (ha : a ∉ f.nodes) : f.heap a = heap a := by
  rw [hf.heap_eq, if_neg ha]

/-- A node that is there can be freed. -/
theorem Freeing.Ok.nodeFree (hf : f.Ok heap) {a : Nat} (ha : a ∉ f.nodes) {node : Node}
    (hnode : heap a = some node) :
    ∃ f', nodeFree f a = some f' ∧ f'.Ok heap ∧ f'.nodes = f.nodes ++ [a] ∧
      f'.contents = f.contents ++ owned node := by
  refine ⟨⟨Function.update f.heap a none, f.nodes ++ [a], f.contents ++ owned node⟩, ?_,
    ⟨?_, ?_, ?_⟩, rfl, rfl⟩
  · unfold Skip.nodeFree
    rw [hf.read ha, hnode]
    rfl
  · intro b
    show Function.update f.heap a none b = if b ∈ f.nodes ++ [a] then none else heap b
    by_cases hb : b = a
    · rw [hb, Function.update_self, if_pos (by simp)]
    · have hiff : b ∈ f.nodes ++ [a] ↔ b ∈ f.nodes := by simp [hb]
      rw [Function.update_of_ne hb, hf.heap_eq]
      simp only [hiff]
  · rw [List.nodup_append]
    refine ⟨hf.nodup, List.nodup_singleton a, fun b hb c hc => ?_⟩
    rintro rfl
    rw [List.mem_singleton.mp hc] at hb
    exact ha hb
  · intro b hb
    rcases List.mem_append.mp hb with hb | hb
    · exact hf.allocated b hb
    · rw [List.mem_singleton.mp hb, hnode]
      exact Option.some_ne_none node

/-- The walk along a level frees its cells. -/
theorem freeLevel_spec {cells : List Cell} (hchain : Chain heap cells)
    (hnodup : (cells.map Cell.addr).Nodup) (hf : f.Ok heap) (hleft : ∀ c ∈ cells, c.addr ∉ f.nodes)
    {fuel : Nat} (hfuel : cells.length < fuel) :
    ∃ f', freeLevel fuel (first cells) f = some f' ∧ f'.Ok heap ∧
      f'.nodes = f.nodes ++ cells.map Cell.addr ∧ f'.contents = f.contents ++ ownedBy cells := by
  induction cells generalizing f fuel with
  | nil =>
    obtain ⟨fuel, rfl⟩ := Nat.exists_eq_succ_of_ne_zero (Nat.ne_zero_of_lt hfuel)
    exact ⟨f, rfl, hf, by simp, by simp [ownedBy]⟩
  | cons c cells ih =>
    obtain ⟨fuel, rfl⟩ := Nat.exists_eq_succ_of_ne_zero (Nat.ne_zero_of_lt hfuel)
    obtain ⟨hnode, hrest⟩ := hchain
    rw [List.map_cons, List.nodup_cons] at hnodup
    have hc := hleft c List.mem_cons_self
    obtain ⟨f₁, hfree, hf₁, hnodes, hcontents⟩ := hf.nodeFree hc hnode
    have hleft₁ : ∀ d ∈ cells, d.addr ∉ f₁.nodes := by
      intro d hd hmem
      rw [hnodes] at hmem
      rcases List.mem_append.mp hmem with hmem | hmem
      · exact hleft d (List.mem_cons_of_mem _ hd) hmem
      · rw [List.mem_singleton] at hmem
        exact hnodup.1 (hmem ▸ List.mem_map_of_mem hd)
    obtain ⟨f₂, hlevel, hf₂, hnodes', hcontents'⟩ :=
      ih hrest hnodup.2 hf₁ hleft₁ (Nat.lt_of_succ_lt_succ hfuel)
    refine ⟨f₂, ?_, hf₂, ?_, ?_⟩
    · -- the next pointer was read before the node was freed
      rw [first_cons, freeLevel, hf.read hc, hnode]
      simp only [hfree]
      exact hlevel
    · rw [hnodes', hnodes, List.append_assoc]
      rfl
    · rw [hcontents', hcontents, List.append_assoc]
      rfl

end Freeing

/-- The pointer to the topmost of the `n` lowest levels. -/
def headBelow (level : Nat → List Cell) : Nat → Option Nat
  | 0 => none
  | n + 1 => first (level n)

/-- The cells behind the sentinels of the `n` lowest levels, from the top. -/
def tailsBelow (level : Nat → List Cell) : Nat → List Cell
  | 0 => []
  | n + 1 => (level n).tail ++ tailsBelow level n

/-- The sentinels of the `n` lowest levels, from the top. -/
def headsBelow (level : Nat → List Cell) : Nat → List Cell
  | 0 => []
  | n + 1 => (level n).take 1 ++ headsBelow level n

theorem mem_tailsBelow {level : Nat → List Cell} {n : Nat} {c : Cell} :
    c ∈ tailsBelow level n ↔ ∃ i, i < n ∧ c ∈ (level i).tail := by
  induction n with
  | zero => simp [tailsBelow]
  | succ n ih =>
    rw [tailsBelow, List.mem_append, ih]
    constructor
    · rintro (hc | ⟨i, hi, hc⟩)
      · exact ⟨n, Nat.lt_succ_self n, hc⟩
      · exact ⟨i, Nat.lt_succ_of_lt hi, hc⟩
    · rintro ⟨i, hi, hc⟩
      rcases Nat.lt_succ_iff_lt_or_eq.mp hi with hi | rfl
      · exact Or.inr ⟨i, hi, hc⟩
      · exact Or.inl hc

theorem mem_headsBelow {level : Nat → List Cell} {n : Nat} {c : Cell} :
    c ∈ headsBelow level n ↔ ∃ i, i < n ∧ c ∈ (level i).take 1 := by
  induction n with
  | zero => simp [headsBelow]
  | succ n ih =>
    rw [headsBelow, List.mem_append, ih]
    constructor
    · rintro (hc | ⟨i, hi, hc⟩)
      · exact ⟨n, Nat.lt_succ_self n, hc⟩
      · exact ⟨i, Nat.lt_succ_of_lt hi, hc⟩
    · rintro ⟨i, hi, hc⟩
      rcases Nat.lt_succ_iff_lt_or_eq.mp hi with hi | rfl
      · exact Or.inr ⟨i, hi, hc⟩
      · exact Or.inl hc

namespace Shaped

variable {sl : Skiplist} {level : Nat → List Cell} {f : Freeing}

/-- The sentinel of a level and the way down from it. -/
theorem head_spec (h : Shaped sl level) {n : Nat} (hn : n < sl.levels) :
    ∃ head cells, level n = head :: cells ∧ head.key = SlUint128.zero ∧
      head.lowerLevel = headBelow level n := by
  obtain ⟨head, cells, hlevel, hzero⟩ := h.tower.sentinel n hn
  refine ⟨head, cells, hlevel, hzero, ?_⟩
  cases n with
  | zero => exact h.tower.bottom head (hlevel ▸ List.mem_cons_self)
  | succ n =>
    obtain ⟨below, cells', hbelow, -, hlower⟩ := h.head_down hn hlevel hzero
    rw [hlower, headBelow, hbelow]
    rfl

theorem nodup_addr (h : Shaped sl level) {i : Nat} (hi : i < sl.levels) :
    ((level i).map Cell.addr).Nodup := by
  refine List.Nodup.map_on (fun c hc d hd heq => h.tower.cell_eq hi hc hd heq) ?_
  exact List.Nodup.of_map _ (h.tower.strict i hi).nodup_keys

/-- The cells of the upper levels own no content. -/
theorem owned_above (h : Shaped sl level) {i : Nat} (hi : i + 1 < sl.levels) {c : Cell}
    (hc : c ∈ level (i + 1)) : owned (c.node none) = [] := by
  obtain ⟨d, -, hlower, -⟩ := h.tower.down i hi c hc
  have hsome : c.lowerLevel ≠ none := by
    rw [hlower]
    exact Option.some_ne_none _
  exact if_neg hsome

theorem ownedBy_tailsBelow (h : Shaped sl level) {n : Nat} (hn : n < sl.levels) :
    ownedBy (tailsBelow level (n + 1)) = ownedBy (level 0).tail := by
  induction n with
  | zero => simp [tailsBelow]
  | succ n ih =>
    have hnone : ownedBy (level (n + 1)).tail = [] := by
      apply List.flatMap_eq_nil_iff.mpr
      exact fun c hc => h.owned_above hn (List.mem_of_mem_tail hc)
    rw [tailsBelow, ownedBy, List.flatMap_append]
    show ownedBy (level (n + 1)).tail ++ ownedBy (tailsBelow level (n + 1)) = _
    rw [hnone, ih (Nat.lt_of_succ_lt hn), List.nil_append]

/-- The first loop frees what lies behind the sentinels. -/
theorem freeLevels_spec (h : Shaped sl level) {n : Nat} (hn : n ≤ sl.levels) (hf : f.Ok sl.heap)
    (hleft : ∀ i, i < n → ∀ c ∈ level i, c.addr ∉ f.nodes) {fuel : Nat} (hfuel : n < fuel) :
    ∃ f', freeLevels (sl.nextAddr + 1) fuel (headBelow level n) f = some f' ∧ f'.Ok sl.heap ∧
      f'.nodes = f.nodes ++ (tailsBelow level n).map Cell.addr ∧
      f'.contents = f.contents ++ ownedBy (tailsBelow level n) := by
  induction n generalizing f fuel with
  | zero =>
    obtain ⟨fuel, rfl⟩ := Nat.exists_eq_succ_of_ne_zero (Nat.ne_zero_of_lt hfuel)
    exact ⟨f, rfl, hf, by simp [tailsBelow], by simp [tailsBelow, ownedBy]⟩
  | succ n ih =>
    obtain ⟨fuel, rfl⟩ := Nat.exists_eq_succ_of_ne_zero (Nat.ne_zero_of_lt hfuel)
    have hlt : n < sl.levels := hn
    obtain ⟨head, cells, hlevel, -, hlower⟩ := h.head_spec hlt
    have hchain := h.tower.chain n hlt
    have hnodup := h.nodup_addr hlt
    have hlength := h.tower.length_le hlt
    rw [hlevel] at hchain hnodup hlength
    rw [List.map_cons, List.nodup_cons] at hnodup
    have hlevelLeft := hleft n (Nat.lt_succ_self n)
    rw [hlevel] at hlevelLeft
    have hhead := hlevelLeft head List.mem_cons_self
    -- the cells of this level go
    obtain ⟨f₁, hfree, hf₁, hnodes, hcontents⟩ := freeLevel_spec hchain.2 hnodup.2 hf
      (fun c hc => hlevelLeft c (List.mem_cons_of_mem _ hc))
      (Nat.lt_succ_of_lt hlength : cells.length < sl.nextAddr + 1)
    have hheadLeft : head.addr ∉ f₁.nodes := by
      rw [hnodes, List.mem_append, not_or]
      exact ⟨hhead, hnodup.1⟩
    -- and with them none of the levels below
    have hleft₁ : ∀ i, i < n → ∀ c ∈ level i, c.addr ∉ f₁.nodes := by
      intro i hi c hc hmem
      rw [hnodes] at hmem
      rcases List.mem_append.mp hmem with hmem | hmem
      · exact hleft i (Nat.lt_succ_of_lt hi) c hc hmem
      · obtain ⟨d, hd, heq⟩ := List.mem_map.mp hmem
        have hd' : d ∈ level n := hlevel ▸ List.mem_cons_of_mem _ hd
        have hsame := h.tower.disjoint n i hlt (Nat.lt_trans hi hlt) d hd' c hc heq
        omega
    obtain ⟨f₂, hlevels, hf₂, hnodes', hcontents'⟩ :=
      ih (Nat.le_of_succ_le hn) hf₁ hleft₁ (Nat.lt_of_succ_lt_succ hfuel)
    have htails : tailsBelow level (n + 1) = cells ++ tailsBelow level n := by
      rw [tailsBelow, hlevel, List.tail_cons]
    refine ⟨f₂, ?_, hf₂, ?_, ?_⟩
    · rw [headBelow, hlevel, first_cons, freeLevels]
      simp only [hf.read hhead, hchain.1, Cell.node, hfree, hf₁.read hheadLeft, hlower]
      exact hlevels
    · rw [hnodes', hnodes, htails, List.map_append, List.append_assoc]
    · rw [hcontents', hcontents, htails, List.append_assoc, ownedBy, ownedBy, ownedBy,
        List.flatMap_append]

/-- The second loop frees the sentinels. -/
theorem freeHeads_spec (h : Shaped sl level) {n : Nat} (hn : n ≤ sl.levels) (hf : f.Ok sl.heap)
    (hleft : ∀ c ∈ headsBelow level n, c.addr ∉ f.nodes) {fuel : Nat} (hfuel : n < fuel) :
    ∃ f', freeHeads fuel (headBelow level n) f = some f' ∧ f'.Ok sl.heap ∧
      f'.nodes = f.nodes ++ (headsBelow level n).map Cell.addr ∧
      f'.contents = f.contents ++ ownedBy (headsBelow level n) := by
  induction n generalizing f fuel with
  | zero =>
    obtain ⟨fuel, rfl⟩ := Nat.exists_eq_succ_of_ne_zero (Nat.ne_zero_of_lt hfuel)
    exact ⟨f, rfl, hf, by simp [headsBelow], by simp [headsBelow, ownedBy]⟩
  | succ n ih =>
    obtain ⟨fuel, rfl⟩ := Nat.exists_eq_succ_of_ne_zero (Nat.ne_zero_of_lt hfuel)
    have hlt : n < sl.levels := hn
    obtain ⟨head, cells, hlevel, -, hlower⟩ := h.head_spec hlt
    have hchain := h.tower.chain n hlt
    rw [hlevel] at hchain
    have hheads : headsBelow level (n + 1) = head :: headsBelow level n := by
      rw [headsBelow, hlevel]
      rfl
    rw [hheads] at hleft
    have hhead := hleft head List.mem_cons_self
    obtain ⟨f₁, hfree, hf₁, hnodes, hcontents⟩ := hf.nodeFree hhead hchain.1
    have hleft₁ : ∀ c ∈ headsBelow level n, c.addr ∉ f₁.nodes := by
      intro c hc hmem
      rw [hnodes] at hmem
      rcases List.mem_append.mp hmem with hmem | hmem
      · exact hleft c (List.mem_cons_of_mem _ hc) hmem
      · obtain ⟨i, hi, htake⟩ := mem_headsBelow.mp hc
        have hmem' : c ∈ level i := List.mem_of_mem_take htake
        have hsame := h.tower.disjoint i n (Nat.lt_trans hi hlt) hlt c hmem' head
          (hlevel ▸ List.mem_cons_self) (List.mem_singleton.mp hmem)
        omega
    obtain ⟨f₂, hall, hf₂, hnodes', hcontents'⟩ :=
      ih (Nat.le_of_succ_le hn) hf₁ hleft₁ (Nat.lt_of_succ_lt_succ hfuel)
    refine ⟨f₂, ?_, hf₂, ?_, ?_⟩
    · rw [headBelow, hlevel, first_cons, freeHeads]
      simp only [hf.read hhead, hchain.1, Cell.node, hfree, hlower]
      exact hall
    · rw [hnodes', hnodes, hheads, List.append_assoc]
      rfl
    · rw [hcontents', hcontents, hheads, List.append_assoc]
      rfl

/-- `sl_free` frees the cells of all levels. -/
theorem slFree_spec (h : Shaped sl level) :
    ∃ f, slFree sl = some f ∧ f.Ok sl.heap ∧
      f.nodes = ((tailsBelow level sl.levels) ++ headsBelow level sl.levels).map Cell.addr ∧
      f.contents = ownedBy (tailsBelow level sl.levels) ++ ownedBy (headsBelow level sl.levels) := by
  have hpos := h.tower.pos
  have htop : some sl.topLevel = headBelow level sl.levels := by
    obtain ⟨n, hn⟩ := Nat.exists_eq_succ_of_ne_zero (Nat.ne_of_gt hpos)
    rw [← h.top, hn]
    rfl
  have hstart : Freeing.Ok sl.heap ⟨sl.heap, [], []⟩ := ⟨by simp, List.nodup_nil, by simp⟩
  obtain ⟨f₁, hlevels, hf₁, hnodes, hcontents⟩ :=
    h.freeLevels_spec (Nat.le_refl _) hstart (by simp) (Nat.lt_succ_self sl.levels)
  -- a sentinel is none of the cells behind one
  have hleft : ∀ c ∈ headsBelow level sl.levels, c.addr ∉ f₁.nodes := by
    intro c hc hmem
    rw [hnodes, List.nil_append] at hmem
    obtain ⟨d, hd, heq⟩ := List.mem_map.mp hmem
    obtain ⟨i, hi, hhead⟩ := mem_headsBelow.mp hc
    obtain ⟨j, hj, htail⟩ := mem_tailsBelow.mp hd
    have hsame := h.tower.disjoint j i hj hi d (List.mem_of_mem_tail htail) c
      (List.mem_of_mem_take hhead) heq
    subst hsame
    obtain ⟨head, cells, hlevel, -⟩ := h.head_spec hj
    have hnodup := h.nodup_addr hj
    rw [hlevel] at htail hhead hnodup
    rw [List.map_cons, List.nodup_cons] at hnodup
    rw [List.mem_singleton.mp hhead] at heq
    exact hnodup.1 (heq ▸ List.mem_map_of_mem htail)
  obtain ⟨f₂, hheads, hf₂, hnodes', hcontents'⟩ :=
    h.freeHeads_spec (Nat.le_refl _) hf₁ hleft (Nat.lt_succ_self sl.levels)
  refine ⟨f₂, ?_, hf₂, ?_, ?_⟩
  · unfold slFree
    rw [htop, hlevels]
    exact hheads
  · rw [hnodes', hnodes, List.nil_append, List.map_append]
  · rw [hcontents', hcontents, List.nil_append]

end Shaped

/-- The contents of the records are owned by the cells of the bottom level. -/
theorem Represents.owned_eq {sl : Skiplist} {level : Nat → List Cell} {m : Sl}
    (h : Represents sl level m) :
    ownedBy (tailsBelow level sl.levels) ++ ownedBy (headsBelow level sl.levels) =
      m.bottomLevel.map Prod.snd := by
  have hpos := h.shaped.tower.pos
  obtain ⟨n, hn⟩ := Nat.exists_eq_succ_of_ne_zero (Nat.ne_of_gt hpos)
  obtain ⟨head, cells, hlevel, -⟩ := h.shaped.head_spec hpos
  have hrecords := h.records
  rw [hlevel, List.map_cons, List.cons.injEq] at hrecords
  -- the sentinels have no content
  have hheads : ownedBy (headsBelow level sl.levels) = [] := by
    apply List.flatMap_eq_nil_iff.mpr
    intro c hc
    obtain ⟨i, hi, htake⟩ := mem_headsBelow.mp hc
    cases i with
    | zero =>
      rw [hlevel] at htake
      have hcontent : head.content = none := congrArg Prod.snd hrecords.1
      rw [List.mem_singleton.mp htake, owned]
      simp [Cell.node, hcontent]
    | succ i => exact h.shaped.owned_above hi (List.mem_of_mem_take htake)
  have hlast : n < sl.levels := by omega
  rw [hheads, List.append_nil, hn, h.shaped.ownedBy_tailsBelow hlast, hlevel, List.tail_cons]
  -- each other cell of the bottom level owns the content of its record
  have hbottom : ∀ c ∈ cells, c.lowerLevel = none := fun c hc =>
    h.shaped.tower.bottom c (hlevel ▸ List.mem_cons_of_mem _ hc)
  have hcells : ownedBy cells = (cells.map data).flatMap fun d => d.2.toList := by
    rw [List.flatMap_map]
    apply List.flatMap_congr
    intro c hc
    exact if_pos (hbottom c hc)
  rw [hcells, hrecords.2, List.flatMap_map, List.map_eq_flatMap]
  rfl

/-- Any sequence of insertions leaves a list of the first records that has all its nodes. -/
theorem exists_complete (calls : List SlCall) :
    ∃ sl m, run SlCall.step slInit calls = some sl ∧ Complete sl ∧
      (∃ level, Represents sl level m) ∧ FirstInsertions calls m.bottomLevel := by
  obtain ⟨sl, level, m, hrun, h, hm, hbounds, hfirst, -⟩ := exists_represents calls
  refine ⟨sl, m, hrun, ?_, ⟨level, h⟩, hfirst⟩
  refine run_invariant (P := Complete) ?_ (fun _ _ => trivial)
    complete_slInit hrun
  intro sl call sl' (_ : True) hcomplete hstep
  obtain ⟨⟨sl₁, code⟩, hinsert, rfl⟩ := Option.map_eq_some_iff.mp hstep
  exact hcomplete.slInsert hinsert

/-- Behind any sequence of insertions, `sl_free` runs through without touching memory that is gone,
frees every node ever allocated once and nothing else, and frees the content of every record once. -/
theorem slFree_complete (calls : List SlCall) :
    ∃ sl f records, run SlCall.step slInit calls = some sl ∧ slFree sl = some f ∧
      f.nodes.Perm (List.range sl.nextAddr) ∧ (∀ a, f.heap a = none) ∧
      FirstInsertions calls records ∧ f.contents = records.map Prod.snd := by
  obtain ⟨sl, m, hrun, ⟨hfresh, level, hshaped, hcovered⟩, ⟨level', h⟩, hfirst⟩ :=
    exists_complete calls
  obtain ⟨f, hfree, hf, hnodes, -⟩ := hshaped.slFree_spec
  obtain ⟨f', hfree', -, -, hcontents⟩ := h.shaped.slFree_spec
  cases hfree.symm.trans hfree'
  -- what has been handed out has been freed
  have hall : ∀ a, a < sl.nextAddr → a ∈ f.nodes := by
    intro a ha
    obtain ⟨i, hi, c, hc, rfl⟩ := hcovered a ha
    rw [hnodes]
    apply List.mem_map_of_mem
    obtain ⟨head, cells, hlevel, -⟩ := hshaped.head_spec hi
    rw [List.mem_append, mem_tailsBelow, mem_headsBelow]
    rw [hlevel] at hc
    rcases List.mem_cons.mp hc with rfl | hc
    · exact Or.inr ⟨i, hi, by simp [hlevel]⟩
    · exact Or.inl ⟨i, hi, by simpa [hlevel] using hc⟩
  have honly : ∀ a ∈ f.nodes, a < sl.nextAddr := by
    intro a ha
    by_contra hge
    exact hf.allocated a ha (hfresh a (Nat.not_lt.mp hge))
  refine ⟨sl, f, m.bottomLevel, hrun, hfree, ?_, fun a => ?_, hfirst,
    hcontents.trans h.owned_eq⟩
  · rw [List.perm_ext_iff_of_nodup hf.nodup List.nodup_range]
    intro a
    rw [List.mem_range]
    exact ⟨honly a, hall a⟩
  · rw [hf.heap_eq]
    split
    · rfl
    · rename_i hnot
      exact hfresh a (Nat.not_lt.mp fun hlt => hnot (hall a hlt))

end RaftLsmt.Lsmt.Skip
