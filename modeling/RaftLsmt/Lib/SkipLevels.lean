import RaftLsmt.Lib.SortedMerge
import Mathlib.Logic.Function.Basic

/-!
# Stacked sorted lists in a heap

A skip list is a stack of singly linked lists, one for each level, whose nodes carry a key and point
down to a node of the level below. `Chain` says that the pointers lead through the given cells, and
`Tower` that each level begins with a sentinel, ascends strictly, and lies above the next one.

A new cell goes into one level behind a given one (`Tower.insert`), or into a new level of its own on
top (`Tower.raise`); both keep the tower. `Splits` names the place for a key in a level.
-/

set_option autoImplicit false

namespace RaftLsmt.Lib.SkipLevels

open RaftLsmt.Lib.SortedMerge

universe u v

variable {κ : Type u} {α : Type v}

/-- A node. -/
structure Node (κ : Type u) (α : Type v) where
  key : κ
  content : α
  next : Option Nat
  lowerLevel : Option Nat

/-- The nodes that are allocated. -/
abbrev Heap (κ : Type u) (α : Type v) := Nat → Option (Node κ α)

/-- Write the next pointer of a node; `none` when there is no node at the address. -/
def setNext (heap : Heap κ α) (a : Nat) (next : Option Nat) : Option (Heap κ α) :=
  (heap a).map fun node => Function.update heap a (some { node with next := next })

/-- A node without its next pointer, at its address. -/
structure Cell (κ : Type u) (α : Type v) where
  addr : Nat
  key : κ
  content : α
  lowerLevel : Option Nat

/-- The node of a cell. -/
def Cell.node (c : Cell κ α) (next : Option Nat) : Node κ α := ⟨c.key, c.content, next, c.lowerLevel⟩

/-- The pointer to the first cell. -/
def first (cells : List (Cell κ α)) : Option Nat := cells.head?.map Cell.addr

@[simp]
theorem first_nil : first ([] : List (Cell κ α)) = none := rfl

@[simp]
theorem first_cons (c : Cell κ α) (cells : List (Cell κ α)) : first (c :: cells) = some c.addr := rfl

/-- The next pointers lead through the cells and end there. -/
def Chain (heap : Heap κ α) : List (Cell κ α) → Prop
  | [] => True
  | c :: cells => heap c.addr = some (c.node (first cells)) ∧ Chain heap cells

variable {heap heap' : Heap κ α}

theorem Chain.append {xs ys : List (Cell κ α)} (h : Chain heap (xs ++ ys)) : Chain heap ys := by
  induction xs with
  | nil => exact h
  | cons x xs ih => exact ih h.2

theorem Chain.node_eq {xs ys : List (Cell κ α)} {c : Cell κ α} (h : Chain heap (xs ++ c :: ys)) :
    heap c.addr = some (c.node (first ys)) := h.append.1

theorem Chain.exists_node {cells : List (Cell κ α)} (h : Chain heap cells) {c : Cell κ α}
    (hc : c ∈ cells) : ∃ next, heap c.addr = some (c.node next) := by
  obtain ⟨xs, ys, rfl⟩ := List.append_of_mem hc
  exact ⟨_, h.node_eq⟩

/-- A chain depends on its own nodes only. -/
theorem Chain.congr {cells : List (Cell κ α)} (h : Chain heap cells)
    (heq : ∀ c ∈ cells, heap' c.addr = heap c.addr) : Chain heap' cells := by
  induction cells with
  | nil => trivial
  | cons c cells ih =>
    refine ⟨?_, ih h.2 fun d hd => heq d (List.mem_cons_of_mem _ hd)⟩
    rw [heq c List.mem_cons_self]
    exact h.1

theorem mem_insert {xs ys : List (Cell κ α)} {c d x : Cell κ α} :
    x ∈ xs ++ c :: d :: ys ↔ x = d ∨ x ∈ xs ++ c :: ys := by
  simp only [List.mem_append, List.mem_cons]
  tauto

/-- A new cell behind a given one. -/
theorem Chain.insert {xs ys : List (Cell κ α)} {c d : Cell κ α} (h : Chain heap (xs ++ c :: ys))
    (hfresh : ∀ x ∈ xs ++ c :: ys, x.addr ≠ d.addr) (hxs : ∀ x ∈ xs, x.addr ≠ c.addr)
    (hys : ∀ y ∈ ys, y.addr ≠ c.addr) :
    Chain (Function.update (Function.update heap d.addr (some (d.node (first ys)))) c.addr
      (some (c.node (some d.addr)))) (xs ++ c :: d :: ys) := by
  have hother : ∀ a, a ≠ c.addr → a ≠ d.addr →
      Function.update (Function.update heap d.addr (some (d.node (first ys)))) c.addr
        (some (c.node (some d.addr))) a = heap a := by
    intro a hc hd
    rw [Function.update_of_ne hc, Function.update_of_ne hd]
  induction xs with
  | nil =>
    have hdc : d.addr ≠ c.addr := (hfresh c List.mem_cons_self).symm
    refine ⟨Function.update_self _ _ _, ?_, ?_⟩
    · rw [Function.update_of_ne hdc]
      exact Function.update_self _ _ _
    · refine Chain.congr h.2 fun y hy => ?_
      exact hother _ (hys y hy) (hfresh y (List.mem_cons_of_mem _ hy))
  | cons x xs ih =>
    refine ⟨?_, ih h.2 (fun y hy => hfresh y (List.mem_cons_of_mem _ hy))
      (fun y hy => hxs y (List.mem_cons_of_mem _ hy))⟩
    rw [hother _ (hxs x List.mem_cons_self) (hfresh x List.mem_cons_self)]
    have hnode := h.1
    cases xs with
    | nil => exact hnode
    | cons x' xs => exact hnode

/-! ## The levels -/

variable [LinearOrder κ]

/-- A new cell between those with smaller and those with greater keys. -/
theorem strictBy_insert {xs ys : List (Cell κ α)} {c d : Cell κ α}
    (h : StrictBy Cell.key (xs ++ c :: ys)) (hlo : c.key < d.key) (hhi : ∀ y ∈ ys, d.key < y.key) :
    StrictBy Cell.key (xs ++ c :: d :: ys) := by
  obtain ⟨hxs, hcys, hcross⟩ := List.pairwise_append.mp h
  obtain ⟨hcy, hys⟩ := strictBy_cons.mp hcys
  refine List.pairwise_append.mpr ⟨hxs, ?_, ?_⟩
  · refine strictBy_cons.mpr ⟨?_, strictBy_cons.mpr ⟨hhi, hys⟩⟩
    intro y hy
    rcases List.mem_cons.mp hy with rfl | hy
    · exact hlo
    · exact hcy y hy
  · intro x hx y hy
    have hxc := hcross x hx c List.mem_cons_self
    rcases List.mem_cons.mp hy with rfl | hy
    · exact hxc
    · rcases List.mem_cons.mp hy with rfl | hy
      · exact lt_trans hxc hlo
      · exact lt_trans hxc (hcy y hy)

/-- `n` levels. Each begins with a sentinel, whose key is below all others, and ascends strictly; each
cell of an upper level points down to the one with its key and content, and the cells of all levels lie
at different addresses below `bound`. -/
structure Tower (heap : Heap κ α) (least : κ) (n : Nat) (level : Nat → List (Cell κ α))
    (bound : Nat) : Prop where
  pos : 0 < n
  chain : ∀ i, i < n → Chain heap (level i)
  sentinel : ∀ i, i < n → ∃ head cells, level i = head :: cells ∧ head.key = least
  strict : ∀ i, i < n → StrictBy Cell.key (level i)
  bottom : ∀ c ∈ level 0, c.lowerLevel = none
  down : ∀ i, i + 1 < n → ∀ c ∈ level (i + 1), ∃ d ∈ level i,
    c.lowerLevel = some d.addr ∧ d.key = c.key ∧ d.content = c.content
  disjoint : ∀ i j, i < n → j < n → ∀ c ∈ level i, ∀ d ∈ level j, c.addr = d.addr → i = j
  bounded : ∀ i, i < n → ∀ c ∈ level i, c.addr < bound

/-- The cell behind which the key belongs, at the address. -/
def Splits (cells : List (Cell κ α)) (key : κ) (a : Nat) : Prop :=
  ∃ xs c ys, cells = xs ++ c :: ys ∧ c.addr = a ∧ c.key < key ∧ ∀ y ∈ ys, key < y.key

/-- A key with a place is not there. -/
theorem Splits.ne {cells : List (Cell κ α)} (hstrict : StrictBy Cell.key cells) {key : κ} {a : Nat}
    (h : Splits cells key a) {x : Cell κ α} (hx : x ∈ cells) : x.key ≠ key := by
  obtain ⟨xs, c, ys, rfl, -, hlt, hgt⟩ := h
  obtain ⟨-, -, hcross⟩ := List.pairwise_append.mp hstrict
  rcases List.mem_append.mp hx with hx | hx
  · exact ne_of_lt (lt_trans (hcross x hx c List.mem_cons_self) hlt)
  · rcases List.mem_cons.mp hx with rfl | hx
    · exact ne_of_lt hlt
    · exact ne_of_gt (hgt x hx)

namespace Tower

variable {least : κ} {n bound : Nat} {level : Nat → List (Cell κ α)}

/-- The address determines the cell. -/
theorem cell_eq (h : Tower heap least n level bound) {i : Nat} (hi : i < n) {c d : Cell κ α}
    (hc : c ∈ level i) (hd : d ∈ level i) (heq : c.addr = d.addr) : c = d := by
  obtain ⟨next, hnode⟩ := (h.chain i hi).exists_node hc
  obtain ⟨next', hnode'⟩ := (h.chain i hi).exists_node hd
  rw [heq, hnode'] at hnode
  have hkey : c.key = d.key := (congrArg Node.key (Option.some.inj hnode)).symm
  exact List.inj_on_of_nodup_map (h.strict i hi).nodup_keys hc hd hkey

/-- The addresses of a level are few. -/
theorem length_le (h : Tower heap least n level bound) {i : Nat} (hi : i < n) :
    (level i).length ≤ bound := by
  have hnodup : ((level i).map Cell.addr).Nodup := by
    refine List.Nodup.map_on (fun c hc d hd heq => h.cell_eq hi hc hd heq) ?_
    exact List.Nodup.of_map _ (h.strict i hi).nodup_keys
  have hsub : (level i).map Cell.addr ⊆ List.range bound := by
    intro a ha
    obtain ⟨c, hc, rfl⟩ := List.mem_map.mp ha
    exact List.mem_range.mpr (h.bounded i hi c hc)
  have hle := (List.subperm_of_subset hnodup hsub).length_le
  rwa [List.length_map, List.length_range] at hle

/-- The next pointer of a cell leads to the least greater key of its level. -/
theorem next_spec (h : Tower heap least n level bound) {i : Nat} (hi : i < n) {c : Cell κ α}
    (hc : c ∈ level i) :
    (heap c.addr = some (c.node none) ∧ ∀ e ∈ level i, e.key ≤ c.key) ∨
      ∃ d ∈ level i, heap c.addr = some (c.node (some d.addr)) ∧ c.key < d.key ∧
        ∀ e ∈ level i, c.key < e.key → d.key ≤ e.key := by
  obtain ⟨xs, ys, hlevel⟩ := List.append_of_mem hc
  have hchain := h.chain i hi
  have hstrict := h.strict i hi
  rw [hlevel] at hchain hstrict
  obtain ⟨-, hcys, hcross⟩ := List.pairwise_append.mp hstrict
  obtain ⟨hcy, hys⟩ := strictBy_cons.mp hcys
  have hnode := hchain.node_eq
  cases ys with
  | nil =>
    refine Or.inl ⟨hnode, ?_⟩
    intro e he
    rw [hlevel] at he
    rcases List.mem_append.mp he with he | he
    · exact le_of_lt (hcross e he c List.mem_cons_self)
    · rw [List.mem_singleton.mp he]
  | cons d ys =>
    refine Or.inr ⟨d, ?_, hnode, hcy d List.mem_cons_self, ?_⟩
    · rw [hlevel]
      simp
    · intro e he hlt
      rw [hlevel] at he
      rcases List.mem_append.mp he with he | he
      · exact absurd hlt (lt_asymm (hcross e he c List.mem_cons_self))
      · rcases List.mem_cons.mp he with rfl | he
        · exact absurd hlt (lt_irrefl _)
        · rcases List.mem_cons.mp he with rfl | he
          · exact le_refl _
          · exact le_of_lt ((strictBy_cons.mp hys).1 e he)

/-- A key of an upper level is in every level below. -/
theorem exists_below (h : Tower heap least n level bound) {i : Nat} (hi : i < n) {c : Cell κ α}
    (hc : c ∈ level i) {j : Nat} (hj : j ≤ i) : ∃ d ∈ level j, d.key = c.key ∧ d.content = c.content := by
  -- one level down at a time
  induction i generalizing c with
  | zero =>
    obtain rfl := Nat.le_zero.mp hj
    exact ⟨c, hc, rfl, rfl⟩
  | succ i ih =>
    rcases Nat.le_succ_iff.mp hj with hj | rfl
    · obtain ⟨d, hd, -, hkey, hcontent⟩ := h.down i hi c hc
      obtain ⟨e, he, hkey', hcontent'⟩ := ih (Nat.lt_of_succ_lt hi) hd hj
      exact ⟨e, he, hkey'.trans hkey, hcontent'.trans hcontent⟩
    · exact ⟨c, hc, rfl, rfl⟩

/-- More memory. -/
theorem mono (h : Tower heap least n level bound) {bound' : Nat} (hle : bound ≤ bound') :
    Tower heap least n level bound' :=
  { h with bounded := fun i hi c hc => Nat.lt_of_lt_of_le (h.bounded i hi c hc) hle }

/-- Only the nodes below the bound matter. -/
theorem congr (h : Tower heap least n level bound) (heq : ∀ a, a < bound → heap' a = heap a) :
    Tower heap' least n level bound :=
  { h with chain := fun i hi => (h.chain i hi).congr fun c hc => heq _ (h.bounded i hi c hc) }

/-- A new cell in a level. -/
theorem insert (h : Tower heap least n level bound) {i : Nat} (hi : i < n)
    {xs ys : List (Cell κ α)} {c d : Cell κ α} (hlevel : level i = xs ++ c :: ys)
    (hfresh : bound ≤ d.addr) (hlo : c.key < d.key) (hhi : ∀ y ∈ ys, d.key < y.key)
    (hbottom : i = 0 → d.lowerLevel = none)
    (hdown : ∀ j, i = j + 1 → ∃ e ∈ level j,
      d.lowerLevel = some e.addr ∧ e.key = d.key ∧ e.content = d.content) :
    Tower (Function.update (Function.update heap d.addr (some (d.node (first ys)))) c.addr
      (some (c.node (some d.addr)))) least n (Function.update level i (xs ++ c :: d :: ys))
      (d.addr + 1) := by
  have hnew : ∀ x, x ∈ xs ++ c :: d :: ys ↔ x = d ∨ x ∈ level i := by
    intro x
    rw [hlevel]
    exact mem_insert
  have hmem : ∀ j x, x ∈ Function.update level i (xs ++ c :: d :: ys) j →
      x ∈ level j ∨ x = d ∧ j = i := by
    intro j x hx
    by_cases hj : j = i
    · subst hj
      rw [Function.update_self] at hx
      rcases (hnew x).mp hx with rfl | hx
      · exact Or.inr ⟨rfl, rfl⟩
      · exact Or.inl hx
    · rw [Function.update_of_ne hj] at hx
      exact Or.inl hx
  have hold : ∀ j x, x ∈ level j → x ∈ Function.update level i (xs ++ c :: d :: ys) j := by
    intro j x hx
    by_cases hj : j = i
    · subst hj
      rw [Function.update_self]
      exact (hnew x).mpr (Or.inr hx)
    · rw [Function.update_of_ne hj]
      exact hx
  have hbelow : ∀ j, j < n → ∀ x ∈ level j, x.addr ≠ d.addr := fun j hj x hx =>
    Nat.ne_of_lt (Nat.lt_of_lt_of_le (h.bounded j hj x hx) hfresh)
  have hc : c ∈ level i := by
    rw [hlevel]
    exact List.mem_append_right _ List.mem_cons_self
  have hstrict := h.strict i hi
  rw [hlevel] at hstrict
  obtain ⟨-, hcys, hcross⟩ := List.pairwise_append.mp hstrict
  obtain ⟨hcy, -⟩ := strictBy_cons.mp hcys
  have haddr : ∀ x ∈ level i, x.addr = c.addr → x.key = c.key := fun x hx heq =>
    congrArg Cell.key (h.cell_eq hi hx hc heq)
  refine ⟨h.pos, ?_, ?_, ?_, ?_, ?_, ?_, ?_⟩
  · intro j hj
    by_cases heq : j = i
    · -- the level of the new cell: the write to `c` meets no other of its cells
      subst heq
      rw [Function.update_self]
      have hchain := h.chain j hj
      rw [hlevel] at hchain
      apply hchain.insert
      · intro x hx
        rw [← hlevel] at hx
        exact hbelow j hj x hx
      · intro x hx heq
        have hkey := haddr x (hlevel ▸ List.mem_append_left _ hx) heq
        exact absurd hkey (ne_of_lt (hcross x hx c List.mem_cons_self))
      · intro y hy heq
        have hkey := haddr y (hlevel ▸ List.mem_append_right _ (List.mem_cons_of_mem _ hy)) heq
        exact absurd hkey (ne_of_gt (hcy y hy))
    · -- both writes go to other levels
      rw [Function.update_of_ne heq]
      refine (h.chain j hj).congr fun x hx => ?_
      have hne : x.addr ≠ c.addr := fun hsame => heq (h.disjoint j i hj hi x hx c hc hsame)
      rw [Function.update_of_ne hne, Function.update_of_ne (hbelow j hj x hx)]
  · intro j hj
    obtain ⟨head, cells, hhead, hkey⟩ := h.sentinel j hj
    by_cases heq : j = i
    · subst heq
      rw [Function.update_self]
      rw [hlevel] at hhead
      -- the new cell is behind `c`, so the sentinel stays in front
      cases xs with
      | nil =>
        rw [List.nil_append] at hhead
        refine ⟨c, d :: ys, rfl, ?_⟩
        rw [(List.cons.inj hhead).1]
        exact hkey
      | cons x xs =>
        refine ⟨x, xs ++ c :: d :: ys, rfl, ?_⟩
        rw [(List.cons.inj hhead).1]
        exact hkey
    · rw [Function.update_of_ne heq]
      exact ⟨head, cells, hhead, hkey⟩
  · intro j hj
    by_cases heq : j = i
    · subst heq
      rw [Function.update_self]
      exact strictBy_insert hstrict hlo hhi
    · rw [Function.update_of_ne heq]
      exact h.strict j hj
  · intro x hx
    rcases hmem 0 x hx with hx | ⟨rfl, hzero⟩
    · exact h.bottom x hx
    · exact hbottom hzero.symm
  · intro j hj x hx
    rcases hmem (j + 1) x hx with hx | ⟨rfl, heq⟩
    · obtain ⟨e, he, hdata⟩ := h.down j hj x hx
      exact ⟨e, hold j e he, hdata⟩
    · obtain ⟨e, he, hdata⟩ := hdown j heq.symm
      exact ⟨e, hold j e he, hdata⟩
  · -- the address of the new cell is above those of all others
    intro j k hj hk x hx y hy heq
    rcases hmem j x hx with hxold | ⟨hxd, rfl⟩
    · rcases hmem k y hy with hyold | ⟨hyd, rfl⟩
      · exact h.disjoint j k hj hk x hxold y hyold heq
      · exact absurd (heq.trans (congrArg Cell.addr hyd)) (hbelow j hj x hxold)
    · rcases hmem k y hy with hyold | ⟨-, rfl⟩
      · exact absurd (heq.symm.trans (congrArg Cell.addr hxd)) (hbelow k hk y hyold)
      · rfl
  · intro j hj x hx
    rcases hmem j x hx with hx | ⟨rfl, rfl⟩
    · exact Nat.lt_succ_of_lt (Nat.lt_of_lt_of_le (h.bounded j hj x hx) hfresh)
    · exact Nat.lt_succ_self _

/-- A new level with a sentinel and one cell. -/
theorem raise (h : Tower heap least n level bound) {s d : Cell κ α} (hfresh : bound ≤ d.addr)
    (hs : s.addr = d.addr + 1) (hkey : s.key = least) (hlt : least < d.key)
    (htop : ∃ e ∈ level (n - 1), s.lowerLevel = some e.addr ∧ e.key = s.key ∧ e.content = s.content)
    (hdown : ∃ e ∈ level (n - 1), d.lowerLevel = some e.addr ∧ e.key = d.key ∧
      e.content = d.content) :
    Tower (Function.update (Function.update heap d.addr (some (d.node none))) s.addr
      (some (s.node (some d.addr)))) least (n + 1) (Function.update level n [s, d])
      (s.addr + 1) := by
  have hne : d.addr ≠ s.addr := by omega
  -- the levels below are as they were
  have hold : ∀ j, j < n → Function.update level n [s, d] j = level j := fun j hj =>
    Function.update_of_ne (Nat.ne_of_lt hj) _ _
  have hnew : Function.update level n [s, d] n = [s, d] := Function.update_self _ _ _
  have hcases : ∀ j, j < n + 1 → j < n ∨ j = n := fun j hj => Nat.lt_succ_iff_lt_or_eq.mp hj
  -- both new cells are above every address in use
  have hpair : ∀ x, x ∈ [s, d] → bound ≤ x.addr ∧ x.addr < s.addr + 1 := by
    intro x hx
    rcases List.mem_cons.mp hx with rfl | hx
    · omega
    · rw [List.mem_singleton.mp hx]
      omega
  refine ⟨Nat.succ_pos n, ?_, ?_, ?_, ?_, ?_, ?_, ?_⟩
  · -- the levels below do not meet the new addresses; the new one has its two cells
    intro j hj
    rcases hcases j hj with hj | rfl
    · rw [hold j hj]
      refine (h.chain j hj).congr fun x hx => ?_
      have hlt := h.bounded j hj x hx
      rw [Function.update_of_ne (by omega), Function.update_of_ne (by omega)]
    · rw [hnew]
      refine ⟨Function.update_self _ _ _, ?_, trivial⟩
      rw [Function.update_of_ne hne]
      exact Function.update_self _ _ _
  · intro j hj
    rcases hcases j hj with hj | rfl
    · rw [hold j hj]
      exact h.sentinel j hj
    · rw [hnew]
      exact ⟨s, [d], rfl, hkey⟩
  · intro j hj
    rcases hcases j hj with hj | rfl
    · rw [hold j hj]
      exact h.strict j hj
    · rw [hnew]
      refine strictBy_cons.mpr ⟨?_, strictBy_cons.mpr ⟨by simp, strictBy_nil⟩⟩
      intro x hx
      rw [List.mem_singleton.mp hx, hkey]
      exact hlt
  · rw [hold 0 h.pos]
    exact h.bottom
  · intro j hj x hx
    rcases hcases (j + 1) hj with hj | hj
    · rw [hold (j + 1) hj] at hx
      rw [hold j (Nat.lt_of_succ_lt hj)]
      exact h.down j hj x hx
    · -- the new level points down to the one that was on top
      obtain rfl : j = n - 1 := by omega
      rw [hj, hnew] at hx
      rw [hold (n - 1) (by omega)]
      rcases List.mem_cons.mp hx with rfl | hx
      · exact htop
      · rw [List.mem_singleton.mp hx]
        exact hdown
  · -- a cell of an old level and one of the new level have different addresses
    intro j k hj hk x hx y hy heq
    rcases hcases j hj with hj | rfl
    · rw [hold j hj] at hx
      have hlt := h.bounded j hj x hx
      rcases hcases k hk with hk | rfl
      · rw [hold k hk] at hy
        exact h.disjoint j k hj hk x hx y hy heq
      · rw [hnew] at hy
        have := (hpair y hy).1
        omega
    · rw [hnew] at hx
      rcases hcases k hk with hk | rfl
      · rw [hold k hk] at hy
        have hlt := h.bounded k hk y hy
        have := (hpair x hx).1
        omega
      · rfl
  · intro j hj x hx
    rcases hcases j hj with hj | rfl
    · rw [hold j hj] at hx
      have hlt := h.bounded j hj x hx
      omega
    · rw [hnew] at hx
      exact (hpair x hx).2

end Tower

end RaftLsmt.Lib.SkipLevels
