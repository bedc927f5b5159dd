import Mathlib.Data.List.Nodup
import Mathlib.Logic.Function.Basic

/-!
# Doubly linked lists in a heap

Nodes with a previous and a next pointer at the addresses of a heap. `Seg` is a part of such a list:
the addresses in order, what the first node points back to and what the last one points on to. Parts
are put together and taken apart with `seg_append`; a change of a node outside does not matter
(`Seg.congr`), and the two ends can be redirected (`Seg.setPrev`, `Seg.setNext`).
-/

set_option autoImplicit false

namespace RaftLsmt.Lib.DoublyLinked

universe u

variable {α : Type u}

/-- A node. -/
structure Node (α : Type u) where
  content : α
  prev : Option Nat
  next : Option Nat

/-- The nodes that are allocated. -/
abbrev Heap (α : Type u) := Nat → Option (Node α)

/-- Write the previous pointer of a node; `none` when there is no node at the address. -/
def setPrev (heap : Heap α) (a : Nat) (prev : Option Nat) : Option (Heap α) :=
  (heap a).map fun node => Function.update heap a (some { node with prev := prev })

/-- Write the next pointer of a node. -/
def setNext (heap : Heap α) (a : Nat) (next : Option Nat) : Option (Heap α) :=
  (heap a).map fun node => Function.update heap a (some { node with next := next })

/-- What the nodes hold. -/
def contentAt (heap : Heap α) (a : Nat) : Option α := (heap a).map Node.content

/-- The addresses lead from `first` to `behind`; `before` is what the first node points back to and
`last` the address of the last node. Without nodes the ends meet. -/
def Seg (heap : Heap α) : Option Nat → Option Nat → List Nat → Option Nat → Option Nat → Prop
  | before, first, [], last, behind => last = before ∧ first = behind
  | before, first, a :: as, last, behind =>
    first = some a ∧ ∃ node, heap a = some node ∧ node.prev = before ∧
      Seg heap (some a) node.next as last behind

/-- A whole list. -/
def Linked (heap : Heap α) (first : Option Nat) (as : List Nat) : Prop :=
  ∃ last, Seg heap none first as last none

theorem seg_append {heap : Heap α} {before first last behind : Option Nat} {as bs : List Nat} :
    Seg heap before first (as ++ bs) last behind ↔
      ∃ middle start, Seg heap before first as middle start ∧
        Seg heap middle start bs last behind := by
  induction as generalizing before first with
  | nil =>
    simp only [List.nil_append, Seg]
    constructor
    · intro h
      exact ⟨before, first, ⟨rfl, rfl⟩, h⟩
    · rintro ⟨middle, start, ⟨rfl, rfl⟩, h⟩
      exact h
  | cons a as ih =>
    simp only [List.cons_append, Seg]
    constructor
    · rintro ⟨rfl, node, hnode, hprev, hrest⟩
      obtain ⟨middle, start, has, hbs⟩ := ih.mp hrest
      exact ⟨middle, start, ⟨rfl, node, hnode, hprev, has⟩, hbs⟩
    · rintro ⟨middle, start, ⟨rfl, node, hnode, hprev, has⟩, hbs⟩
      exact ⟨rfl, node, hnode, hprev, ih.mpr ⟨middle, start, has, hbs⟩⟩

theorem Seg.unique {heap : Heap α} {before first last last' : Option Nat} {as bs : List Nat}
    (h : Seg heap before first as last none) (h' : Seg heap before first bs last' none) :
    as = bs := by
  induction as generalizing before first bs with
  | nil =>
    obtain ⟨-, rfl⟩ := h
    cases bs with
    | nil => rfl
    | cons b bs => cases h'.1
  | cons a as ih =>
    obtain ⟨rfl, node, hnode, -, hrest⟩ := h
    cases bs with
    | nil => cases h'.2
    | cons b bs =>
      obtain ⟨hb, node', hnode', -, hrest'⟩ := h'
      cases hb
      rw [hnode] at hnode'
      cases hnode'
      rw [ih hrest hrest']

/-- The pointers determine the addresses. -/
theorem Linked.unique {heap : Heap α} {first : Option Nat} {as bs : List Nat}
    (has : Linked heap first as) (hbs : Linked heap first bs) : as = bs := by
  obtain ⟨last, hseg⟩ := has
  obtain ⟨last', hseg'⟩ := hbs
  exact hseg.unique hseg'

/-- The pointers of a node. -/
def linksAt (heap : Heap α) (a : Nat) : Option (Option Nat × Option Nat) :=
  (heap a).map fun node => (node.prev, node.next)

/-- A part depends on the pointers of its own nodes only. -/
theorem Seg.congr {heap heap' : Heap α} {before first last behind : Option Nat} {as : List Nat}
    (h : Seg heap before first as last behind) (heq : ∀ a ∈ as, linksAt heap' a = linksAt heap a) :
    Seg heap' before first as last behind := by
  induction as generalizing before first with
  | nil => exact h
  | cons a as ih =>
    obtain ⟨hfirst, node, hnode, hprev, hrest⟩ := h
    have hlinks : linksAt heap' a = some (node.prev, node.next) := by
      rw [heq a List.mem_cons_self]
      unfold linksAt
      rw [hnode, Option.map_some]
    obtain ⟨node', hnode', hsame⟩ := Option.map_eq_some_iff.mp hlinks
    rw [Prod.mk.injEq] at hsame
    refine ⟨hfirst, node', hnode', hsame.1.trans hprev, ?_⟩
    rw [hsame.2]
    exact ih hrest fun b hb => heq b (List.mem_cons_of_mem _ hb)

theorem Seg.of_eq {heap heap' : Heap α} {before first last behind : Option Nat} {as : List Nat}
    (h : Seg heap before first as last behind) (heq : ∀ a ∈ as, heap' a = heap a) :
    Seg heap' before first as last behind := by
  apply h.congr
  intro a ha
  exact congrArg (Option.map _) (heq a ha)

theorem Seg.update {heap : Heap α} {before first last behind : Option Nat} {as : List Nat}
    (h : Seg heap before first as last behind) {a : Nat} (ha : a ∉ as) (node : Option (Node α)) :
    Seg (Function.update heap a node) before first as last behind := by
  apply h.of_eq
  intro b hb
  apply Function.update_of_ne
  rintro rfl
  exact ha hb

/-- What the nodes hold does not matter. -/
theorem Seg.setContent {heap : Heap α} {before first last behind : Option Nat} {as : List Nat}
    (h : Seg heap before first as last behind) {a : Nat} {node : Node α} (hnode : heap a = some node)
    (content : α) :
    Seg (Function.update heap a (some { node with content := content })) before first as last
      behind := by
  apply h.congr
  intro b _
  unfold linksAt
  by_cases hb : b = a
  · rw [hb, Function.update_self, hnode]
    rfl
  · rw [Function.update_of_ne hb]

/-- A change of the pointers of a node leaves what the nodes hold. -/
theorem contentAt_update {heap : Heap α} {a : Nat} {node node' : Node α} (hnode : heap a = some node)
    (hcontent : node'.content = node.content) (b : Nat) :
    contentAt (Function.update heap a (some node')) b = contentAt heap b := by
  unfold contentAt
  by_cases hb : b = a
  · rw [hb, Function.update_self, hnode, Option.map_some, Option.map_some, hcontent]
  · rw [Function.update_of_ne hb]

/-- The first node of a part that is not empty. -/
theorem Seg.first_eq {heap : Heap α} {before first last behind : Option Nat} {a : Nat}
    {as : List Nat} (h : Seg heap before first (a :: as) last behind) :
    first = some a ∧ ∃ node, heap a = some node ∧ node.prev = before := by
  obtain ⟨hfirst, node, hnode, hprev, -⟩ := h
  exact ⟨hfirst, node, hnode, hprev⟩

theorem Seg.last_eq {heap : Heap α} {before first last behind : Option Nat} {a : Nat}
    {as : List Nat} (h : Seg heap before first (as ++ [a]) last behind) : last = some a := by
  obtain ⟨_, _, -, -, _, -, -, hlast, -⟩ := seg_append.mp h
  exact hlast

/-- The first node of a part points back to another node. -/
theorem Seg.setPrev {heap : Heap α} {before first last behind : Option Nat} {a : Nat}
    {as : List Nat} (h : Seg heap before first (a :: as) last behind) (ha : a ∉ as)
    (before' : Option Nat) :
    ∃ heap', DoublyLinked.setPrev heap a before' = some heap' ∧
      Seg heap' before' first (a :: as) last behind ∧ (∀ b, b ≠ a → heap' b = heap b) ∧
      ∀ b, contentAt heap' b = contentAt heap b := by
  obtain ⟨hfirst, node, hnode, -, hrest⟩ := h
  refine ⟨_, Option.map_eq_some_iff.mpr ⟨node, hnode, rfl⟩, ?_, ?_, ?_⟩
  · exact ⟨hfirst, _, Function.update_self _ _ _, rfl, hrest.update ha _⟩
  · intro b hb
    exact Function.update_of_ne hb _ _
  · exact contentAt_update hnode rfl

/-- The last node of a part points on to another node. -/
theorem Seg.setNext {heap : Heap α} {before first last behind : Option Nat} {a : Nat}
    {as : List Nat} (h : Seg heap before first (as ++ [a]) last behind) (ha : a ∉ as)
    (behind' : Option Nat) :
    ∃ heap', DoublyLinked.setNext heap a behind' = some heap' ∧
      Seg heap' before first (as ++ [a]) last behind' ∧ (∀ b, b ≠ a → heap' b = heap b) ∧
      ∀ b, contentAt heap' b = contentAt heap b := by
  obtain ⟨middle, start, has, hstart, node, hnode, hprev, hlast, -⟩ := seg_append.mp h
  refine ⟨_, Option.map_eq_some_iff.mpr ⟨node, hnode, rfl⟩, ?_, ?_, ?_⟩
  · exact seg_append.mpr ⟨middle, start, has.update ha _, hstart, _, Function.update_self _ _ _,
      hprev, hlast, rfl⟩
  · intro b hb
    exact Function.update_of_ne hb _ _
  · exact contentAt_update hnode rfl

/-- Write the next pointer of the node, if there is one. -/
def setNextOf (heap : Heap α) (a next : Option Nat) : Option (Heap α) :=
  match a with
  | none => some heap
  | some a => setNext heap a next

/-- Write the previous pointer of the node, if there is one. -/
def setPrevOf (heap : Heap α) (a prev : Option Nat) : Option (Heap α) :=
  match a with
  | none => some heap
  | some a => setPrev heap a prev

/-- The nodes behind point back to another node. -/
theorem Seg.setPrevOf {heap : Heap α} {before first last : Option Nat} {as : List Nat}
    (h : Seg heap before first as last none) (hnodup : as.Nodup) (before' : Option Nat) :
    ∃ heap' last', DoublyLinked.setPrevOf heap first before' = some heap' ∧
      Seg heap' before' first as last' none ∧ (∀ b, b ∉ as → heap' b = heap b) ∧
      ∀ b, contentAt heap' b = contentAt heap b := by
  cases as with
  | nil =>
    obtain ⟨-, rfl⟩ := h
    exact ⟨heap, before', rfl, ⟨rfl, rfl⟩, fun _ _ => rfl, fun _ => rfl⟩
  | cons a as =>
    obtain ⟨heap', hset, hseg, hframe, hcontent⟩ := h.setPrev (List.nodup_cons.mp hnodup).1 before'
    rw [h.first_eq.1] at hseg ⊢
    refine ⟨heap', last, hset, hseg, ?_, hcontent⟩
    intro b hb
    apply hframe
    rintro rfl
    exact hb List.mem_cons_self

/-- The nodes in front point on to another node; without any the list starts there. -/
theorem Seg.setNextOf {heap : Heap α} {first last behind : Option Nat} {as : List Nat}
    (h : Seg heap none first as last behind) (hnodup : as.Nodup) (behind' : Option Nat) :
    ∃ heap', DoublyLinked.setNextOf heap last behind' = some heap' ∧
      Seg heap' none (if as = [] then behind' else first) as last behind' ∧
      (∀ b, b ∉ as → heap' b = heap b) ∧ ∀ b, contentAt heap' b = contentAt heap b := by
  rcases List.eq_nil_or_concat as with rfl | ⟨as, a, rfl⟩
  · obtain ⟨rfl, -⟩ := h
    exact ⟨heap, rfl, ⟨rfl, if_pos rfl⟩, fun _ _ => rfl, fun _ => rfl⟩
  · rw [List.concat_eq_append] at *
    have ha : a ∉ as := fun hmem =>
      (List.nodup_append.mp hnodup).2.2 a hmem a (List.mem_singleton_self a) rfl
    obtain ⟨heap', hset, hseg, hframe, hcontent⟩ := h.setNext ha behind'
    rw [h.last_eq] at hseg ⊢
    rw [if_neg (List.append_ne_nil_of_right_ne_nil as (List.cons_ne_nil a []))]
    refine ⟨heap', hset, hseg, ?_, hcontent⟩
    intro b hb
    apply hframe
    rintro rfl
    exact hb (List.mem_append_right _ (List.mem_singleton_self _))

/-- The first node is the one that no node is in front of. -/
theorem Linked.first_eq_iff {heap : Heap α} {first : Option Nat} {before behind : List Nat} {a : Nat}
    (h : Linked heap first (before ++ a :: behind)) (ha : a ∉ before) :
    first = some a ↔ before = [] := by
  obtain ⟨last, hseg⟩ := h
  cases before with
  | nil => exact ⟨fun _ => rfl, fun _ => hseg.first_eq.1⟩
  | cons b before =>
    rw [hseg.first_eq.1]
    constructor
    · rintro ⟨⟩
      exact absurd List.mem_cons_self ha
    · rintro ⟨⟩

/-- Unlinking a node: the one in front points on to the one behind, and that one points back. The node
itself keeps its pointers, and those of all other nodes outside of the list stay. -/
theorem Linked.unlink {heap : Heap α} {first : Option Nat} {before behind : List Nat} {a : Nat}
    (h : Linked heap first (before ++ a :: behind)) (hnodup : (before ++ a :: behind).Nodup) :
    ∃ node heap₁ heap₂, heap a = some node ∧ setNextOf heap node.prev node.next = some heap₁ ∧
      heap₁ a = some node ∧ setPrevOf heap₁ node.next node.prev = some heap₂ ∧
      heap₂ a = some node ∧ (node.prev = none ↔ before = []) ∧
      Linked heap₂ (if first = some a then node.next else first) (before ++ behind) ∧
      (∀ b, b ∉ before ++ behind → heap₂ b = heap b) ∧
      ∀ b, contentAt heap₂ b = contentAt heap b := by
  obtain ⟨hnot, hrest⟩ := List.nodup_cons.mp (List.nodup_middle.mp hnodup)
  have hnotBefore : a ∉ before := fun hmem => hnot (List.mem_append_left _ hmem)
  have hnotBehind : a ∉ behind := fun hmem => hnot (List.mem_append_right _ hmem)
  obtain ⟨hnodupBefore, hnodupBehind, hdisjoint⟩ := List.nodup_append.mp hrest
  have hfirst := h.first_eq_iff hnotBefore
  obtain ⟨last, hseg⟩ := h
  obtain ⟨middle, start, hbefore, rfl, node, hnode, hprev, hbehind⟩ := seg_append.mp hseg
  -- the write to the node in front leaves the segment behind alone
  obtain ⟨heap₁, hnext, hseg₁, hframe₁, hcontent₁⟩ := hbefore.setNextOf hnodupBefore node.next
  have hbehind₁ : Seg heap₁ (some a) node.next behind last none :=
    hbehind.of_eq fun b hb => hframe₁ b fun hb' => hdisjoint b hb' b hb rfl
  -- and the write to the node behind the one in front
  obtain ⟨heap₂, last', hback, hseg₂, hframe₂, hcontent₂⟩ :=
    hbehind₁.setPrevOf hnodupBehind middle
  have hnode₁ : heap₁ a = some node := (hframe₁ a hnotBefore).trans hnode
  refine ⟨node, heap₁, heap₂, hnode, ?_, hnode₁, ?_, (hframe₂ a hnotBehind).trans hnode₁, ?_, ?_, ?_, ?_⟩
  · rw [hprev]
    exact hnext
  · rw [hprev]
    exact hback
  · -- a node without one in front of it is the first
    rw [hprev]
    rcases List.eq_nil_or_concat before with rfl | ⟨before, b, rfl⟩
    · exact ⟨fun _ => rfl, fun _ => hbefore.1⟩
    · rw [List.concat_eq_append] at *
      rw [hbefore.last_eq]
      constructor
      · rintro ⟨⟩
      · intro hnil
        exact absurd hnil (List.append_ne_nil_of_right_ne_nil before (List.cons_ne_nil b []))
  · -- the two segments meet
    refine ⟨last', seg_append.mpr ⟨middle, node.next, ?_, hseg₂⟩⟩
    simp only [hfirst]
    exact hseg₁.of_eq fun b hb => hframe₂ b fun hb' => hdisjoint b hb b hb' rfl
  · intro b hb
    rw [hframe₂ b fun hmem => hb (List.mem_append_right _ hmem),
      hframe₁ b fun hmem => hb (List.mem_append_left _ hmem)]
  · intro b
    rw [hcontent₂, hcontent₁]

theorem Linked.of_eq {heap heap' : Heap α} {first : Option Nat} {as : List Nat}
    (h : Linked heap first as) (heq : ∀ a ∈ as, heap' a = heap a) : Linked heap' first as := by
  obtain ⟨last, hseg⟩ := h
  exact ⟨last, hseg.of_eq heq⟩

/-- The head of a list is its first node. -/
theorem Linked.head_eq {heap : Heap α} {first : Option Nat} {as : List Nat}
    (h : Linked heap first as) : first = as.head? := by
  obtain ⟨last, hseg⟩ := h
  cases as with
  | nil => exact hseg.2
  | cons a as => exact hseg.first_eq.1

/-- Both pointers of a node are written. -/
theorem setNext_setPrev {heap : Heap α} {a : Nat} {node : Node α} (hnode : heap a = some node)
    (prev next : Option Nat) :
    ∃ heap₁ heap₂, setNext heap a next = some heap₁ ∧ setPrev heap₁ a prev = some heap₂ ∧
      heap₂ a = some ⟨node.content, prev, next⟩ ∧ (∀ b, b ≠ a → heap₂ b = heap b) ∧
      ∀ b, contentAt heap₂ b = contentAt heap b := by
  have hnode₁ : Function.update heap a (some { node with next := next }) a =
      some { node with next := next } := Function.update_self _ _ _
  refine ⟨_, _, Option.map_eq_some_iff.mpr ⟨node, hnode, rfl⟩,
    Option.map_eq_some_iff.mpr ⟨_, hnode₁, rfl⟩, Function.update_self _ _ _, ?_, ?_⟩
  · intro b hb
    rw [Function.update_of_ne hb, Function.update_of_ne hb]
  · intro b
    have hcontent₁ := @contentAt_update _ heap a node { node with next := next } hnode rfl b
    have hcontent₂ := @contentAt_update _ _ a _ { node with next := next, prev := prev } hnode₁ rfl b
    rw [hcontent₂, hcontent₁]

/-- A node of its own becomes the first one. -/
theorem Linked.push {heap : Heap α} {first : Option Nat} {as : List Nat} {a : Nat} {node : Node α}
    (h : Linked heap first as) (hnodup : as.Nodup) (ha : a ∉ as) (hnode : heap a = some node) :
    ∃ heap₁ heap₂ heap₃, setNext heap a first = some heap₁ ∧ setPrev heap₁ a none = some heap₂ ∧
      setPrevOf heap₂ first (some a) = some heap₃ ∧ Linked heap₃ (some a) (a :: as) ∧
      (∀ b, b ≠ a → b ∉ as → heap₃ b = heap b) ∧ ∀ b, contentAt heap₃ b = contentAt heap b := by
  obtain ⟨last, hseg⟩ := h
  obtain ⟨heap₁, heap₂, hnext, hprev, hnode₂, hframe₂, hcontent₂⟩ :=
    setNext_setPrev hnode none first
  have hseg₂ := hseg.of_eq fun b hb => hframe₂ b fun heq => ha (heq ▸ hb)
  obtain ⟨heap₃, last', hback, hseg₃, hframe₃, hcontent₃⟩ := hseg₂.setPrevOf hnodup (some a)
  have hself : heap₃ a = some ⟨node.content, none, first⟩ := (hframe₃ a ha).trans hnode₂
  refine ⟨heap₁, heap₂, heap₃, hnext, hprev, hback, ⟨last', rfl, _, hself, rfl, hseg₃⟩, ?_, ?_⟩
  · intro b hb hbas
    rw [hframe₃ b hbas, hframe₂ b hb]
  · intro b
    rw [hcontent₃, hcontent₂]

end RaftLsmt.Lib.DoublyLinked
