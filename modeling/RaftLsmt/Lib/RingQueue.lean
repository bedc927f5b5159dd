import Mathlib.Data.Nat.ModEq
import Mathlib.Data.List.Basic
import Mathlib.Logic.Function.Basic

/-!
# Queues in ring buffers

A first-in first-out queue in an array of fixed capacity, with the positions of its front and its
rear. The positions wrap around at the end of the array; an element is refused when the array is full,
and a cell keeps its value when its element leaves. `toList` is the content in order:
`toList_enqueue` and `toList_dequeue` say what the operations do to it.
-/

set_option autoImplicit false

namespace RaftLsmt.Lib.RingQueue

universe u

/-- A ring buffer; a cell that was never written is `none`. -/
structure Queue (α : Type u) where
  data : Nat → Option α
  capacity : Nat
  front : Nat
  rear : Nat
  size : Nat
  front_lt : front < capacity
  size_le : size ≤ capacity
  rear_eq : rear = (front + size) % capacity
  written : ∀ i, i < size → ∃ x, data ((front + i) % capacity) = some x

namespace Queue

variable {α : Type u}

/-- The empty queue. -/
def init (capacity : Nat) (h : 0 < capacity) : Queue α where
  data := fun _ => none
  capacity := capacity
  front := 0
  rear := 0
  size := 0
  front_lt := h
  size_le := Nat.zero_le capacity
  rear_eq := (Nat.zero_mod capacity).symm
  written := by
    intro i hi
    cases hi

/-- Two elements of a queue are in different cells. -/
theorem cell_inj {capacity front i j : Nat} (hi : i < capacity) (hj : j < capacity)
    (h : (front + i) % capacity = (front + j) % capacity) : i = j := by
  have hmod : Nat.ModEq capacity i j := Nat.ModEq.add_left_cancel' front h
  rw [Nat.ModEq, Nat.mod_eq_of_lt hi, Nat.mod_eq_of_lt hj] at hmod
  exact hmod

/-- The cell behind the last element is not one of the queue. -/
theorem cell_ne_rear (q : Queue α) (hroom : q.size ≠ q.capacity) {i : Nat} (hi : i < q.size) :
    (q.front + i) % q.capacity ≠ q.rear := by
  rw [q.rear_eq]
  intro h
  have hle := q.size_le
  have := cell_inj (by omega) (by omega) h
  omega

/-- Add an element at the rear; the flag is `false` when there is no room. -/
def enqueue (q : Queue α) (x : α) : Bool × Queue α :=
  if h : q.size = q.capacity then (false, q)
  else
    (true, { q with
      data := Function.update q.data q.rear (some x)
      rear := (q.rear + 1) % q.capacity
      size := q.size + 1
      size_le := Nat.lt_of_le_of_ne q.size_le h
      rear_eq := by rw [q.rear_eq, Nat.mod_add_mod, Nat.add_assoc]
      written := by
        intro i hi
        rcases Nat.lt_succ_iff_lt_or_eq.mp hi with hold | rfl
        · rw [Function.update_of_ne (q.cell_ne_rear h hold)]
          exact q.written i hold
        · rw [← q.rear_eq, Function.update_self]
          exact ⟨x, rfl⟩ })

/-- Take the element at the front; `none` when there is none. -/
def dequeue (q : Queue α) : Option α × Queue α :=
  if h : q.size = 0 then (none, q)
  else
    (q.data q.front, { q with
      front := (q.front + 1) % q.capacity
      size := q.size - 1
      front_lt := Nat.mod_lt _ (Nat.zero_lt_of_lt q.front_lt)
      size_le := Nat.le_trans (Nat.sub_le _ _) q.size_le
      rear_eq := by
        rw [q.rear_eq, Nat.mod_add_mod]
        congr 1
        omega
      written := by
        intro i hi
        rw [Nat.mod_add_mod, Nat.add_assoc]
        exact q.written (1 + i) (by omega) })

/-- The elements from the front to the rear. -/
def toList (q : Queue α) : List α :=
  (List.range q.size).filterMap fun i => q.data ((q.front + i) % q.capacity)

@[simp]
theorem toList_init (capacity : Nat) (h : 0 < capacity) : (init capacity h : Queue α).toList = [] :=
  rfl

theorem length_toList (q : Queue α) : q.toList.length = q.size := by
  have hall : ∀ n, n ≤ q.size → ((List.range n).filterMap fun i =>
      q.data ((q.front + i) % q.capacity)).length = n := by
    intro n
    induction n with
    | zero =>
      intro _
      rfl
    | succ n ih =>
      intro hn
      obtain ⟨x, hx⟩ := q.written n hn
      rw [List.range_succ, List.filterMap_append, List.length_append, ih (Nat.le_of_succ_le hn)]
      simp [hx]
  exact hall q.size (Nat.le_refl _)

/-- An element that finds room is the last one. -/
theorem toList_enqueue {q : Queue α} (h : q.size ≠ q.capacity) (x : α) :
    (q.enqueue x).2.toList = q.toList ++ [x] := by
  unfold enqueue
  rw [dif_neg h]
  unfold toList
  simp only
  rw [List.range_succ, List.filterMap_append]
  congr 1
  · apply List.filterMap_congr
    intro i hi
    exact Function.update_of_ne (q.cell_ne_rear h (List.mem_range.mp hi)) _ _
  · rw [List.filterMap_cons, ← q.rear_eq, Function.update_self]
    rfl

theorem enqueue_of_full {q : Queue α} (h : q.size = q.capacity) (x : α) :
    q.enqueue x = (false, q) := dif_pos h

/-- Nothing leaves an empty queue. -/
theorem dequeue_of_empty {q : Queue α} (h : q.size = 0) : q.dequeue = (none, q) := dif_pos h

/-- What leaves the queue and what stays. -/
theorem toList_dequeue (q : Queue α) :
    q.toList = q.dequeue.1.toList ++ q.dequeue.2.toList := by
  by_cases h : q.size = 0
  · rw [dequeue_of_empty h]
    rfl
  · unfold dequeue
    rw [dif_neg h]
    obtain ⟨n, hn⟩ := Nat.exists_eq_succ_of_ne_zero h
    obtain ⟨x, hx⟩ := q.written 0 (by omega)
    rw [Nat.add_zero, Nat.mod_eq_of_lt q.front_lt] at hx
    unfold toList
    simp only [hn, Nat.succ_sub_one, List.range_succ_eq_map, List.filterMap_cons, Nat.add_zero,
      Nat.mod_eq_of_lt q.front_lt, hx, List.filterMap_map, Option.toList_some,
      List.singleton_append, List.cons.injEq, true_and]
    apply List.filterMap_congr
    intro i _
    simp only [Function.comp_apply, Nat.mod_add_mod]
    congr 2
    omega

/-- The front element is the first. -/
theorem dequeue_eq_head? (q : Queue α) : q.dequeue.1 = q.toList.head? := by
  rw [toList_dequeue]
  by_cases h : q.size = 0
  · have hlen := length_toList q
    rw [h] at hlen
    rw [dequeue_of_empty h, List.eq_nil_of_length_eq_zero hlen]
    rfl
  · obtain ⟨x, hx⟩ := q.written 0 (by omega)
    rw [Nat.add_zero, Nat.mod_eq_of_lt q.front_lt] at hx
    have hfirst : q.dequeue.1 = some x := by
      unfold dequeue
      rw [dif_neg h]
      exact hx
    rw [hfirst]
    rfl

theorem capacity_enqueue (q : Queue α) (x : α) : (q.enqueue x).2.capacity = q.capacity := by
  unfold enqueue
  split <;> rfl

theorem capacity_dequeue (q : Queue α) : q.dequeue.2.capacity = q.capacity := by
  unfold dequeue
  split <;> rfl

end Queue

end RaftLsmt.Lib.RingQueue
