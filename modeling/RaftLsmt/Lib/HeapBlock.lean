import Mathlib.Data.List.Basic
import Mathlib.Order.MinMax

/-!
# A block of memory that is grown

A block has one owner, who writes to it and has it reallocated when it is too small. `generation`
counts the reallocations: a pointer to the start of the block is the generation in which it was
taken, and after a reallocation it dangles. A write outside of the block and a read through a
dangling pointer or beyond the end have no outcome.

`read_writes` is the rule for a record that is put together from two parts in a block that has been
grown for it.
-/

set_option autoImplicit false

namespace RaftLsmt.Lib.HeapBlock

universe u

variable {β : Type u}

structure Block (β : Type u) where
  generation : Nat
  cells : List β

namespace Block

/-- The size of the block. -/
def cap (b : Block β) : Nat := b.cells.length

/-- A new block; its cells hold anything. -/
def alloc (fill : β) (size : Nat) : Block β := ⟨0, List.replicate size fill⟩

/-- Move to a larger block. What was written is copied. -/
def realloc (fill : β) (b : Block β) (size : Nat) : Block β :=
  ⟨b.generation + 1, b.cells ++ List.replicate (size - b.cap) fill⟩

/-- Make room for `n` cells, at least doubling the block when it is too small. -/
def reserve (fill : β) (b : Block β) (n : Nat) : Block β :=
  if b.cap < n then b.realloc fill (if b.cap * 2 < n then n else b.cap * 2) else b

/-- Overwrite the cells from `pos` on. -/
def write (b : Block β) (pos : Nat) (data : List β) : Option (Block β) :=
  if pos + data.length ≤ b.cap then
    some ⟨b.generation, b.cells.take pos ++ (data ++ b.cells.drop (pos + data.length))⟩
  else none

/-- Read `n` cells through a pointer taken in `generation`. -/
def read (b : Block β) (generation n : Nat) : Option (List β) :=
  if generation = b.generation ∧ n ≤ b.cap then some (b.cells.take n) else none

@[simp]
theorem cap_alloc (fill : β) (size : Nat) : (alloc fill size).cap = size := by
  simp [alloc, cap]

theorem cap_realloc (fill : β) (b : Block β) (size : Nat) :
    (b.realloc fill size).cap = max b.cap size := by
  simp only [cap, realloc, List.length_append, List.length_replicate]
  omega

theorem le_cap_reserve (fill : β) (b : Block β) (n : Nat) : n ≤ (b.reserve fill n).cap := by
  rw [reserve]
  split
  · rw [cap_realloc]
    split <;> omega
  · omega

theorem cap_le_cap_reserve (fill : β) (b : Block β) (n : Nat) :
    b.cap ≤ (b.reserve fill n).cap := by
  rw [reserve]
  split
  · rw [cap_realloc]
    exact le_max_left _ _
  · exact le_refl _

/-- A write inside of the block keeps its size and every pointer to it. -/
theorem write_eq_some {b : Block β} {pos : Nat} {data : List β} (h : pos + data.length ≤ b.cap) :
    ∃ b', b.write pos data = some b' ∧ b'.cap = b.cap ∧ b'.generation = b.generation ∧
      b'.cells.take pos = b.cells.take pos ∧
      b'.cells.take (pos + data.length) = b.cells.take pos ++ data := by
  have hpos : (b.cells.take pos).length = pos := by
    rw [List.length_take]
    exact min_eq_left (le_trans (Nat.le_add_right _ _) h)
  refine ⟨_, if_pos h, ?_, rfl, ?_, ?_⟩
  · simp only [cap, List.length_append, List.length_drop, hpos] at h ⊢
    omega
  · exact List.take_left' hpos
  · rw [← List.append_assoc]
    apply List.take_left'
    rw [List.length_append, hpos]

/-- A block grown for two parts and filled with them reads as their concatenation. -/
theorem read_writes (fill : β) (b : Block β) {front back : List β} {n : Nat}
    (hn : n = front.length + back.length) :
    ∃ b₁ b₂, (b.reserve fill n).write 0 front = some b₁ ∧
      b₁.write front.length back = some b₂ ∧ b.cap ≤ b₂.cap ∧
      b₂.read b₂.generation n = some (front ++ back) := by
  have hroom := le_cap_reserve fill b n
  have hgrown := cap_le_cap_reserve fill b n
  obtain ⟨b₁, hb₁, hcap₁, -, -, hfront⟩ :=
    @write_eq_some β (b.reserve fill n) 0 front (by omega)
  obtain ⟨b₂, hb₂, hcap₂, -, -, hback⟩ := @write_eq_some β b₁ front.length back (by omega)
  refine ⟨b₁, b₂, hb₁, hb₂, by omega, ?_⟩
  rw [read, if_pos ⟨rfl, by omega⟩, hn, hback]
  rw [Nat.zero_add, List.take_zero, List.nil_append] at hfront
  rw [hfront]

end Block

end RaftLsmt.Lib.HeapBlock
