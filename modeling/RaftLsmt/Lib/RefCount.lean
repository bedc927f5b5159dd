import Mathlib.Data.List.Basic
import Mathlib.Data.List.Perm.Basic
import Mathlib.Data.List.Nodup
import Mathlib.Logic.Function.Basic

/-!
# Reference counts

A heap of counted cells, numbered in the order of their allocation. `retain` adds one to a count,
`release` takes one off and frees the cell with the last one. `RefHeap.Accounts refs` says that the
counts are those of the list `refs` of all references that exist, and that exactly the cells without
a reference have been freed, each once. Taking a reference needs one that exists; giving one up
takes it off the list. A program keeps the invariant if it says, at each step, which references it
has.
-/

set_option autoImplicit false

namespace RaftLsmt.Lib.RefCount

/-- The counts, the number of cells allocated so far, and the freed ones in order. -/
structure RefHeap where
  count : Nat → Nat
  allocated : Nat
  freed : List Nat

namespace RefHeap

/-- A heap without cells. -/
def empty : RefHeap := ⟨fun _ => 0, 0, []⟩

/-- A new cell with one reference. -/
def alloc (h : RefHeap) : RefHeap where
  count := Function.update h.count h.allocated 1
  allocated := h.allocated + 1
  freed := h.freed

/-- One reference more. -/
def retain (h : RefHeap) (a : Nat) : RefHeap :=
  { h with count := Function.update h.count a (h.count a + 1) }

/-- One reference less; the last one frees the cell. -/
def release (h : RefHeap) (a : Nat) : RefHeap :=
  { h with
    count := Function.update h.count a (h.count a - 1)
    freed := if h.count a = 1 then h.freed ++ [a] else h.freed }

/-- The references that exist are `refs`. -/
structure Accounts (h : RefHeap) (refs : List Nat) : Prop where
  count_eq : ∀ a, a < h.allocated → h.count a = refs.count a
  lt_allocated : ∀ a ∈ refs, a < h.allocated
  freed_nodup : h.freed.Nodup
  mem_freed : ∀ a, a ∈ h.freed ↔ a < h.allocated ∧ a ∉ refs

variable {h : RefHeap} {refs refs' : List Nat} {a : Nat}

theorem accounts_empty : empty.Accounts [] where
  count_eq a ha := absurd ha (Nat.not_lt_zero a)
  lt_allocated a ha := by cases ha
  freed_nodup := List.nodup_nil
  mem_freed a := by simp [empty]

/-- Only the number of references to each cell matters. -/
theorem Accounts.perm (hr : h.Accounts refs) (hperm : refs.Perm refs') : h.Accounts refs' where
  count_eq a ha := by rw [hr.count_eq a ha, hperm.count_eq]
  lt_allocated a ha := hr.lt_allocated a (hperm.symm.subset ha)
  freed_nodup := hr.freed_nodup
  mem_freed a := by rw [hr.mem_freed, hperm.mem_iff]

theorem Accounts.alloc (hr : h.Accounts refs) : h.alloc.Accounts (h.allocated :: refs) where
  count_eq a ha := by
    by_cases hnew : a = h.allocated
    · subst hnew
      have hnone : h.allocated ∉ refs := fun hmem => Nat.lt_irrefl _ (hr.lt_allocated _ hmem)
      simp [RefHeap.alloc, List.count_eq_zero_of_not_mem hnone]
    · have hold : a < h.allocated := by
        have : a < h.allocated + 1 := ha
        omega
      simp only [RefHeap.alloc, Function.update_of_ne hnew]
      rw [hr.count_eq a hold, List.count_cons_of_ne (Ne.symm hnew)]
  lt_allocated a ha := by
    rcases List.mem_cons.mp ha with rfl | ha
    · exact Nat.lt_succ_self _
    · exact Nat.lt_succ_of_lt (hr.lt_allocated a ha)
  freed_nodup := hr.freed_nodup
  mem_freed a := by
    show a ∈ h.freed ↔ a < h.allocated + 1 ∧ a ∉ h.allocated :: refs
    rw [hr.mem_freed, List.mem_cons, not_or]
    constructor
    · rintro ⟨hlt, hnot⟩
      exact ⟨by omega, by omega, hnot⟩
    · rintro ⟨hlt, hne, hnot⟩
      exact ⟨by omega, hnot⟩

/-- A reference can be copied. -/
theorem Accounts.retain (hr : h.Accounts refs) (ha : a ∈ refs) : (h.retain a).Accounts (a :: refs) where
  count_eq b hb := by
    by_cases hab : b = a
    · subst hab
      simp only [RefHeap.retain, Function.update_self, List.count_cons_self]
      rw [hr.count_eq b hb]
    · simp only [RefHeap.retain, Function.update_of_ne hab]
      rw [hr.count_eq b hb, List.count_cons_of_ne (Ne.symm hab)]
  lt_allocated b hb := by
    rcases List.mem_cons.mp hb with rfl | hb
    · exact hr.lt_allocated b ha
    · exact hr.lt_allocated b hb
  freed_nodup := hr.freed_nodup
  mem_freed b := by
    show b ∈ h.freed ↔ b < h.allocated ∧ b ∉ a :: refs
    rw [hr.mem_freed, List.mem_cons, not_or]
    constructor
    · rintro ⟨hlt, hnot⟩
      exact ⟨hlt, fun heq => hnot (heq ▸ ha), hnot⟩
    · rintro ⟨hlt, -, hnot⟩
      exact ⟨hlt, hnot⟩

/-- A reference can be given up. -/
theorem Accounts.release (hr : h.Accounts (a :: refs)) : (h.release a).Accounts refs where
  count_eq b hb := by
    have hcount := hr.count_eq b hb
    by_cases hab : b = a
    · subst hab
      rw [List.count_cons_self] at hcount
      simp only [RefHeap.release, Function.update_self]
      omega
    · rw [List.count_cons_of_ne (Ne.symm hab)] at hcount
      simp only [RefHeap.release, Function.update_of_ne hab]
      exact hcount
  lt_allocated b hb := hr.lt_allocated b (List.mem_cons_of_mem a hb)
  freed_nodup := by
    -- an address with a reference has not been freed
    have hnew : a ∉ h.freed := fun hmem => ((hr.mem_freed a).mp hmem).2 List.mem_cons_self
    show (if h.count a = 1 then h.freed ++ [a] else h.freed).Nodup
    split
    · rw [List.nodup_append]
      refine ⟨hr.freed_nodup, List.nodup_singleton a, fun b hb c hc => ?_⟩
      rintro rfl
      rw [List.mem_singleton.mp hc] at hb
      exact hnew hb
    · exact hr.freed_nodup
  mem_freed b := by
    have ha : a < h.allocated := hr.lt_allocated a List.mem_cons_self
    have hcount : h.count a = refs.count a + 1 := by
      rw [hr.count_eq a ha, List.count_cons_self]
    -- it is freed with its last reference
    have hlast : h.count a = 1 ↔ a ∉ refs := by
      rw [hcount, ← List.count_eq_zero]
      omega
    have hmem := hr.mem_freed b
    rw [List.mem_cons, not_or] at hmem
    show b ∈ (if h.count a = 1 then h.freed ++ [a] else h.freed) ↔ b < h.allocated ∧ b ∉ refs
    by_cases hfree : h.count a = 1
    · rw [if_pos hfree, List.mem_append, List.mem_singleton, hmem]
      constructor
      · rintro (⟨hlt, -, hnot⟩ | rfl)
        · exact ⟨hlt, hnot⟩
        · exact ⟨ha, hlast.mp hfree⟩
      · rintro ⟨hlt, hnot⟩
        by_cases hab : b = a
        · exact Or.inr hab
        · exact Or.inl ⟨hlt, hab, hnot⟩
    · rw [if_neg hfree, hmem]
      constructor
      · rintro ⟨hlt, -, hnot⟩
        exact ⟨hlt, hnot⟩
      · rintro ⟨hlt, hnot⟩
        refine ⟨hlt, ?_, hnot⟩
        rintro rfl
        exact hfree (hlast.mpr hnot)

/-- What is referenced has not been freed. -/
theorem Accounts.not_freed (hr : h.Accounts refs) (ha : a ∈ refs) : a ∉ h.freed :=
  fun hmem => ((hr.mem_freed a).mp hmem).2 ha

end RefHeap

end RaftLsmt.Lib.RefCount
