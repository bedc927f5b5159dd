import Mathlib.Data.List.Rotate

/-!
# Taking turns

The members of a list take turns, one behind the other and from the front again behind the last.
`turns l start k` are the first `k` turns from a position on; as many consecutive ones as the list has
members are the list, each member once (`turns_window`).
-/

set_option autoImplicit false

namespace RaftLsmt.Lib.Rotation

universe u

variable {α : Type u} {l : List α} {start j k n : Nat}

/-- The first `k` turns from the position `start` on. -/
def turns (l : List α) (start k : Nat) : List (Option α) :=
  (List.range k).map fun i => l[(start + i) % l.length]?

@[simp]
theorem length_turns (l : List α) (start k : Nat) : (turns l start k).length = k := by
  simp [turns]

theorem turns_succ (l : List α) (start k : Nat) :
    turns l start (k + 1) = turns l start k ++ [l[(start + k) % l.length]?] := by
  unfold turns
  rw [List.range_succ, List.map_append, List.map_singleton]

/-- The later turns are turns from a later position on. -/
theorem turns_add (l : List α) (start j k : Nat) :
    turns l start (j + k) = turns l start j ++ turns l (start + j) k := by
  induction k with
  | zero => exact (List.append_nil _).symm
  | succ k ih => rw [← Nat.add_assoc, turns_succ, ih, turns_succ, Nat.add_assoc, List.append_assoc]

theorem turns_prefix (l : List α) (start : Nat) (h : k ≤ n) : turns l start k <+: turns l start n := by
  obtain ⟨d, rfl⟩ := Nat.exists_eq_add_of_le h
  rw [turns_add]
  exact List.prefix_append _ _

/-- One round is the list, begun at the position. -/
theorem turns_length (l : List α) (start : Nat) :
    turns l start l.length = (l.rotate start).map some := by
  apply List.ext_getElem
  · simp
  · intro i hi hi'
    have hlt : i < l.length := by simpa using hi
    have hmod : (start + i) % l.length < l.length := Nat.mod_lt _ (Nat.zero_lt_of_lt hlt)
    simp only [turns, List.getElem_map, List.getElem_range, List.getElem_rotate]
    rw [Nat.add_comm start i] at hmod ⊢
    exact List.getElem?_eq_getElem hmod

/-- As many consecutive turns as there are members: each member has one of them. -/
theorem turns_window (l : List α) (start : Nat) (h : k + l.length ≤ n) :
    (((turns l start n).drop k).take l.length).Perm (l.map some) := by
  obtain ⟨d, rfl⟩ := Nat.exists_eq_add_of_le h
  rw [turns_add, turns_add, List.append_assoc, List.drop_left' (length_turns l start k),
    List.take_left' (length_turns l (start + k) l.length), turns_length]
  exact (List.rotate_perm l (start + k)).map some

/-- A turn of a list with members is one of them. -/
theorem mem_turns {x : Option α} (hl : l ≠ []) (hx : x ∈ turns l start k) : ∃ a ∈ l, x = some a := by
  obtain ⟨i, -, rfl⟩ := List.mem_map.mp hx
  have hmod : (start + i) % l.length < l.length := Nat.mod_lt _ (List.length_pos_iff.mpr hl)
  exact ⟨_, List.getElem_mem hmod, List.getElem?_eq_getElem hmod⟩

end RaftLsmt.Lib.Rotation
