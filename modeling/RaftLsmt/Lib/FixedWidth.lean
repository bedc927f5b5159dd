import Mathlib.Data.List.Basic
import Mathlib.Logic.Equiv.Defs
import Mathlib.Logic.ExistsUnique

/-!
# Formats of fixed width

A `FixedWidth` format writes every value in the same number of units and uses every string of that
length. Formats are put behind each other (`FixedWidth.pair`) and carried over to other types
(`FixedWidth.comap`). Records of a format behind each other are read back in one way, and every
string of a fitting length is such a sequence (`flatMap_injective`, `exists_flatMap_eq`). So nothing
in such a file tells that records are missing at its end (`flatMap_take`).
-/

set_option autoImplicit false

namespace RaftLsmt.Lib

universe u v w

/-- A format in which the values are exactly the strings of one length. -/
structure FixedWidth (β : Type u) (α : Type v) where
  width : Nat
  encode : α → List β
  length_encode : ∀ a, (encode a).length = width
  injective : Function.Injective encode
  surjective : ∀ bs, bs.length = width → ∃ a, encode a = bs

namespace FixedWidth

variable {β : Type u} {α : Type v} {γ : Type w}

/-- Two values, one behind the other. -/
def pair (c : FixedWidth β α) (d : FixedWidth β γ) : FixedWidth β (α × γ) where
  width := c.width + d.width
  encode p := c.encode p.1 ++ d.encode p.2
  length_encode p := by rw [List.length_append, c.length_encode, d.length_encode]
  injective p q h := by
    obtain ⟨hfst, hsnd⟩ :=
      List.append_inj h ((c.length_encode p.1).trans (c.length_encode q.1).symm)
    exact Prod.ext (c.injective hfst) (d.injective hsnd)
  surjective bs h := by
    obtain ⟨a, ha⟩ := c.surjective (bs.take c.width) (by rw [List.length_take]; omega)
    obtain ⟨b, hb⟩ := d.surjective (bs.drop c.width) (by rw [List.length_drop]; omega)
    refine ⟨(a, b), ?_⟩
    show c.encode a ++ d.encode b = bs
    rw [ha, hb, List.take_append_drop]

/-- The format of the values on the other side of an equivalence. -/
def comap (c : FixedWidth β α) (e : γ ≃ α) : FixedWidth β γ where
  width := c.width
  encode a := c.encode (e a)
  length_encode a := c.length_encode (e a)
  injective _ _ h := e.injective (c.injective h)
  surjective bs h := by
    obtain ⟨a, ha⟩ := c.surjective bs h
    exact ⟨e.symm a, by rw [e.apply_symm_apply, ha]⟩

/-! ## Sequences of records -/

theorem length_flatMap (c : FixedWidth β α) (as : List α) :
    (as.flatMap c.encode).length = c.width * as.length := by
  induction as with
  | nil => rfl
  | cons a as ih =>
    rw [List.flatMap_cons, List.length_append, c.length_encode, ih, List.length_cons, Nat.mul_succ,
      Nat.add_comm]

theorem flatMap_injective (c : FixedWidth β α) (hwidth : 0 < c.width) :
    Function.Injective fun as : List α => as.flatMap c.encode := by
  intro as
  induction as with
  | nil =>
    intro bs h
    have hlength : c.width * 0 = c.width * bs.length := by
      have := congrArg List.length h
      rwa [c.length_flatMap, c.length_flatMap] at this
    exact (List.length_eq_zero_iff.mp (Nat.eq_of_mul_eq_mul_left hwidth hlength).symm).symm
  | cons a as ih =>
    intro bs h
    cases bs with
    | nil =>
      have hlength : c.width * (as.length + 1) = c.width * 0 := by
        have := congrArg List.length h
        rwa [c.length_flatMap, c.length_flatMap] at this
      cases Nat.eq_of_mul_eq_mul_left hwidth hlength
    | cons b bs =>
      have h : c.encode a ++ as.flatMap c.encode = c.encode b ++ bs.flatMap c.encode := h
      obtain ⟨hhead, htail⟩ :=
        List.append_inj h ((c.length_encode a).trans (c.length_encode b).symm)
      rw [c.injective hhead, ih htail]

theorem exists_flatMap_eq (c : FixedWidth β α) {n : Nat} {bs : List β}
    (h : bs.length = c.width * n) : ∃ as : List α, as.flatMap c.encode = bs := by
  induction n generalizing bs with
  | zero =>
    rw [Nat.mul_zero] at h
    exact ⟨[], (List.length_eq_zero_iff.mp h).symm⟩
  | succ n ih =>
    rw [Nat.mul_succ] at h
    obtain ⟨a, ha⟩ := c.surjective (bs.take c.width) (by rw [List.length_take]; omega)
    obtain ⟨as, has⟩ := @ih (bs.drop c.width) (by rw [List.length_drop]; omega)
    refine ⟨a :: as, ?_⟩
    rw [List.flatMap_cons, ha, has, List.take_append_drop]

/-- A sequence cut behind a record is the sequence of the records before. -/
theorem flatMap_take (c : FixedWidth β α) (as : List α) (k : Nat) :
    (as.take k).flatMap c.encode = (as.flatMap c.encode).take (c.width * k) := by
  induction as generalizing k with
  | nil => simp
  | cons a as ih =>
    cases k with
    | zero => simp
    | succ k =>
      have hlength : (c.encode a).length = c.width := c.length_encode a
      rw [List.take_succ_cons, List.flatMap_cons, List.flatMap_cons, ih, Nat.mul_succ, Nat.add_comm,
        ← hlength, List.take_length_add_append]

end FixedWidth

end RaftLsmt.Lib
