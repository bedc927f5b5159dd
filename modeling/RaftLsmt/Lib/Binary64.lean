import Mathlib.Data.Nat.Log
import Mathlib.Tactic.Ring

/-!
# Quotients of integers as doubles

The quotient of two natural numbers rounded to the nearest binary64 value, ties to even, given as a
mantissa and an exponent: at most 53 bits, down to the subnormal exponent. `ceilDiv` is the least
integer above the rounded quotient of an integer; it is not the least integer above the exact one, but
it is positive when the exact quotient is positive and no smaller than the smallest double
(`ceilDiv_pos`).
-/

set_option autoImplicit false

namespace RaftLsmt.Lib.Binary64

/-- The integer nearest to `a / b`, the even one of two. -/
def roundHalfEven (a b : Nat) : Nat :=
  if 2 * (a % b) < b ∨ 2 * (a % b) = b ∧ a / b % 2 = 0 then a / b else a / b + 1

theorem div_le_roundHalfEven (a b : Nat) : a / b ≤ roundHalfEven a b := by
  unfold roundHalfEven
  split
  · exact Nat.le_refl _
  · exact Nat.le_succ _

/-- `a / b` is at least `2 ^ e`. -/
def AtLeastPow (a b : Nat) (e : Int) : Prop := b * 2 ^ e.toNat ≤ a * 2 ^ (-e).toNat

instance (a b : Nat) (e : Int) : Decidable (AtLeastPow a b e) :=
  inferInstanceAs (Decidable (_ ≤ _))

theorem AtLeastPow.mono {a b : Nat} {e e' : Int} (h : AtLeastPow a b e) (hle : e' ≤ e) :
    AtLeastPow a b e' := by
  have hleft : e'.toNat ≤ e.toNat := by omega
  have hright : (-e).toNat ≤ (-e').toNat := by omega
  calc b * 2 ^ e'.toNat ≤ b * 2 ^ e.toNat :=
        Nat.mul_le_mul_left b (Nat.pow_le_pow_right (by decide) hleft)
    _ ≤ a * 2 ^ (-e).toNat := h
    _ ≤ a * 2 ^ (-e').toNat := Nat.mul_le_mul_left a (Nat.pow_le_pow_right (by decide) hright)

/-- The exponent of the leading bit of `a / b`. -/
def leadingExponent (a b : Nat) : Int :=
  let d : Int := Nat.log 2 a - Nat.log 2 b
  if AtLeastPow a b d then d else d - 1

theorem atLeastPow_leadingExponent {a : Nat} (ha : 0 < a) (b : Nat) :
    AtLeastPow a b (leadingExponent a b) := by
  unfold leadingExponent
  simp only
  split
  · assumption
  · have hpow : 2 ^ Nat.log 2 a ≤ a := Nat.pow_log_le_self 2 (Nat.ne_of_gt ha)
    have hlt : b ≤ 2 ^ (Nat.log 2 b + 1) := Nat.le_of_lt (Nat.lt_pow_succ_log_self (by decide) b)
    unfold AtLeastPow
    rcases Nat.lt_or_ge (Nat.log 2 b) (Nat.log 2 a) with hlog | hlog
    · have hneg : (-((Nat.log 2 a : Int) - Nat.log 2 b - 1)).toNat = 0 := by omega
      have hsum : Nat.log 2 b + 1 + ((Nat.log 2 a : Int) - Nat.log 2 b - 1).toNat =
          Nat.log 2 a := by omega
      rw [hneg, Nat.pow_zero, Nat.mul_one]
      calc b * 2 ^ ((Nat.log 2 a : Int) - Nat.log 2 b - 1).toNat
          ≤ 2 ^ (Nat.log 2 b + 1) * 2 ^ ((Nat.log 2 a : Int) - Nat.log 2 b - 1).toNat :=
            Nat.mul_le_mul_right _ hlt
        _ = 2 ^ Nat.log 2 a := by rw [← Nat.pow_add, hsum]
        _ ≤ a := hpow
    · have hpos : ((Nat.log 2 a : Int) - Nat.log 2 b - 1).toNat = 0 := by omega
      have hsum : Nat.log 2 b + 1 =
          Nat.log 2 a + (-((Nat.log 2 a : Int) - Nat.log 2 b - 1)).toNat := by omega
      rw [hpos, Nat.pow_zero, Nat.mul_one]
      calc b ≤ 2 ^ (Nat.log 2 b + 1) := hlt
        _ = 2 ^ Nat.log 2 a * 2 ^ (-((Nat.log 2 a : Int) - Nat.log 2 b - 1)).toNat := by
            rw [hsum, Nat.pow_add]
        _ ≤ a * 2 ^ (-((Nat.log 2 a : Int) - Nat.log 2 b - 1)).toNat :=
            Nat.mul_le_mul_right _ hpow

/-- The exponent of the last bit of the rounded quotient. -/
def exponent (a b : Nat) : Int := max (leadingExponent a b - 52) (-1074)

/-- The mantissa of the rounded quotient. -/
def mantissa (a b : Nat) : Nat :=
  roundHalfEven (a * 2 ^ (-exponent a b).toNat) (b * 2 ^ (exponent a b).toNat)

/-- A quotient that is not below the smallest double does not become zero. -/
theorem mantissa_pos {a b e : Nat} (ha : 0 < a) (hb : 0 < b) (hsmall : b ≤ 2 ^ e)
    (he : e ≤ 1074) : 0 < mantissa a b := by
  have hleast : AtLeastPow a b (exponent a b) := by
    unfold exponent
    rcases Int.le_total (leadingExponent a b - 52) (-1074) with hle | hle
    · have hleft : (-1074 : Int).toNat = 0 := rfl
      have hright : e ≤ (-(-1074) : Int).toNat := he
      rw [max_eq_right hle, AtLeastPow, hleft, Nat.pow_zero, Nat.mul_one]
      apply Nat.le_trans hsmall
      apply Nat.le_trans (Nat.pow_le_pow_right (by decide) hright)
      exact Nat.le_mul_of_pos_left _ ha
    · rw [max_eq_left hle]
      exact (atLeastPow_leadingExponent ha b).mono (by omega)
  apply Nat.lt_of_lt_of_le _ (div_le_roundHalfEven _ _)
  exact Nat.div_pos hleast (Nat.mul_pos hb (Nat.pow_pos (by decide)))

/-- The rounded quotient is too large for a double. -/
def Overflows (a b : Nat) : Prop := 2 ^ 1024 ≤ mantissa a b * 2 ^ (exponent a b).toNat

instance (a b : Nat) : Decidable (Overflows a b) := inferInstanceAs (Decidable (_ ≤ _))

/-- The largest integer that is not above the rounded quotient. -/
def floorDivNat (a b : Nat) : Nat :=
  mantissa a b * 2 ^ (exponent a b).toNat / 2 ^ (-exponent a b).toNat

/-- The double nearest to a natural number. -/
def roundNat (n : Nat) : Nat := floorDivNat n 1

/-- A number of at most 53 bits is a double. -/
theorem roundNat_of_lt {n : Nat} (h : n < 2 ^ 53) : roundNat n = n := by
  have hlead : leadingExponent n 1 ≤ 52 := by
    have hlog : Nat.log 2 n < 53 := Nat.log_lt_of_lt_pow' (by decide) h
    unfold leadingExponent
    rw [Nat.log_one_right]
    simp only
    split <;> omega
  have hexp : (exponent n 1).toNat = 0 := by
    unfold exponent
    omega
  unfold roundNat floorDivNat mantissa
  rw [hexp, Nat.pow_zero, Nat.one_mul, Nat.mul_one]
  have hround : ∀ m, roundHalfEven m 1 = m := by
    intro m
    unfold roundHalfEven
    rw [Nat.mod_one, Nat.div_one, if_pos (Or.inl Nat.one_pos)]
  rw [hround, Nat.mul_div_cancel _ (Nat.pow_pos (by decide))]

/-- The least integer that is not below the rounded quotient. -/
def ceilDivNat (a b : Nat) : Nat :=
  (mantissa a b * 2 ^ (exponent a b).toNat + (2 ^ (-exponent a b).toNat - 1)) /
    2 ^ (-exponent a b).toNat

/-- The least integer that is not below the rounded quotient of an integer. -/
def ceilDiv (a : Int) (b : Nat) : Int :=
  if 0 ≤ a then ceilDivNat a.natAbs b else -(floorDivNat a.natAbs b)

theorem ceilDiv_pos {a : Int} {b e : Nat} (ha : 0 < a) (hb : 0 < b) (hsmall : b ≤ 2 ^ e)
    (he : e ≤ 1074) : 0 < ceilDiv a b := by
  have hmantissa : 0 < mantissa a.natAbs b := mantissa_pos (by omega) hb hsmall he
  have hunits : 0 < 2 ^ (-exponent a.natAbs b).toNat := Nat.pow_pos (by decide)
  have hvalue := Nat.mul_pos hmantissa (Nat.pow_pos (n := (exponent a.natAbs b).toNat)
    (show 0 < 2 by decide))
  unfold ceilDiv
  rw [if_pos (Int.le_of_lt ha)]
  have hceil : 0 < ceilDivNat a.natAbs b := Nat.div_pos (by omega) hunits
  exact_mod_cast hceil

theorem ceilDiv_nonneg {a : Int} (ha : 0 ≤ a) (b : Nat) : 0 ≤ ceilDiv a b := by
  unfold ceilDiv
  rw [if_pos ha]
  exact Int.natCast_nonneg _

end RaftLsmt.Lib.Binary64
