import RaftLsmt.Lib.ByteCodec
import Mathlib.Order.Basic
import Mathlib.Tactic

/-!
# Keys

`sl_uint128_t` is a pair of 64-bit numbers compared by `key_compare` first on the id, then on the
timestamp. `SlUint128.val` places it in the natural numbers in that order, which gives the linear
order every sorted structure of the store uses (`keyCompare_neg_iff` and its companions). On disk
and on the wire a key is the 16 bytes of its memory image, both halves little-endian.
-/

set_option autoImplicit false

namespace RaftLsmt.Lsmt

open RaftLsmt.Lib.ByteCodec

/-- A byte string: a C buffer with its length. -/
abbrev Bytes := List UInt8

/-- `sl_uint128_t`. -/
@[ext]
structure SlUint128 where
  id : UInt64
  timestamp : UInt64

namespace SlUint128

/-- The key as one number, id in the high half. -/
def val (k : SlUint128) : Nat := k.id.toNat * 2 ^ 64 + k.timestamp.toNat

theorem val_injective : Function.Injective val := by
  intro x y h
  have hx := x.timestamp.toNat_lt
  have hy := y.timestamp.toNat_lt
  simp only [val] at h
  have hid : x.id.toNat = y.id.toNat := by omega
  have hts : x.timestamp.toNat = y.timestamp.toNat := by omega
  exact SlUint128.ext (UInt64.toNat_inj.mp hid) (UInt64.toNat_inj.mp hts)

instance : LinearOrder SlUint128 := LinearOrder.lift' val val_injective

theorem lt_iff_val {x y : SlUint128} : x < y ↔ x.val < y.val := Iff.rfl

theorem le_iff_val {x y : SlUint128} : x ≤ y ↔ x.val ≤ y.val := Iff.rfl

/-- The all-zero key, `RESERVED_KEY` and the `min_range` of a merge. -/
def zero : SlUint128 := ⟨0, 0⟩

/-- The all-ones key, the `max_range` of a merge. -/
def max : SlUint128 := ⟨UInt64.ofNat (2 ^ 64 - 1), UInt64.ofNat (2 ^ 64 - 1)⟩

@[simp]
theorem val_zero : zero.val = 0 := rfl

@[simp]
theorem zero_le (k : SlUint128) : zero ≤ k := Nat.zero_le k.val

@[simp]
theorem le_max (k : SlUint128) : k ≤ max := by
  have hid := k.id.toNat_lt
  have hts := k.timestamp.toNat_lt
  have hmax : max.val = 2 ^ 128 - 1 := by decide
  rw [le_iff_val, hmax, val]
  omega

theorem zero_lt_of_id_ne_zero {k : SlUint128} (h : k.id ≠ 0) : zero < k := by
  have hpos : 0 < k.id.toNat := by
    rcases Nat.eq_zero_or_pos k.id.toNat with h0 | h0
    · exact absurd (UInt64.toNat_inj.mp h0) h
    · exact h0
  rw [lt_iff_val, val_zero, val]
  omega

end SlUint128

/-- `key_compare`. -/
def keyCompare (x y : SlUint128) : Int :=
  if x.id < y.id then -1
  else if x.id > y.id then 1
  else if x.timestamp < y.timestamp then -1
  else if x.timestamp > y.timestamp then 1
  else 0

theorem keyCompare_cases (x y : SlUint128) :
    (x < y ∧ keyCompare x y = -1) ∨ (x = y ∧ keyCompare x y = 0) ∨
      (y < x ∧ keyCompare x y = 1) := by
  have hx := x.timestamp.toNat_lt
  have hy := y.timestamp.toNat_lt
  simp only [SlUint128.lt_iff_val, ← SlUint128.val_injective.eq_iff (a := x), SlUint128.val,
    keyCompare, gt_iff_lt, UInt64.lt_iff_toNat_lt]
  split_ifs <;> omega

@[simp]
theorem keyCompare_neg_iff {x y : SlUint128} : keyCompare x y < 0 ↔ x < y := by
  rcases keyCompare_cases x y with ⟨h, e⟩ | ⟨h, e⟩ | ⟨h, e⟩
  · simp [e, h]
  · rw [e]; simp [h]
  · simp [e, lt_asymm h]

@[simp]
theorem keyCompare_pos_iff {x y : SlUint128} : keyCompare x y > 0 ↔ y < x := by
  rcases keyCompare_cases x y with ⟨h, e⟩ | ⟨h, e⟩ | ⟨h, e⟩
  · simp [e, lt_asymm h]
  · rw [e]; simp [h]
  · simp [e, h]

@[simp]
theorem keyCompare_eq_zero_iff {x y : SlUint128} : keyCompare x y = 0 ↔ x = y := by
  rcases keyCompare_cases x y with ⟨h, e⟩ | ⟨h, e⟩ | ⟨h, e⟩
  · simp [e, ne_of_lt h]
  · rw [e]; simp [h]
  · simp [e, ne_of_gt h]

@[simp]
theorem keyCompare_nonneg_iff {x y : SlUint128} : keyCompare x y ≥ 0 ↔ y ≤ x := by
  rw [ge_iff_le, ← not_lt, keyCompare_neg_iff, not_lt]

@[simp]
theorem keyCompare_nonpos_iff {x y : SlUint128} : keyCompare x y ≤ 0 ↔ x ≤ y := by
  rw [← not_lt, ← gt_iff_lt, keyCompare_pos_iff, not_lt]

/-! ## The memory image of a key -/

/-- The 16 bytes `memcpy` copies out of a `sl_uint128_t`. -/
def keyBytes (k : SlUint128) : Bytes := leBytes 8 k.id.toNat ++ leBytes 8 k.timestamp.toNat

/-- The key whose memory image starts the byte string. -/
def keyOfBytes (bs : Bytes) : SlUint128 :=
  ⟨UInt64.ofNat (leNat (bs.take 8)), UInt64.ofNat (leNat ((bs.drop 8).take 8))⟩

@[simp]
theorem length_keyBytes (k : SlUint128) : (keyBytes k).length = 16 := by
  simp [keyBytes]

theorem keyOfBytes_keyBytes_append (k : SlUint128) (rest : Bytes) :
    keyOfBytes (keyBytes k ++ rest) = k := by
  have hid := k.id.toNat_lt
  have hts := k.timestamp.toNat_lt
  have htake : (keyBytes k ++ rest).take 8 = leBytes 8 k.id.toNat := by
    rw [keyBytes, List.append_assoc, List.take_left' (by simp)]
  have hdrop : ((keyBytes k ++ rest).drop 8).take 8 = leBytes 8 k.timestamp.toNat := by
    rw [keyBytes, List.append_assoc, List.drop_left' (by simp), List.take_left' (by simp)]
  rw [keyOfBytes, htake, hdrop, leNat_leBytes (by omega), leNat_leBytes (by omega)]
  exact SlUint128.ext (UInt64.ofNat_toNat) (UInt64.ofNat_toNat)

@[simp]
theorem keyOfBytes_keyBytes (k : SlUint128) : keyOfBytes (keyBytes k) = k := by
  simpa using keyOfBytes_keyBytes_append k []

end RaftLsmt.Lsmt
