import Mathlib.Data.List.TakeWhile

/-!
# Strings of C

A string of C is a sequence of characters other than the one that ends it. `snprintf` and `strncpy`
cut a string to the size of a buffer; `read_terminated` says which string a buffer holds behind
`strncpy` and the usual assignment of the last character.
-/

set_option autoImplicit false

namespace RaftLsmt.Lib.TerminatedString

/-- The character that ends a string. -/
def nul : Char := Char.ofNat 0

/-- The characters in front of the end. -/
structure CString where
  chars : List Char
  noNul : nul ∉ chars
  deriving DecidableEq

namespace CString

@[ext]
theorem ext {s t : CString} (h : s.chars = t.chars) : s = t := by
  cases s
  cases t
  cases h
  rfl

/-- `strlen`. -/
def length (s : CString) : Nat := s.chars.length

/-- One string behind the other. -/
def append (s t : CString) : CString where
  chars := s.chars ++ t.chars
  noNul h := (List.mem_append.mp h).elim s.noNul t.noNul

instance : Append CString := ⟨append⟩

@[simp]
theorem chars_append (s t : CString) : (s ++ t).chars = s.chars ++ t.chars := rfl

@[simp]
theorem length_append (s t : CString) : (s ++ t).length = s.length + t.length :=
  List.length_append

/-- The first characters. -/
def take (n : Nat) (s : CString) : CString where
  chars := s.chars.take n
  noNul h := s.noNul (List.mem_of_mem_take h)

theorem length_take (n : Nat) (s : CString) : (s.take n).length = min n s.length :=
  List.length_take

theorem take_eq_self {n : Nat} {s : CString} : s.take n = s ↔ s.length ≤ n := by
  constructor
  · intro h
    rw [← h, length_take]
    exact Nat.min_le_left _ _
  · intro h
    exact ext (List.take_of_length_le h)

/-- The digits of a number, `%lu` and `%u`. -/
def ofNat (n : Nat) : CString where
  chars := Nat.toDigits 10 n
  noNul h := absurd (Nat.isDigit_of_mem_toDigits (by decide) (by decide) h) (by decide)

/-- `snprintf(buffer, size, ..)` of a string. -/
def snprintf (size : Nat) (s : CString) : CString := s.take (size - 1)

/-- The string a buffer holds. -/
def read (buffer : List Char) : CString where
  chars := buffer.takeWhile fun c => c ≠ nul
  noNul h := by simpa using List.mem_takeWhile_imp h

theorem read_append (s : CString) (rest : List Char) : read (s.chars ++ nul :: rest) = s := by
  apply ext
  have hpos : ∀ c ∈ s.chars, decide (c ≠ nul) = true := by
    intro c hc
    apply decide_eq_true
    rintro rfl
    exact s.noNul hc
  show (s.chars ++ nul :: rest).takeWhile (fun c => decide (c ≠ nul)) = s.chars
  rw [List.takeWhile_append_of_pos hpos]
  simp

/-- `strncpy(dst, src, n)`. -/
def strncpy (dst : List Char) (src : CString) (n : Nat) : List Char :=
  src.chars.take n ++ (List.replicate (n - src.length) nul ++ dst.drop n)

/-- A buffer of zeros behind `strncpy` and the assignment of its last character. -/
theorem read_terminated {size n : Nat} (hn : n < size) (src : CString) :
    read ((strncpy (List.replicate size nul) src n).set n nul) = src.take n := by
  have hzeros : strncpy (List.replicate size nul) src n =
      src.chars.take n ++ nul :: List.replicate (size - 1 - min n src.length) nul := by
    rw [strncpy, List.drop_replicate, List.replicate_append_replicate, ← List.replicate_succ]
    congr 2
    omega
  have hlength : (src.chars.take n).length = min n src.length := List.length_take
  rw [hzeros]
  by_cases hlong : n ≤ src.length
  · rw [List.set_append_right _ _ (by omega), hlength, Nat.min_eq_left hlong, Nat.sub_self,
      List.set_cons_zero]
    exact read_append (src.take n) _
  · obtain ⟨k, hk⟩ : ∃ k, n - (src.chars.take n).length = k + 1 := ⟨n - src.length - 1, by omega⟩
    rw [List.set_append_right _ _ (by omega), hk, List.set_cons_succ]
    exact read_append (src.take n) _

end CString

end RaftLsmt.Lib.TerminatedString
