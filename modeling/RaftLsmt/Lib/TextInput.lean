import Mathlib.Data.List.Infix
import Mathlib.Tactic

/-!
# Reading text with `fgets` and `sscanf`

`fgets` reads a stream in pieces that end behind a newline or when the buffer is full, so a long line
comes in several pieces. The pieces are the stream (`flatten_pieces`), and there is one for each line
only if the lines fit the buffer (`length_pieces_le`). The conversions of `sscanf` take a number or a
word from the front of a string.
-/

set_option autoImplicit false

namespace RaftLsmt.Lib.TextInput

/-- The newline character. -/
def newline : UInt8 := 10

/-- At most so many characters, up to the first newline, and what is left of the stream. -/
def readLine : Nat → List UInt8 → List UInt8 × List UInt8
  | 0, stream => ([], stream)
  | _, [] => ([], [])
  | n + 1, b :: stream =>
    if b = newline then ([b], stream)
    else (b :: (readLine n stream).1, (readLine n stream).2)

/-- `while (fgets(line, size, f))`, for the next pieces of a stream of at most so many characters. -/
def piecesAux (size : Nat) : Nat → List UInt8 → List (List UInt8)
  | 0, _ => []
  | _, [] => []
  | fuel + 1, stream =>
    (readLine (size - 1) stream).1 :: piecesAux size fuel (readLine (size - 1) stream).2

/-- The pieces that `fgets` reads with a buffer of the size. -/
def pieces (size : Nat) (stream : List UInt8) : List (List UInt8) := piecesAux size stream.length stream

/-! ## The pieces of a stream -/

theorem readLine_append (n : Nat) (stream : List UInt8) :
    (readLine n stream).1 ++ (readLine n stream).2 = stream := by
  induction n generalizing stream with
  | zero => rfl
  | succ n ih =>
    cases stream with
    | nil => rfl
    | cons b stream =>
      unfold readLine
      split
      · rfl
      · exact congrArg (b :: ·) (ih stream)

/-- A piece that does not end the stream ends in a newline or fills the buffer. -/
theorem readLine_cases (n : Nat) (stream : List UInt8) :
    newline ∈ (readLine n stream).1 ∨ (readLine n stream).1.length = n ∨ (readLine n stream).2 = [] := by
  induction n generalizing stream with
  | zero => exact Or.inr (Or.inl rfl)
  | succ n ih =>
    cases stream with
    | nil => exact Or.inr (Or.inr rfl)
    | cons b stream =>
      unfold readLine
      split
      · rename_i hb
        exact Or.inl (hb ▸ List.mem_cons_self)
      · rcases ih stream with h | h | h
        · exact Or.inl (List.mem_cons_of_mem b h)
        · exact Or.inr (Or.inl (congrArg Nat.succ h))
        · exact Or.inr (Or.inr h)

/-- A piece takes something from a stream that is not empty. -/
theorem length_rest_lt {size : Nat} (hsize : 2 ≤ size) (b : UInt8) (stream : List UInt8) :
    (readLine (size - 1) (b :: stream)).2.length < (b :: stream).length := by
  obtain ⟨n, hn⟩ : ∃ n, size - 1 = n + 1 := ⟨size - 2, by omega⟩
  rw [hn]
  unfold readLine
  split
  · exact Nat.lt_succ_self _
  · have happend := congrArg List.length (readLine_append n stream)
    rw [List.length_append] at happend
    rw [List.length_cons]
    dsimp only
    omega

theorem flatten_piecesAux {size : Nat} (hsize : 2 ≤ size) {fuel : Nat} {stream : List UInt8}
    (hfuel : stream.length ≤ fuel) : (piecesAux size fuel stream).flatten = stream := by
  induction fuel generalizing stream with
  | zero =>
    rw [List.length_eq_zero_iff.mp (Nat.le_zero.mp hfuel)]
    rfl
  | succ fuel ih =>
    cases stream with
    | nil => rfl
    | cons b stream =>
      have hlt := length_rest_lt hsize b stream
      unfold piecesAux
      rw [List.flatten_cons, ih (by omega), readLine_append]

/-- All of the stream is read. -/
theorem flatten_pieces {size : Nat} (hsize : 2 ≤ size) (stream : List UInt8) :
    (pieces size stream).flatten = stream :=
  flatten_piecesAux hsize (Nat.le_refl _)

theorem length_piecesAux_le {size fuel : Nat} {stream : List UInt8}
    (hlines : ∀ line, line <:+: stream → newline ∉ line → line.length < size - 1) :
    (piecesAux size fuel stream).length ≤ stream.count newline + 1 := by
  induction fuel generalizing stream with
  | zero => exact Nat.zero_le _
  | succ fuel ih =>
    cases stream with
    | nil => exact Nat.zero_le _
    | cons b stream =>
      have happend := readLine_append (size - 1) (b :: stream)
      have hcount := congrArg (List.count newline) happend
      rw [List.count_append] at hcount
      have hrest := ih fun line hline => hlines line
        (hline.trans (happend ▸ (List.suffix_append _ _).isInfix))
      unfold piecesAux
      rw [List.length_cons, ← hcount]
      by_cases hnewline : newline ∈ (readLine (size - 1) (b :: stream)).1
      · have hpos := List.count_pos_iff.mpr hnewline
        omega
      · -- a piece without a newline is the last one, because its line fits the buffer
        have hshort := hlines _ ⟨[], _, happend⟩ hnewline
        rcases readLine_cases (size - 1) (b :: stream) with h | h | h
        · exact absurd h hnewline
        · exact absurd h (Nat.ne_of_lt hshort)
        · rw [h]
          cases fuel with
          | zero => exact Nat.le_add_left 1 _
          | succ fuel => exact Nat.le_add_left 1 _

/-- Lines that fit the buffer are read in one piece each. -/
theorem length_pieces_le {size : Nat} {stream : List UInt8}
    (hlines : ∀ line, line <:+: stream → newline ∉ line → line.length < size - 1) :
    (pieces size stream).length ≤ stream.count newline + 1 :=
  length_piecesAux_le hlines

/-! ## The conversions of `sscanf` -/

/-- The string in a buffer. -/
def cString (buffer : List UInt8) : List UInt8 := buffer.takeWhile (· ≠ 0)

/-- `isspace`. -/
def isSpace (b : UInt8) : Bool := b = 32 ∨ 9 ≤ b ∧ b ≤ 13

/-- `isdigit`. -/
def isDigit (b : UInt8) : Bool := 48 ≤ b ∧ b ≤ 57

/-- The value of decimal digits. -/
def digitsValue (digits : List UInt8) : Nat := digits.foldl (fun n b => 10 * n + (b.toNat - 48)) 0

/-- A sign and digits behind white space: whether the sign is a minus, the value, and what is left. -/
def scanNumber (text : List UInt8) : Option (Bool × Nat × List UInt8) :=
  let text := text.dropWhile isSpace
  let negative := text.head? = some 45
  let unsigned := if text.head? = some 43 ∨ text.head? = some 45 then text.tail else text
  let digits := unsigned.takeWhile isDigit
  if digits = [] then none
  else some (negative, digitsValue digits, unsigned.dropWhile isDigit)

/-- `%u`: the value as an `unsigned long`, cut to 32 bits. -/
def scanUnsigned (text : List UInt8) : Option (Nat × List UInt8) :=
  (scanNumber text).map fun (negative, value, rest) =>
    let long := if 2 ^ 64 ≤ value then 2 ^ 64 - 1 else if negative then 2 ^ 64 - value else value
    (long % 2 ^ 32, rest)

/-- `%d`: the value as a `long`, cut to 32 bits. -/
def scanInt (text : List UInt8) : Option (Int × List UInt8) :=
  (scanNumber text).map fun (negative, value, rest) =>
    let signed : Int := if negative then -value else value
    ((max (-2 ^ 63) (min (2 ^ 63 - 1) signed)).bmod (2 ^ 32), rest)

/-- `%63s` for a width: the next word, at most so many characters of it. -/
def scanWord (width : Nat) (text : List UInt8) : Option (List UInt8 × List UInt8) :=
  let text := text.dropWhile isSpace
  let word := (text.takeWhile fun b => ¬ isSpace b).take width
  if word = [] then none else some (word, text.drop word.length)

end RaftLsmt.Lib.TextInput
