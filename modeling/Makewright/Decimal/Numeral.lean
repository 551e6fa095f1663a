import Makewright.Decimal.Binary64
import Makewright.Text.Blank
import Makewright.Text.Cut
import Makewright.Text.Digit
import Makewright.Text.LowerCase

/-!
# Reading and writing numbers

Whole numbers in a given base and doubles, read from a text. Blanks around the number are dropped, a
sign may stand in front, the digits may be those of any script, and single underscores may stand
between digits.

A whole number is neither read from nor written as more than `mostDigits` decimal digits.
-/

set_option autoImplicit false

namespace Makewright.Numeral

open Makewright.Text

/-- The most digits that a decimal whole number may have. -/
def mostDigits : Nat := 4300

/-- The least whole number with too many digits. -/
def leastTooLong : Nat := Nat.pow 10 mostDigits

/-- A whole number in decimal digits, unless there are too many of them. -/
def decimal? (n : Int) : Option String :=
  if n.natAbs < leastTooLong then some (toString n) else none

theorem decimal?_eq_some_iff {n : Int} {text : String} :
    decimal? n = some text ↔ n.natAbs < leastTooLong ∧ toString n = text := by
  rw [decimal?, Option.ite_none_right_eq_some, Option.some_inj]

theorem decimal?_eq_none_iff {n : Int} : decimal? n = none ↔ leastTooLong ≤ n.natAbs := by
  rw [decimal?, ← Nat.not_lt]
  split
  next hshort => exact iff_of_false nofun (not_not_intro hshort)
  next hlong => exact iff_of_true rfl hlong

/-- The wording of the refusal to write a whole number in decimal digits. -/
def limitMessage : String :=
  "Exceeds the limit (" ++ toString mostDigits ++ " digits) for integer string conversion; "
    ++ "use sys.set_int_max_str_digits() to increase the limit"

/-- The value of a digit in bases up to thirty-six: a decimal digit of any script or an ASCII
letter. -/
def digit? (c : Char) : Option Nat :=
  match digitValue? c with
  | some n => some n
  | none =>
    if 'a' ≤ c && c ≤ 'z' then some (c.toNat - 'a'.toNat + 10)
    else if 'A' ≤ c && c ≤ 'Z' then some (c.toNat - 'A'.toNat + 10)
    else none

/-- Go on reading digits: the value and the number of digits so far, and whether an underscore may
stand next. The text must end after a digit. -/
def digitsFrom (base : Nat) : Nat → Nat → Bool → List Char → Option (Nat × Nat)
  | value, count, afterDigit, [] => if afterDigit then some (value, count) else none
  | value, count, afterDigit, c :: rest =>
    if c = '_' then
      if afterDigit then digitsFrom base value count false rest else none
    else
      match digit? c with
      | some d =>
        if d < base then digitsFrom base (value * base + d) (count + 1) true rest else none
      | none => none

/-- The value and the number of the digits that a text consists of. -/
def digits? (base : Nat) (s : List Char) : Option (Nat × Nat) :=
  digitsFrom base 0 0 false s

/-- Like `digits?`, where no digits at all are fine too. -/
def digitsOrNone? (s : List Char) : Option (Nat × Nat) :=
  if s.isEmpty then some (0, 0) else digits? 10 s

/-- A sign and what follows it. -/
def sign : List Char → Bool × List Char
  | '-' :: rest => (true, rest)
  | '+' :: rest => (false, rest)
  | s => (false, s)

/-- Drop the mark of a base behind a leading zero, and an underscore after the mark. -/
def dropMark (base : Nat) (s : List Char) : List Char :=
  let mark := if base = 16 then ['x', 'X'] else if base = 8 then ['o', 'O'] else ['b', 'B']
  match s with
  | '0' :: c :: '_' :: rest => if base ≠ 10 && c ∈ mark then rest else s
  | '0' :: c :: rest => if base ≠ 10 && c ∈ mark then rest else s
  | s => s

/-- A whole number in a base, and the number of its digits. -/
def integer? (base : Nat) (text : List Char) : Option (Int × Nat) :=
  let (negative, body) := sign (stripList isBlank text)
  (digits? base (dropMark base body)).map fun (value, count) =>
    (if negative then -(value : Int) else value, count)

/-- Cut a number in front of its exponent. -/
def cutExponent (s : List Char) : List Char × Option (List Char) :=
  match cutFirst? 'e' (s.map fun c => if c = 'E' then 'e' else c) with
  | some (front, back) => (front, some back)
  | none => (s, none)

/-- The double that an unsigned decimal numeral names. -/
def magnitude? (negative : Bool) (s : List Char) : Option Binary64 := do
  let (mantissa, exponentText) := cutExponent s
  let exponent : Int ←
    match exponentText with
    | none => some (0 : Int)
    | some t =>
      let (down, body) := sign t
      (digits? 10 body).map fun (value, _) => if down then -(value : Int) else (value : Int)
  let (whole, fraction) := (cutFirst? '.' mantissa).getD (mantissa, [])
  let (wholeValue, wholeCount) ← digitsOrNone? whole
  let (fractionValue, fractionCount) ← digitsOrNone? fraction
  if wholeCount + fractionCount = 0 then none
  else
    some (Binary64.ofDecimal negative (wholeValue * Nat.pow 10 fractionCount + fractionValue)
      (exponent - fractionCount))

/-- The double that a text names: a decimal numeral or one of the words for infinity and for what
is not a number. -/
def double? (text : List Char) : Option Binary64 :=
  let (negative, body) := sign (stripList isBlank text)
  let word := lower (String.ofList body)
  if word = "inf" || word = "infinity" then some (.infinity negative)
  else if word = "nan" then some .nan
  else magnitude? negative body

end Makewright.Numeral
