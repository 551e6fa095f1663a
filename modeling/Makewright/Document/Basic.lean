import Makewright.Error
import Makewright.Decimal.Numeral

/-!
# Reading documents

What the readers of the document formats share: a reader takes characters off the front of a text
and gives a value and the rest, or says why there is none. Most faults only say that the text does
not follow its format; a `scalar` fault says why a well-formed scalar makes no value.
-/

set_option autoImplicit false

namespace Makewright

/-- Why a text is no document. -/
inductive DocumentFault where
  | malformed
  | scalar (fault : ScalarFault)
  deriving DecidableEq, Repr

namespace Document

/-- A whole number, unless it has too many decimal digits. -/
def checkedInt (n : Int) (count : Nat) : Except DocumentFault Value :=
  if Numeral.mostDigits < count then .error (.scalar (.tooManyDigits count)) else .ok (.int n)

/-- The rest of a text that has to start with the given characters. -/
def expect (front s : List Char) : Except DocumentFault (List Char) :=
  match Text.afterFront? front s with
  | some rest => .ok rest
  | none => .error .malformed

/-- The value of exactly `count` hexadecimal digits. -/
def hexNumber (count : Nat) (s : List Char) : Except DocumentFault (Nat × List Char) :=
  let front := s.take count
  let isHex (c : Char) : Bool :=
    c.isDigit || ('a' ≤ c && c ≤ 'f') || ('A' ≤ c && c ≤ 'F')
  if front.length = count && front.all isHex then
    match Numeral.digits? 16 front with
    | some (n, _) => .ok (n, s.drop count)
    | none => .error .malformed
  else .error .malformed

/-- The text with every kind of line end written as a line feed. -/
def plainLineEnds : List Char → List Char
  | '\r' :: '\n' :: rest => '\n' :: plainLineEnds rest
  | '\r' :: rest => '\n' :: plainLineEnds rest
  | c :: rest => c :: plainLineEnds rest
  | [] => []

/-- An ASCII digit. -/
def isDigit (c : Char) : Bool :=
  '0' ≤ c && c ≤ '9'

end Document

end Makewright
