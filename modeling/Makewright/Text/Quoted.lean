import Makewright.Text.Printable
import Makewright.Text.Surrogate

/-!
# Quoted display of texts and bytes

A text is shown between single quotes, or between double quotes when it holds single quotes and no
double ones. The quote in use, the backslash, the three common controls and everything that is not
printable, lone surrogates among it, are written as escapes, so the shown form has one line and is
readable.
-/

set_option autoImplicit false

namespace Makewright.Text

/-- The quote that a text is shown between. -/
def chooseQuote (s : List Char) : Char :=
  if s.contains '\'' && !s.contains '"' then '"' else '\''

/-- A number in lower-case hexadecimal with at least `width` digits. -/
def hexDigits (width n : Nat) : List Char :=
  let digits := Nat.toDigits 16 n
  List.replicate (width - digits.length) '0' ++ digits

/-- The numeric escape of a code point, as short as it can be. -/
def numericEscape (code : Nat) : List Char :=
  if code < 256 then ['\\', 'x'] ++ hexDigits 2 code
  else if code < 65536 then ['\\', 'u'] ++ hexDigits 4 code
  else ['\\', 'U'] ++ hexDigits 8 code

/-- One character as it stands between quotes. -/
def showChar (quote c : Char) : List Char :=
  if c = quote || c = '\\' then ['\\', c]
  else if c = '\n' then ['\\', 'n']
  else if c = '\r' then ['\\', 'r']
  else if c = '\t' then ['\\', 't']
  else if isPrintable c then [c]
  else numericEscape c.toNat

/-- One code point as it stands between quotes. -/
def showCode (quote : Char) (code : Nat) : List Char :=
  if isSurrogate code then numericEscape code else showChar quote (Char.ofNat code)

/-- A text as it is shown between quotes. -/
def quoted (s : String) : String :=
  let quote := chooseQuote s.toList
  String.ofList ([quote] ++ (codePoints s.toList).flatMap (showCode quote) ++ [quote])

/-- One byte as it stands between quotes: bytes above the ASCII range are always escaped. -/
def showByte (quote : Char) (b : UInt8) : List Char :=
  if b.toNat < 127 then showChar quote (Char.ofNat b.toNat)
  else ['\\', 'x'] ++ hexDigits 2 b.toNat

/-- Bytes as they are shown, marked by a leading `b`. -/
def quotedBytes (bytes : List UInt8) : String :=
  let quote := chooseQuote (bytes.map fun b => Char.ofNat b.toNat)
  String.ofList (['b', quote] ++ bytes.flatMap (showByte quote) ++ [quote])

end Makewright.Text
