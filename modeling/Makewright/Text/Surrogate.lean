/-!
# Lone surrogates

Half of a pair of surrogates is a code point but not a character, and yet an escape can put it into
a text. A text shows it as two characters: a mark, which is the last of all code points and is set
aside from use as a character, and a private character that tells which half it is. `charsOfCode`
writes a code point in this way and `codePoints` reads a text back. The two characters stand for a
surrogate wherever they stand side by side.

Such a text has no UTF-8 form: encoding it stops at the first run of surrogates (`refusal?`). In the
name of a file a byte that belongs to no character is one of the surrogates from U+DC80 to U+DCFF,
so these can be encoded there and the others cannot (`nameRefusal?`).
-/

set_option autoImplicit false

namespace Makewright.Text

/-- The character in front of the one that tells a lone surrogate. -/
def surrogateMark : Char := Char.ofNat 0x10FFFF

/-- How far a surrogate lies below the private character that tells it. -/
def surrogateShift : Nat := 0x800

/-- The code point is half of a pair of surrogates. -/
def isSurrogate (code : Nat) : Bool :=
  0xD800 ≤ code && code < 0xE000

/-- The characters that show a code point. -/
def charsOfCode (code : Nat) : List Char :=
  if isSurrogate code then [surrogateMark, Char.ofNat (code + surrogateShift)]
  else [Char.ofNat code]

/-- The surrogate that two characters side by side stand for. -/
def surrogate? (mark c : Char) : Option Nat :=
  let code := c.toNat - surrogateShift
  if mark = surrogateMark && isSurrogate code then some code else none

/-- The code points of a text. -/
def codePoints : List Char → List Nat
  | [] => []
  | [c] => [c.toNat]
  | c :: d :: rest =>
    match surrogate? c d with
    | some code => code :: codePoints rest
    | none => c.toNat :: codePoints (d :: rest)

/-- Code points that cannot be encoded, and the number of code points in front of them. -/
structure Refusal where
  position : Nat
  codes : List Nat
  deriving DecidableEq, Repr

/-- The first surrogate that is not accepted, with the surrogates that follow it at once. -/
def refusalFrom (accepts : Nat → Bool) : Nat → List Nat → Option Refusal
  | _, [] => none
  | position, code :: rest =>
    if isSurrogate code && !accepts code then
      some ⟨position, code :: rest.takeWhile isSurrogate⟩
    else refusalFrom accepts (position + 1) rest

/-- What keeps a text from being written to a file. -/
def refusal? (s : String) : Option Refusal :=
  refusalFrom (fun _ => false) 0 (codePoints s.toList)

/-- The surrogate stands for a byte in the name of a file. -/
def isStrayByte (code : Nat) : Bool :=
  0xDC80 ≤ code && code < 0xDD00

/-- What keeps a text from being the name of a file. -/
def nameRefusal? (s : String) : Option Refusal :=
  refusalFrom isStrayByte 0 (codePoints s.toList)

end Makewright.Text
