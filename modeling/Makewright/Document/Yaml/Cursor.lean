import Makewright.Document.Basic

/-!
# Places in a text

A cursor is a place in a text: what is still to come, how many characters have gone by, and the line
and the column. The characters that end a line are the line feed, the next-line control and the two
Unicode separators; the line ends of the text are plain, so no carriage return is among them. A
byte-order mark takes no column.
-/

set_option autoImplicit false

namespace Makewright.Yaml

/-- A character that ends a line. -/
def isLineEnd (c : Char) : Bool :=
  c == '\n' || c == '\u0085' || c == '\u2028' || c == '\u2029'

/-- A blank inside a line. -/
def isSpace (c : Char) : Bool :=
  c == ' ' || c == '\t'

/-- The end of the text or a character of a class. -/
def endsOr (p : Char → Bool) : Option Char → Bool
  | none => true
  | some c => p c

/-- The end of the text, a line end or a blank inside a line. -/
def isGap (found : Option Char) : Bool :=
  endsOr (fun c => isSpace c || isLineEnd c) found

/-- The end of the text, a line end or a blank other than a tab. -/
def isPlainGap (found : Option Char) : Bool :=
  endsOr (fun c => c == ' ' || isLineEnd c) found

/-- The end of the text or of a line. -/
def isLineStop (found : Option Char) : Bool :=
  endsOr isLineEnd found

/-- An ASCII letter or digit, a hyphen or an underscore. -/
def isWordChar (c : Char) : Bool :=
  c.isAlphanum || c == '-' || c == '_'

/-- A place in a text. -/
structure Cursor where
  rest : List Char
  index : Nat
  line : Nat
  column : Nat
  deriving Repr

namespace Cursor

/-- The start of a text. -/
def start (text : List Char) : Cursor := ⟨text, 0, 0, 0⟩

/-- The next character. -/
def peek (c : Cursor) : Option Char :=
  c.rest.head?

/-- The character behind the next `n` ones. -/
def peekAt (c : Cursor) (n : Nat) : Option Char :=
  c.rest[n]?

/-- The place behind the next character. -/
def next (c : Cursor) : Cursor :=
  match c.rest with
  | [] => c
  | x :: rest =>
    if isLineEnd x then ⟨rest, c.index + 1, c.line + 1, 0⟩
    else if x = '\ufeff' then ⟨rest, c.index + 1, c.line, c.column⟩
    else ⟨rest, c.index + 1, c.line, c.column + 1⟩

/-- The place behind the next `n` characters. -/
def advance (c : Cursor) : Nat → Cursor
  | 0 => c
  | n + 1 => c.next.advance n

/-- The characters of a class that come next, and the place behind them. -/
def takeWhile (c : Cursor) (p : Char → Bool) : List Char × Cursor :=
  let front := c.rest.takeWhile p
  (front, c.advance front.length)

/-- The place behind the characters of a class that come next. -/
def skipWhile (c : Cursor) (p : Char → Bool) : Cursor :=
  (c.takeWhile p).2

/-- Skip spaces, but no further than to a column. -/
def skipSpacesTo (c : Cursor) (column : Nat) : Cursor :=
  c.advance (min (c.rest.takeWhile (· == ' ')).length (column - c.column))

/-- The line end that comes next and the place behind it. The two separators stand for themselves
and the others for a line feed. -/
def lineEnd? (c : Cursor) : Option (Char × Cursor) :=
  match c.peek with
  | some x =>
    if isLineEnd x then some (if x = '\u0085' then '\n' else x, c.next) else none
  | none => none

/-- One of the marks between documents stands here, with a gap behind it. -/
def isAtSeparator (c : Cursor) : Bool :=
  (c.rest.take 3 == ['-', '-', '-'] || c.rest.take 3 == ['.', '.', '.']) && isGap (c.peekAt 3)

/-- Skip blanks and a comment at the end of a line, which has to end there, and the line end. -/
def finishLine (c : Cursor) : Except DocumentFault Cursor :=
  let c := c.skipWhile (· == ' ')
  let c := if c.peek = some '#' then c.skipWhile (!isLineEnd ·) else c
  if isLineStop c.peek then .ok ((c.lineEnd?.map Prod.snd).getD c) else .error .malformed

end Cursor

end Makewright.Yaml
