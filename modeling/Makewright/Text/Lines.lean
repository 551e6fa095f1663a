/-!
# Lines

Splitting a text into lines at every line boundary that Unicode and ASCII know. A carriage return
followed by a line feed is one boundary, and a boundary at the end of the text opens no further
line.
-/

set_option autoImplicit false

namespace Makewright.Text

/-- The characters that end a line. -/
def lineEnds : List Char :=
  ['\n', '\r', '\x0b', '\x0c', '\x1c', '\x1d', '\x1e', '\u0085', '\u2028', '\u2029']

/-- Collect lines, with the current line held last character first. -/
def linesFrom : List Char → List Char → List (List Char)
  | [], [] => []
  | current, [] => [current.reverse]
  | current, '\r' :: '\n' :: rest => current.reverse :: linesFrom [] rest
  | current, c :: rest =>
    if c ∈ lineEnds then current.reverse :: linesFrom [] rest else linesFrom (c :: current) rest

/-- The lines of a text without their ends. -/
def lines (s : String) : List String :=
  (linesFrom [] s.toList).map String.ofList

end Makewright.Text
