import Makewright.Document.Yaml.Cursor

/-!
# The text of a scalar

A scalar is written plainly, between quotes or as a block of lines. Inside a plain or a quoted
scalar a line end counts as a blank and each empty line as a line feed. A block keeps its line ends,
or folds them in the same way when it is marked so.

The loops are bounded by the number of characters to come, which is always enough.
-/

set_option autoImplicit false

namespace Makewright.Yaml

/-- What a run of line ends stands for inside a plain or a quoted scalar: the first is the line end
that comes with the text before, and `further` are those of empty lines. -/
def foldedLineEnds (first : Char) (further : List Char) : List Char :=
  if first ≠ '\n' then first :: further
  else if further.isEmpty then [' ']
  else further

/-! ## Plain scalars -/

/-- The text of a plain scalar, the place behind it, and whether a line ended behind its last
character. -/
structure PlainText where
  text : List Char
  cursor : Cursor
  lineEnded : Bool

/-- The number of characters up to the next gap or mark. Inside brackets more characters count as
marks. -/
def plainRun (inFlow : Bool) : List Char → Nat
  | [] => 0
  | c :: rest =>
    let flowMark (x : Char) : Bool := inFlow && [',', '?', '[', ']', '\x7b', '\x7d'].contains x
    let flowBracket (x : Char) : Bool := inFlow && [',', '[', ']', '\x7b', '\x7d'].contains x
    let stops :=
      isGap (some c) || flowMark c
        || (c == ':' && (isGap rest.head? || endsOr flowBracket rest.head?))
    if stops then 0 else plainRun inFlow rest + 1

/-- The line ends of the empty lines that follow, and the place behind the blanks after them.
Nothing follows a mark between documents. -/
def emptyLines : Nat → List Char → Cursor → Option (List Char) × Cursor
  | 0, seen, c => (some seen, c)
  | fuel + 1, seen, c =>
    if c.peek = some ' ' then emptyLines fuel seen c.next
    else
      match c.lineEnd? with
      | none => (some seen, c)
      | some (x, c) =>
        if c.isAtSeparator then (none, c) else emptyLines fuel (seen ++ [x]) c

/-- What the blanks and line ends behind a run stand for, the place behind them and whether a line
ended. Nothing is left to read of the scalar when they stand for nothing. -/
def plainGap (c : Cursor) : List Char × Cursor × Bool :=
  let (blanks, c) := c.takeWhile (· == ' ')
  match c.lineEnd? with
  | none => (blanks, c, false)
  | some (first, c) =>
    if c.isAtSeparator then ([], c, true)
    else
      match emptyLines (c.rest.length + 1) [] c with
      | (some further, c) => (foldedLineEnds first further, c, true)
      | (none, c) => ([], c, true)

/-- Go on with a plain scalar: `seen` is its text so far and `gap` what stands between that and the
next run. Outside of brackets a line that is indented by less than `indent` ends it. -/
def plainFrom (inFlow : Bool) (indent : Nat) : Nat → List Char → List Char → Bool → Cursor →
    PlainText
  | 0, seen, _, ended, c => ⟨seen, c, ended⟩
  | fuel + 1, seen, gap, ended, c =>
    let run := if c.peek = some '#' then 0 else plainRun inFlow c.rest
    if run = 0 then ⟨seen, c, ended⟩
    else
      let text := seen ++ gap ++ c.rest.take run
      let (gap, c, ended) := plainGap (c.advance run)
      if gap.isEmpty || c.peek = some '#' || (!inFlow && c.column < indent) then ⟨text, c, ended⟩
      else plainFrom inFlow indent fuel text gap ended c

/-- The plain scalar that starts here. -/
def plainText (inFlow : Bool) (indent : Nat) (c : Cursor) : PlainText :=
  plainFrom inFlow indent (c.rest.length + 1) [] [] false c

/-! ## Quoted scalars -/

/-- The character behind a one-letter escape. -/
def simpleEscape? (c : Char) : Option Char :=
  [('0', '\x00'), ('a', '\x07'), ('b', '\x08'), ('t', '\t'), ('\t', '\t'), ('n', '\n'),
   ('v', '\x0b'), ('f', '\x0c'), ('r', '\r'), ('e', '\x1b'), (' ', ' '), ('"', '"'), ('\\', '\\'),
   ('/', '/'), ('N', '\u0085'), ('_', '\u00a0'), ('L', '\u2028'), ('P', '\u2029')].lookup c

/-- The number of digits in an escape that gives a character by its code. -/
def codeLength? (c : Char) : Option Nat :=
  [('x', 2), ('u', 4), ('U', 8)].lookup c

/-- The characters for a code, unless it lies behind the last code point. -/
def charsOf (code : Nat) : Except DocumentFault (List Char) :=
  if Nat.pow 2 31 ≤ code then .error (.scalar .hugeCodePoint)
  else if 0x110000 ≤ code then .error (.scalar .codePoint)
  else .ok (Text.charsOfCode code)

/-- Line ends of empty lines inside a quoted scalar, and the place behind the blanks after them. A
mark between documents must not stand at the start of a line. -/
def quotedLines : Nat → List Char → Cursor → Except DocumentFault (List Char × Cursor)
  | 0, _, _ => .error .malformed
  | fuel + 1, seen, c =>
    if c.isAtSeparator then .error .malformed
    else
      let c := c.skipWhile isSpace
      match c.lineEnd? with
      | some (x, c) => quotedLines fuel (seen ++ [x]) c
      | none => .ok (seen, c)

/-- What the blanks and line ends inside a quoted scalar stand for. -/
def quotedGap (c : Cursor) : Except DocumentFault (List Char × Cursor) := do
  let (blanks, c) := c.takeWhile isSpace
  match c.lineEnd? with
  | some (first, c) =>
    let (further, c) ← quotedLines (c.rest.length + 1) [] c
    .ok (foldedLineEnds first further, c)
  | none => if c.peek.isNone then .error .malformed else .ok (blanks, c)

/-- What a backslash and the characters behind it stand for. A backslash at the end of a line joins
it to the next text. -/
def quotedEscape (c : Cursor) : Except DocumentFault (List Char × Cursor) :=
  match c.peek with
  | none => .error .malformed
  | some x =>
    match simpleEscape? x, codeLength? x with
    | some decoded, _ => .ok ([decoded], c.next)
    | none, some count => do
      let (code, _) ← Document.hexNumber count c.next.rest
      .ok (← charsOf code, c.next.advance count)
    | none, none =>
      match c.lineEnd? with
      | some (_, c) => quotedLines (c.rest.length + 1) [] c
      | none => .error .malformed

/-- Go on with a quoted scalar up to its closing quote; the text so far is held last first. -/
def quotedFrom (quote : Char) : Nat → List Char → Cursor →
    Except DocumentFault (List Char × Cursor)
  | 0, _, _ => .error .malformed
  | fuel + 1, seen, c =>
    match c.peek with
    | none => .error .malformed
    | some x =>
      if x = quote then
        if quote = '\'' && c.peekAt 1 = some '\'' then
          quotedFrom quote fuel ('\'' :: seen) (c.advance 2)
        else .ok (seen.reverse, c.next)
      else if x = '\\' && quote = '"' then do
        let (decoded, c) ← quotedEscape c.next
        quotedFrom quote fuel (decoded.reverse ++ seen) c
      else if isGap (some x) then do
        let (gap, c) ← quotedGap c
        quotedFrom quote fuel (gap.reverse ++ seen) c
      else quotedFrom quote fuel (x :: seen) c.next

/-- The quoted scalar that starts here. -/
def quotedText (c : Cursor) : Except DocumentFault (List Char × Cursor) :=
  match c.peek with
  | some quote => quotedFrom quote (c.rest.length + 1) [] c.next
  | none => .error .malformed

/-! ## Blocks -/

/-- What becomes of the line ends at the end of a block: the last one is kept, all are, or none. -/
inductive Chomping where
  | clip
  | keep
  | strip
  deriving DecidableEq, Repr

/-- The chomping mark that comes next, if there is one. -/
def chomping? (c : Cursor) : Option (Chomping × Cursor) :=
  match c.peek with
  | some '+' => some (.keep, c.next)
  | some '-' => some (.strip, c.next)
  | _ => none

/-- The number of columns that a block states for its indentation, if it does; it is not zero. -/
def increment? (c : Cursor) : Except DocumentFault (Option Nat × Cursor) :=
  match c.peek with
  | some x =>
    if x = '0' then .error .malformed
    else if Document.isDigit x then .ok (some (x.toNat - '0'.toNat), c.next)
    else .ok (none, c)
  | none => .ok (none, c)

/-- The marks behind the mark of a block: the chomping and the indentation, in either order. -/
def blockMarks (c : Cursor) : Except DocumentFault (Chomping × Option Nat × Cursor) := do
  let (chomping, increment, c) ←
    match chomping? c with
    | some (chomping, c) => do
      let (increment, c) ← increment? c
      .ok (chomping, increment, c)
    | none => do
      let (increment, c) ← increment? c
      match increment, chomping? c with
      | some _, some (chomping, c) => .ok (chomping, increment, c)
      | _, _ => .ok (Chomping.clip, increment, c)
  if isPlainGap c.peek then .ok (chomping, increment, c) else .error .malformed

/-- The line ends of the empty lines at the start of a block, and the widest indentation among
them and the first line with text. -/
def blockStart : Nat → List Char → Nat → Cursor → List Char × Nat × Cursor
  | 0, seen, widest, c => (seen, widest, c)
  | fuel + 1, seen, widest, c =>
    match c.lineEnd? with
    | some (x, c) => blockStart fuel (seen ++ [x]) widest c
    | none =>
      if c.peek = some ' ' then blockStart fuel seen (max widest c.next.column) c.next
      else (seen, widest, c)

/-- The line ends of the empty lines inside a block, and the place behind the indentation after
them. -/
def blockLines (indent : Nat) : Nat → List Char → Cursor → List Char × Cursor
  | 0, seen, c => (seen, c)
  | fuel + 1, seen, c =>
    let c := c.skipSpacesTo indent
    match c.lineEnd? with
    | some (x, c) => blockLines indent fuel (seen ++ [x]) c
    | none => (seen, c)

/-- What comes of a block: its text so far, the line end behind its last line, the line ends of the
empty lines after that, and the place behind them. -/
structure BlockText where
  text : List Char
  last : List Char
  further : List Char
  cursor : Cursor

/-- A line of a block stands here. -/
def isAtBlockLine (indent : Nat) (c : Cursor) : Bool :=
  c.column == indent && c.peek.isSome

/-- Go on with the lines of a block. A folded block turns a line end between two lines that do not
start with a blank into a space, or into nothing when empty lines follow. -/
def blockFrom (folded : Bool) (indent : Nat) : Nat → List Char → List Char → Cursor → BlockText
  | 0, seen, breaks, c => ⟨seen, [], breaks, c⟩
  | fuel + 1, seen, breaks, c =>
    let startsWithText (c : Cursor) : Bool := !(c.peek.any isSpace)
    let (line, after) := c.takeWhile (!isLineEnd ·)
    let seen := seen ++ breaks ++ line
    let (ending, c') : List Char × Cursor :=
      match after.lineEnd? with
      | some (x, c) => ([x], c)
      | none => ([], after)
    let (breaks, c') := blockLines indent (c'.rest.length + 1) [] c'
    if isAtBlockLine indent c' then
      let joint :=
        if folded && ending == ['\n'] && startsWithText c && startsWithText c' then
          if breaks.isEmpty then [' '] else []
        else ending
      blockFrom folded indent fuel (seen ++ joint) breaks c'
    else ⟨seen, ending, breaks, c'⟩

/-- The block that starts behind its mark; `least` is the least indentation that it can have. -/
def blockText (folded : Bool) (least : Nat) (c : Cursor) :
    Except DocumentFault (List Char × Cursor) := do
  let (chomping, increment, c) ← blockMarks c
  let c ← c.finishLine
  let (breaks, indent, c) : List Char × Nat × Cursor :=
    match increment with
    | none =>
      let (breaks, widest, c) := blockStart (c.rest.length + 1) [] 0 c
      (breaks, max least widest, c)
    | some n =>
      let indent := least + n - 1
      let (breaks, c) := blockLines indent (c.rest.length + 1) [] c
      (breaks, indent, c)
  let block :=
    if isAtBlockLine indent c then blockFrom folded indent (c.rest.length + 1) [] breaks c
    else ⟨[], [], breaks, c⟩
  let text :=
    match chomping with
    | .clip => block.text ++ block.last
    | .keep => block.text ++ block.last ++ block.further
    | .strip => block.text
  .ok (text, block.cursor)

end Makewright.Yaml
