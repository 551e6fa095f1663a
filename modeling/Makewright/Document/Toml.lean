import Makewright.Document.Basic

/-!
# TOML documents

A reader for TOML 1.0. A document is a sequence of statements, one to a line: a table header, the
header of one more table of an array, or a key with a value. `Marks` remembers what a later
statement may no longer touch: tables and arrays written inline are frozen as a whole, and a table
that has been opened cannot be opened a second time.
-/

set_option autoImplicit false

namespace Makewright.Toml

open Makewright.Document

/-- A dotted key, part by part. -/
abbrev Key := List String

/-- The entries of a table. -/
abbrev Table := List (Value × Value)

/-! ## Characters -/

/-- A blank inside a line. -/
def isBlank (c : Char) : Bool :=
  c == ' ' || c == '\t'

/-- A blank or a line end. -/
def isBlankOrLineEnd (c : Char) : Bool :=
  isBlank c || c == '\n'

/-- A control character that may not stand in a line of text. -/
def isControl (c : Char) : Bool :=
  (c.toNat < 32 && c != '\t') || c.toNat == 127

/-- A character of a key written without quotes. -/
def isBareKey (c : Char) : Bool :=
  c.isAlphanum || c == '-' || c == '_'

/-- Drop leading blanks inside a line. -/
def skipBlanks (s : List Char) : List Char :=
  s.dropWhile isBlank

/-- Drop a comment, if one starts here. The line end stays. -/
def skipComment (s : List Char) : Except DocumentFault (List Char) :=
  match s with
  | '#' :: rest =>
    let (text, after) := rest.span (· != '\n')
    if text.any isControl then .error .malformed else .ok after
  | _ => .ok s

/-- Drop blanks, line ends and comments inside an array. -/
def skipLines : Nat → List Char → Except DocumentFault (List Char)
  | 0, s => .ok s
  | fuel + 1, s => do
    let after ← skipComment (s.dropWhile isBlankOrLineEnd)
    if after.length = s.length then .ok s else skipLines fuel after

/-! ## Strings -/

/-- The character behind a one-letter escape. -/
def simpleEscape? (c : Char) : Option Char :=
  [('b', '\x08'), ('t', '\t'), ('n', '\n'), ('f', '\x0c'), ('r', '\r'), ('"', '"'),
   ('\\', '\\')].lookup c

/-- A character given by its code. -/
def codeEscape (count : Nat) (s : List Char) : Except DocumentFault (List Char × List Char) := do
  let (n, rest) ← hexNumber count s
  if n < 0xD800 || (0xE000 ≤ n && n < 0x110000) then .ok ([Char.ofNat n], rest)
  else .error .malformed

/-- What a backslash and the characters behind it stand for. In a string of several lines a
backslash at the end of a line joins it to the next text. -/
def escape (several : Bool) (s : List Char) : Except DocumentFault (List Char × List Char) :=
  match s with
  | [] => .error .malformed
  | c :: rest =>
    if several && c = '\n' then .ok ([], rest.dropWhile isBlankOrLineEnd)
    else if several && isBlank c then
      match skipBlanks rest with
      | [] => .ok ([], [])
      | '\n' :: after => .ok ([], after.dropWhile isBlankOrLineEnd)
      | _ => .error .malformed
    else if c = 'u' then codeEscape 4 rest
    else if c = 'U' then codeEscape 8 rest
    else
      match simpleEscape? c with
      | some decoded => .ok ([decoded], rest)
      | none => .error .malformed

/-- The characters of a string up to its closing quotes, collected last first. -/
def basicBody (several : Bool) : Nat → List Char → List Char →
    Except DocumentFault (List Char × List Char)
  | 0, _, _ => .error .malformed
  | _ + 1, _, [] => .error .malformed
  | fuel + 1, seen, c :: rest =>
    if c = '"' then
      if several then
        match rest with
        | '"' :: '"' :: after => .ok (seen.reverse, after)
        | _ => basicBody several fuel (c :: seen) rest
      else .ok (seen.reverse, rest)
    else if c = '\\' then do
      let (decoded, after) ← escape several rest
      basicBody several fuel (decoded.reverse ++ seen) after
    else if isControl c && !(several && c = '\n') then .error .malformed
    else basicBody several fuel (c :: seen) rest

/-- A string of one line behind its opening quote. -/
def basicString (s : List Char) : Except DocumentFault (String × List Char) :=
  (basicBody false (s.length + 1) [] s).map fun (chars, rest) => (String.ofList chars, rest)

/-- A string without escapes behind its opening quote. -/
def literalString (s : List Char) : Except DocumentFault (String × List Char) :=
  let (text, after) := s.span (· != '\'')
  match after with
  | _ :: rest => if text.any isControl then .error .malformed else .ok (String.ofList text, rest)
  | [] => .error .malformed

/-- A string of several lines takes up to two further quotes at its end. -/
def closingQuotes (quote : Char) (chars rest : List Char) : String × List Char :=
  match rest with
  | a :: b :: after =>
    if a = quote && b = quote then (String.ofList (chars ++ [quote, quote]), after)
    else if a = quote then (String.ofList (chars ++ [quote]), b :: after)
    else (String.ofList chars, rest)
  | [a] => if a = quote then (String.ofList (chars ++ [quote]), []) else (String.ofList chars, rest)
  | [] => (String.ofList chars, [])

/-- A line end right behind the opening quotes is dropped. -/
def dropFirstLineEnd : List Char → List Char
  | '\n' :: rest => rest
  | s => s

/-- A string of several lines behind its three opening quotes. -/
def multilineString (literal : Bool) (s : List Char) : Except DocumentFault (String × List Char) :=
  let body := dropFirstLineEnd s
  if literal then
    match Text.indexOf? ['\'', '\'', '\''] body with
    | some n =>
      let text := body.take n
      if text.any fun c => isControl c && c != '\n' then .error .malformed
      else .ok (closingQuotes '\'' text (body.drop (n + 3)))
    | none => .error .malformed
  else do
    let (chars, rest) ← basicBody true (body.length + 1) [] body
    .ok (closingQuotes '"' chars rest)

/-! ## Keys -/

/-- One part of a key. -/
def keyPart (s : List Char) : Except DocumentFault (String × List Char) :=
  match s with
  | '"' :: rest => basicString rest
  | '\'' :: rest => literalString rest
  | _ =>
    let (bare, rest) := s.span isBareKey
    if bare.isEmpty then .error .malformed else .ok (String.ofList bare, rest)

/-- The further parts of a dotted key. -/
def keyParts : Nat → Key → List Char → Except DocumentFault (Key × List Char)
  | 0, _, _ => .error .malformed
  | fuel + 1, seen, s =>
    match skipBlanks s with
    | '.' :: rest => do
      let (part, rest) ← keyPart (skipBlanks rest)
      keyParts fuel (seen ++ [part]) rest
    | rest => .ok (seen, rest)

/-- A key, with the blanks behind it. -/
def key (s : List Char) : Except DocumentFault (Key × List Char) := do
  let (part, rest) ← keyPart s
  keyParts (s.length + 1) [part] rest

/-! ## Numbers and times -/

/-- The value of a number of ASCII digits of a fixed count. -/
def fixedDigits (count : Nat) (s : List Char) : Option (Nat × List Char) :=
  let front := s.take count
  if front.length = count && front.all isDigit then
    (Numeral.digits? 10 front).map fun (n, _) => (n, s.drop count)
  else none

/-- A number of a fixed count of digits inside a range, behind a mark. -/
def field (mark : List Char) (count least greatest : Nat) (s : List Char) :
    Option (Nat × List Char) := do
  let body ← Text.afterFront? mark s
  let (n, rest) ← fixedDigits count body
  if least ≤ n && n ≤ greatest then some (n, rest) else none

/-- The microseconds behind a point, of which six digits count. -/
def microseconds (s : List Char) : Nat × List Char :=
  match s with
  | '.' :: rest =>
    let (digits, after) := rest.span isDigit
    if digits.isEmpty then (0, s)
    else
      let six := digits.take 6 ++ List.replicate (6 - digits.length) '0'
      (((Numeral.digits? 10 six).map Prod.fst).getD 0, after)
  | _ => (0, s)

/-- A time of day. -/
def clockTime? (s : List Char) : Option (ClockTime × List Char) := do
  let (hour, rest) ← field [] 2 0 23 s
  let (minute, rest) ← field [':'] 2 0 59 rest
  let (second, rest) ← field [':'] 2 0 59 rest
  let (micro, rest) := microseconds rest
  some (⟨hour, minute, second, micro⟩, rest)

/-- The distance from universal time. -/
def offset? (s : List Char) : Option Int × List Char :=
  match s with
  | [] => (none, [])
  | c :: rest =>
    if c = 'Z' || c = 'z' then (some 0, rest)
    else if c = '+' || c = '-' then
      let found := do
        let (hour, rest) ← field [] 2 0 23 rest
        let (minute, rest) ← field [':'] 2 0 59 rest
        let minutes : Int := hour * 60 + minute
        some (if c = '-' then -minutes else minutes, rest)
      match found with
      | some (minutes, rest) => (some minutes, rest)
      | none => (none, s)
    else (none, s)

/-- A date, or a date with a time. A date that the calendar does not have is a fault. -/
def dateOrMoment? (s : List Char) : Option (Except DocumentFault (Value × List Char)) := do
  let (year, rest) ← field [] 4 0 9999 s
  let (month, rest) ← field ['-'] 2 1 12 rest
  let (day, rest) ← field ['-'] 2 1 31 rest
  let checked : Except DocumentFault Date :=
    match Date.make? year month day with
    | .ok date => .ok date
    | .error _ => .error .malformed
  let time : Option (ClockTime × List Char) :=
    match rest with
    | c :: after => if c = 'T' || c = 't' || c = ' ' then clockTime? after else none
    | [] => none
  match time with
  | some (time, rest) =>
    let (offset, rest) := offset? rest
    some (checked.map fun date => (.moment ⟨date, time, offset⟩, rest))
  | none => some (checked.map fun date => (.date date, rest))

/-- Digits of a class with single underscores between them. -/
def digitRun (isMember : Char → Bool) (s : List Char) : List Char × List Char :=
  match s with
  | c :: rest => if isMember c then more [c] rest else ([], s)
  | [] => ([], [])
where
  /-- Go on behind a digit; the digits seen are held last first. -/
  more (seen : List Char) : List Char → List Char × List Char
    | '_' :: c :: rest =>
      if isMember c then more (c :: seen) rest else (seen.reverse, '_' :: c :: rest)
    | c :: rest => if isMember c then more (c :: seen) rest else (seen.reverse, c :: rest)
    | [] => (seen.reverse, [])

/-- A whole number in a base other than ten, behind its mark. -/
def markedNumber? (s : List Char) : Option (Value × List Char) := do
  let (base, isMember, body) ←
    match s with
    | '0' :: 'x' :: rest =>
      some (16, fun c => (Numeral.digit? c).any (· < 16) && c.toNat < 128, rest)
    | '0' :: 'b' :: rest => some (2, fun c => c == '0' || c == '1', rest)
    | '0' :: 'o' :: rest => some (8, fun c => '0' ≤ c && c ≤ '7', rest)
    | _ => none
  let (digits, rest) := digitRun isMember body
  let (n, _) ← Numeral.digits? base digits
  some (.int n, rest)

/-- The whole part of a decimal number: a zero, or digits that do not start with one. -/
def wholePart (s : List Char) : List Char × List Char :=
  match s with
  | '0' :: rest => (['0'], rest)
  | _ => digitRun isDigit s

/-- A fraction, if one follows. -/
def fractionPart (s : List Char) : List Char × List Char :=
  match s with
  | '.' :: rest =>
    let (digits, after) := digitRun isDigit rest
    if digits.isEmpty then ([], s) else ('.' :: digits, after)
  | _ => ([], s)

/-- An exponent, if one follows. -/
def exponentPart (s : List Char) : List Char × List Char :=
  match s with
  | c :: rest =>
    if c = 'e' || c = 'E' then
      let (mark, body) : List Char × List Char :=
        match rest with
        | '+' :: more => (['+'], more)
        | '-' :: more => (['-'], more)
        | _ => ([], rest)
      let (digits, after) := digitRun isDigit body
      if digits.isEmpty then ([], s) else ('e' :: mark ++ digits, after)
    else ([], s)
  | [] => ([], s)

/-- A decimal number. -/
def decimalNumber? (s : List Char) : Option (Except DocumentFault (Value × List Char)) :=
  let (mark, body) : List Char × List Char :=
    match s with
    | '+' :: rest => (['+'], rest)
    | '-' :: rest => (['-'], rest)
    | _ => ([], s)
  let (whole, rest) := wholePart body
  if whole.isEmpty then none
  else
    let (fraction, rest) := fractionPart rest
    let (exponent, rest) := exponentPart rest
    if fraction.isEmpty && exponent.isEmpty then
      (Numeral.integer? 10 (mark ++ whole)).map fun (n, count) =>
        (checkedInt n count).map (·, rest)
    else
      (Numeral.double? (mark ++ whole ++ fraction ++ exponent)).map fun x => .ok (.float x, rest)

/-- The words that are doubles. -/
def words : List (List Char × Value) :=
  [("inf".toList, .float (.infinity false)), ("+inf".toList, .float (.infinity false)),
   ("-inf".toList, .float (.infinity true)), ("nan".toList, .float .nan),
   ("+nan".toList, .float .nan), ("-nan".toList, .float .nan)]

/-- A value that is written without brackets or quotes. -/
def plainValue (s : List Char) : Except DocumentFault (Value × List Char) :=
  match Text.afterFront? "true".toList s, Text.afterFront? "false".toList s with
  | some rest, _ => .ok (.bool true, rest)
  | _, some rest => .ok (.bool false, rest)
  | none, none =>
    match dateOrMoment? s with
    | some found => found
    | none =>
      match clockTime? s with
      | some (time, rest) => .ok (.time time, rest)
      | none =>
        match markedNumber? s with
        | some found => .ok found
        | none =>
          match decimalNumber? s with
          | some found => found
          | none =>
            match words.findSome? fun (text, v) => (Text.afterFront? text s).map (v, ·) with
            | some found => .ok found
            | none => .error .malformed

/-! ## Tables -/

/-- What a mark forbids: a frozen place and all below it cannot be changed, an opened one cannot be
opened again. -/
inductive MarkKind where
  | frozen
  | opened
  deriving DecidableEq, Repr

/-- The marks set so far. -/
abbrev Marks := List (Key × MarkKind)

/-- A place carries a mark: its own, or a freezing one of a place above it. -/
def Marks.has (marks : Marks) (k : Key) (kind : MarkKind) : Bool :=
  !k.isEmpty && marks.any fun (place, set) =>
    set == kind && (place == k || (kind == .frozen && place.isPrefixOf k))

/-- Forget the marks of a place and of all places below it. -/
def Marks.forget (marks : Marks) (k : Key) : Marks :=
  marks.filter fun (place, _) => !k.isPrefixOf place

/-- Change the table at a place, making the tables on the way that are missing. Where a list stands
on the way, its last table is meant, if lists may be entered at all. -/
def changeTable (enterLists : Bool) (change : Table → Except DocumentFault Table) :
    Key → Table → Except DocumentFault Table
  | [], table => change table
  | k :: rest, table =>
    match (Value.find? table k).getD (.map []) with
    | .map inner => do
      let inner ← changeTable enterLists change rest inner
      .ok (Value.insert table (.string k) (.map inner))
    | .list items =>
      match enterLists, items.getLast? with
      | true, some (.map inner) => do
        let inner ← changeTable enterLists change rest inner
        .ok (Value.insert table (.string k) (.list (items.dropLast ++ [.map inner])))
      | _, _ => .error .malformed
    | _ => .error .malformed

/-- Put a value under a key that is still free. -/
def putNew (k : String) (v : Value) (table : Table) : Except DocumentFault Table :=
  if (Value.find? table k).isSome then .error .malformed
  else .ok (Value.insert table (.string k) v)

/-- Add an empty table to the list under a key. -/
def appendTable (k : String) (table : Table) : Except DocumentFault Table :=
  match Value.find? table k with
  | none => .ok (Value.insert table (.string k) (.list [.map []]))
  | some (.list items) => .ok (Value.insert table (.string k) (.list (items ++ [.map []])))
  | some _ => .error .malformed

/-- A table or a list. -/
def isNested : Value → Bool
  | .map _ | .list _ => true
  | _ => false

/-! ## Values -/

mutual

/-- A value. -/
def value : Nat → List Char → Except DocumentFault (Value × List Char)
  | 0, _ => .error .malformed
  | fuel + 1, s =>
    match s with
    | '"' :: '"' :: '"' :: rest =>
      (multilineString false rest).map fun (text, rest) => (.string text, rest)
    | '"' :: rest => (basicString rest).map fun (text, rest) => (.string text, rest)
    | '\'' :: '\'' :: '\'' :: rest =>
      (multilineString true rest).map fun (text, rest) => (.string text, rest)
    | '\'' :: rest => (literalString rest).map fun (text, rest) => (.string text, rest)
    | '[' :: rest => do
      match ← skipLines (rest.length + 1) rest with
      | ']' :: rest => .ok (.list [], rest)
      | rest => arrayItems fuel [] rest
    | '\x7b' :: rest =>
      match skipBlanks rest with
      | '\x7d' :: rest => .ok (.map [], rest)
      | rest => inlineEntries fuel [] [] rest
    | _ => plainValue s

/-- The items of an array up to its closing bracket, collected last first. -/
def arrayItems : Nat → List Value → List Char → Except DocumentFault (Value × List Char)
  | 0, _, _ => .error .malformed
  | fuel + 1, seen, s => do
    let (item, rest) ← value fuel s
    match ← skipLines (rest.length + 1) rest with
    | ']' :: rest => .ok (.list (item :: seen).reverse, rest)
    | ',' :: rest =>
      match ← skipLines (rest.length + 1) rest with
      | ']' :: rest => .ok (.list (item :: seen).reverse, rest)
      | rest => arrayItems fuel (item :: seen) rest
    | _ => .error .malformed

/-- The entries of an inline table up to its closing brace. -/
def inlineEntries : Nat → Table → Marks → List Char →
    Except DocumentFault (Value × List Char)
  | 0, _, _, _ => .error .malformed
  | fuel + 1, table, marks, s => do
    let (k, rest) ← key s
    let rest ← expect ['='] rest
    let (item, rest) ← value fuel (skipBlanks rest)
    if marks.has k .frozen then .error .malformed
    else do
      let table ← changeTable false (putNew (k.getLastD "") item) k.dropLast table
      match skipBlanks rest with
      | '\x7d' :: rest => .ok (.map table, rest)
      | ',' :: rest =>
        let marks := if isNested item then (k, .frozen) :: marks else marks
        inlineEntries fuel table marks (skipBlanks rest)
      | _ => .error .malformed

end

/-! ## Statements -/

/-- A document in the making: its tables, the marks, the marks that the next header sets, and the
place that keys are relative to. -/
structure Draft where
  table : Table
  marks : Marks
  pending : Marks
  header : Key

/-- The header of a table, behind its opening bracket. -/
def tableHeader (draft : Draft) (s : List Char) : Except DocumentFault (Draft × List Char) := do
  let (k, rest) ← key (skipBlanks s)
  if draft.marks.has k .opened || draft.marks.has k .frozen then .error .malformed
  else do
    let table ← changeTable true .ok k draft.table
    let rest ← expect [']'] rest
    .ok ({ draft with table, marks := (k, .opened) :: draft.marks, header := k }, rest)

/-- The header of one more table of an array, behind its two opening brackets. -/
def arrayHeader (draft : Draft) (s : List Char) : Except DocumentFault (Draft × List Char) := do
  let (k, rest) ← key (skipBlanks s)
  if draft.marks.has k .frozen then .error .malformed
  else do
    let marks := (k, .opened) :: draft.marks.forget k
    let table ← changeTable true (appendTable (k.getLastD "")) k.dropLast draft.table
    let rest ← expect [']', ']'] rest
    .ok ({ draft with table, marks, header := k }, rest)

/-- The places that a dotted key leads through, the last one left out. -/
def throughPlaces (header k : Key) : List Key :=
  (List.range (k.length - 1)).map fun i => header ++ k.take (i + 1)

/-- A key with its value. -/
def keyValue (draft : Draft) (s : List Char) : Except DocumentFault (Draft × List Char) := do
  let (k, rest) ← key s
  let rest ← expect ['='] rest
  let (item, rest) ← value (2 * rest.length + 2) (skipBlanks rest)
  let through := throughPlaces draft.header k
  let parent := draft.header ++ k.dropLast
  if through.any (draft.marks.has · .opened) || draft.marks.has parent .frozen then
    .error .malformed
  else do
    let table ← changeTable true (putNew (k.getLastD "") item) parent draft.table
    let marks :=
      if isNested item then (draft.header ++ k, .frozen) :: draft.marks else draft.marks
    .ok ({ draft with table, marks, pending := through.map (·, .opened) ++ draft.pending }, rest)

/-- The marks that were put off until the next header. -/
def Draft.settle (draft : Draft) : Draft :=
  { draft with marks := draft.pending ++ draft.marks, pending := [] }

/-- One statement: the text is not empty and starts with neither a blank nor a line end. -/
def statement (draft : Draft) (s : List Char) : Except DocumentFault (Draft × List Char) :=
  match s with
  | '[' :: '[' :: rest => arrayHeader draft.settle rest
  | '[' :: rest => tableHeader draft.settle rest
  | '#' :: _ => .ok (draft, s)
  | c :: _ =>
    if isBareKey c || c = '"' || c = '\'' then keyValue draft s else .error .malformed
  | [] => .ok (draft, [])

/-- The statements up to the end of the text. -/
def statements : Nat → Draft → List Char → Except DocumentFault Draft
  | 0, _, _ => .error .malformed
  | fuel + 1, draft, s =>
    match skipBlanks s with
    | [] => .ok draft
    | '\n' :: rest => statements fuel draft rest
    | line => do
      let (draft, rest) ← statement draft line
      match ← skipComment (skipBlanks rest) with
      | [] => .ok draft
      | '\n' :: rest => statements fuel draft rest
      | _ => .error .malformed

/-- The text with each carriage return in front of a line feed dropped. -/
def dropReturns : List Char → List Char
  | '\r' :: '\n' :: rest => '\n' :: dropReturns rest
  | c :: rest => c :: dropReturns rest
  | [] => []

/-- The value of a TOML text. -/
def read (text : List Char) : Except DocumentFault Value := do
  let s := dropReturns text
  let draft ← statements (s.length + 1) ⟨[], [], [], []⟩ s
  .ok (.map draft.table)

end Makewright.Toml
