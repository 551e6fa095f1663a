import Makewright.Document.Basic

/-!
# JSON documents

A reader for JSON texts. It also takes the words `NaN`, `Infinity` and `-Infinity` for the doubles
without digits. A number with a fraction or an exponent is a double and any other a whole number. A
key that is repeated keeps its first place and its last value.

`fuel` bounds the depth of nesting; the length of the text is always enough.
-/

set_option autoImplicit false

namespace Makewright.Json

open Makewright.Document

/-- Blanks between the parts of a document. -/
def isSpace (c : Char) : Bool :=
  c == ' ' || c == '\t' || c == '\n' || c == '\r'

/-- Drop leading blanks. -/
def skipSpace (s : List Char) : List Char :=
  s.dropWhile isSpace

/-- The character behind a one-letter escape. -/
def simpleEscape? (c : Char) : Option Char :=
  [('"', '"'), ('\\', '\\'), ('/', '/'), ('b', '\x08'), ('f', '\x0c'), ('n', '\n'), ('r', '\r'),
   ('t', '\t')].lookup c

/-- The characters for a code given in one escape or, for a pair of surrogates, in two. -/
def codeEscape (s : List Char) : Except DocumentFault (List Char × List Char) := do
  let (high, rest) ← hexNumber 4 s
  let alone : List Char × List Char := (Text.charsOfCode high, rest)
  if 0xD800 ≤ high && high < 0xDC00 then
    match Text.afterFront? ['\\', 'u'] rest with
    | some more =>
      match hexNumber 4 more with
      | .ok (low, rest) =>
        if 0xDC00 ≤ low && low < 0xE000 then
          .ok (Text.charsOfCode (0x10000 + (high - 0xD800) * 0x400 + (low - 0xDC00)), rest)
        else .ok alone
      | .error _ => .ok alone
    | none => .ok alone
  else .ok alone

/-- The characters of a string up to its closing quote, collected last first. -/
def stringBody : Nat → List Char → List Char → Except DocumentFault (String × List Char)
  | 0, _, _ => .error .malformed
  | _ + 1, _, [] => .error .malformed
  | fuel + 1, seen, c :: rest =>
    if c = '"' then .ok (String.ofList seen.reverse, rest)
    else if c.toNat < 32 then .error .malformed
    else if c = '\\' then
      match rest with
      | [] => .error .malformed
      | e :: after =>
        if e = 'u' then do
          let (decoded, after) ← codeEscape after
          stringBody fuel (decoded.reverse ++ seen) after
        else
          match simpleEscape? e with
          | some decoded => stringBody fuel (decoded :: seen) after
          | none => .error .malformed
    else stringBody fuel (c :: seen) rest

/-- A string behind its opening quote. -/
def string (s : List Char) : Except DocumentFault (String × List Char) :=
  stringBody (s.length + 1) [] s

/-- The digits of a whole part: a zero, or digits that do not start with one. -/
def wholePart (s : List Char) : Option (List Char × List Char) :=
  match s with
  | '0' :: rest => some (['0'], rest)
  | c :: _ => if isDigit c then some (s.span isDigit) else none
  | [] => none

/-- A fraction, if one follows. -/
def fractionPart (s : List Char) : List Char × List Char :=
  match s with
  | '.' :: rest =>
    let (digits, after) := rest.span isDigit
    if digits.isEmpty then ([], s) else ('.' :: digits, after)
  | _ => ([], s)

/-- An exponent, if one follows. -/
def exponentPart (s : List Char) : List Char × List Char :=
  match s with
  | e :: rest =>
    if e = 'e' || e = 'E' then
      let (mark, body) : List Char × List Char :=
        match rest with
        | c :: more => if c = '+' || c = '-' then ([c], more) else ([], rest)
        | [] => ([], [])
      let (digits, after) := body.span isDigit
      if digits.isEmpty then ([], s) else (e :: mark ++ digits, after)
    else ([], s)
  | [] => ([], s)

/-- A number. -/
def number (s : List Char) : Except DocumentFault (Value × List Char) :=
  let (minus, body) : List Char × List Char :=
    match s with
    | '-' :: rest => (['-'], rest)
    | _ => ([], s)
  match wholePart body with
  | none => .error .malformed
  | some (whole, rest) =>
    let (fraction, rest) := fractionPart rest
    let (exponent, rest) := exponentPart rest
    if fraction.isEmpty && exponent.isEmpty then
      match Numeral.integer? 10 (minus ++ whole) with
      | some (n, count) => (checkedInt n count).map (·, rest)
      | none => .error .malformed
    else
      match Numeral.double? (minus ++ whole ++ fraction ++ exponent) with
      | some x => .ok (.float x, rest)
      | none => .error .malformed

/-- The words that are values. -/
def words : List (List Char × Value) :=
  [("null".toList, .null), ("true".toList, .bool true), ("false".toList, .bool false),
   ("NaN".toList, .float .nan), ("Infinity".toList, .float (.infinity false)),
   ("-Infinity".toList, .float (.infinity true))]

/-- A word that is a value. -/
def word? (s : List Char) : Option (Value × List Char) :=
  words.findSome? fun (text, value) => (Text.afterFront? text s).map (value, ·)

mutual

/-- A value. -/
def value : Nat → List Char → Except DocumentFault (Value × List Char)
  | 0, _ => .error .malformed
  | fuel + 1, s =>
    match s with
    | '"' :: rest => (string rest).map fun (text, rest) => (.string text, rest)
    | '\x7b' :: rest =>
      match skipSpace rest with
      | '\x7d' :: rest => .ok (.map [], rest)
      | rest => members fuel [] rest
    | '[' :: rest =>
      match skipSpace rest with
      | ']' :: rest => .ok (.list [], rest)
      | rest => items fuel [] rest
    | _ =>
      match word? s with
      | some found => .ok found
      | none => number s

/-- The items of a list up to its closing bracket, collected last first. -/
def items : Nat → List Value → List Char → Except DocumentFault (Value × List Char)
  | 0, _, _ => .error .malformed
  | fuel + 1, seen, s => do
    let (item, rest) ← value fuel s
    match skipSpace rest with
    | ',' :: rest => items fuel (item :: seen) (skipSpace rest)
    | ']' :: rest => .ok (.list (item :: seen).reverse, rest)
    | _ => .error .malformed

/-- The members of an object up to its closing brace. -/
def members : Nat → List (Value × Value) → List Char →
    Except DocumentFault (Value × List Char)
  | 0, _, _ => .error .malformed
  | fuel + 1, seen, s => do
    let (key, rest) ← string (← expect ['"'] s)
    let rest ← expect [':'] (skipSpace rest)
    let (item, rest) ← value fuel (skipSpace rest)
    let seen := Value.insert seen (.string key) item
    match skipSpace rest with
    | ',' :: rest => members fuel seen (skipSpace rest)
    | '\x7d' :: rest => .ok (.map seen, rest)
    | _ => .error .malformed

end

/-- The value of a JSON text. A byte-order mark is not part of JSON. -/
def read (text : List Char) : Except DocumentFault Value := do
  let (v, rest) ← value (2 * text.length + 2) (skipSpace text)
  if (skipSpace rest).isEmpty then .ok v else .error .malformed

end Makewright.Json
