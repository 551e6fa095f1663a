import Makewright.Document.Yaml.ScalarText

/-!
# Tokens

The tokens of a document stream. Indentation becomes tokens too: a block opens with the first line
that is indented further and ends with the first line that is indented less.

Whether a scalar or a bracket starts a key is known only when the colon behind it is met. Until then
it is a candidate: at most one for each depth of brackets, on one line and no more than 1024
characters back. When the colon comes, the tokens of the key go in front of the candidate.

`tokensOf` gives all tokens up to the first fault of the text, if it has one.
-/

set_option autoImplicit false

namespace Makewright.Yaml

/-- A line at the head of a document that is about its reading. -/
inductive Directive where
  | version (major : Nat)
  | tagHandle (handle front : String)
  | other
  deriving DecidableEq, Repr

/-- A token. -/
inductive Token where
  | streamEnd
  | documentStart
  | documentEnd
  | directive (d : Directive)
  | blockSequenceStart
  | blockMappingStart
  | blockEnd
  | flowSequenceStart
  | flowSequenceEnd
  | flowMappingStart
  | flowMappingEnd
  | blockEntry
  | flowEntry
  | key
  | value
  | alias (name : String)
  | anchor (name : String)
  | tag (handle : Option String) (suffix : String)
  | scalar (text : String) (plain : Bool)
  deriving DecidableEq, Repr

/-! ## Tokens that are words -/

/-- A name behind a mark, with the place behind the name. -/
def nameText (c : Cursor) : Except DocumentFault (String × Cursor) :=
  let (name, c) := c.takeWhile isWordChar
  if name.isEmpty then .error .malformed else .ok (String.ofList name, c)

/-- The name of an anchor or an alias behind its mark. -/
def anchorName (c : Cursor) : Except DocumentFault (String × Cursor) := do
  let (name, c) ← nameText c
  let mayFollow (x : Char) : Bool := ['?', ':', ',', ']', '\x7d', '%', '@', '\x60'].contains x
  if isGap c.peek || c.peek.any mayFollow then .ok (name, c) else .error .malformed

/-- The short name of a family of tags, from its first exclamation mark on. -/
def tagHandle (c : Cursor) : Except DocumentFault (String × Cursor) :=
  if c.peek ≠ some '!' then .error .malformed
  else if c.peekAt 1 = some ' ' then .ok ("!", c.next)
  else
    let (name, after) := c.next.takeWhile isWordChar
    if after.peek = some '!' then .ok (String.ofList ('!' :: name ++ ['!']), after.next)
    else .error .malformed

/-- The text of bytes, if they follow the rules of UTF-8. -/
def textOfBytes (data : List UInt8) : Except DocumentFault (List Char) :=
  match String.fromUTF8? (ByteArray.mk data.toArray) with
  | some s => .ok s.toList
  | none => .error .malformed

/-- The bytes of a run of percent escapes. -/
def percentBytes : Nat → List UInt8 → Cursor → Except DocumentFault (List UInt8 × Cursor)
  | 0, seen, c => .ok (seen, c)
  | fuel + 1, seen, c =>
    if c.peek = some '%' then do
      let (code, _) ← Document.hexNumber 2 c.next.rest
      percentBytes fuel (seen ++ [UInt8.ofNat code]) (c.advance 3)
    else .ok (seen, c)

/-- A character of a tag. -/
def isTagChar (c : Char) : Bool :=
  isWordChar c
    || [';', '/', '?', ':', '@', '&', '=', '+', '$', ',', '.', '!', '~', '*', '\'', '(', ')', '[',
        ']'].contains c

/-- Go on with the characters of a tag, percent escapes decoded. -/
def tagTextFrom : Nat → List Char → Cursor → Except DocumentFault (List Char × Cursor)
  | 0, seen, c => .ok (seen, c)
  | fuel + 1, seen, c =>
    match c.peek with
    | none => .ok (seen, c)
    | some x =>
      if x = '%' then do
        let (data, c) ← percentBytes (c.rest.length + 1) [] c
        tagTextFrom fuel (seen ++ (← textOfBytes data)) c
      else if isTagChar x then tagTextFrom fuel (seen ++ [x]) c.next
      else .ok (seen, c)

/-- The characters of a tag, of which there has to be one. -/
def tagText (c : Cursor) : Except DocumentFault (String × Cursor) := do
  let (text, after) ← tagTextFrom (c.rest.length + 1) [] c
  if after.index = c.index then .error .malformed else .ok (String.ofList text, after)

/-- There is a second exclamation mark in the tag that starts here. -/
def hasHandle (c : Cursor) : Bool :=
  ((c.next.rest.takeWhile fun x => x != ' ' && !isLineEnd x).any (· == '!'))

/-- The tag that starts here. -/
def tagToken (c : Cursor) : Except DocumentFault (Token × Cursor) := do
  let (token, c) ←
    if c.peekAt 1 = some '<' then do
      let (suffix, c) ← tagText (c.advance 2)
      if c.peek = some '>' then .ok (Token.tag none suffix, c.next) else .error .malformed
    else if isGap (c.peekAt 1) then .ok (Token.tag none "!", c.next)
    else if hasHandle c then do
      let (handle, c) ← tagHandle c
      let (suffix, c) ← tagText c
      .ok (Token.tag (some handle) suffix, c)
    else do
      let (suffix, c) ← tagText c.next
      .ok (Token.tag (some "!") suffix, c)
  if isPlainGap c.peek then .ok (token, c) else .error .malformed

/-- A number in a directive. -/
def versionNumber (c : Cursor) : Except DocumentFault (Nat × Cursor) :=
  let (digits, c) := c.takeWhile Document.isDigit
  match Numeral.digits? 10 digits with
  | some (n, count) =>
    if Numeral.mostDigits < count then .error (.scalar (.tooManyDigits count)) else .ok (n, c)
  | none => .error .malformed

/-- What stands in the directive of a name. -/
def directiveBody (name : String) (c : Cursor) : Except DocumentFault (Directive × Cursor) :=
  let body := c.skipWhile (· == ' ')
  if name = "YAML" then do
    let (major, c) ← versionNumber body
    if c.peek ≠ some '.' then .error .malformed
    let (_, c) ← versionNumber c.next
    if isPlainGap c.peek then .ok (.version major, c) else .error .malformed
  else if name = "TAG" then do
    let (handle, c) ← tagHandle body
    if c.peek ≠ some ' ' then .error .malformed
    let (front, c) ← tagText (c.skipWhile (· == ' '))
    if isPlainGap c.peek then .ok (.tagHandle handle front, c) else .error .malformed
  else .ok (.other, c.skipWhile (!isLineEnd ·))

/-- The directive that starts here, with the rest of its line. -/
def directiveToken (c : Cursor) : Except DocumentFault (Token × Cursor) := do
  let (name, c) ← nameText c.next
  if !isPlainGap c.peek then .error .malformed
  let (directive, c) ← directiveBody name c
  .ok (.directive directive, ← c.finishLine)

/-! ## The tokenizer -/

/-- What may turn out to be a key: the number of tokens in front of it, its place, and whether
nothing else can stand there. -/
structure Candidate where
  position : Nat
  required : Bool
  index : Nat
  line : Nat
  column : Nat
  deriving Repr

/-- A tokenizer at work. Tokens are held last first; `depth` counts the open brackets; `indents`
holds the columns of the open blocks, innermost first; candidates go by the depth they stand at. -/
structure Tokenizer where
  cursor : Cursor
  tokens : List Token
  count : Nat
  depth : Nat
  indents : List Nat
  keyAllowed : Bool
  candidates : List (Nat × Candidate)

namespace Tokenizer

/-- The start of a text. -/
def start (text : List Char) : Tokenizer :=
  ⟨Cursor.start text, [], 0, 0, [], true, []⟩

/-- Add a token. -/
def push (s : Tokenizer) (t : Token) : Tokenizer :=
  { s with tokens := t :: s.tokens, count := s.count + 1 }

/-- Put tokens behind the first `position` ones. -/
def insertAt (s : Tokenizer) (position : Nat) (new : List Token) : Tokenizer :=
  let behind := s.count - position
  { s with
    tokens := s.tokens.take behind ++ new.reverse ++ s.tokens.drop behind
    count := s.count + new.length }

/-- Add a token of a fixed length. -/
def take (s : Tokenizer) (length : Nat) (t : Token) : Tokenizer :=
  { s.push t with cursor := s.cursor.advance length }

/-- Nothing but brackets decides where a collection ends. -/
def inFlow (s : Tokenizer) : Bool :=
  s.depth != 0

/-- The innermost open block is indented by less than `column` columns. -/
def isDeeper (s : Tokenizer) (column : Nat) : Bool :=
  match s.indents with
  | [] => true
  | open_ :: _ => open_ < column

/-- Skip blanks, comments and line ends. Outside of brackets a key may start a line. -/
def skipToToken : Nat → Tokenizer → Tokenizer
  | 0, s => s
  | fuel + 1, s =>
    let c := s.cursor.skipWhile (· == ' ')
    let c := if c.peek = some '#' then c.skipWhile (!isLineEnd ·) else c
    match c.lineEnd? with
    | some (_, c) =>
      skipToToken fuel { s with cursor := c, keyAllowed := s.keyAllowed || !s.inFlow }
    | none => { s with cursor := c }

/-- The candidate is out of reach of a colon at a place. -/
def Candidate.isStale (k : Candidate) (c : Cursor) : Bool :=
  k.line != c.line || 1024 < c.index - k.index

/-- Forget the candidates that are out of reach; one that had to be a key is a fault. -/
def dropStale (s : Tokenizer) : Except DocumentFault Tokenizer :=
  if s.candidates.any fun (_, k) => Candidate.isStale k s.cursor && k.required then
    .error .malformed
  else
    .ok { s with candidates := s.candidates.filter fun (_, k) => !Candidate.isStale k s.cursor }

/-- Forget the candidate at the present depth; one that had to be a key is a fault. -/
def dropCandidate (s : Tokenizer) : Except DocumentFault Tokenizer :=
  match s.candidates.lookup s.depth with
  | some k =>
    if k.required then .error .malformed
    else .ok { s with candidates := s.candidates.filter (·.1 != s.depth) }
  | none => .ok s

/-- What comes next may be a key, if a key is allowed here. -/
def saveCandidate (s : Tokenizer) : Except DocumentFault Tokenizer :=
  if s.keyAllowed then do
    let s ← s.dropCandidate
    let c := s.cursor
    let required := !s.inFlow && s.indents.head? == some c.column
    .ok { s with
      candidates := (s.depth, ⟨s.count, required, c.index, c.line, c.column⟩) :: s.candidates }
  else .ok s

/-- End the blocks for which `isOver` holds, innermost first. -/
def endBlocks (isOver : Nat → Bool) : List Nat → Tokenizer → Tokenizer
  | [], s => { s with indents := [] }
  | open_ :: rest, s =>
    if isOver open_ then endBlocks isOver rest (s.push .blockEnd)
    else { s with indents := open_ :: rest }

/-- End the blocks that are indented further than the present place. -/
def unwind (s : Tokenizer) : Tokenizer :=
  if s.inFlow then s else endBlocks (s.cursor.column < ·) s.indents s

/-- End all blocks. -/
def unwindAll (s : Tokenizer) : Tokenizer :=
  if s.inFlow then s else endBlocks (fun _ => true) s.indents s

/-- Open a block at a column, if it is deeper than the innermost one. The token that opens it goes
behind the first `position` tokens. -/
def openBlock (s : Tokenizer) (column position : Nat) (t : Token) : Tokenizer :=
  if s.isDeeper column then { s.insertAt position [t] with indents := column :: s.indents } else s

/-- The end of the text. -/
def finish (s : Tokenizer) : Except DocumentFault Tokenizer := do
  let s ← s.unwindAll.dropCandidate
  .ok { s.push .streamEnd with candidates := [], keyAllowed := false }

/-- A directive. -/
def takeDirective (s : Tokenizer) : Except DocumentFault Tokenizer := do
  let s ← s.unwindAll.dropCandidate
  let (token, cursor) ← directiveToken s.cursor
  .ok { s.push token with cursor, keyAllowed := false }

/-- A mark between documents. -/
def takeSeparator (s : Tokenizer) (t : Token) : Except DocumentFault Tokenizer := do
  let s ← s.unwindAll.dropCandidate
  .ok { s.take 3 t with keyAllowed := false }

/-- An opening bracket. -/
def openFlow (s : Tokenizer) (t : Token) : Except DocumentFault Tokenizer := do
  let s ← s.saveCandidate
  .ok { s.take 1 t with depth := s.depth + 1, keyAllowed := true }

/-- A closing bracket; a bracket has to be open. -/
def closeFlow (s : Tokenizer) (t : Token) : Except DocumentFault Tokenizer := do
  let s ← s.dropCandidate
  if s.depth = 0 then .error .malformed
  else .ok { s.take 1 t with depth := s.depth - 1, keyAllowed := false }

/-- A comma between brackets. -/
def takeFlowEntry (s : Tokenizer) : Except DocumentFault Tokenizer := do
  let s ← s.dropCandidate
  .ok { s.take 1 .flowEntry with keyAllowed := true }

/-- The mark of an entry of a sequence. -/
def takeBlockEntry (s : Tokenizer) : Except DocumentFault Tokenizer := do
  if !s.inFlow && !s.keyAllowed then .error .malformed
  let s := if s.inFlow then s else s.openBlock s.cursor.column s.count .blockSequenceStart
  let s ← s.dropCandidate
  .ok { s.take 1 .blockEntry with keyAllowed := true }

/-- The mark of a key. -/
def takeKey (s : Tokenizer) : Except DocumentFault Tokenizer := do
  if !s.inFlow && !s.keyAllowed then .error .malformed
  let s := if s.inFlow then s else s.openBlock s.cursor.column s.count .blockMappingStart
  let s ← s.dropCandidate
  .ok { s.take 1 .key with keyAllowed := !s.inFlow }

/-- The colon of a value: behind a candidate it makes that a key. -/
def takeValue (s : Tokenizer) : Except DocumentFault Tokenizer :=
  match s.candidates.lookup s.depth with
  | some k =>
    let s := { s with candidates := s.candidates.filter (·.1 != s.depth) }
    let s := s.insertAt k.position [.key]
    let s := if s.inFlow then s else s.openBlock k.column k.position .blockMappingStart
    .ok { s.take 1 .value with keyAllowed := false }
  | none => do
    if !s.inFlow && !s.keyAllowed then .error .malformed
    let s := if s.inFlow then s else s.openBlock s.cursor.column s.count .blockMappingStart
    let s ← s.dropCandidate
    .ok { s.take 1 .value with keyAllowed := !s.inFlow }

/-- A token that may be a key and is read by a function of its own. -/
def takeWord (s : Tokenizer) (read : Cursor → Except DocumentFault (Token × Cursor)) :
    Except DocumentFault Tokenizer := do
  let s ← s.saveCandidate
  let (token, cursor) ← read s.cursor
  .ok { s.push token with cursor, keyAllowed := false }

/-- A quoted scalar. -/
def quotedToken (c : Cursor) : Except DocumentFault (Token × Cursor) := do
  let (text, c) ← quotedText c
  .ok (.scalar (String.ofList text) false, c)

/-- A block of lines. -/
def takeBlock (s : Tokenizer) (folded : Bool) : Except DocumentFault Tokenizer := do
  let s ← s.dropCandidate
  let least := max 1 ((s.indents.head?.map (· + 1)).getD 0)
  let (text, cursor) ← blockText folded least s.cursor.next
  .ok { s.push (.scalar (String.ofList text) false) with cursor, keyAllowed := true }

/-- A plain scalar. -/
def takePlain (s : Tokenizer) : Except DocumentFault Tokenizer := do
  let s ← s.saveCandidate
  let indent := (s.indents.head?.map (· + 1)).getD 0
  let plain := plainText s.inFlow indent s.cursor
  .ok { s.push (.scalar (String.ofList plain.text) true) with
    cursor := plain.cursor, keyAllowed := plain.lineEnded }

/-- A character that starts something other than a plain scalar. -/
def isIndicator (c : Char) : Bool :=
  ['-', '?', ':', ',', '[', ']', '\x7b', '\x7d', '#', '&', '*', '!', '|', '>', '\'', '"', '%', '@',
   '\x60'].contains c

/-- A plain scalar can start here. -/
def startsPlain (s : Tokenizer) (x : Char) : Bool :=
  !(isIndicator x || isGap (some x))
    || (!isGap (s.cursor.peekAt 1) && (x == '-' || (!s.inFlow && (x == '?' || x == ':'))))

/-- The token that starts with a character. -/
def takeToken (s : Tokenizer) (x : Char) : Except DocumentFault Tokenizer :=
  let gapFollows := isGap (s.cursor.peekAt 1)
  let atLineStart := s.cursor.column == 0
  if x = '%' && atLineStart then s.takeDirective
  else if x = '-' && atLineStart && s.cursor.isAtSeparator then s.takeSeparator .documentStart
  else if x = '.' && atLineStart && s.cursor.isAtSeparator then s.takeSeparator .documentEnd
  else if x = '[' then s.openFlow .flowSequenceStart
  else if x = '\x7b' then s.openFlow .flowMappingStart
  else if x = ']' then s.closeFlow .flowSequenceEnd
  else if x = '\x7d' then s.closeFlow .flowMappingEnd
  else if x = ',' then s.takeFlowEntry
  else if x = '-' && gapFollows then s.takeBlockEntry
  else if x = '?' && (s.inFlow || gapFollows) then s.takeKey
  else if x = ':' && (s.inFlow || gapFollows) then s.takeValue
  else if x = '*' then
    s.takeWord fun c => (anchorName c.next).map fun (name, c) => (.alias name, c)
  else if x = '&' then
    s.takeWord fun c => (anchorName c.next).map fun (name, c) => (.anchor name, c)
  else if x = '!' then s.takeWord tagToken
  else if x = '|' && !s.inFlow then s.takeBlock false
  else if x = '>' && !s.inFlow then s.takeBlock true
  else if x = '\'' || x = '"' then s.takeWord quotedToken
  else if s.startsPlain x then s.takePlain
  else .error .malformed

/-- Take the next token, and with it those that the indentation makes. -/
def step (s : Tokenizer) : Except DocumentFault Tokenizer := do
  let s ← (skipToToken (s.cursor.rest.length + 1) s).dropStale
  let s := s.unwind
  match s.cursor.peek with
  | none => s.finish
  | some x => s.takeToken x

/-- Take tokens up to the end of the text or the first fault. -/
def run : Nat → Tokenizer → List Token × Option DocumentFault
  | 0, s => (s.tokens.reverse, some .malformed)
  | fuel + 1, s =>
    match s.step with
    | .error fault => (s.tokens.reverse, some fault)
    | .ok s =>
      if s.tokens.head? = some .streamEnd then (s.tokens.reverse, none) else run fuel s

end Tokenizer

/-- The tokens of a text up to its first fault, if it has one. A byte-order mark at the start is
skipped. -/
def tokensOf (text : List Char) : List Token × Option DocumentFault :=
  let s := Tokenizer.start text
  let s := if text.head? = some '\ufeff' then { s with cursor := s.cursor.next } else s
  s.run (text.length + 2)

end Makewright.Yaml
