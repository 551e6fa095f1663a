import Makewright.Document.Basic

/-!
# Parts of a shell script

A script is read into words, joints between commands and redirections, and these into simple
commands. A word is a list of pieces, which keep what was quoted apart from what was not.
-/

set_option autoImplicit false

namespace Makewright.Shell

/-- A piece of a word: characters that stand for themselves, the value of a variable, its value with
a text that stands in where it is not set, or a text that is there where the variable is set. With
`forEmpty`, an empty value counts as not set. A value that is not quoted is split at blanks. -/
inductive Piece where
  | text (s : List Char) (quoted : Bool)
  | variable (name : String) (quoted : Bool)
  | otherwise (name : String) (forEmpty : Bool) (text : List Char)
  | provided (name : String) (forEmpty : Bool) (text : List Char)
  deriving DecidableEq, Repr

/-- When a command runs, by the status of the one before. -/
inductive Joint where
  | always
  | onSuccess
  | onFailure
  deriving DecidableEq, Repr

/-- Where an output goes that is redirected. -/
inductive Goal where
  | stream (n : Nat)
  | file (append : Bool)
  deriving DecidableEq, Repr

/-- A part of a script. The name of the file of a redirection is the word behind it. -/
inductive Lexeme where
  | word (pieces : List Piece)
  | joint (j : Joint)
  | redirect (source : Nat) (goal : Goal)
  deriving DecidableEq, Repr

/-- What stands between the braces of a variable: its name, or a name and a text to stand in. -/
def bracedVariable (quoted : Bool) (inside : List Char) : Option Piece :=
  let (name, after) := inside.span fun x => x.isAlphanum || x == '_' || x == '?' || x == '$'
  if name.isEmpty then none
  else
    match after with
    | [] => some (.variable (String.ofList name) quoted)
    | ':' :: '-' :: text => some (.otherwise (String.ofList name) true text)
    | '-' :: text => some (.otherwise (String.ofList name) false text)
    | ':' :: '+' :: text => some (.provided (String.ofList name) true text)
    | '+' :: text => some (.provided (String.ofList name) false text)
    | _ => none

/-- The variable behind a dollar sign, and the characters behind it. -/
def readVariable (quoted : Bool) (s : List Char) : Option (Piece × List Char) :=
  match s with
  | '\x7b' :: rest =>
    let (inside, after) := rest.span (· != '\x7d')
    if after.isEmpty then none else (bracedVariable quoted inside).map (·, after.drop 1)
  | c :: rest =>
    if ['?', '$', '#', '@', '*'].contains c || Document.isDigit c then
      some (.variable (String.ofList [c]) quoted, rest)
    else
      let (name, after) := s.span fun x => x.isAlphanum || x == '_'
      if name.isEmpty then none else some (.variable (String.ofList name) quoted, after)
  | [] => none

/-- The pieces between double quotes, and the characters behind the closing one. -/
def quotedPieces : Nat → List Piece → List Char → Option (List Piece × List Char)
  | 0, _, _ => none
  | _ + 1, _, [] => none
  | fuel + 1, seen, c :: rest =>
    let go (piece : Piece) (rest : List Char) := quotedPieces fuel (seen ++ [piece]) rest
    if c = '"' then some (seen, rest)
    else if c = '\\' then
      match rest with
      | x :: rest =>
        if x = '\n' then quotedPieces fuel seen rest
        else if ['$', '"', '\\', '\x60'].contains x then go (.text [x] true) rest
        else go (.text [c, x] true) rest
      | [] => none
    else if c = '$' then
      match readVariable true rest with
      | some (piece, rest) => go piece rest
      | none => go (.text [c] true) rest
    else go (.text [c] true) rest

/-- The word that has been read so far, if there is one. -/
def finishWord (word : List Piece) : List Lexeme :=
  if word.isEmpty then [] else [.word word]

/-- A redirection: its source is the digit in front, if the word in front is a digit. -/
def redirection (word : List Piece) (rest : List Char) : List Lexeme × List Char :=
  let (front, source) : List Lexeme × Nat :=
    match word with
    | [.text ['1'] false] => ([], 1)
    | [.text ['2'] false] => ([], 2)
    | _ => (finishWord word, 1)
  match rest with
  | '>' :: rest => (front ++ [.redirect source (.file true)], rest)
  | '&' :: '1' :: rest => (front ++ [.redirect source (.stream 1)], rest)
  | '&' :: '2' :: rest => (front ++ [.redirect source (.stream 2)], rest)
  | _ => (front ++ [.redirect source (.file false)], rest)

/-- The parts of a script, behind the pieces of a word that has begun. -/
def lexemes : Nat → List Piece → List Char → Option (List Lexeme)
  | 0, _, _ => none
  | _ + 1, word, [] => some (finishWord word)
  | fuel + 1, word, c :: rest =>
    let join (j : Joint) (rest : List Char) : Option (List Lexeme) :=
      (lexemes fuel [] rest).map (finishWord word ++ [.joint j] ++ ·)
    if c = ' ' || c = '\t' then (lexemes fuel [] rest).map (finishWord word ++ ·)
    else if c = ';' || c = '\n' then join .always rest
    else if c = '#' && word.isEmpty then lexemes fuel [] (rest.dropWhile (· != '\n'))
    else if c = '&' || c = '|' then
      match rest with
      | d :: rest =>
        if d = c then join (if c = '&' then .onSuccess else .onFailure) rest else none
      | [] => none
    else if c = '>' then
      let (found, rest) := redirection word rest
      (lexemes fuel [] rest).map (found ++ ·)
    else if c = '\'' then
      let (inside, after) := rest.span (· != '\'')
      if after.isEmpty then none
      else lexemes fuel (word ++ [.text inside true]) (after.drop 1)
    else if c = '"' then
      match quotedPieces (rest.length + 1) [] rest with
      | some (pieces, rest) => lexemes fuel (word ++ [.text [] true] ++ pieces) rest
      | none => none
    else if c = '\\' then
      match rest with
      | x :: rest =>
        if x = '\n' then lexemes fuel word rest
        else lexemes fuel (word ++ [.text [x] true]) rest
      | [] => lexemes fuel (word ++ [.text [c] true]) []
    else if c = '$' then
      match readVariable false rest with
      | some (piece, rest) => lexemes fuel (word ++ [piece]) rest
      | none => lexemes fuel (word ++ [.text [c] false]) rest
    else lexemes fuel (word ++ [.text [c] false]) rest

/-- A simple command: when it runs, its words, and where its outputs go; a file is named by the
pieces of a word. -/
structure Simple where
  joint : Joint
  words : List (List Piece)
  redirects : List (Nat × Goal × List Piece)
  deriving Repr

/-- The simple commands of a script, in order; `current` is the one being read. -/
def commandsOf (current : Simple) : List Lexeme → List Simple
  | [] => [current]
  | .joint j :: rest => current :: commandsOf ⟨j, [], []⟩ rest
  | .word pieces :: rest => commandsOf { current with words := current.words ++ [pieces] } rest
  | .redirect source (.file append) :: .word pieces :: rest =>
    commandsOf
      { current with redirects := current.redirects ++ [(source, .file append, pieces)] } rest
  | .redirect source goal :: rest =>
    commandsOf { current with redirects := current.redirects ++ [(source, goal, [])] } rest

end Makewright.Shell
