import Makewright.Fetch.Sha1
import Makewright.Text.Blank
import Makewright.Text.Cut

/-!
# Identifiers of remote sources

An identifier names a repository and perhaps one of its revisions, with a number sign between them.
The checkout of a repository has a name of its own: the last part of the address in safe characters,
and a digest of the whole address.
-/

set_option autoImplicit false

namespace Makewright

open Makewright.Text

/-- A repository and perhaps a revision of it. -/
structure Identifier where
  url : String
  revision : Option String
  deriving DecidableEq, Repr

namespace Identifier

/-- The parts of a written identifier, trimmed; a blank revision counts as none. -/
def parse (text : String) : Identifier :=
  match cutFirst? '#' text.toList with
  | none => ⟨trim text, none⟩
  | some (url, revision) =>
    let name := trim (String.ofList revision)
    ⟨trim (String.ofList url), if name.isEmpty then none else some name⟩

end Identifier

/-- A character that needs no replacement in the name of a checkout. -/
def isPlainNameChar (c : Char) : Bool :=
  c.isAlphanum || c == '_' || c == '.' || c == '-'

/-- A text with each run of unsafe characters replaced by one underscore. `inRun` says that the
character before was unsafe. -/
def replaceUnsafe (inRun : Bool) : List Char → List Char
  | [] => []
  | c :: rest =>
    if isPlainNameChar c then c :: replaceUnsafe false rest
    else if inRun then replaceUnsafe true rest
    else '_' :: replaceUnsafe true rest

/-- What stands behind the last occurrence of a character, or the whole text. -/
def afterLast (c : Char) (s : List Char) : List Char :=
  match cutLast? c s with
  | some (_, after) => after
  | none => s

/-- The last part of the address of a repository, without the ending for repositories. -/
def repositoryStem (url : String) : List Char :=
  let stem := afterLast ':' (afterLast '/' (dropRight (· == '/') url.toList))
  let ending := ['.', 'g', 'i', 't']
  if ending.isSuffixOf stem then stem.take (stem.length - 4) else stem

/-- The name of the directory that holds the checkout of a repository. -/
def checkoutName (url : String) : String :=
  let stem := replaceUnsafe false (repositoryStem url)
  let digest := (Sha1.hexDigest url.toUTF8.toList).toList.take 10
  (if stem.isEmpty then "source" else String.ofList stem) ++ "-" ++ String.ofList digest

end Makewright
