import Makewright.Text.Cut

/-!
# Slash-separated paths

Lexical operations on paths: nothing here looks at a disk. A path is a text whose components stand
between slashes. `normalize` drops empty and `.` components and cancels `..` against the component
before it; a relative path keeps the `..` that have nothing to cancel. Exactly two leading slashes
are kept, any other number counts as one.
-/

set_option autoImplicit false

namespace Makewright.Path

open Makewright.Text

/-- The component that names the parent directory. -/
def up : List Char := ['.', '.']

/-- The components of a path without the empty ones and the `.` ones. -/
def components (s : List Char) : List (List Char) :=
  (s.splitOn '/').filter fun part => !part.isEmpty && part != ['.']

/-- The number of leading slashes that count: two stay two, any other run counts as one. -/
def rootSlashes : List Char → Nat
  | '/' :: '/' :: '/' :: _ => 1
  | '/' :: '/' :: _ => 2
  | '/' :: _ => 1
  | _ => 0

/-- Take one more component into the settled ones, which are held last first. A `..` cancels the
component before it; at the root it vanishes, and elsewhere it stays when nothing can cancel it. -/
def settle (rooted : Bool) (settled : List (List Char)) (part : List Char) : List (List Char) :=
  if part = up then
    match settled with
    | [] => if rooted then [] else [up]
    | last :: earlier => if last = up then up :: last :: earlier else earlier
  else part :: settled

/-- The components of a path after cancelling, in order. -/
def settledComponents (s : List Char) : List (List Char) :=
  ((components s).foldl (settle (rootSlashes s != 0)) []).reverse

/-- The normal form of a path as a list of characters. -/
def normalizeList (s : List Char) : List Char :=
  let whole := List.replicate (rootSlashes s) '/' ++ List.intercalate ['/'] (settledComponents s)
  if whole.isEmpty then ['.'] else whole

/-- The normal form of a path. -/
def normalize (s : String) : String :=
  String.ofList (normalizeList s.toList)

/-- A path that starts at the root of the file system. -/
def isAbsolute (s : String) : Bool :=
  s.toList.head? == some '/'

/-- Two paths one behind the other: an absolute second path stands alone. -/
def join (a b : String) : String :=
  if isAbsolute b then b
  else if a.isEmpty || a.toList.getLast? == some '/' then a ++ b
  else a ++ "/" ++ b

/-- What stands before the last slash, without trailing slashes unless it is nothing but slashes. -/
def dirname (s : String) : String :=
  match cutLast? '/' s.toList with
  | none => ""
  | some (before, _) =>
    if before.all (· == '/') then String.ofList (before ++ ['/'])
    else String.ofList (dropRightSlashes before)
where
  /-- Drop the trailing slashes. -/
  dropRightSlashes (t : List Char) : List Char :=
    (t.reverse.dropWhile (· == '/')).reverse

/-- What stands behind the last slash. -/
def basename (s : String) : String :=
  match cutLast? '/' s.toList with
  | none => s
  | some (_, after) => String.ofList after

/-- The extension of a path: what stands from the last dot of its last component on, where the
dots that lead the component do not count. -/
def extension (s : String) : String :=
  let name := (basename s).toList.dropWhile (· == '.')
  match cutLast? '.' name with
  | none => ""
  | some (_, after) => String.ofList ('.' :: after)

/-- The text `front` names a directory at or above `path`, component by component. -/
def isAtOrBelow (front path : String) : Bool :=
  path == front || (front ++ "/").toList.isPrefixOf path.toList

/-- A path that leads out of the directory it is relative to starts with these two characters. -/
def startsUpward (s : String) : Bool :=
  up.isPrefixOf s.toList

end Makewright.Path
