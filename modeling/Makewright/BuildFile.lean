import Makewright.Description
import Makewright.Document.File

/-!
# Build files

A package is a directory with a build file, which lists the targets of the package. Every entry
needs a kind and a name; the other attributes are looked at when the target is read. Names are
distinct within a file.
-/

set_option autoImplicit false

namespace Makewright

/-- The packages asked for so far, with their targets; a package without a build file has none. -/
abbrev PackageCache := List (String × Option (List Description))

namespace BuildFile

/-- The stem of a build file. -/
def stem : String := "BUILD"

/-- The directory of a package. -/
def directory (root : Location) (package : String) : Location :=
  if package.isEmpty then root else root.child package

/-- The build file of a package, if it has one. -/
def find (files : FileTree) (root : Location) (package : String) :
    Except BuildError (Option Location) :=
  Document.find files (directory root package) stem

/-- A name that cannot be told from a path. -/
def isBadName (name : String) : Bool :=
  name.toList.any (fun c => c == ':' || c == '/') || name = "." || name = ".."

/-- The text under a key of an entry, trimmed, unless it is blank or no text. -/
def text? (entry : List (Value × Value)) (key : String) : Option String :=
  match Value.find? entry key with
  | some (.string s) => if Text.isAllBlank s then none else some (Text.trim s)
  | _ => none

/-- The description that one entry of the list makes. -/
def describe (package path : String) (position : Nat) (entry : Value) :
    Except BuildError Description :=
  match entry with
  | .map attributes =>
    match text? attributes "name" with
    | none => .error (.under "name" (.nameMissing path position))
    | some name =>
      if isBadName name then .error (.under "name" (.badName path name))
      else
        let target : Target := ⟨package, name⟩
        match text? attributes "kind" with
        | none =>
          .error (.config (.kindMissing path) (some target) (some (.string "kind")))
        | some kind => .ok ⟨kind, target, attributes, some path⟩
  | _ => .error (.plain (.targetNotTable path position))

/-- The descriptions that the entries of the list make, the first of them at a given position. -/
def describeAll (package path : String) : Nat → List Description → List Value →
    Except BuildError (List Description)
  | _, seen, [] => .ok seen
  | position, seen, entry :: rest => do
    let d ← describe package path position entry
    if seen.any (·.target.name == d.target.name) then
      .error (.config (.repeatedInFile path) (some d.target) none)
    else describeAll package path (position + 1) (seen ++ [d]) rest

/-- The descriptions in the entries of a build file. -/
def descriptions (package path : String) (data : List (Value × Value)) :
    Except BuildError (List Description) :=
  let unexpected := (data.map Prod.fst).filter (!·.isText "targets")
  if !unexpected.isEmpty then do
    let _ ← unexpected.mapM BuildError.textOf
    .error (.plain (.unexpectedKeys path unexpected))
  else
    match (Value.find? data "targets").getD (.list []) with
    | .list items | .tuple items => describeAll package path 0 [] items
    | _ => .error (.plain (.targetsNotList path))

/-- The targets of a package, if it has a build file. -/
def read (files : FileTree) (root : Location) (package : String) :
    Except BuildError (Option (List Description)) := do
  match ← find files root package with
  | none => .ok none
  | some l => some <$> descriptions package l.render (← Document.load files l)

/-- The targets of a package and what is known then: an answer is remembered, a failure is not. -/
def load (files : FileTree) (root : Location) (cache : PackageCache) (package : String) :
    Except BuildError (Option (List Description) × PackageCache) :=
  match cache.lookup package with
  | some known => .ok (known, cache)
  | none => (read files root package).map fun found => (found, (package, found) :: cache)

end BuildFile

end Makewright
