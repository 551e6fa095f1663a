import Makewright.Path
import Makewright.Text.Blank

/-!
# Targets

A target is what a build file declares: a package, which is a directory of the workspace, and a
name in it. `Target.parse` reads the spellings `//pkg:name`, `pkg:name`, `:name`, `pkg/name` and
`name`; the last two of the colon forms and a lone name are relative to a package.
`Target.toString` writes the one full spelling.
-/

set_option autoImplicit false

namespace Makewright

open Makewright.Text

/-- The identity of a declared target: its package and its name there. -/
structure Target where
  package : String
  name : String
  deriving DecidableEq, Repr, Inhabited

/-- Why a text is no target reference. -/
inductive ReferenceError where
  | empty
  | noName (reference : String)
  | escapes (package : String)
  deriving DecidableEq, Repr

/-- The wording of a reference error. -/
def ReferenceError.message : ReferenceError → String
  | .empty => "Target reference cannot be empty"
  | .noName reference => "Target reference '" ++ reference ++ "' has no target name"
  | .escapes package => "Package path '" ++ package ++ "' escapes the workspace root"

namespace Target

/-- The package with blanks and outer slashes dropped and its path normalised; the root package is
the empty text, and a package that starts with two dots is refused. -/
def normalizePackage (package : String) : Except ReferenceError String :=
  let bare := strip (· == '/') (trim package)
  if bare.isEmpty then .ok ""
  else
    let normal := Path.normalize bare
    if Path.startsUpward normal then .error (.escapes bare)
    else if normal = "." then .ok ""
    else .ok normal

/-- The package part and the name part of a reference. A reference without its own package belongs
to `current`, unless it was written from the root. -/
def splitReference (current : String) (rooted : Bool) (text : List Char) :
    List Char × List Char :=
  let (package, name) :=
    match cutLast? ':' text with
    | some parts => parts
    | none => (cutLast? '/' text).getD ([], text)
  if package.isEmpty && !rooted then (current.toList, name) else (package, name)

/-- Read a target reference as written in the package `current`. -/
def parse (reference : String) (current : String) : Except ReferenceError Target :=
  let text := (trim reference).toList
  if text.isEmpty then .error .empty
  else
    let (rooted, body) :=
      match afterFront? ['/', '/'] text with
      | some rest => (true, rest)
      | none => (false, text)
    let (package, name) := splitReference current rooted body
    if name.isEmpty then .error (.noName reference)
    else (normalizePackage (String.ofList package)).map fun p => ⟨p, String.ofList name⟩

/-- The path-like form `pkg/name`, which is the name of the rule that builds the target. -/
def fullPath (t : Target) : String :=
  if t.package.isEmpty then t.name else t.package ++ "/" ++ t.name

/-- The full spelling `//pkg:name`. -/
protected def toString (t : Target) : String :=
  "//" ++ t.package ++ ":" ++ t.name

instance : ToString Target := ⟨Target.toString⟩

/-- Targets are ordered by package and then by name, both by code points. -/
def le (a b : Target) : Bool :=
  a.package < b.package || (a.package == b.package && (a.name < b.name || a.name == b.name))

end Target

end Makewright
