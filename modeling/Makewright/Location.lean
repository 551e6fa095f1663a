import Makewright.Path

/-!
# Locations

A location is a path on a disk: the number of its leading slashes and its components, without the
empty ones and the `.` ones. A `..` stays in a location, because what it means is up to the disk.
-/

set_option autoImplicit false

namespace Makewright

/-- A path on a disk; it is relative when there are no leading slashes. -/
structure Location where
  slashes : Nat
  parts : List String
  deriving DecidableEq, Repr, Inhabited

namespace Location

/-- The location that a text names. -/
def parse (s : String) : Location :=
  ⟨Path.rootSlashes s.toList, (Path.components s.toList).map String.ofList⟩

/-- A location as text; the relative location without components is a dot. -/
def render (l : Location) : String :=
  let text := String.ofList (List.replicate l.slashes '/') ++ "/".intercalate l.parts
  if text.isEmpty then "." else text

/-- A location that starts at the root of the disk. -/
def isAbsolute (l : Location) : Bool :=
  l.slashes != 0

/-- One location seen from another: an absolute one stands alone. -/
def join (a b : Location) : Location :=
  if b.isAbsolute then b else ⟨a.slashes, a.parts ++ b.parts⟩

/-- The location that a text names, seen from another location. -/
def child (a : Location) (s : String) : Location :=
  a.join (parse s)

/-- The location without its last component. -/
def parent (l : Location) : Location :=
  { l with parts := l.parts.dropLast }

/-- The last component. -/
def name (l : Location) : String :=
  l.parts.getLastD ""

/-- The extension of the last component: from its last dot on, unless that dot starts or ends it. -/
def extension (l : Location) : String :=
  match Text.cutLast? '.' l.name.toList with
  | some (front, back) =>
    if front.isEmpty || back.isEmpty then "" else String.ofList ('.' :: back)
  | none => ""

/-- The components after cancelling every `..`, seen from the root of the disk. -/
def settled (l : Location) : List String :=
  let step (acc : List String) (part : String) : List String :=
    if part = ".." then acc.dropLast else acc ++ [part]
  l.parts.foldl step []

/-- The location without any `..`, seen from a working directory. -/
def resolve (cwd l : Location) : Location :=
  ⟨1, (cwd.join l).settled⟩

/-- The location seen from a directory, if it lies there or below. -/
def relativeTo? (l directory : Location) : Option Location :=
  if l.slashes = directory.slashes && directory.parts.isPrefixOf l.parts then
    some ⟨0, l.parts.drop directory.parts.length⟩
  else none

end Location

end Makewright
