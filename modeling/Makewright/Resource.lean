import Makewright.Path

/-!
# Resources

A resource is a file named relative to one of the roots of the workspace: the source tree, whose
root is the empty text, or a directory of generated files. `Language` is the tag that says which
compiler a source or an object belongs to.
-/

set_option autoImplicit false

namespace Makewright

/-- The language that a file is compiled as; `none` for a file that is not compiled. -/
inductive Language where
  | none
  | c
  | cxx
  deriving DecidableEq, Repr, Inhabited

/-- The written name of a language. -/
def Language.label : Language → String
  | .none => "none"
  | .c => "c"
  | .cxx => "c++"

/-- The language that a source file is compiled as, by its extension. -/
def Language.ofSource? (path : String) : Option Language :=
  match Path.extension path with
  | ".c" => some .c
  | ".cc" | ".cpp" | ".cxx" | ".C" => some .cxx
  | _ => Option.none

/-- A file, by the root it lies under and its path below that root. -/
structure Resource where
  root : String
  path : String
  deriving DecidableEq, Repr, Inhabited

namespace Resource

/-- The resource with both parts normalised; the root `.` is the source tree. -/
def ofRootPath (root path : String) : Resource :=
  let normal := if root.isEmpty then "" else Path.normalize root
  ⟨if normal = "." then "" else normal, Path.normalize path⟩

/-- The path of the resource seen from the workspace root. -/
def fullPath (r : Resource) : String :=
  if r.root.isEmpty then r.path else Path.join r.root r.path

/-- The directory part of the path below the root. -/
def dirname (r : Resource) : String :=
  Path.dirname r.path

/-- The last component of the path below the root. -/
def basename (r : Resource) : String :=
  Path.basename r.path

/-- Resources are ordered by root and then by path, both by code points. -/
def le (a b : Resource) : Bool :=
  a.root < b.root || (a.root == b.root && (a.path < b.path || a.path == b.path))

end Resource

end Makewright
