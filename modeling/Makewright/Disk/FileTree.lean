import Makewright.Error
import Makewright.Location

/-!
# File trees

A disk as plain data: directories and text files, each under the list of its components from the
root on. Looking a location up goes component by component, so that a `..` leads out of a directory
that has to be there. The operations that change a tree either succeed or name the fault and leave
the tree to the caller as it was.

The names in a tree can all be encoded and hold no null character. A path that is not of this kind
leads nowhere, and a file that is to be made at one is refused (`Location.checkName`).
-/

set_option autoImplicit false

namespace Makewright

/-- What keeps a location from being passed to the system as the path of a file. -/
def Location.nameFault? (l : Location) : Option ScalarFault :=
  match Text.nameRefusal? l.render with
  | some refusal => some (.unencodable refusal)
  | none => if l.render.toList.contains '\x00' then some .nullCharacter else none

/-- Refuse a location that cannot be the path of a file. -/
def Location.checkName (l : Location) : Except BuildError Unit :=
  l.nameFault?.elim (.ok ()) fun fault => .error (.scalar fault)

/-- What stands at a place of a file tree. -/
inductive Entry where
  | directory
  | file (text : String)
  deriving DecidableEq, Repr

/-- Directories and files by their components from the root on. The root itself is always there. -/
structure FileTree where
  entries : List (List String × Entry)
  deriving Repr, Inhabited

namespace FileTree

/-- What stands at a place. -/
def standing? (tree : FileTree) (place : List String) : Option Entry :=
  if place.isEmpty then some .directory else tree.entries.lookup place

/-- The longest name of a file, in bytes. -/
def longestName : Nat := 255

/-- Go one component further from a place where something stands. -/
def step (tree : FileTree) (place : List String) (part : String) :
    Except FileFault (List String) :=
  match tree.standing? place with
  | some .directory =>
    if longestName < part.utf8ByteSize then .error .nameTooLong
    else if part = ".." then .ok place.dropLast
    else if (tree.standing? (place ++ [part])).isSome then .ok (place ++ [part])
    else .error .notFound
  | some (.file _) => .error .notDirectory
  | none => .error .notFound

/-- The place that a list of components leads to from the root. -/
def walk (tree : FileTree) (parts : List String) : Except FileFault (List String) :=
  parts.foldlM tree.step []

/-- What stands at a location: nothing when some part of the way is missing. -/
def status (tree : FileTree) (l : Location) : Except BuildError (Option Entry) :=
  match tree.walk l.parts with
  | .ok place => .ok (tree.standing? place)
  | .error .nameTooLong => .error (.file .nameTooLong l.render)
  | .error _ => .ok none

/-- A directory stands at the location. -/
def isDirectory (tree : FileTree) (l : Location) : Except BuildError Bool :=
  (tree.status l).map (· == some .directory)

/-- A file stands at the location. -/
def isFile (tree : FileTree) (l : Location) : Except BuildError Bool :=
  (tree.status l).map fun found =>
    match found with
    | some (.file _) => true
    | _ => false

/-- Something stands at the location. -/
def isThere (tree : FileTree) (l : Location) : Except BuildError Bool :=
  (tree.status l).map Option.isSome

/-- The text of the file at a location. -/
def read (tree : FileTree) (l : Location) : Except BuildError String :=
  match tree.walk l.parts with
  | .error fault => .error (.file fault l.render)
  | .ok place =>
    match tree.standing? place with
    | some (.file text) => .ok text
    | some .directory => .error (.file .isDirectory l.render)
    | none => .error (.file .notFound l.render)

/-- Put an entry at a place, over whatever stands there. -/
def put (tree : FileTree) (place : List String) (e : Entry) : FileTree :=
  if tree.entries.any (·.1 == place) then
    ⟨tree.entries.map fun old => if old.1 == place then (place, e) else old⟩
  else ⟨tree.entries ++ [(place, e)]⟩

/-- Take away what stands at a place. -/
def erase (tree : FileTree) (place : List String) : FileTree :=
  ⟨tree.entries.filter (·.1 != place)⟩

/-- Make one directory; the directory around it has to be there and the name has to be free. -/
def makeDirectory (tree : FileTree) (parts : List String) : Except FileFault FileTree := do
  let around ← tree.walk parts.dropLast
  match tree.standing? around, parts.getLast? with
  | some .directory, some part =>
    if longestName < part.utf8ByteSize then .error .nameTooLong
    else if part = ".." || (tree.standing? (around ++ [part])).isSome then .error .alreadyThere
    else .ok (tree.put (around ++ [part]) .directory)
  | some .directory, none => .error .alreadyThere
  | _, _ => .error .notDirectory

/-- Make a directory and, where they are missing, the directories around it. The components come
last first. What is a directory already is left alone; anything else in the way is a fault. -/
def makeDirectoriesFrom (tree : FileTree) (slashes : Nat) : List String → Except BuildError FileTree
  | [] => .ok tree
  | part :: around =>
    let parts := (part :: around).reverse
    let here : Location := ⟨slashes, parts⟩
    let settle (t : FileTree) (fault : FileFault) : Except BuildError FileTree := do
      if ← t.isDirectory here then .ok t else .error (.file fault here.render)
    match tree.makeDirectory parts with
    | .ok made => .ok made
    | .error .notFound => do
      let outer ← makeDirectoriesFrom tree slashes around
      match outer.makeDirectory parts with
      | .ok made => .ok made
      | .error fault => settle outer fault
    | .error fault => settle tree fault

/-- Make the directory at a location and the directories around it. -/
def makeDirectories (tree : FileTree) (l : Location) : Except BuildError FileTree :=
  tree.makeDirectoriesFrom l.slashes l.parts.reverse

/-- Write a file at a location; the directory around it has to be there. -/
def write (tree : FileTree) (l : Location) (text : String) : Except BuildError FileTree :=
  match tree.walk l.parent.parts, l.parts.getLast? with
  | .error fault, _ => .error (.file fault l.render)
  | .ok _, none => .error (.file .isDirectory l.render)
  | .ok around, some part =>
    if longestName < part.utf8ByteSize then .error (.file .nameTooLong l.render)
    else
      match tree.standing? around, tree.standing? (around ++ [part]) with
      | some (.file _), _ => .error (.file .notDirectory l.render)
      | none, _ => .error (.file .notFound l.render)
      | some .directory, some .directory => .error (.file .isDirectory l.render)
      | some .directory, _ =>
        if part = ".." then .error (.file .isDirectory l.render)
        else .ok (tree.put (around ++ [part]) (.file text))

/-- Write a new file at a location where nothing stands yet. -/
def create (tree : FileTree) (l : Location) (text : String) : Except BuildError FileTree := do
  if ← tree.isThere l then .error (.file .alreadyThere l.render) else tree.write l text

/-- Take away the file at a location, if there is one. -/
def unlink (tree : FileTree) (l : Location) : FileTree :=
  match tree.walk l.parts with
  | .ok place =>
    match tree.standing? place with
    | some (.file _) => tree.erase place
    | _ => tree
  | .error _ => tree

/-- The places of a tree where something else stands than in an earlier tree. -/
def changesFrom (tree before : FileTree) : List (List String × Entry) :=
  tree.entries.filter fun (place, e) => before.standing? place != some e

/-- Rename a file, over the file that stands at the new location. The root of the disk and the
directory around another cannot be renamed over. -/
def rename (tree : FileTree) (source goal : Location) : Except BuildError FileTree := do
  let text ← tree.read source
  if goal.parts.getLast?.getD ".." = ".." then .error (.file .busy goal.render)
  else
    let written ← tree.write goal text
    .ok (written.unlink source)

end FileTree

end Makewright
