import Makewright.Disk.FileTree

/-!
# Disks with repositories

A repository is a line of commits with names on them and a head that stands at one of the commits
or at none. The `tags` of a repository are all the names by which git finds a commit besides the full
identifiers, the head and the main branch: tags proper, other branches, remote ones, abbreviated
identifiers and expressions such as `HEAD~1`, each of them with the commit that it stands for.

A disk is a file tree together with the repositories in it, each at the place of its directory.
-/

set_option autoImplicit false

namespace Makewright

/-- A line of commits, oldest first, by their identifiers; the place of the head; the further names
that git resolves to commits, by position; and the names that it resolves to something else. -/
structure Repository where
  commits : List String
  head : Option Nat
  tags : List (String × Nat)
  otherTags : List String
  deriving DecidableEq, Repr, Inhabited

namespace Repository

/-- The name of the one branch. -/
def branch : String := "main"

/-- The commit that the head stands at. -/
def headCommit? (r : Repository) : Option String :=
  r.head.bind (r.commits[·]?)

/-- The commit that a revision names: a full identifier, the head, one of the further names or the
branch. -/
def commit? (r : Repository) (revision : String) : Option String :=
  if revision ∈ r.commits then some revision
  else if revision = "HEAD" then r.headCommit?
  else if revision ∈ r.otherTags then none
  else
    match r.tags.lookup revision with
    | some position => r.commits[position]?
    | none => if revision = branch then r.commits.getLast? else none

/-- The repository with one more tag. -/
def addTag (r : Repository) (name : String) (position : Nat) : Repository :=
  { r with tags := (name, position) :: r.tags }

/-- The repository with its head at a commit. -/
def moveHead (r : Repository) (commit : String) : Repository :=
  { r with head := r.commits.findIdx? (· == commit) }

end Repository

/-- Files and repositories. -/
structure Disk where
  files : FileTree
  repositories : List (List String × Repository)
  deriving Repr, Inhabited

namespace Disk

/-- The repository whose directory is at a location. -/
def repository? (disk : Disk) (l : Location) : Option Repository :=
  match disk.files.walk l.parts with
  | .ok place => disk.repositories.lookup place
  | .error _ => none

/-- The disk with a directory at a location, if one can be made there. -/
def addDirectory (disk : Disk) (l : Location) : Disk :=
  match disk.files.makeDirectories l with
  | .ok files => { disk with files }
  | .error _ => disk

/-- Put a repository at a place, over one that is there. -/
def putRepository (disk : Disk) (place : List String) (r : Repository) : Disk :=
  { disk with repositories := (place, r) :: disk.repositories.filter (·.1 != place) }

/-- The disk with a repository at a location. -/
def addRepository (disk : Disk) (l : Location) (r : Repository) : Disk :=
  (disk.addDirectory l).putRepository l.settled r

/-- The disk with the repository at a location changed, if there is one. -/
def modifyRepository (disk : Disk) (l : Location) (change : Repository → Repository) : Disk :=
  match disk.repository? l with
  | some r => disk.putRepository l.settled (change r)
  | none => disk

end Disk

end Makewright
