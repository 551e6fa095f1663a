import Makewright.BuildFile
import Makewright.Fetch.Identifier
import Makewright.Journal
import Makewright.Shell.Recorder

/-!
# Fetching sources

A fetcher turns an identifier into a directory. A local fetcher looks the directory up. A fetcher
for repositories clones each repository once and reuses its checkout afterwards; an identifier that
names a revision gets that revision checked out, fetched first if it is not there. It remembers the
identifiers that it has served.

A `Session` is what a pass changes as it goes on: the disk, what is known of packages and fetched
sources, the commands run and the journal. A step that fails leaves the session as it was then.
-/

set_option autoImplicit false

namespace Makewright

/-- What a pass changes as it goes on. -/
structure Session where
  disk : Disk
  packages : PackageCache
  fetched : List (String × Location)
  recorder : Recorder
  journal : Journal

/-- A step of a pass. -/
abbrev Pass := EStateM BuildError Session

namespace Session

/-- The session at the start of a pass. -/
def new (disk : Disk) (script : List Reply) : Session := ⟨disk, [], [], .new script, []⟩

/-- Add an entry to the journal. -/
def report (level : LogLevel) (reporter : Reporter) (text : String) (s : Session) : Session :=
  { s with journal := s.journal ++ [⟨level, reporter, text⟩] }

end Session

namespace Pass

/-- Add an entry to the journal. -/
def report (level : LogLevel) (reporter : Reporter) (text : String) : Pass Unit :=
  modify (Session.report level reporter text)

/-- Take the answer of a step that changes nothing. -/
def lift {α : Type} : Except BuildError α → Pass α
  | .ok a => pure a
  | .error e => throw e

/-- Ask the files of the disk. -/
def onFiles {α : Type} (question : FileTree → Except BuildError α) : Pass α := do
  lift (question (← get).disk.files)

/-- Change the files of the disk. -/
def changeFiles (change : FileTree → Except BuildError FileTree) : Pass Unit := do
  let files ← onFiles change
  modify fun s => { s with disk := { s.disk with files } }

/-- Run a command without asking for success. -/
def run (words : List String) (cwd : Option Location) : Pass CommandResult := do
  let s ← get
  let (result, recorder, disk) := s.recorder.run ⟨words, cwd.map Location.render, []⟩ s.disk
  set { s with recorder, disk }
  pure result

end Pass

/-- A way to turn identifiers into directories below a base directory. -/
inductive Fetcher where
  | directories (base : Location)
  | repositories (base : Location)
  deriving DecidableEq, Repr

namespace Fetcher

/-- The error that nothing can be fetched. -/
def unavailable (identifier reason : String) : BuildError :=
  .sourceUnavailable identifier reason none

/-- The directory that an identifier names below a base directory. -/
def lookUp (base : Location) (identifier : String) : Pass Location := do
  let l := base.child identifier
  if ← Pass.onFiles (·.isDirectory l) then pure l
  else throw (unavailable identifier ("directory " ++ l.render ++ " does not exist"))

/-- The repository at a location, which has to be there. -/
def openRepository (identifier : String) (l : Location) : Pass Repository := do
  match (← get).disk.repository? l with
  | some r => pure r
  | none =>
    throw (unavailable identifier
      (l.render ++ " is not a git repository: no repository was found there"))

/-- The reason that a failed command states, or else a standing one. -/
def reasonOf (result : CommandResult) (otherwise : String) : String :=
  let stated := Text.trim result.stderr
  if stated.isEmpty then otherwise else stated

/-- Clone a repository to its place. -/
def clone (base : Location) (identifier url : String) (destination : Location) : Pass Unit := do
  Pass.report .info .fetcher ("cloning " ++ url ++ " into " ++ destination.render)
  Pass.changeFiles (·.makeDirectories base)
  let result ← Pass.run ["git", "clone", "--quiet", url, destination.render] none
  if result.returncode ≠ 0 then
    throw (unavailable identifier
      (reasonOf result ("git clone exited with " ++ toString result.returncode)))

/-- The commit that a revision names, fetched if it is not there. -/
def findCommit (identifier revision : String) (l : Location) (r : Repository) :
    Pass (Repository × String) := do
  match r.commit? revision with
  | some commit => pure (r, commit)
  | none =>
    Pass.report .info .fetcher
      ("revision " ++ revision ++ " not present in " ++ l.render ++ "; fetching")
    let _ ← Pass.run ["git", "fetch", "--quiet", "origin"] (some l)
    let r ← openRepository identifier l
    match r.commit? revision with
    | some commit => pure (r, commit)
    | none => throw (unavailable identifier ("revision '" ++ revision ++ "' not found"))

/-- Have a revision checked out. -/
def checkOut (identifier revision : String) (l : Location) (r : Repository) : Pass Unit := do
  let (r, commit) ← findCommit identifier revision l r
  if r.headCommit? ≠ some commit then
    let result ← Pass.run ["git", "checkout", "--quiet", "--detach", commit] (some l)
    if result.returncode ≠ 0 then
      throw (unavailable identifier
        (reasonOf result ("unable to check out '" ++ revision ++ "'")))

/-- The checkout that an identifier names. -/
def checkout (base : Location) (identifier : String) : Pass Location := do
  match (← get).fetched.lookup identifier with
  | some l => pure l
  | none =>
    let ⟨url, revision⟩ := Identifier.parse identifier
    if url.isEmpty then throw (unavailable identifier "no repository URL given")
    let destination := base.child (checkoutName url)
    if ← Pass.onFiles (·.isThere destination) then
      Pass.report .debug .fetcher
        ("reusing checkout of " ++ url ++ " at " ++ destination.render)
    else clone base identifier url destination
    let r ← openRepository identifier destination
    match revision with
    | some revision => checkOut identifier revision destination r
    | none => pure ()
    modify fun s => { s with fetched := (identifier, destination) :: s.fetched }
    pure destination

/-- The directory that an identifier names. -/
def fetch (f : Fetcher) (identifier : String) : Pass Location :=
  match f with
  | .directories base => lookUp base identifier
  | .repositories base => checkout base identifier

end Fetcher

end Makewright
