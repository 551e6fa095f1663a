import Makewright.CommandLine.Run

/-!
# The program

The outer layer of the command line. The real files come in as a file tree that holds what the run
has asked for; a run that asks for more is done again with what stands there. The last run decides:
its outputs are printed, and the files that it made or changed are put on the real disk.

Commands are not run, so the sources of remote packages are never fetched.
-/

set_option autoImplicit false

namespace Makewright.CommandLine

/-- What stands at a path on the real disk. -/
def realEntry (path : String) : IO (Option Entry) := do
  if ← ((← IO.currentDir) / path).isDir then pure (some .directory)
  else
    try
      let text ← IO.FS.readFile path
      pure (some (.file text))
    catch _ => pure none

/-- Take over what stands at a location on the real disk and on the way to it. -/
def look (files : FileTree) (l : Location) : IO FileTree := do
  let parts := l.settled
  let places := (List.range parts.length).map fun i => parts.take (i + 1)
  places.foldlM (fun files place => do
    match ← realEntry (Location.render ⟨1, place⟩) with
    | some e => pure (files.put place e)
    | none => pure files) files

/-- Run, and run again as long as there are locations to look at. -/
partial def explore (words : List String) (s : Surroundings) (seen : List Location) :
    IO (Surroundings × Outcome) := do
  let outcome := run words s
  let fresh := outcome.asked.filter (· ∉ seen)
  if fresh.isEmpty then pure (s, outcome)
  else
    let files ← fresh.foldlM look s.disk.files
    explore words { s with disk := { s.disk with files } } (seen ++ fresh)

/-- Put an entry on the real disk. A file is written next to its place and then renamed. -/
def makeReal (place : List String) (e : Entry) : IO Unit := do
  let path := Location.render ⟨1, place⟩
  match e with
  | .directory => IO.FS.createDirAll path
  | .file text =>
    IO.FS.writeFile (path ++ ".new") text
    IO.FS.rename (path ++ ".new") path

end Makewright.CommandLine

open Makewright Makewright.CommandLine in
/-- Run the program with its arguments. -/
def main (args : List String) : IO UInt32 := do
  let cwd := Location.parse (← IO.currentDir).toString
  let files ← look default cwd
  let start : Surroundings := ⟨⟨files, []⟩, cwd, ← IO.getEnv configVariable⟩
  let (s, outcome) ← explore args start []
  for (place, e) in outcome.disk.files.changesFrom s.disk.files do
    makeReal place e
  IO.print outcome.stdout
  IO.eprint outcome.stderr
  match outcome.ending with
  | .finished code => pure (UInt32.ofNat code)
  | .refused refusal =>
    match refusal with
    | .usage => IO.eprint usage
    | .help => IO.print usage
    pure (UInt32.ofNat refusal.code)
  | .escaped e =>
    IO.eprintln e.message
    pure 1
