import Makewright.Disk.Repository

/-!
# Recorded commands

A recorder stands in for a shell: it keeps every command that it is given and answers with the next
reply of a script. A reply may change the disk, as the command would have. When the script is used
up, every command succeeds silently and changes nothing.
-/

set_option autoImplicit false

namespace Makewright

/-- A command as it is given to a shell, with its working directory and its own variables. -/
structure Command where
  words : List String
  cwd : Option String
  env : List (String × String)
  deriving DecidableEq, Repr

/-- How a command ends, and what it does to the disk. -/
structure Reply where
  returncode : Int
  stdout : String
  stderr : String
  effect : Command → Disk → Disk

/-- The reply of a command that succeeds silently and changes nothing. -/
def Reply.silent : Reply := ⟨0, "", "", fun _ disk => disk⟩

/-- The outcome that a reply gives to a command. -/
def Reply.outcome (r : Reply) (c : Command) : CommandResult :=
  ⟨c.words, r.returncode, r.stdout, r.stderr⟩

/-- A failed command is an error where success is asked for. -/
def CommandResult.check (r : CommandResult) : Except BuildError CommandResult :=
  if r.returncode = 0 then .ok r else .error (.commandFailed r)

/-- The replies still to give, and the commands so far, oldest first. -/
structure Recorder where
  script : List Reply
  commands : List Command

namespace Recorder

/-- A recorder that has seen no command. -/
def new (script : List Reply) : Recorder := ⟨script, []⟩

/-- Record a command and answer it. -/
def run (r : Recorder) (c : Command) (disk : Disk) : CommandResult × Recorder × Disk :=
  let reply := r.script.head?.getD .silent
  (reply.outcome c, ⟨r.script.drop 1, r.commands ++ [c]⟩, reply.effect c disk)

end Recorder

end Makewright
