import Makewright.Shell.Builtin
import Makewright.Shell.Recorder

/-!
# Small shell scripts

An interpreter for scripts of the kind that checks whether commands can be run: simple commands in a
row, joined by semicolons, line ends, `&&` and `||`, with quoting, variables and redirections of the
two outputs, and the commands that a shell has built in. There are no loops, functions or pipes.

When the script is over, its outputs are read as text, with every kind of line end written as a line
feed.
-/

set_option autoImplicit false

namespace Makewright.Shell

/-- Where an output ends up. -/
inductive Sink where
  | stdout
  | stderr
  | file (l : Location) (append : Bool)
  deriving DecidableEq, Repr

/-- The sinks of the two outputs after the redirections, taken from left to right. -/
def sinks (m : Machine) (redirects : List (Nat × Goal × List Piece)) : Sink × Sink :=
  redirects.foldl (fun (out, err) (source, goal, word) =>
    let sink :=
      match goal with
      | .stream 1 => out
      | .stream _ => err
      | .file append => .file (m.cwd.child (m.whole word)) append
    if source = 1 then (sink, err) else (out, sink)) (.stdout, .stderr)

/-- Send bytes to a sink. -/
def send (m : Machine) (bytes : List UInt8) : Sink → Machine
  | .stdout => { m with stdout := m.stdout ++ bytes }
  | .stderr => { m with stderr := m.stderr ++ bytes }
  | .file l append =>
    let before := if append then (m.files.read l).toOption.getD "" else ""
    let text := (String.fromUTF8? (ByteArray.mk bytes.toArray)).getD ""
    match m.files.write l (before ++ text) with
    | .ok files => { m with files }
    | .error _ => m

/-- The variable and the value of a word that assigns one. -/
def assignment? (m : Machine) (word : List Piece) : Option (String × String) :=
  match Text.cutFirst? '=' (m.whole word).toList with
  | some (name, text) =>
    let isName := !name.isEmpty && name.all fun c => c.isAlphanum || c == '_'
    let isPlain :=
      match word.head? with
      | some (.text _ false) => true
      | _ => false
    if isName && isPlain then some (String.ofList name, String.ofList text) else none
  | none => none

/-- Make the assignments at the start of a command; the answer holds the words behind them. -/
def takeAssignments (m : Machine) : List (List Piece) → List (List Piece) × Machine
  | [] => ([], m)
  | word :: rest =>
    match assignment? m word with
    | some (name, text) => takeAssignments (m.assign name text) rest
    | none => (word :: rest, m)

/-- Run a command by its name and send its outputs where they belong. -/
def runNamed (m : Machine) (name : String) (args : List String)
    (redirects : List (Nat × Goal × List Piece)) : Machine :=
  let (effect, after) := perform m name args
  let (out, err) := sinks m redirects
  { send (send after effect.stdout out) effect.stderr err with status := effect.status }

/-- Run a simple command. An exclamation mark in front turns its status around. -/
def runSimple (m : Machine) (s : Simple) : Machine :=
  let (words, m) := takeAssignments m (if s.words.head?.map m.whole = some "export" then
    s.words.drop 1 else s.words)
  match words.flatMap m.fields with
  | [] => { m with status := 0 }
  | "!" :: name :: args =>
    let m := runNamed m name args s.redirects
    { m with status := if m.status = 0 then 1 else 0 }
  | name :: args => runNamed m name args s.redirects

/-- Run the commands of a script one after the other. -/
def runAll (m : Machine) : List Simple → Machine
  | [] => m
  | s :: rest =>
    let runs :=
      m.ending.isNone &&
        match s.joint with
        | .always => true
        | .onSuccess => m.status = 0
        | .onFailure => m.status ≠ 0
    let isEmpty := s.words.isEmpty && s.redirects.isEmpty
    runAll (if runs && !isEmpty then runSimple m s else m) rest

/-- Run a script. -/
def runScript (m : Machine) (script : String) : Machine :=
  match lexemes (script.length + 1) [] script.toList with
  | some found => runAll m (commandsOf ⟨.always, [], []⟩ found)
  | none =>
    { m with
      stderr := m.stderr ++ bytesOf "/bin/sh: 1: Syntax error: Unterminated quoted string\n"
      status := 2 }

/-- The text of an output. -/
def outputText (bytes : List UInt8) : String :=
  let text := (String.fromUTF8? (ByteArray.mk bytes.toArray)).getD ""
  String.ofList (Document.plainLineEnds text.toList)

/-- The result of a command whose program or directory is missing. -/
def missing (c : Command) (name : String) : CommandResult :=
  ⟨c.words, 127, "", FileFault.notFound.message name⟩

/-- The variables that every script finds set. -/
def inherited : List (String × String) :=
  [("PATH", "/usr/local/bin:/usr/bin:/bin"), ("HOME", "/root")]

/-- Run a command from a directory. Programs other than the shell are missing. -/
def execute (files : FileTree) (cwd : Location) (c : Command) :
    Except BuildError (CommandResult × FileTree) :=
  let directory := (c.cwd.map Location.parse).getD cwd
  match files.walk directory.parts, c.words with
  | .error .notFound, _ => .ok (missing c directory.render, files)
  | .error fault, _ => .error (.file fault directory.render)
  | .ok place, "/bin/sh" :: "-c" :: script :: rest =>
    if files.standing? place ≠ some .directory then
      .error (.file .notDirectory directory.render)
    else
      let arguments := rest.drop 1
      let positional := arguments.zipIdx.map fun (text, i) => (toString (i + 1), text)
      let bindings :=
        c.env.reverse ++ inherited ++ [("0", rest.headD "/bin/sh")] ++ positional
      let m := runScript ⟨files, ⟨1, place⟩, bindings, arguments, [], [], 0, none⟩ script
      .ok (⟨c.words, m.ending.getD m.status, outputText m.stdout, outputText m.stderr⟩, m.files)
  | .ok _, program :: _ => .ok (missing c program, files)
  | .ok _, [] => .ok (missing c "", files)

end Makewright.Shell
