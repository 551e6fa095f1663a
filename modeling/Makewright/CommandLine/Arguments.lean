import Makewright.Text.Cut
import Makewright.Text.Digit

/-!
# Command-line arguments

The arguments are options of the program, then one of the commands `generate`, `validate` and
`list`, then the options and the targets of the command. A long option may be shortened as long as
only one option starts that way, its value may be attached with an equals sign, and short options
may be written together. Everything behind a double hyphen is a target. The targets have to stand
together.

The arguments are looked at one after the other, so a call for help counts if it comes before the
first mistake. Unknown options, unknown letters and misplaced targets are counted as mistakes only
at the end.
-/

set_option autoImplicit false

namespace Makewright.CommandLine

/-- Why there are no arguments to go by: a mistake, or a call for help. -/
inductive Refusal where
  | usage
  | help
  deriving DecidableEq, Repr

/-- The exit code of a refusal. -/
def Refusal.code : Refusal → Nat
  | .usage => 2
  | .help => 0

/-- The line that says how the program is called. -/
def usage : String :=
  "usage: buildgen [-h] [-C ROOT] [--config CONFIG] [-v] generate|validate|list [-h] [-p PACKAGE]"
    ++ " [-o OUTPUT] [--stdout] [targets ...]\n"

/-- What an option is about. -/
inductive Switch where
  | help
  | root
  | config
  | verbose
  | package
  | output
  | stdout
  deriving DecidableEq, Repr

/-- The option needs a value. -/
def Switch.takesValue : Switch → Bool
  | .root | .config | .package | .output => true
  | .help | .verbose | .stdout => false

/-- Option names with what they are about. -/
abbrev Table := List (String × Switch)

/-- The options of the program. -/
def programOptions : Table :=
  [("-h", .help), ("--help", .help), ("-C", .root), ("--root", .root), ("--config", .config),
   ("-v", .verbose), ("--verbose", .verbose)]

/-- The options that all commands share. -/
def selectionOptions : Table :=
  [("-h", .help), ("--help", .help), ("-p", .package), ("--package", .package)]

/-- The options of the command that writes a Makefile. -/
def generateOptions : Table :=
  selectionOptions ++ [("-o", .output), ("--output", .output), ("--stdout", .stdout)]

/-- What is written behind the name of an option within one argument. -/
inductive Attached where
  | nothing
  | behindEquals (value : String)
  | joined (text : String)
  deriving DecidableEq, Repr

/-- An option as it was found: whether its long name was used, and what is attached to it. -/
structure Found where
  switch : Switch
  isLong : Bool
  attached : Attached
  deriving DecidableEq, Repr

/-- The form of one argument. An unknown option has nothing found. -/
inductive Form where
  | plain
  | separator
  | option (found : Option Found)
  deriving DecidableEq, Repr

/-- An argument with its form. -/
structure Argument where
  text : String
  form : Form
  deriving DecidableEq, Repr

/-- The text starts with two hyphens. -/
def isLongName (s : List Char) : Bool :=
  ['-', '-'].isPrefixOf s

/-- A negative number, which is no option. -/
def isNegativeNumber (s : List Char) : Bool :=
  match s with
  | '-' :: body =>
    match body.dropWhile Text.isDigit with
    | [] => !body.isEmpty
    | '.' :: fraction => !fraction.isEmpty && fraction.all Text.isDigit
    | _ => false
  | _ => false

/-- The parts of a text before and after its first equals sign. -/
def cutValue (s : List Char) : List Char × Attached :=
  match Text.cutFirst? '=' s with
  | some (name, value) => (name, .behindEquals (String.ofList value))
  | none => (s, .nothing)

/-- The options that a text may be short for. -/
def candidates (table : Table) (s : List Char) : List Found :=
  if isLongName s then
    let (name, attached) := cutValue s
    (table.filter fun entry => name.isPrefixOf entry.1.toList).map fun entry =>
      ⟨entry.2, true, attached⟩
  else
    table.filterMap fun (name, switch) =>
      if name.toList = s.take 2 then some ⟨switch, false, .joined (String.ofList (s.drop 2))⟩
      else if s.isPrefixOf name.toList then some ⟨switch, isLongName name.toList, .nothing⟩
      else none

/-- The option that a text names in full, perhaps with a value behind an equals sign. -/
def named? (table : Table) (s : List Char) : Option Found :=
  match table.lookup (String.ofList s) with
  | some switch => some ⟨switch, isLongName s, .nothing⟩
  | none =>
    match cutValue s with
    | (_, .nothing) => none
    | (name, attached) =>
      (table.lookup (String.ofList name)).map fun switch => ⟨switch, isLongName name, attached⟩

/-- The form of an argument in front of any separator. -/
def formOf (table : Table) (text : String) : Except Refusal Form :=
  match text.toList with
  | '-' :: rest =>
    if rest.isEmpty then .ok .plain
    else
      match named? table text.toList with
      | some found => .ok (.option (some found))
      | none =>
        match candidates table text.toList with
        | [found] => .ok (.option (some found))
        | _ :: _ :: _ => .error .usage
        | [] =>
          if isNegativeNumber text.toList || text.toList.contains ' ' then .ok .plain
          else .ok (.option none)
  | _ => .ok .plain

/-- The forms of all arguments; everything behind a separator is plain. -/
def classify (table : Table) : List String → Except Refusal (List Argument)
  | [] => .ok []
  | text :: rest =>
    if text = "--" then .ok (⟨text, .separator⟩ :: rest.map (⟨·, .plain⟩))
    else do
      let form ← formOf table text
      .ok (⟨text, form⟩ :: (← classify table rest))

/-- An option with its value; an option without a value has an empty one. -/
abbrev Setting := Switch × String

/-- What reading an option gives: the settings, whether there was a letter that stands for no
option, and the arguments that are left. -/
structure Taken where
  settings : List Setting
  unknown : Bool
  rest : List Argument

/-- An option with nothing attached. Its value, if it takes one, is the next argument. -/
def takeAlone (switch : Switch) (rest : List Argument) : Except Refusal Taken :=
  if switch.takesValue then
    match rest with
    | ⟨value, .plain⟩ :: rest => .ok ⟨[(switch, value)], false, rest⟩
    | _ => .error .usage
  else .ok ⟨[(switch, "")], false, rest⟩

/-- An option with a value attached, which it has to take. -/
def takeValue (switch : Switch) (value : String) (rest : List Argument) : Except Refusal Taken :=
  if switch.takesValue then .ok ⟨[(switch, value)], false, rest⟩ else .error .usage

/-- A short option with the text behind its letter: its value, or further short options. -/
def takeJoined (table : Table) (rest : List Argument) (switch : Switch) :
    List Char → Except Refusal Taken
  | [] => takeValue switch "" rest
  | c :: more =>
    if switch.takesValue then takeValue switch (String.ofList (c :: more)) rest
    else if c = '-' then .error .usage
    else
      match table.lookup (String.ofList ['-', c]) with
      | none => .ok ⟨[(switch, "")], true, rest⟩
      | some next => do
        let taken ← match more with
          | [] => takeAlone next rest
          | '=' :: value => takeValue next (String.ofList value) rest
          | _ => takeJoined table rest next more
        .ok { taken with settings := (switch, "") :: taken.settings }

/-- One option with all that is written together with it; a call for help ends the reading. -/
def takeSettings (table : Table) (found : Found) (rest : List Argument) :
    Except Refusal Taken := do
  let taken ← match found.attached with
    | .nothing => takeAlone found.switch rest
    | .behindEquals value => takeValue found.switch value rest
    | .joined text => takeJoined table rest found.switch text.toList
  if taken.settings.any (·.1 == .help) then .error .help else .ok taken

/-- An argument that is no option. -/
def Argument.isPositional (a : Argument) : Bool :=
  match a.form with
  | .option _ => false
  | _ => true

/-- The texts of arguments without the first separator. -/
def textsOf (arguments : List Argument) : List String :=
  (arguments.map Argument.text).erase "--"

/-- What a command is given: its options, its targets once they have been met, and whether there was
anything that it does not know. -/
structure CommandPart where
  settings : List Setting
  targets : Option (List String)
  unknown : Bool

/-- Read the arguments of a command. -/
def readCommand (table : Table) : Nat → CommandPart → List Argument →
    Except Refusal CommandPart
  | _, part, [] => .ok part
  | 0, _, _ => .error .usage
  | fuel + 1, part, first :: rest =>
    match first.form with
    | .option none => readCommand table fuel { part with unknown := true } rest
    | .option (some found) => do
      let taken ← takeSettings table found rest
      let part := { part with
        settings := part.settings ++ taken.settings, unknown := part.unknown || taken.unknown }
      readCommand table fuel part taken.rest
    | _ =>
      let (run, rest) := (first :: rest).span Argument.isPositional
      let part :=
        if part.targets.isNone then { part with targets := some (textsOf run) }
        else { part with unknown := true }
      readCommand table fuel part rest

/-- The options in front of the command, what follows them, and whether any was unknown. -/
def readProgram : Nat → List Setting → Bool → List Argument →
    Except Refusal (List Setting × Bool × List String)
  | _, _, _, [] => .error .usage
  | 0, _, _, _ => .error .usage
  | fuel + 1, seen, unknown, first :: rest =>
    match first.form with
    | .option none => readProgram fuel seen true rest
    | .option (some found) => do
      let taken ← takeSettings programOptions found rest
      readProgram fuel (seen ++ taken.settings) (unknown || taken.unknown) taken.rest
    | _ => .ok (seen, unknown, (first :: rest).map Argument.text)

/-- What to do. -/
inductive Action where
  | generate (output : Option String) (toStdout : Bool)
  | validate
  | list
  deriving DecidableEq, Repr

/-- What the program is asked for. -/
structure Arguments where
  root : String
  config : Option String
  verbose : Bool
  action : Action
  targets : List String
  packages : List String
  deriving DecidableEq, Repr

/-- The last value of an option. -/
def lastOf (settings : List Setting) (switch : Switch) : Option String :=
  ((settings.filter (·.1 == switch)).getLast?).map Prod.snd

/-- The options of a command, if there is such a command. -/
def optionsOf? (command : String) : Option Table :=
  if command = "generate" then some generateOptions
  else if command = "validate" || command = "list" then some selectionOptions
  else none

/-- What a command does, given its options. -/
def actionOf (command : String) (settings : List Setting) : Action :=
  if command = "generate" then
    .generate (lastOf settings .output) (lastOf settings .stdout).isSome
  else if command = "validate" then .validate
  else .list

/-- Read the arguments of the program. -/
def Arguments.parse (args : List String) : Except Refusal Arguments := do
  let (settings, unknown, rest) ← readProgram args.length [] false (← classify programOptions args)
  match rest with
  | [] => .error .usage
  | command :: rest =>
    match optionsOf? command with
    | none => .error .usage
    | some table =>
      let part ← readCommand table rest.length ⟨[], none, false⟩ (← classify table rest)
      if unknown || part.unknown then .error .usage
      else
        .ok
          { root := (lastOf settings .root).getD "."
            config := lastOf settings .config
            verbose := (lastOf settings .verbose).isSome
            action := actionOf command part.settings
            targets := part.targets.getD []
            packages := (part.settings.filter (·.1 == .package)).map Prod.snd }

end Makewright.CommandLine
