import Makewright.Distinct
import Makewright.Error
import Makewright.Text.Lines

/-!
# Makefiles

A Makefile is an optional header, head blocks under distinct keys, rules with distinct targets, one
shared install rule and the list of phony names. Every operation keeps the order of what is there.
`Makefile.serialize` writes the text; blocks and rules stand apart by one empty line.
-/

set_option autoImplicit false

namespace Makewright

/-- One rule: a target, what has to be there first, and the commands that make it. -/
structure Rule where
  target : String
  prerequisites : List String
  commands : List String
  deriving DecidableEq, Repr, Inhabited

namespace Rule

/-- A rule for a target with each prerequisite once and without commands. -/
def start (target : String) (prerequisites : List String) : Rule :=
  ⟨target, distinct prerequisites, []⟩

/-- Add prerequisites that are not there yet. -/
def addPrerequisites (rule : Rule) (names : List String) : Rule :=
  { rule with prerequisites := addAllOnce rule.prerequisites names }

/-- Add a command at the end of the recipe. -/
def addCommand (rule : Rule) (command : String) : Rule :=
  { rule with commands := rule.commands ++ [command] }

/-- Add commands at the end of the recipe. -/
def addCommands (rule : Rule) (commands : List String) : Rule :=
  { rule with commands := rule.commands ++ commands }

/-- The line of the target with its prerequisites. -/
def headLine (rule : Rule) : String :=
  if rule.prerequisites.isEmpty then rule.target ++ ":"
  else rule.target ++ ": " ++ " ".intercalate rule.prerequisites

/-- The text of a rule: the head line and one line for each command behind a tab. -/
def render (rule : Rule) : String :=
  "\n".intercalate (rule.headLine :: rule.commands.map ("\t" ++ ·)) ++ "\n"

end Rule

/-- The target of the shared install rule. -/
def installTarget : String := "install"

/-- A Makefile in the making. -/
structure Makefile where
  header : Option String
  heads : List (String × List String)
  rules : List Rule
  install : Rule
  phony : List String
  deriving Repr

/-- What the writer of a head block does: the lines it appends, and the error it then ends with, if
it does. -/
structure HeadBlock where
  lines : List String
  failure : Option BuildError

namespace Makefile

/-- The Makefile with nothing but an empty install rule. -/
def new (header : Option String) : Makefile :=
  ⟨header, [], [], Rule.start installTarget [], [installTarget]⟩

/-- There is a head block under the key. -/
def hasHead (m : Makefile) (key : String) : Bool :=
  m.heads.any (·.1 == key)

/-- Write a head block unless its key is taken; the answer says whether it was written. A writer
that fails leaves its key taken and the lines it had appended. -/
def writeHead (m : Makefile) (key : String) (block : HeadBlock) :
    Except BuildError Bool × Makefile :=
  if m.hasHead key then (.ok false, m)
  else
    let written := { m with heads := m.heads ++ [(key, block.lines)] }
    match block.failure with
    | some e => (.error e, written)
    | none => (.ok true, written)

/-- Write a head block that cannot fail. -/
def addHead (m : Makefile) (key : String) (lines : List String) : Makefile :=
  (m.writeHead key ⟨lines, none⟩).2

/-- A rule for the target exists. -/
def hasRule (m : Makefile) (target : String) : Bool :=
  m.rules.any (·.target == target)

/-- Add a rule, unless its target has one already. -/
def addRule (m : Makefile) (rule : Rule) : Except BuildError Makefile :=
  if m.hasRule rule.target || rule.target == installTarget then
    .error (.plain (.repeatedRule rule.target))
  else .ok { m with rules := m.rules ++ [rule] }

/-- Add several rules, one after the other. -/
def addRules (m : Makefile) (rules : List Rule) : Except BuildError Makefile :=
  rules.foldlM addRule m

/-- Declare a name phony. -/
def addPhony (m : Makefile) (name : String) : Makefile :=
  { m with phony := addOnce m.phony name }

/-- The rule for a target. -/
def rule? (m : Makefile) (target : String) : Option Rule :=
  if target == installTarget then some m.install else m.rules.find? (·.target == target)

/-- Change the rule for a target, if there is one. -/
def modifyRule (m : Makefile) (target : String) (change : Rule → Rule) : Makefile :=
  if target == installTarget then { m with install := change m.install }
  else
    { m with
      rules := m.rules.map fun rule => if rule.target == target then change rule else rule }

/-- The rules in order, the install rule last. -/
def allRules (m : Makefile) : List Rule :=
  m.rules ++ [m.install]

/-- A name that a rule, a phony declaration or a source provides. -/
def provides (m : Makefile) (sources : List String) (name : String) : Bool :=
  m.hasRule name || m.phony.contains name || sources.contains name

/-- The prerequisites that nothing provides, each with the target of its rule. -/
def dangling (m : Makefile) (sources : List String) : List (String × String) :=
  m.allRules.flatMap fun rule =>
    (rule.prerequisites.filter fun name => !m.provides sources name).map (rule.target, ·)

/-- A header line as a comment. -/
def commentLine (line : String) : String :=
  if line.isEmpty then "#\n" else "# " ++ line ++ "\n"

/-- The header as a block of comments, unless it is empty. -/
def headerChunk (m : Makefile) : List String :=
  match m.header with
  | some text =>
    if text.isEmpty then [] else ["".intercalate ((Text.lines text).map commentLine)]
  | none => []

/-- The text of the head blocks that have lines. -/
def headChunks (m : Makefile) : List String :=
  (m.heads.filter fun head => !head.2.isEmpty).map fun head => "\n".intercalate head.2 ++ "\n"

/-- The line that declares the phony names. -/
def phonyLine (m : Makefile) : String :=
  ".PHONY: " ++ " ".intercalate m.phony ++ "\n"

/-- The text of a Makefile. -/
def serialize (m : Makefile) : String :=
  "\n".intercalate
    (m.headerChunk ++ m.headChunks ++ m.allRules.map Rule.render ++ [m.phonyLine])

end Makefile

end Makewright
