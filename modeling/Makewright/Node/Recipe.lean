import Makewright.Makefile
import Makewright.Resource
import Makewright.Shell.Quote

/-!
# Recipes

A recipe is a rule whose commands are not yet written out. A line of it is a list of words, and a
word says what it is there for: it stands as it is, it is a flag that the shell must not touch, or
it names what the command reads. `Recipe.rule` writes the lines out, and `Recipe.operands` are the
files that they name to be read.
-/

set_option autoImplicit false

namespace Makewright

/-- A word of a command. -/
inductive Word where
  /-- A word that stands as it is. -/
  | plain (text : String)
  /-- A flag, quoted for the shell. -/
  | flag (text : String)
  /-- A file to be read, behind the text of an option that takes it. -/
  | file (r : Resource) (option : String := "")
  /-- A file to be read, named as it is seen from the directory of the file that is made. -/
  | sibling (r : Resource)
  /-- Everything in a directory. -/
  | tree (directory : String)
  deriving DecidableEq, Repr

namespace Word

/-- The text of a word. -/
def text : Word → String
  | plain text => text
  | flag text => Shell.quote text
  | file r option => option ++ r.fullPath
  | sibling r => r.basename
  | tree directory => directory ++ "/."

/-- The file that a word names to be read, in a command that makes the file `made`. -/
def reads? (made : String) : Word → Option String
  | file r _ => some r.fullPath
  | sibling r => some (Path.join (Path.dirname made) r.basename)
  | plain _ | flag _ | tree _ => none

/-- The line that some words make. -/
def line (words : List Word) : String :=
  " ".intercalate (words.map text)

end Word

/-- A rule whose commands are not yet written out. -/
structure Recipe where
  target : String
  prerequisites : List String
  lines : List (List Word)
  deriving DecidableEq, Repr

namespace Recipe

/-- The rule with its commands written out. -/
def rule (recipe : Recipe) : Rule :=
  (Rule.start recipe.target recipe.prerequisites).addCommands (recipe.lines.map Word.line)

/-- The files that the commands name to be read. -/
def operands (recipe : Recipe) : List String :=
  recipe.lines.flatMap fun words => words.filterMap (Word.reads? recipe.target)

@[simp]
theorem rule_target (recipe : Recipe) : recipe.rule.target = recipe.target := rfl

@[simp]
theorem mem_rule_prerequisites {recipe : Recipe} {name : String} :
    name ∈ recipe.rule.prerequisites ↔ name ∈ recipe.prerequisites :=
  mem_distinct

end Recipe

end Makewright
