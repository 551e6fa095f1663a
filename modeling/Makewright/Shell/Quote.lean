/-!
# Quoting for the shell

A word that consists of safe characters stands as it is. Any other word, the empty one included, is
put between single quotes; a single quote inside it closes the quotes, is written between double
quotes and opens them again. `commandLine` writes a whole argument list.
-/

set_option autoImplicit false

namespace Makewright.Shell

/-- A character that means nothing to the shell: an ASCII letter or digit or one of a few marks. -/
def isSafe (c : Char) : Bool :=
  c.isAlphanum || c ∈ ['_', '@', '%', '+', '=', ':', ',', '.', '/', '-']

/-- The text of a single quote inside a quoted word. -/
def quoteMark : List Char := ['\'', '"', '\'', '"', '\'']

/-- A word as the shell has to be given it. -/
def quoteList (word : List Char) : List Char :=
  if !word.isEmpty && word.all isSafe then word
  else ['\''] ++ word.flatMap (fun c => if c = '\'' then quoteMark else [c]) ++ ['\'']

/-- A word as the shell has to be given it. -/
def quote (word : String) : String :=
  String.ofList (quoteList word.toList)

/-- An argument list as one line for the shell. -/
def commandLine (words : List String) : String :=
  " ".intercalate (words.map quote)

end Makewright.Shell
