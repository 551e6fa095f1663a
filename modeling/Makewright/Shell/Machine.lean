import Makewright.Disk.FileTree
import Makewright.Shell.Lexeme

/-!
# A shell at work

What a shell holds while it runs a script, and what the words of a command stand for then. The
outputs are bytes.
-/

set_option autoImplicit false

namespace Makewright.Shell

/-- What a shell holds while it runs a script; `ending` is set when the script is over early. -/
structure Machine where
  files : FileTree
  cwd : Location
  bindings : List (String × String)
  arguments : List String
  stdout : List UInt8
  stderr : List UInt8
  status : Nat
  ending : Option Int

/-- What a command gives: its two outputs and its status. -/
structure Effect where
  stdout : List UInt8
  stderr : List UInt8
  status : Nat

/-- The bytes of a text. -/
def bytesOf (s : String) : List UInt8 :=
  s.toUTF8.toList

/-- The identity of the process of a shell, as it shows itself. -/
def ownProcess : String := "1"

namespace Machine

/-- The value of a variable, if it is set. -/
def value? (m : Machine) (name : String) : Option String :=
  if name = "?" then some (toString m.status)
  else if name = "$" then some ownProcess
  else if name = "PWD" then some m.cwd.render
  else if name = "#" then some (toString m.arguments.length)
  else if name = "@" || name = "*" then some (" ".intercalate m.arguments)
  else m.bindings.lookup name

/-- The value of a variable; an unknown one is empty. -/
def valueOf (m : Machine) (name : String) : String :=
  (m.value? name).getD ""

/-- The value of a variable, unless it counts as not set. -/
def provided? (m : Machine) (name : String) (forEmpty : Bool) : Option String :=
  (m.value? name).filter fun value => !(forEmpty && value.isEmpty)

/-- What a piece of a word stands for. -/
def meaning (m : Machine) : Piece → List Char
  | .text s _ => s
  | .variable name _ => (m.valueOf name).toList
  | .otherwise name forEmpty text => ((m.provided? name forEmpty).map String.toList).getD text
  | .provided name forEmpty text => if (m.provided? name forEmpty).isSome then text else []

/-- Set a variable. -/
def assign (m : Machine) (name text : String) : Machine :=
  { m with bindings := (name, text) :: m.bindings }

/-- Split a value at its blanks. The first part goes on with the field `open_`, if one is open; the
answer holds the finished fields and the one that is open at the end. -/
def splitFields (open_ : Option (List Char)) : List Char → List (List Char) × Option (List Char)
  | [] => ([], open_)
  | c :: rest =>
    if c = ' ' || c = '\t' || c = '\n' then
      let (fields, last) := splitFields none rest
      (open_.toList ++ fields, last)
    else splitFields (some (open_.getD [] ++ [c])) rest

/-- The fields that the pieces of a word make, behind a field that has begun. -/
def fieldsFrom (m : Machine) (open_ : Option (List Char)) : List Piece → List (List Char)
  | [] => open_.toList
  | .variable name false :: rest =>
    let (fields, open_) := splitFields open_ (m.valueOf name).toList
    fields ++ fieldsFrom m open_ rest
  | .variable "@" true :: rest =>
    match m.arguments.map String.toList with
    | [] => fieldsFrom m open_ rest
    | first :: more =>
      let fields := (open_.getD [] ++ first) :: more
      fields.dropLast ++ fieldsFrom m fields.getLast? rest
  | piece :: rest => fieldsFrom m (some (open_.getD [] ++ m.meaning piece)) rest

/-- The fields of a word. -/
def fields (m : Machine) (word : List Piece) : List String :=
  (m.fieldsFrom none word).map String.ofList

/-- A word as one text, without any splitting. -/
def whole (m : Machine) (word : List Piece) : String :=
  String.ofList (word.flatMap m.meaning)

end Machine

end Makewright.Shell
