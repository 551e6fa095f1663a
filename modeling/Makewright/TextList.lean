import Makewright.Error

/-!
# Lists of texts

Settings and attributes that hold several texts may be written as one text, as a list or not at all.
`TextList.ofValue` reads all three forms; every text is trimmed and the empty ones are dropped.
-/

set_option autoImplicit false

namespace Makewright.TextList

/-- The text of a value that can stand in a list of texts: a text, or bytes as they are shown. -/
def textOf? : Value → Option String
  | .string s => some s
  | .bytes data => some (Text.quotedBytes data)
  | _ => none

/-- The trimmed text, unless nothing is left of it. -/
def member? (s : String) : Option String :=
  let text := Text.trim s
  if text.isEmpty then none else some text

/-- The trimmed texts of the members of a list. -/
def ofItems (field : Option String) : List Value → Except ListFault (List String)
  | [] => .ok []
  | item :: rest =>
    match textOf? item with
    | none => .error (.entryNotText field)
    | some s => (ofItems field rest).map ((member? s).toList ++ ·)

/-- The texts that a value stands for, in order; `field` is the name used in an error. -/
def ofValue (value : Value) (field : Option String) : Except ListFault (List String) :=
  match value with
  | .null => .ok []
  | .list items | .tuple items => ofItems field items
  | v =>
    match textOf? v with
    | some s => .ok (member? s).toList
    | none => .error (.notList field)

end Makewright.TextList
