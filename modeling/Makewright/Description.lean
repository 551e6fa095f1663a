import Makewright.Settings

/-!
# Target descriptions and their attributes

A description is a declared target as a build file gives it: a kind, an identity and a map of
attributes. The functions here read one attribute as a text, as a list of texts or as a table of
texts, with templates resolved, and report an attribute of the wrong shape under its key. A whole
number that is too long to be written is no fault of an attribute but an error of its own.
-/

set_option autoImplicit false

namespace Makewright

/-- A declared target. -/
structure Description where
  kind : String
  target : Target
  attributes : List (Value × Value)
  sourceFile : Option String
  deriving Repr

namespace Description

/-- The error that a fault under a key of this target makes. -/
def fault (d : Description) (key : String) (f : ConfigFault) : BuildError :=
  .config f (some d.target) (some (.string key))

/-- The value of an attribute; a missing attribute has none. -/
def valueOf (d : Description) (key : String) : Value :=
  (Value.find? d.attributes key).getD .null

/-- The attribute is given, with whatever value. -/
def has (d : Description) (key : String) : Bool :=
  (Value.find? d.attributes key).isSome

/-- Refuse the first attribute that is not among the allowed ones. -/
def checkKnown (d : Description) (allowed : List String) : Except BuildError Unit :=
  match d.attributes.find? fun entry => !allowed.any fun name => entry.1.isText name with
  | some (key, _) => do
    let _ ← BuildError.textOf key
    .error (.config (.unsupportedByKind d.kind) (some d.target) (some key))
  | none => .ok ()

/-- A text with its templates resolved for this target. -/
def resolve (settings : Settings) (d : Description) (key text : String) :
    Except BuildError String :=
  match Template.resolveText (settings.templateContext d.target) text with
  | .ok s => .ok s
  | .error .tooManyDigits => .error (.scalar .tooLong)
  | .error e => .error (d.fault key (.badTemplate e))

/-- The text of a value that stands for a text: a text or a whole number. The number must not be too
long to be written. -/
def scalarText? : Value → Option (Except BuildError String)
  | .string s => some (.ok s)
  | .int n => some (BuildError.textOf (.int n))
  | _ => none

/-- A text attribute, resolved and then trimmed. A missing or blank one gives the default, unless it
is required. -/
def string? (settings : Settings) (d : Description) (key : String) (required : Bool)
    (default : Option String) : Except BuildError (Option String) :=
  match d.valueOf key with
  | .null => if required then .error (d.fault key .required) else .ok default
  | value =>
    match scalarText? value with
    | none => .error (d.fault key .notString)
    | some raw => do
      let text := Text.trim (← d.resolve settings key (← raw))
      if text.isEmpty then
        if required then .error (d.fault key .empty) else .ok default
      else .ok (some text)

/-- A text attribute that may be missing. -/
def optional (settings : Settings) (d : Description) (key : String) :
    Except BuildError (Option String) :=
  d.string? settings key false none

/-- A list attribute: its texts trimmed, the empty ones dropped, and then resolved. -/
def strings (settings : Settings) (d : Description) (key : String) :
    Except BuildError (List String) :=
  match TextList.ofValue (d.valueOf key) (some key) with
  | .error fault => .error (d.fault key (.badList fault))
  | .ok items => items.mapM (d.resolve settings key)

/-- Put a text under a name; a name that is already there keeps its place. -/
def putText (table : List (String × String)) (name text : String) : List (String × String) :=
  if table.any (·.1 == name) then
    table.map fun entry => if entry.1 == name then (name, text) else entry
  else table ++ [(name, text)]

/-- A table attribute: names with resolved texts, in order. -/
def table (settings : Settings) (d : Description) (key : String) :
    Except BuildError (List (String × String)) :=
  match d.valueOf key with
  | .null => .ok []
  | .map entries =>
    entries.foldlM (fun acc (name, value) =>
      match scalarText? value with
      | none => do .error (d.fault key (.entryNotText (← BuildError.textOf name)))
      | some raw => do
        let text ← d.resolve settings key (← raw)
        .ok (putText acc (← BuildError.textOf name) text)) []
  | _ => .error (d.fault key .notTextTable)

end Description

end Makewright
