import Makewright.Document.Yaml.Stamp

/-!
# Tags

The tag of a tree says what kind of value it stands for. A plain scalar without a tag gets one by
the form of its text (`Tag.ofPlain`): words for truth values and for nothing, whole numbers in
several bases, numbers with a point, time stamps, and two marks. Everything else is a text.

A line feed at the end of the text does not count.
-/

set_option autoImplicit false

namespace Makewright.Yaml

/-- The kind of value that a tree stands for. -/
inductive Tag where
  | null
  | bool
  | int
  | float
  | binary
  | timestamp
  | omap
  | pairs
  | set
  | str
  | seq
  | map
  | merge
  | value
  | other
  deriving DecidableEq, Repr, Inhabited

/-! ## The forms of plain scalars -/

/-- An ASCII digit or an underscore. -/
def isDigitOrScore (c : Char) : Bool :=
  Document.isDigit c || c == '_'

/-- The text without its sign. -/
def dropSign : List Char → List Char
  | '+' :: rest | '-' :: rest => rest
  | s => s

/-- At least one character, all of a class. -/
def isRunOf (p : Char → Bool) (s : List Char) : Bool :=
  !s.isEmpty && s.all p

/-- What follows the parts behind colons, each below sixty, of which there has to be one. -/
def afterSixties (s : List Char) : Option (List Char) :=
  match s with
  | ':' :: rest => go rest
  | _ => none
where
  /-- Go on behind a colon. -/
  go : List Char → Option (List Char)
    | a :: b :: ':' :: rest =>
      if '0' ≤ a && a ≤ '5' && Document.isDigit b then go rest else none
    | a :: ':' :: rest => if Document.isDigit a then go rest else none
    | a :: b :: rest =>
      if '0' ≤ a && a ≤ '5' && Document.isDigit b then some rest
      else if Document.isDigit a then some (b :: rest)
      else none
    | [a] => if Document.isDigit a then some [] else none
    | [] => none

/-- A whole number: decimal, in another base or in parts of sixty. -/
def isIntForm (s : List Char) : Bool :=
  match dropSign s with
  | ['0'] => true
  | '0' :: 'b' :: rest => isRunOf (fun c => c == '0' || c == '1' || c == '_') rest
  | '0' :: 'x' :: rest =>
    isRunOf (fun c => isDigitOrScore c || ('a' ≤ c && c ≤ 'f') || ('A' ≤ c && c ≤ 'F')) rest
  | '0' :: rest => isRunOf (fun c => ('0' ≤ c && c ≤ '7') || c == '_') rest
  | c :: rest =>
    Document.isDigit c
      && (rest.all isDigitOrScore || afterSixties (rest.dropWhile isDigitOrScore) == some [])
  | [] => false

/-- Nothing, or an exponent with a sign. -/
def isExponentForm : List Char → Bool
  | [] => true
  | e :: mark :: rest =>
    (e == 'e' || e == 'E') && (mark == '+' || mark == '-') && isRunOf Document.isDigit rest
  | _ => false

/-- Digits behind a point and perhaps an exponent. -/
def isFractionForm (s : List Char) : Bool :=
  isExponentForm (s.dropWhile isDigitOrScore)

/-- A number with a point. -/
def isFloatForm (s : List Char) : Bool :=
  match s with
  | '.' :: c :: rest =>
    if Document.isDigit c then isFractionForm rest
    else [".inf", ".Inf", ".INF", ".nan", ".NaN", ".NAN"].contains (String.ofList s)
  | _ =>
    match dropSign s with
    | '.' :: rest => ["inf", "Inf", "INF"].contains (String.ofList rest)
    | c :: rest =>
      Document.isDigit c
        && match rest.dropWhile isDigitOrScore with
          | '.' :: fraction => isFractionForm fraction
          | after =>
            match afterSixties after with
            | some ('.' :: fraction) => fraction.all isDigitOrScore
            | _ => false
    | [] => false

/-- A time stamp; a date alone needs two digits for month and day. -/
def isStampForm (s : List Char) : Bool :=
  match Stamp.ofText? s with
  | some stamp => stamp.padded || stamp.time.isSome
  | none => false

/-- The words for truth values. -/
def truthWords : List String :=
  ["yes", "Yes", "YES", "no", "No", "NO", "true", "True", "TRUE", "false", "False", "FALSE",
   "on", "On", "ON", "off", "Off", "OFF"]

/-- The words for nothing. -/
def nullWords : List String := ["~", "null", "Null", "NULL"]

/-- The text without a line feed at its end. -/
def dropFinalLineFeed (s : List Char) : List Char :=
  if s.getLast? = some '\n' then s.dropLast else s

namespace Tag

/-- The tag of a plain scalar. -/
def ofPlain (text : String) : Tag :=
  let s := dropFinalLineFeed text.toList
  let word := String.ofList s
  if text.isEmpty then .null
  else if truthWords.contains word then .bool
  else if isFloatForm s then .float
  else if isIntForm s then .int
  else if word = "<<" then .merge
  else if nullWords.contains word then .null
  else if isStampForm s then .timestamp
  else if word = "=" then .value
  else if ["!", "&", "*"].contains word then .other
  else .str

/-- What the full names of the common tags start with. -/
def family : String := "tag:yaml.org,2002:"

/-- The common tags by the rest of their full names. -/
def names : List (String × Tag) :=
  [("null", .null), ("bool", .bool), ("int", .int), ("float", .float), ("binary", .binary),
   ("timestamp", .timestamp), ("omap", .omap), ("pairs", .pairs), ("set", .set), ("str", .str),
   ("seq", .seq), ("map", .map), ("merge", .merge), ("value", .value)]

/-- The tag with a full name. -/
def ofName (name : String) : Tag :=
  ((names.find? fun entry => family ++ entry.1 == name).map Prod.snd).getD .other

/-- The tag of a scalar, by the full name of its own tag where it has one. A lone exclamation mark
makes any scalar count as plain. -/
def ofScalar (name : Option String) (plain : Bool) (text : String) : Tag :=
  match name with
  | none => if plain then ofPlain text else .str
  | some name => if name = "!" then ofPlain text else ofName name

/-- The tag of a collection, by the full name of its own tag where it has one. -/
def ofCollection (usual : Tag) (name : Option String) : Tag :=
  match name with
  | none => usual
  | some name => if name = "!" then usual else ofName name

end Tag

end Makewright.Yaml
