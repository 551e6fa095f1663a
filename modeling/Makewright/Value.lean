import Makewright.Calendar
import Makewright.Decimal.Numeral
import Makewright.Text.Quoted

/-!
# Document values

The values that a build file or a configuration file can hold. A map keeps its entries in the order
of their first appearance. Its keys are values themselves, and keys that are the same number are one
key however they are written: `1`, `true` and `1.0` collapse (`Value.sameKey`).

`display?` is the text of a value in a message or a template and `literal?` its text inside a
collection. A whole number with too many digits has no text, and neither has a value with such a
number in it. The members of a set have no order of their own; here a set shows them in the order in
which the document names them.
-/

set_option autoImplicit false

namespace Makewright

/-- A value of a document. -/
inductive Value where
  | null
  | bool (b : Bool)
  | int (n : Int)
  | float (x : Binary64)
  | string (s : String)
  | bytes (data : List UInt8)
  | date (d : Date)
  | time (t : ClockTime)
  | moment (m : Moment)
  | list (items : List Value)
  | tuple (items : List Value)
  | set (items : List Value)
  | map (entries : List (Value × Value))
  deriving BEq, Repr, Inhabited

namespace Value

/-- A value that counts as a number when keys are compared. -/
inductive Number where
  | int (n : Int)
  | float (x : Binary64)

/-- Two numbers are the same whatever their form. -/
def Number.same : Number → Number → Bool
  | .int a, .int b => a == b
  | .int a, .float x => x.isInt a
  | .float x, .int a => x.isInt a
  | .float x, .float y => x.sameNumber y

/-- The number that a value stands for as a key. -/
def number? : Value → Option Number
  | .bool b => some (.int (if b then 1 else 0))
  | .int n => some (.int n)
  | .float x => some (.float x)
  | _ => none

mutual

/-- Two values are one and the same key of a map. -/
def sameKey : Value → Value → Bool
  | .null, .null => true
  | .string a, .string b => a == b
  | .bytes a, .bytes b => a == b
  | .date a, .date b => a == b
  | .time a, .time b => a == b
  | .moment a, .moment b => a.same b
  | .tuple a, .tuple b => sameKeys a b
  | a, b =>
    match a.number?, b.number? with
    | some x, some y => x.same y
    | _, _ => false
termination_by structural v => v

/-- Two sequences of values are the same key by key. -/
def sameKeys : List Value → List Value → Bool
  | [], [] => true
  | a :: as, b :: bs => sameKey a b && sameKeys as bs
  | _, _ => false
termination_by structural v => v

end

/-- A value is the text `key`. -/
def isText (key : String) : Value → Bool
  | .string s => s == key
  | _ => false

/-- The value that a map holds under a text. -/
def find? (entries : List (Value × Value)) (key : String) : Option Value :=
  (entries.find? fun entry => entry.1.isText key).map Prod.snd

/-- Put a value into a map. A key that is already there keeps its place and its form. -/
def insert (entries : List (Value × Value)) (key value : Value) : List (Value × Value) :=
  if entries.any fun entry => entry.1.sameKey key then
    entries.map fun entry => if entry.1.sameKey key then (entry.1, value) else entry
  else entries ++ [(key, value)]

/-- The map that holds the given entries, later ones replacing earlier ones. -/
def mapOf (entries : List (Value × Value)) : Value :=
  .map (entries.foldl (fun acc entry => insert acc entry.1 entry.2) [])

/-- A value counts as true: it is not empty, zero or absent. -/
def isTruthy : Value → Bool
  | .null => false
  | .bool b => b
  | .int n => n != 0
  | .float x => x.isTruthy
  | .string s => !s.isEmpty
  | .bytes data => !data.isEmpty
  | .list items | .tuple items | .set items => !items.isEmpty
  | .map entries => !entries.isEmpty
  | _ => true

/-- A text between an opening and a closing bracket. -/
def bracketed (left right : String) (parts : List String) : String :=
  left ++ ", ".intercalate parts ++ right

/-- The text of a tuple whose members have the given texts. -/
def tupleText : List String → String
  | [one] => "(" ++ one ++ ",)"
  | parts => bracketed "(" ")" parts

/-- The text of a set whose members have the given texts. -/
def setText : List String → String
  | [] => "set()"
  | parts => bracketed "\x7b" "\x7d" parts

mutual

/-- The text of a value inside a collection, where texts stand between quotes. -/
def literal? : Value → Option String
  | .null => some "None"
  | .bool b => some (if b then "True" else "False")
  | .int n => Numeral.decimal? n
  | .float x => some (Layout.standard.render x)
  | .string s => some (Text.quoted s)
  | .bytes data => some (Text.quotedBytes data)
  | .date d => some d.render
  | .time t => some t.render
  | .moment m => some m.render
  | .list items => (literals? items).map (bracketed "[" "]")
  | .tuple items => (literals? items).map tupleText
  | .set items => (literals? items).map setText
  | .map entries => (entryLiterals? entries).map (bracketed "\x7b" "\x7d")
termination_by structural v => v

/-- The texts of the members of a collection. -/
def literals? : List Value → Option (List String)
  | [] => some []
  | v :: rest => do
    let text ← literal? v
    let texts ← literals? rest
    some (text :: texts)
termination_by structural v => v

/-- The texts of the entries of a map. -/
def entryLiterals? : List (Value × Value) → Option (List String)
  | [] => some []
  | entry :: rest => do
    let text ← entryLiteral? entry
    let texts ← entryLiterals? rest
    some (text :: texts)
termination_by structural v => v

/-- The text of one entry of a map. -/
def entryLiteral? : Value × Value → Option String
  | (key, value) => do
    let keyText ← literal? key
    let valueText ← literal? value
    some (keyText ++ ": " ++ valueText)
termination_by structural v => v

end

/-- The text of a value that stands alone: a text is itself. -/
def display? : Value → Option String
  | .string s => some s
  | v => v.literal?

theorem display?_int (n : Int) : (Value.int n).display? = Numeral.decimal? n := by
  simp only [display?, literal?]

/-- The text of a value inside a collection, empty where it has none. -/
def literal (v : Value) : String :=
  v.literal?.getD ""

/-- The text of a value that stands alone, empty where it has none. -/
def display (v : Value) : String :=
  v.display?.getD ""

end Value

end Makewright
