import Makewright.Document.Base64
import Makewright.Document.Yaml.Tag

/-!
# Values of scalars

The value that the text of a scalar stands for under its tag. A text that got its tag by its form
nearly always has a value; a tag that was written out may be wrong, and the fault then says what the
text was read as. Underscores in numbers do not count.
-/

set_option autoImplicit false

namespace Makewright.Yaml

/-- The characters of a number without its underscores. -/
def withoutScores (s : List Char) : List Char :=
  s.filter (· != '_')

/-- The sign of a number and the rest of it; there has to be a character. -/
def splitSign (s : List Char) : Except DocumentFault (Bool × List Char) :=
  match s with
  | [] => .error (.scalar .emptyNumber)
  | '-' :: rest => .ok (true, rest)
  | '+' :: rest => .ok (false, rest)
  | _ => .ok (false, s)

/-- A whole number in a base. -/
def basedInt (base : Nat) (s : List Char) : Except DocumentFault Int :=
  match Numeral.integer? base s with
  | some (n, count) =>
    if base = 10 && Numeral.mostDigits < count then .error (.scalar (.tooManyDigits count))
    else .ok n
  | none => .error (.scalar (.badInteger base (String.ofList s)))

/-- A whole number without its sign: in base two or sixteen behind a mark, in base eight behind a
zero, in parts of sixty between colons, or decimal. -/
def magnitude (s : List Char) : Except DocumentFault Int :=
  match s with
  | ['0'] => .ok 0
  | '0' :: 'b' :: rest => basedInt 2 rest
  | '0' :: 'x' :: rest => basedInt 16 rest
  | '0' :: _ => basedInt 8 s
  | [] => .error (.scalar .emptyNumber)
  | _ =>
    if s.contains ':' then do
      let parts ← (s.splitOn ':').mapM (basedInt 10)
      .ok (parts.foldl (fun total part => total * 60 + part) 0)
    else basedInt 10 s

/-- A whole number. -/
def intValue (text : String) : Except DocumentFault Value := do
  let (negative, body) ← splitSign (withoutScores text.toList)
  let n ← magnitude body
  .ok (.int (if negative then -n else n))

/-- A decimal double. -/
def decimalDouble (s : List Char) : Except DocumentFault Binary64 :=
  match Numeral.double? s with
  | some x => .ok x
  | none => .error (.scalar (.badFloat (String.ofList s)))

/-- Add one part of sixty to those behind it; `unit` is what one of it counts. A unit that is too
large for a double is refused. -/
def addSixties (total : Binary64) (unit : Int) (part : Binary64) :
    Except DocumentFault (Binary64 × Int) :=
  match Binary64.ofInt unit with
  | .infinity _ => .error (.scalar .hugeUnit)
  | factor => .ok (total.add (part.mul factor), unit * 60)

/-- Parts of sixty, the last one first, added up from there. -/
def sumOfSixties (parts : List Binary64) : Except DocumentFault Binary64 := do
  let (total, _) ← parts.foldlM (fun (total, unit) part => addSixties total unit part)
    (Binary64.ofInt 0, (1 : Int))
  .ok total

/-- A double. -/
def floatValue (text : String) : Except DocumentFault Value := do
  let lowered := Text.lower (String.ofList (withoutScores text.toList))
  let (negative, body) ← splitSign lowered.toList
  let x ←
    if String.ofList body = ".inf" then .ok (Binary64.infinity false)
    else if String.ofList body = ".nan" then .ok .nan
    else if body.contains ':' then do
      let parts ← (body.splitOn ':').mapM decimalDouble
      sumOfSixties parts.reverse
    else decimalDouble body
  .ok (.float (if negative then x.neg else x))

/-- A truth value. -/
def boolValue (text : String) : Except DocumentFault Value :=
  let word := Text.lower text
  if ["yes", "true", "on"].contains word then .ok (.bool true)
  else if ["no", "false", "off"].contains word then .ok (.bool false)
  else .error (.scalar .unknownBoolean)

/-- Bytes. -/
def binaryValue (text : String) : Except DocumentFault Value :=
  if text.toList.all (·.toNat < 128) then
    match Base64.decode? text.toList with
    | some data => .ok (.bytes data)
    | none => .error .malformed
  else .error .malformed

/-- A time stamp. -/
def stampValue (text : String) : Except DocumentFault Value :=
  match Stamp.ofText? (dropFinalLineFeed text.toList) with
  | none => .error (.scalar .noTimestamp)
  | some stamp =>
    match stamp.value with
    | .ok v => .ok v
    | .error e => .error (.scalar (.calendar e))

/-- The value of a text under a tag for scalars. -/
def scalarValue (tag : Tag) (text : String) : Except DocumentFault Value :=
  match tag with
  | .null => .ok .null
  | .bool => boolValue text
  | .int => intValue text
  | .float => floatValue text
  | .binary => binaryValue text
  | .timestamp => stampValue text
  | .str => .ok (.string text)
  | _ => .error .malformed

end Makewright.Yaml
