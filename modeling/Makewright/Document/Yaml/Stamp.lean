import Makewright.Calendar
import Makewright.Document.Basic

/-!
# Time stamps

A time stamp is a date or a date with a time, and the time may state its distance from universal
time. `Stamp.ofText?` reads the fields; whether the calendar has such a day is asked when a value is
made of them.
-/

set_option autoImplicit false

namespace Makewright.Yaml

/-- The fields of a time of day in a time stamp. -/
structure StampTime where
  hour : Nat
  minute : Nat
  second : Nat
  micro : Nat
  offset : Option Int
  deriving Repr

/-- The fields of a time stamp, and whether month and day have two digits each. -/
structure Stamp where
  year : Nat
  month : Nat
  day : Nat
  padded : Bool
  time : Option StampTime
  deriving Repr

namespace Stamp

/-- A number of one or two digits, at least `least` of them; with the count of its digits. -/
def shortNumber (least : Nat) (s : List Char) : Option (Nat × Nat × List Char) := do
  let digits := (s.take 2).takeWhile Document.isDigit
  if digits.length < least then none
  else do
    let (n, _) ← Numeral.digits? 10 digits
    some (n, digits.length, s.drop digits.length)

/-- A number of two digits behind a mark. -/
def pairAfter (mark : Char) (s : List Char) : Option (Nat × List Char) := do
  let body ← Text.afterFront? [mark] s
  let (n, _, rest) ← shortNumber 2 body
  some (n, rest)

/-- The microseconds behind a point; of further digits only six count. -/
def fraction (s : List Char) : Nat × List Char :=
  match s with
  | '.' :: rest =>
    let (digits, after) := rest.span Document.isDigit
    let six := digits.take 6 ++ List.replicate (6 - digits.length) '0'
    (((Numeral.digits? 10 six).map Prod.fst).getD 0, after)
  | _ => (0, s)

/-- The distance from universal time in minutes, if it is stated. -/
def offset? (s : List Char) : Option (Option Int × List Char) :=
  match s.dropWhile fun c => c == ' ' || c == '\t' with
  | [] => if s.isEmpty then some (none, []) else none
  | 'Z' :: rest => some (some 0, rest)
  | mark :: rest =>
    if mark = '+' || mark = '-' then do
      let (hours, _, rest) ← shortNumber 1 rest
      let (minutes, rest) := (pairAfter ':' rest).getD (0, rest)
      let total : Int := hours * 60 + minutes
      some (some (if mark = '-' then -total else total), rest)
    else none

/-- The time behind a date: after the letter T or after blanks. -/
def timeText (s : List Char) : Option (List Char) :=
  match s with
  | c :: rest =>
    if c = 'T' || c = 't' then some rest
    else
      let after := s.dropWhile fun c => c == ' ' || c == '\t'
      if after.length < s.length then some after else none
  | [] => none

/-- The fields of a time. -/
def time? (s : List Char) : Option StampTime := do
  let (hour, _, rest) ← shortNumber 1 s
  let (minute, rest) ← pairAfter ':' rest
  let (second, rest) ← pairAfter ':' rest
  let (micro, rest) := fraction rest
  let (offset, rest) ← offset? rest
  if rest.isEmpty then some ⟨hour, minute, second, micro, offset⟩ else none

/-- The fields of a time stamp. -/
def ofText? (s : List Char) : Option Stamp := do
  let front := s.take 4
  let (year, _) ← if front.all Document.isDigit then Numeral.digits? 10 front else none
  if front.length < 4 then none
  else do
    let rest ← Text.afterFront? ['-'] (s.drop 4)
    let (month, monthCount, rest) ← shortNumber 1 rest
    let rest ← Text.afterFront? ['-'] rest
    let (day, dayCount, rest) ← shortNumber 1 rest
    let padded := monthCount == 2 && dayCount == 2
    if rest.isEmpty then some ⟨year, month, day, padded, none⟩
    else do
      let time ← time? (← timeText rest)
      some ⟨year, month, day, padded, some time⟩

/-- The value that a time stamp names. A stated distance is checked before the day and the time. -/
def value (stamp : Stamp) : Except CalendarError Value :=
  match stamp.time with
  | none => (Date.make? stamp.year stamp.month stamp.day).map .date
  | some t => do
    let offset ← t.offset.mapM checkOffset
    let date ← Date.make? stamp.year stamp.month stamp.day
    let time ← ClockTime.make? t.hour t.minute t.second t.micro
    .ok (.moment ⟨date, time, offset⟩)

end Stamp

end Makewright.Yaml
