import Makewright.Decimal.Shortest

/-!
# Dates and times

The dates, times and moments that a document can hold. A moment may know how many minutes it is
ahead of universal time; two such moments are the same when they are the same instant, and a moment
without an offset is never the same as one with an offset.
-/

set_option autoImplicit false

namespace Makewright

/-- A day of the Gregorian calendar. -/
structure Date where
  year : Nat
  month : Nat
  day : Nat
  deriving DecidableEq, Repr, Inhabited

/-- A time of day with microseconds. -/
structure ClockTime where
  hour : Nat
  minute : Nat
  second : Nat
  micro : Nat
  deriving DecidableEq, Repr, Inhabited

/-- A day and a time, with the minutes ahead of universal time where they are known. -/
structure Moment where
  date : Date
  time : ClockTime
  offset : Option Int
  deriving DecidableEq, Repr, Inhabited

/-- What is wrong with the fields of a date or a time. -/
inductive CalendarError where
  | year (value : Nat)
  | month
  | day
  | hour
  | minute
  | second
  | offset (minutes : Int)
  deriving DecidableEq, Repr

namespace Date

/-- A leap year has a 29th of February. -/
def isLeap (year : Nat) : Bool :=
  year % 4 == 0 && (year % 100 != 0 || year % 400 == 0)

/-- The number of days in a month. -/
def daysInMonth (year month : Nat) : Nat :=
  if month = 2 then (if isLeap year then 29 else 28)
  else if month ∈ [4, 6, 9, 11] then 30
  else 31

/-- The date with the given fields, if there is one. -/
def make? (year month day : Nat) : Except CalendarError Date :=
  if year = 0 || 9999 < year then .error (.year year)
  else if month = 0 || 12 < month then .error .month
  else if day = 0 || daysInMonth year month < day then .error .day
  else .ok ⟨year, month, day⟩

/-- The number of days before a date in its era. -/
def dayNumber (d : Date) : Nat :=
  let y := d.year - 1
  365 * y + y / 4 - y / 100 + y / 400
    + (List.range (d.month - 1)).foldl (fun n i => n + daysInMonth d.year (i + 1)) 0 + d.day

/-- The date written with hyphens. -/
def render (d : Date) : String :=
  padDigits 4 d.year ++ "-" ++ padDigits 2 d.month ++ "-" ++ padDigits 2 d.day

end Date

namespace ClockTime

/-- The time with the given fields, if there is one. -/
def make? (hour minute second micro : Nat) : Except CalendarError ClockTime :=
  if 23 < hour then .error .hour
  else if 59 < minute then .error .minute
  else if 59 < second then .error .second
  else .ok ⟨hour, minute, second, micro⟩

/-- The time written with colons, and the microseconds when there are any. -/
def render (t : ClockTime) : String :=
  padDigits 2 t.hour ++ ":" ++ padDigits 2 t.minute ++ ":" ++ padDigits 2 t.second
    ++ if t.micro = 0 then "" else "." ++ padDigits 6 t.micro

end ClockTime

namespace Moment

/-- The microseconds between the start of the era and the moment, read in universal time when the
offset is known. -/
def instant (m : Moment) : Int :=
  let minutes : Int := m.date.dayNumber * 1440 + m.time.hour * 60 + m.time.minute
  ((minutes - m.offset.getD 0) * 60 + m.time.second) * 1000000 + m.time.micro

/-- Two moments are the same instant, or the same fields when neither knows its offset. -/
def same (a b : Moment) : Bool :=
  a.offset.isSome == b.offset.isSome && a.instant == b.instant

/-- The moment written with a blank between date and time and the offset at the end. -/
def render (m : Moment) : String :=
  m.date.render ++ " " ++ m.time.render ++
    match m.offset with
    | none => ""
    | some minutes =>
      (if minutes < 0 then "-" else "+") ++ padDigits 2 (minutes.natAbs / 60) ++ ":"
        ++ padDigits 2 (minutes.natAbs % 60)

end Moment

/-- The offset with the given minutes ahead of universal time; a whole day is too much. -/
def checkOffset (minutes : Int) : Except CalendarError Int :=
  if 1440 ≤ minutes.natAbs then .error (.offset minutes) else .ok minutes

/-- The span of time shown in an error about an offset of at least a day: whole days, rounded down,
and the seconds left over. -/
def showSpan (minutes : Int) : String :=
  let days := minutes.fdiv 1440
  let seconds := (minutes - days * 1440) * 60
  let dayPart := if days = 0 then [] else ["days=" ++ toString days]
  let secondPart := if seconds = 0 then [] else ["seconds=" ++ toString seconds]
  let parts := dayPart ++ secondPart
  "datetime.timedelta(" ++ (if parts.isEmpty then "0" else ", ".intercalate parts) ++ ")"

/-- The wording of a calendar error. -/
def CalendarError.message : CalendarError → String
  | .year value => "year " ++ toString value ++ " is out of range"
  | .month => "month must be in 1..12"
  | .day => "day is out of range for month"
  | .hour => "hour must be in 0..23"
  | .minute => "minute must be in 0..59"
  | .second => "second must be in 0..59"
  | .offset minutes =>
    "offset must be a timedelta strictly between -timedelta(hours=24) and timedelta(hours=24), not "
      ++ showSpan minutes ++ "."

end Makewright
