import StrictJson.Number.Text

/-!
# Dates and times

The dates of the proleptic Gregorian calendar in the years 1 to 9999, and moments, which are dates
with a time of day and possibly an offset from universal time. Two moments with offsets are the same
if they are the same in universal time.
-/

namespace StrictJson

/-! ## Dates -/

/-- A year, a month and a day. -/
structure Date where
  year : Nat
  month : Nat
  day : Nat
deriving DecidableEq

namespace Date

/-- Whether a year has a leap day. -/
def isLeap (year : Nat) : Bool :=
  year % 4 == 0 && (year % 100 != 0 || year % 400 == 0)

/-- The number of days of a month. -/
def daysInMonth (year month : Nat) : Nat :=
  if month = 2 then (if isLeap year then 29 else 28)
  else if [4, 6, 9, 11].contains month then 30
  else 31

/-- Whether there is such a date. -/
def isValid (d : Date) : Bool :=
  decide (1 ≤ d.year ∧ d.year ≤ 9999 ∧ 1 ≤ d.month ∧ d.month ≤ 12 ∧ 1 ≤ d.day
    ∧ d.day ≤ daysInMonth d.year d.month)

/-- The number of days from a fixed day on. -/
def dayNumber (d : Date) : Nat :=
  let y := d.year - 1
  let months := (List.range (d.month - 1)).foldl (fun n m => n + daysInMonth d.year (m + 1)) 0
  y * 365 + y / 4 - y / 100 + y / 400 + months + d.day

end Date

/-! ## Moments -/

/-- A date and a time of day. The offset from universal time is in minutes. -/
structure Moment where
  date : Date
  hour : Nat
  minute : Nat
  second : Nat
  microsecond : Nat
  offset : Option Int
deriving DecidableEq

namespace Moment

/-- Whether there is such a moment. An offset is less than a day. -/
def isValid (m : Moment) : Bool :=
  m.date.isValid && decide (m.hour < 24 ∧ m.minute < 60 ∧ m.second < 60 ∧ m.microsecond < 1000000)
    && (match m.offset with
      | some o => decide (o.natAbs < 1440)
      | none => true)

/-- The microseconds from the start of a fixed day on. -/
def microseconds (m : Moment) : Int :=
  let minutes : Int := ((m.date.dayNumber * 24 + m.hour) * 60 + m.minute : Nat)
  ((minutes - m.offset.getD 0) * 60 + m.second) * 1000000 + m.microsecond

/-- Whether two moments are the same. Moments without an offset are those of an unknown place, and
never the same as moments with one. -/
def isSame (m n : Moment) : Bool :=
  m.offset.isSome == n.offset.isSome && m.microseconds == n.microseconds

end Moment

/-! ## Display -/

/-- Numbers with commas and spaces between them. -/
def commaSeparated (ns : List Nat) : String :=
  ", ".intercalate (ns.map fun n => String.ofList (Nat.toDigits 10 n))

/-- How a date is displayed. -/
def Date.display (d : Date) : String :=
  "datetime.date(" ++ commaSeparated [d.year, d.month, d.day] ++ ")"

/-- How an offset is displayed: as days and the seconds that these exceed it by. -/
def displayOffset (offset : Int) : String :=
  if offset = 0 then "datetime.timezone.utc"
  else
    let days := if offset < 0 then "days=-1, " else ""
    let seconds := (offset * 60) % 86400
    "datetime.timezone(datetime.timedelta(" ++ days ++ "seconds="
      ++ String.ofList (integerText seconds) ++ "))"

/-- How a moment is displayed. Seconds are left out where they are zero, and so are their
fractions. -/
def Moment.display (m : Moment) : String :=
  let seconds :=
    if m.microsecond ≠ 0 then [m.second, m.microsecond] else if m.second ≠ 0 then [m.second] else []
  let zone := match m.offset with
    | some o => ", tzinfo=" ++ displayOffset o
    | none => ""
  "datetime.datetime("
    ++ commaSeparated ([m.date.year, m.date.month, m.date.day, m.hour, m.minute] ++ seconds)
    ++ zone ++ ")"

end StrictJson
