/-! Days of the calendar and moments of a day, with or without a distance from the common time. -/
namespace Scad

/-- Why numbers make no day or moment. -/
inductive CalendarFault where
  | year (n : Nat)
  | month
  | day
  | hour
  | minute
  | second
  /-- A distance of a whole day or more from the common time. -/
  | distance (seconds : Int)
  deriving DecidableEq

structure Date where
  year : Nat
  month : Nat
  day : Nat
  deriving DecidableEq

structure Moment where
  date : Date
  hour : Nat
  minute : Nat
  second : Nat
  /-- Millionths of a second. -/
  fraction : Nat
  /-- Seconds before the common time, if it is known. -/
  distance : Option Int
  deriving DecidableEq

/-- A number in at least `width` digits, with zeros in front. -/
def paddedText (width n : Nat) : String :=
  let digits := (toString n).toList
  String.ofList (List.replicate (width - digits.length) '0' ++ digits)

def secondsOfDay : Nat := 86400

/-- A time span as messages show it: whole days, which may be negative, and seconds. -/
def shownSeconds (seconds : Int) : String :=
  let days := seconds.fdiv secondsOfDay
  let rest := seconds.fmod secondsOfDay
  let parts := (if days = 0 then [] else ["days=" ++ toString days])
    ++ (if rest = 0 then [] else ["seconds=" ++ toString rest])
  "datetime.timedelta(" ++ (if parts = [] then "0" else ", ".intercalate parts) ++ ")"

def CalendarFault.message : CalendarFault → String
  | year n => "year " ++ toString n ++ " is out of range"
  | month => "month must be in 1..12"
  | day => "day is out of range for month"
  | hour => "hour must be in 0..23"
  | minute => "minute must be in 0..59"
  | second => "second must be in 0..59"
  | distance seconds => "offset must be a timedelta strictly between -timedelta(hours=24) and "
      ++ "timedelta(hours=24), not " ++ shownSeconds seconds ++ "."

namespace Date

def isLeap (year : Nat) : Bool := year % 4 = 0 && (year % 100 ≠ 0 || year % 400 = 0)

def daysOfMonth (year month : Nat) : Nat :=
  if month = 2 then if isLeap year then 29 else 28
  else if month = 4 ∨ month = 6 ∨ month = 9 ∨ month = 11 then 30
  else 31

/-- The day with these numbers. The year is looked at first and the day last. -/
def ofNumbers (year month day : Nat) : Except CalendarFault Date :=
  if year = 0 ∨ 9999 < year then .error (.year year)
  else if month = 0 ∨ 12 < month then .error .month
  else if day = 0 ∨ daysOfMonth year month < day then .error .day
  else .ok ⟨year, month, day⟩

/-- The number of days from the first day of the calendar on. -/
def ordinal (d : Date) : Nat :=
  let years := d.year - 1
  let months := (List.range (d.month - 1)).map fun m => daysOfMonth d.year (m + 1)
  years * 365 + years / 4 - years / 100 + years / 400 + months.foldl (· + ·) 0 + d.day

def text (d : Date) : String :=
  paddedText 4 d.year ++ "-" ++ paddedText 2 d.month ++ "-" ++ paddedText 2 d.day

def numbers (d : Date) : List Nat := [d.year, d.month, d.day]

/-- As messages show a day inside of other data. -/
def shown (d : Date) : String :=
  "datetime.date(" ++ ", ".intercalate (d.numbers.map toString) ++ ")"

end Date

namespace Moment

/-- The moment with these numbers: a fault of the distance comes before one of the day, and that
before one of the time. -/
def ofNumbers (year month day hour minute second fraction : Nat) (distance : Option Int) :
    Except CalendarFault Moment := do
  if let some seconds := distance then
    if secondsOfDay ≤ seconds.natAbs then throw (.distance seconds)
  let date ← Date.ofNumbers year month day
  if 23 < hour then throw .hour
  if 59 < minute then throw .minute
  if 59 < second then throw .second
  return ⟨date, hour, minute, second, fraction, distance⟩

def distanceText (seconds : Int) : String :=
  let minutes := seconds.natAbs / 60
  (if seconds < 0 then "-" else "+") ++ paddedText 2 (minutes / 60) ++ ":"
    ++ paddedText 2 (minutes % 60)

def text (m : Moment) : String :=
  m.date.text ++ " " ++ paddedText 2 m.hour ++ ":" ++ paddedText 2 m.minute ++ ":"
    ++ paddedText 2 m.second
    ++ (if m.fraction = 0 then "" else "." ++ paddedText 6 m.fraction)
    ++ (m.distance.map distanceText).getD ""

/-- As messages show a moment inside of other data: seconds and their fraction only if they are not
zero. -/
def shown (m : Moment) : String :=
  let numbers := m.date.numbers ++ [m.hour, m.minute]
    ++ (if m.second = 0 ∧ m.fraction = 0 then [] else [m.second])
    ++ (if m.fraction = 0 then [] else [m.fraction])
  let zone := m.distance.map fun seconds =>
    "tzinfo=datetime.timezone"
      ++ (if seconds = 0 then ".utc" else "(" ++ shownSeconds seconds ++ ")")
  "datetime.datetime(" ++ ", ".intercalate (numbers.map toString ++ zone.toList) ++ ")"

/-- Millionths of a second from the first day of the calendar on. -/
def instant (m : Moment) : Int :=
  let minutes := (m.date.ordinal * 24 + m.hour) * 60 + m.minute
  ((minutes * 60 + m.second : Nat) - m.distance.getD 0) * 1000000 + m.fraction

/-- The same point in time; one with a distance never equals one without. -/
def same (a b : Moment) : Bool :=
  a.distance.isSome = b.distance.isSome && a.instant = b.instant

end Moment

end Scad
