import PCode.Text.Column

/-!
# Calendar time

Seconds since the start of 1970 as a date and a time of day in universal time.
Years are counted from March, so that a leap day ends a year, and days in eras of
400 years, which all have the same length.
-/

namespace PCode.Trace

/-- A day of the calendar. -/
structure Day where
  year : Int
  month : Nat
  day : Nat
  deriving DecidableEq, Inhabited, Repr

/-- The number of days of an era of 400 years. -/
def daysOfEra : Nat := 146097

/-- The number of days from the first of March of the year zero to the start of 1970. -/
def daysToEpoch : Int := 719468

/-- The day that is so many days after the first day of 1970. -/
def Day.ofEpoch (days : Int) : Day :=
  let shifted := days + daysToEpoch
  let era := shifted.fdiv daysOfEra
  let dayOfEra := (shifted.fmod daysOfEra).toNat
  let yearOfEra := (dayOfEra - dayOfEra / 1460 + dayOfEra / 36524 - dayOfEra / 146096) / 365
  let dayOfYear := dayOfEra - (365 * yearOfEra + yearOfEra / 4 - yearOfEra / 100)
  let monthFromMarch := (5 * dayOfYear + 2) / 153
  let day := dayOfYear - (153 * monthFromMarch + 2) / 5 + 1
  let month := if monthFromMarch < 10 then monthFromMarch + 3 else monthFromMarch - 9
  { year := era * 400 + yearOfEra + (if month ≤ 2 then 1 else 0), month, day }

/-- A time in universal time, to the second. -/
def timeText (seconds : Int) : String :=
  let d := Day.ofEpoch (seconds.fdiv 86400)
  let ofDay := (seconds.fmod 86400).toNat
  let two (n : Nat) : String := Text.padZeros 2 n
  Text.padZeros 4 d.year ++ "-" ++ two d.month ++ "-" ++ two d.day ++ "T" ++
    two (ofDay / 3600) ++ ":" ++ two (ofDay / 60 % 60) ++ ":" ++ two (ofDay % 60) ++ "Z"

end PCode.Trace
