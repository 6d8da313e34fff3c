import Scaffold.Decimal

/-!
Dates and times of day in the Gregorian calendar, extended to all years before and after, at a
fixed offset from universal time.
-/

namespace Scaffold

/-- An instant as it is read off a clock `offset` seconds ahead of universal time. -/
structure Moment where
  /-- Seconds since the start of 1970, universal time. -/
  timestamp : Int
  offset : Int
  deriving DecidableEq, Repr

structure Date where
  year : Int
  month : Nat
  day : Nat
  deriving DecidableEq, Repr

namespace Date

/-- The date `days` after the first of January 1970. Years are counted from March on, so that the
leap day is the last of its year, in cycles of 400 years or 146097 days. -/
def ofDays (days : Int) : Date :=
  let shifted := days + 719468
  let cycle := shifted / 146097
  let dayOfCycle := (shifted % 146097).toNat
  let yearOfCycle :=
    (dayOfCycle - dayOfCycle / 1460 + dayOfCycle / 36524 - dayOfCycle / 146096) / 365
  let dayOfYear := dayOfCycle - (365 * yearOfCycle + yearOfCycle / 4 - yearOfCycle / 100)
  let marchMonth := (5 * dayOfYear + 2) / 153
  let month := if marchMonth < 10 then marchMonth + 3 else marchMonth - 9
  let year := 400 * cycle + yearOfCycle
  { year := if month ≤ 2 then year + 1 else year
    month
    day := dayOfYear - (153 * marchMonth + 2) / 5 + 1 }

end Date

namespace Moment

def localSeconds (m : Moment) : Int := m.timestamp + m.offset

def days (m : Moment) : Int := m.localSeconds / 86400

def date (m : Moment) : Date := Date.ofDays m.days

def secondOfDay (m : Moment) : Nat := (m.localSeconds % 86400).toNat

def hour (m : Moment) : Nat := m.secondOfDay / 3600

def minute (m : Moment) : Nat := m.secondOfDay / 60 % 60

def second (m : Moment) : Nat := m.secondOfDay % 60

/-- Days since the last Sunday. -/
def weekday (m : Moment) : Nat := ((m.days + 4) % 7).toNat

/-- The hour on a twelve-hour dial, from 1 to 12. -/
def dialHour (m : Moment) : Nat := if m.hour % 12 = 0 then 12 else m.hour % 12

def isAfternoon (m : Moment) : Bool := 12 ≤ m.hour

end Moment

namespace DateFormat

def weekdayNames : List Text :=
  ["Sunday", "Monday", "Tuesday", "Wednesday", "Thursday", "Friday", "Saturday"].map String.toList

def monthNames : List Text :=
  ["January", "February", "March", "April", "May", "June", "July", "August", "September",
    "October", "November", "December"].map String.toList

/-- Decimal digits with zeros put in front up to `width` characters; a sign counts as one. -/
def pad (width : Nat) (n : Int) : Text :=
  let ds := Decimal.digitText n.natAbs
  if n < 0 then '-' :: (List.replicate (width - 1 - ds.length) '0' ++ ds)
  else List.replicate (width - ds.length) '0' ++ ds

/-- What a format letter stands for; `none` for a character that stands for itself. -/
def field? (m : Moment) : Char → Option Text
  | 'Y' => some (pad 4 m.date.year)
  | 'y' => some (pad 2 (m.date.year % 100))
  | 'm' => some (pad 2 m.date.month)
  | 'n' => some (pad 0 m.date.month)
  | 'd' => some (pad 2 m.date.day)
  | 'j' => some (pad 0 m.date.day)
  | 'H' => some (pad 2 m.hour)
  | 'G' => some (pad 0 m.hour)
  | 'h' => some (pad 2 m.dialHour)
  | 'g' => some (pad 0 m.dialHour)
  | 'i' => some (pad 2 m.minute)
  | 's' => some (pad 2 m.second)
  | 'D' => some ((weekdayNames.getD m.weekday []).take 3)
  | 'l' => some (weekdayNames.getD m.weekday [])
  | 'M' => some ((monthNames.getD (m.date.month - 1) []).take 3)
  | 'F' => some (monthNames.getD (m.date.month - 1) [])
  | 'A' => some (if m.isAfternoon then ['P', 'M'] else ['A', 'M'])
  | 'a' => some (if m.isAfternoon then ['p', 'm'] else ['a', 'm'])
  | 'U' => some (pad 0 m.timestamp)
  | 'N' => some (pad 0 (if m.weekday = 0 then 7 else m.weekday))
  | 'w' => some (pad 0 m.weekday)
  | _ => none

/-- Writes a moment by a format of letters. A backslash makes the next character stand for itself;
one at the end of the format stands for nothing. -/
def format (m : Moment) : Text → Text
  | [] => []
  | ['\\'] => []
  | '\\' :: c :: t => c :: format m t
  | c :: t => (field? m c).getD [c] ++ format m t

end DateFormat

end Scaffold
