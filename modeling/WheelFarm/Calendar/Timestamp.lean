import WheelFarm.Calendar
import WheelFarm.Text.Scanner

/-! Timestamps of the internet profile of ISO 8601: a date and a time of day, each field with all
its digits, parts of a second, and how far the clock is ahead of UTC. -/
namespace WheelFarm.Calendar
open Text

/-- Why a text does not tell a moment. -/
inductive TimestampError
  | malformed
  /-- In UTC the moment has no date any more. -/
  | afterLastSecond
  deriving DecidableEq, Repr

structure Timestamp where
  year : Nat
  month : Nat
  day : Nat
  hour : Nat
  minute : Nat
  second : Nat
  nanosecond : Fin 1000000000
  /-- Seconds by which the clock is ahead of UTC. -/
  ahead : Int
  deriving DecidableEq

namespace Timestamp

def number (count : Nat) : Scanner Nat := Scanner.digits 10 digit? count

/-- The digits of a fraction as nanoseconds; those after the ninth do not count. -/
def nanoseconds (digits : List Char) : Fin 1000000000 :=
  .ofNat _ ((natural? ((digits ++ List.replicate 9 '0').take 9)).getD 0)

def fraction : Scanner (Fin 1000000000) := do
  if ← Scanner.literal? ['.'] then
    let digits ← Scanner.takeWhile Char.isDigit
    guard (!digits.isEmpty)
    return nanoseconds digits
  else return 0

def offset : Scanner Int := do
  let c ← Scanner.any
  if c == 'Z' || c == 'z' then return 0
  guard (c == '+' || c == '-')
  let hours ← number 2
  Scanner.literal ':'
  let minutes ← number 2
  guard (hours ≤ 23 && minutes ≤ 59)
  let seconds : Int := hours * 3600 + minutes * 60
  return if c == '-' then -seconds else seconds

/-- The fields in their order. Any one byte may stand between the date and the time. -/
def fields : Scanner Timestamp := do
  let year ← number 4
  Scanner.literal '-'
  let month ← number 2
  Scanner.literal '-'
  let day ← number 2
  let _ ← Scanner.satisfying fun c => c.utf8Size == 1
  let hour ← number 2
  Scanner.literal ':'
  let minute ← number 2
  Scanner.literal ':'
  let second ← number 2
  let nanosecond ← fraction
  let ahead ← offset
  return { year, month, day, hour, minute, second, nanosecond, ahead }

/-- The second of the moment; second 60 falls together with second 59. -/
def unixSecond (t : Timestamp) : Int :=
  dayNumber t.year t.month t.day * daySeconds + t.hour * 3600 + t.minute * 60 +
    min t.second 59 - t.ahead

/-- Whether the second is the last one of a month in UTC. A clock is less than a day ahead of UTC or
behind it, so that it can only be the end of the month before the date's or of the date's month. -/
def endsMonth (t : Timestamp) : Bool :=
  let isStart := fun (year : Int) (month : Nat) =>
    t.unixSecond + 1 == dayNumber year month 1 * daySeconds
  isStart t.year t.month ||
    if t.month = 12 then isStart (t.year + 1) 1 else isStart t.year (t.month + 1)

/-- Whether there is such a date and time. Second 60 is a leap second, which only ends months. -/
def isActual (t : Timestamp) : Bool :=
  1 ≤ t.day && t.day ≤ daysInMonth t.year t.month && t.hour ≤ 23 && t.minute ≤ 59 &&
    (t.second ≤ 59 || (t.second == 60 && t.endsMonth))

/-- The moment; a leap second is read as the last nanosecond before it. -/
def moment (t : Timestamp) : Moment where
  second := t.unixSecond
  nanosecond := if t.second = 60 then 999999999 else t.nanosecond

def parse (text : String) : Except TimestampError Moment :=
  match Scanner.whole? fields text.toList with
  | some t =>
    if !t.isActual then .error .malformed
    else if lastSecond < t.unixSecond then .error .afterLastSecond
    else .ok t.moment
  | none => .error .malformed

end Timestamp
end WheelFarm.Calendar
