/-! The calendar: days of the Gregorian calendar, carried back before its introduction, and moments
counted in seconds from the start of the first of January 1970 in UTC. -/
namespace WheelFarm.Calendar

def isLeap (year : Int) : Bool := year % 4 == 0 && (year % 100 != 0 || year % 400 == 0)

/-- The length of a month; no days for a month that there is not. -/
def daysInMonth (year : Int) : Nat → Nat
  | 1 | 3 | 5 | 7 | 8 | 10 | 12 => 31
  | 4 | 6 | 9 | 11 => 30
  | 2 => if isLeap year then 29 else 28
  | _ => 0

/-- The days of a year that come before one of its months. -/
def daysBeforeMonth (year : Int) (month : Nat) : Nat :=
  (List.range (month - 1)).foldl (fun days m => days + daysInMonth year (m + 1)) 0

/-- The days from the first of January of year 1 to that of another year. -/
def daysBeforeYear (year : Int) : Int :=
  365 * (year - 1) + (year - 1) / 4 - (year - 1) / 100 + (year - 1) / 400

/-- A day, counted from the first of January 1970. -/
def dayNumber (year : Int) (month day : Nat) : Int :=
  daysBeforeYear year + daysBeforeMonth year month + (day - 1 : Int) - daysBeforeYear 1970

def daySeconds : Int := 86400

/-- The first second that has a date: years have up to four digits, before year 0 as after it. -/
def firstSecond : Int := dayNumber (-9999) 1 1 * daySeconds

def lastSecond : Int := dayNumber 10000 1 1 * daySeconds - 1

def hasDate (second : Int) : Bool := firstSecond ≤ second && second ≤ lastSecond

theorem firstSecond_eq : firstSecond = -377705116800 := by decide

theorem lastSecond_eq : lastSecond = 253402300799 := by decide

structure Moment where
  second : Int
  nanosecond : Fin 1000000000
  deriving DecidableEq

end WheelFarm.Calendar
