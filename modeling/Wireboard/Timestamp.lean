import Wireboard.Value.Operators

/-!
# Timestamps

An instant is a number of milliseconds since the first of January 1970, universal time.  Its text
has the form `2024-01-01T00:00:00.000Z`, with fixed places for every part, so later instants have
later texts.  There are texts for the years from 1 to 9999.

The date is found by walking: whole years are taken off while they fit, then whole months.
-/

namespace Wireboard.Timestamp

/-! ## Dates -/

/-- A year with a day added. -/
def isLeap (year : Nat) : Bool := (year % 4 == 0 && year % 100 != 0) || year % 400 == 0

def yearDays (year : Nat) : Nat := if isLeap year then 366 else 365

def monthDays (year : Nat) : List Nat :=
  [31, if isLeap year then 29 else 28, 31, 30, 31, 30, 31, 31, 30, 31, 30, 31]

/-- The year of a day and the day within it, counting days from the start of a given year. -/
def splitYear : Nat → Nat → Nat → Nat × Nat
  | 0, year, day => (year, day)
  | fuel + 1, year, day =>
    if day < yearDays year then (year, day) else splitYear fuel (year + 1) (day - yearDays year)

/-- The month of a day of the year and the day within it, both counted from one. -/
def splitMonth : List Nat → Nat → Nat → Nat × Nat
  | [], month, day => (month, day + 1)
  | days :: rest, month, day =>
    if day < days then (month, day + 1) else splitMonth rest (month + 1) (day - days)

/-- A number with at least so many digits. -/
def padded (width n : Nat) : String :=
  let digits := Nat.repr n
  String.ofList (List.replicate (width - digits.length) '0') ++ digits

def dayLength : Nat := 86400000

/-- The days from the first day of the year 1 to the first day of 1970. -/
def daysBefore : Nat := 719162

/-- The days of the years from 1 to 9999. -/
def allDays : Nat := 3652059

/-- The date of a day, counted from the first day of the year 1. -/
def dateText (day : Nat) : String :=
  let (year, dayOfYear) := splitYear (day / 365 + 1) 1 day
  let (month, dayOfMonth) := splitMonth (monthDays year) 1 dayOfYear
  padded 4 year ++ "-" ++ padded 2 month ++ "-" ++ padded 2 dayOfMonth

/-- The time of the day, to the second, of a number of milliseconds. -/
def clockText (rest : Nat) : String :=
  padded 2 (rest / 3600000) ++ ":" ++ padded 2 (rest / 60000 % 60) ++ ":"
    ++ padded 2 (rest / 1000 % 60)

def dayText (day rest : Nat) : String :=
  dateText day ++ "T" ++ clockText rest ++ "." ++ padded 3 (rest % 1000) ++ "Z"

/-- The text of an instant at the beginning of a line, to the second. -/
def lineText (instant : Nat) : String :=
  dateText (instant / dayLength + daysBefore) ++ " " ++ clockText (instant % dayLength)

/-! ## Clocks -/

/-- The most days by which an instant may differ from another one. -/
def mostDays : Nat := 999999999

/-- The text of a whole number of milliseconds. -/
def ofMilliseconds (instant : Int) : Except Fault String :=
  let days := Int.fdiv instant dayLength
  let day := days + daysBefore
  if (pow2 31 : Int) ≤ days ∨ days < -(pow2 31 : Int) then .error .uncountableDays
  else if mostDays < days.natAbs then .error (.tooManyDays days)
  else if day < 0 ∨ (allDays : Int) ≤ day then .error .dateOutOfRange
  else .ok (dayText day.toNat (Int.fmod instant dayLength).toNat)

/-- A finite double of milliseconds in whole microseconds, the half going to the even neighbour.
The part after the point is brought to microseconds as a double. -/
def microseconds (p : Binary64.Parts) : Int :=
  let whole := p.truncate
  let part := p.value - whole
  let scaled := Binary64.nearest (decide (part < 0)) (part.num.natAbs * 1000) part.den
  match Binary64.quantity? scaled with
  | some (.ratio q) => roundEven (whole * 1000 + q)
  | _ => whole * 1000
where
  /-- The nearest whole number, the half going to the even neighbour. -/
  roundEven (q : Rat) : Int :=
    let size := Binary64.roundedQuotient q.num.natAbs q.den
    if q < 0 then -(size : Int) else size

def text (clock : Num) : Except Fault String :=
  match clock with
  | .int n => ofMilliseconds n
  | .float x =>
    match Binary64.decode x with
    | .notANumber => .error .notANumberToInt
    | .infinite _ => .error .infiniteToInt
    | .finite p => ofMilliseconds (Int.fdiv (microseconds p) 1000)

/-- The whole number of milliseconds that a clock shows to whoever reads it in seconds, as a
double. -/
def stamp (clock : Num) : Except Fault Int := do
  let seconds ← clock.div (.int 1000)
  (← seconds.mul (.int 1000)).truncate

end Wireboard.Timestamp
