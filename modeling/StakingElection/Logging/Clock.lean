import StakingElection.Calendar
import StakingElection.Number

/-!
# Time of day and calendar

A moment is given in seconds since the start of 1970, in universal time. It is shown by the
proleptic Gregorian calendar, to the microsecond.
-/

namespace StakingElection.Logging

/-- A moment by calendar and clock. -/
structure Moment where
  year : Int
  month : Nat
  day : Nat
  /-- Seconds since midnight. -/
  second : Nat
  microsecond : Nat
  deriving Repr, DecidableEq, Inhabited

/-- Year, month and day of a day, counted from the start of 1970. Years start in March here, so that
a leap day is the last of its year, and a cycle of the calendar has 146097 days. -/
def civilDate (day : Int) : Int × Nat × Nat :=
  let shifted := day + 719468
  let era := shifted / 146097
  let dayOfEra := (shifted % 146097).toNat
  let yearOfEra := (dayOfEra - dayOfEra / 1460 + dayOfEra / 36524 - dayOfEra / 146096) / 365
  let dayOfYear := dayOfEra - (365 * yearOfEra + yearOfEra / 4 - yearOfEra / 100)
  let monthFromMarch := (5 * dayOfYear + 2) / 153
  let month := if monthFromMarch < 10 then monthFromMarch + 3 else monthFromMarch - 9
  (era * 400 + yearOfEra + (if month ≤ 2 then 1 else 0),
    month,
    dayOfYear - (153 * monthFromMarch + 2) / 5 + 1)

/-- Why a number of seconds gives no moment. -/
inductive ClockFault where
  | notANumber
  /-- The seconds do not fit into 64 bits. -/
  | tooManySeconds
  /-- The year does not fit into 32 bits, counted from 1900. -/
  | tooManyYears
  /-- The year is not one of the calendar's, which are 1 to 9999. -/
  | notInCalendar
  deriving Repr, DecidableEq

/-- Whether so many seconds fit into 64 bits. -/
def fitsClock (seconds : Int) : Bool :=
  -9223372036854775808 ≤ seconds && seconds < 9223372036854775808

/-- The whole seconds of a fraction and its microseconds, a half rounded to the even one. -/
def splitSeconds (negative : Bool) (mantissa : Nat) (exponent : Int) : Int × Nat :=
  let (num, den) := Binary64.ratio mantissa exponent
  let micros := match Binary64.ofRatio false (num % den * 1000000) den with
    | .finite _ m e => let (n, d) := Binary64.ratio m e; Binary64.roundDiv n d
    | _ => 0
  let total : Int := ((num / den : Nat) : Int) * 1000000 + micros
  let total := if negative then -total else total
  (total / 1000000, (total % 1000000).toNat)

/-- The whole seconds of a number and its microseconds. -/
def microseconds : Number → Except ClockFault (Int × Nat)
  | .fraction .nan => .error .notANumber
  | .fraction (.infinite _) => .error .tooManySeconds
  | .fraction (.finite negative m e) =>
    let (whole, microsecond) := splitSeconds negative m e
    if fitsClock whole then .ok (whole, microsecond) else .error .tooManySeconds
  | .whole i => if fitsClock i then .ok (i, 0) else .error .tooManySeconds

/-- The moment of a number of seconds. -/
def Moment.ofSeconds (seconds : Number) : Except ClockFault Moment := do
  let (whole, microsecond) ← microseconds seconds
  let (year, month, day) := civilDate (whole / 86400)
  if year < -2147481748 ∨ 2147485547 < year then throw .tooManyYears
  if year < 1 ∨ 9999 < year then throw .notInCalendar
  return { year, month, day, second := (whole % 86400).toNat, microsecond }

/-- The start of 1970. -/
def Moment.epoch : Moment := ⟨1970, 1, 1, 0, 0⟩

/-- Whether a day before a moment is in the calendar too. -/
def Moment.hasDayBefore (m : Moment) : Bool := 1 < m.year || 1 < m.month || 1 < m.day

/-- Hours, minutes and seconds. -/
def Moment.clock (m : Moment) : String :=
  s!"{padded 2 (m.second / 3600)}:{padded 2 (m.second / 60 % 60)}:{padded 2 (m.second % 60)}"

/-- Date, time and zone; microseconds only if there are any. -/
def Moment.iso (m : Moment) : String :=
  let fraction := if m.microsecond = 0 then "" else "." ++ padded 6 m.microsecond
  s!"{padded 4 m.year.toNat}-{padded 2 m.month}-{padded 2 m.day}T{m.clock}{fraction}+00:00"

end StakingElection.Logging
