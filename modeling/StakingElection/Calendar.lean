/-!
# Days and times

A settings file may name a day, a time of day, or both with or without an offset from universal
time. Such a stamp is never computed with, only shown: in a message on its own as the standard for
dates writes it, within other data as the call that makes it.
-/

namespace StakingElection

/-- A number with leading zeros. -/
def padded (width n : Nat) : String :=
  let digits := toString n
  String.ofList (List.replicate (width - digits.length) '0') ++ digits

/-- A day of the calendar. -/
structure Day where
  year : Nat
  month : Nat
  day : Nat
  deriving Repr, DecidableEq, Inhabited

/-- The days of a month. -/
def monthDays (year month : Nat) : Nat :=
  if month = 2 then
    if year % 4 = 0 ∧ (year % 100 ≠ 0 ∨ year % 400 = 0) then 29 else 28
  else if [4, 6, 9, 11].contains month then 30
  else 31

/-- Whether there is such a day. -/
def Day.isValid (d : Day) : Bool :=
  1 ≤ d.year && d.year ≤ 9999 && 1 ≤ d.month && d.month ≤ 12 && 1 ≤ d.day
    && d.day ≤ monthDays d.year d.month

def Day.toText (d : Day) : String :=
  s!"{padded 4 d.year}-{padded 2 d.month}-{padded 2 d.day}"

/-- A time of day. -/
structure TimeOfDay where
  hour : Nat
  minute : Nat
  second : Nat
  microsecond : Nat
  deriving Repr, DecidableEq, Inhabited

namespace TimeOfDay

/-- Hours, minutes and seconds. -/
def clock (t : TimeOfDay) : String :=
  s!"{padded 2 t.hour}:{padded 2 t.minute}:{padded 2 t.second}"

/-- The time of day, with microseconds only if there are any. -/
def toText (t : TimeOfDay) : String :=
  t.clock ++ if t.microsecond = 0 then "" else "." ++ padded 6 t.microsecond

/-- The numbers of a time of day without the zeros at its end, except hour and minute. -/
def parts (t : TimeOfDay) : List Nat :=
  if t.microsecond ≠ 0 then [t.hour, t.minute, t.second, t.microsecond]
  else if t.second ≠ 0 then [t.hour, t.minute, t.second]
  else [t.hour, t.minute]

end TimeOfDay

/-- A day, a time of day, or both; an offset is in minutes. -/
inductive Stamp where
  | day (d : Day)
  | time (t : TimeOfDay)
  | moment (d : Day) (t : TimeOfDay) (offset : Option Int)
  deriving Repr, DecidableEq, Inhabited

namespace Stamp

/-- An offset as it stands behind a time. -/
def offsetText (minutes : Int) : String :=
  let n := minutes.natAbs
  (if minutes < 0 then "-" else "+") ++ s!"{padded 2 (n / 60)}:{padded 2 (n % 60)}"

/-- A stamp on its own. -/
def toText : Stamp → String
  | day d => d.toText
  | time t => t.toText
  | moment d t offset => s!"{d.toText} {t.toText}" ++ (offset.map offsetText).getD ""

/-- An offset within other data, by days and seconds that are not negative. -/
def shownOffset (minutes : Int) : String :=
  let seconds := minutes * 60
  if minutes = 0 then "datetime.timezone.utc"
  else if 0 < minutes then s!"datetime.timezone(datetime.timedelta(seconds={seconds}))"
  else s!"datetime.timezone(datetime.timedelta(days=-1, seconds={86400 + seconds}))"

/-- A call with numbers. -/
def call (name : String) (arguments : List String) : String :=
  "datetime." ++ name ++ "(" ++ ", ".intercalate arguments ++ ")"

/-- A stamp within other data. -/
def shown : Stamp → String
  | day d => call "date" ([d.year, d.month, d.day].map toString)
  | time t => call "time" (t.parts.map toString)
  | moment d t offset =>
    call "datetime" (([d.year, d.month, d.day] ++ t.parts).map toString ++
      (offset.map fun minutes => s!"tzinfo={shownOffset minutes}").toList)

/-- The name of a stamp's kind in a message. -/
def kindName : Stamp → String
  | day _ => "datetime.date"
  | time _ => "datetime.time"
  | moment .. => "datetime.datetime"

end Stamp

end StakingElection
