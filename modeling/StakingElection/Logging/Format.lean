import StakingElection.Json.Printer
import StakingElection.Logging.Clock

/-!
# Log lines

A record is written for people, in one coloured line, or for programs, as one JSON object. The name
of the program's own loggers is shown to people without its common part.
-/

namespace StakingElection.Logging

/-- A record of a log. -/
structure Record where
  moment : Moment
  level : Number
  name : String
  message : String
  /-- The text of an error that is reported. -/
  error : Option String

/-- The level of a number that has one. -/
def levelWithName? (level : Number) : Option String := do
  match ← level.whole? with
  | 0 => some "NOTSET"
  | 10 => some "DEBUG"
  | 20 => some "INFO"
  | 30 => some "WARNING"
  | 40 => some "ERROR"
  | 50 => some "CRITICAL"
  | _ => none

/-- The name of a level. -/
def levelName (level : Number) : String :=
  (levelWithName? level).getD s!"Level {level.toText}"

/-- The colour of a level, if it has one. -/
def colour (level : Number) : String :=
  match level.whole? with
  | some 10 => "\x1b[36m"
  | some 20 => "\x1b[32m"
  | some 30 => "\x1b[33m"
  | some 40 => "\x1b[31m"
  | some 50 => "\x1b[1;31m"
  | _ => ""

/-- How a line is written. -/
inductive Format where
  | human
  | json
  deriving Repr, DecidableEq, Inhabited

/-- The common part of the names of the program's loggers. -/
def ownPart : String := "timetravel."

/-- The name of a logger; the one above all has an empty name of its own. -/
def loggerName (name : String) : String := if name = "" then "root" else name

/-- A name as people see it. -/
def shortName (name : String) : String :=
  if ownPart.toList.isPrefixOf name.toList then
    String.ofList (name.toList.drop ownPart.length)
  else name

/-- A level name of at least seven characters. -/
def paddedLevel (level : Number) : String :=
  let name := levelName level
  name ++ String.ofList (List.replicate (7 - name.length) ' ')

/-- The line of a record for people. -/
def Record.human (r : Record) : String :=
  let line :=
    s!"{colour r.level}{r.moment.clock} [{paddedLevel r.level}]\x1b[0m " ++
      s!"{shortName r.name}: {r.message}"
  match r.error with
  | none => line
  | some e => line ++ "\n" ++ e

/-- The object of a record. -/
def Record.toValue (r : Record) : Value :=
  .object ([
    ("ts", .text r.moment.iso), ("level", .text (levelName r.level)),
    ("target", .text r.name), ("msg", .text r.message)] ++
    match r.error with
    | none => []
    | some e => [("exception", .text e)])

/-- The line of a record for programs. -/
def Record.json (r : Record) : String := Json.print Json.spaced r.toValue

/-- The moment of a record in a format. People see local time, which needs the day before too. -/
def Format.moment (f : Format) (seconds : Number) : Except ClockFault Moment := do
  let moment ← Moment.ofSeconds seconds
  if f = .human && !moment.hasDayBefore then throw .notInCalendar
  return moment

/-- The line of a record. -/
def Record.format (r : Record) : Format → String
  | .human => r.human
  | .json => r.json

end StakingElection.Logging
