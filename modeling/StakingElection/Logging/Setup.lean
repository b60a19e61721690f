import StakingElection.Logging.Format
import StakingElection.Text.Letter

/-!
# Setting up the log

A log has a threshold and is written to the console and, where asked for, to a file, there always
for programs. Three loggers of the transport are noisy: unless everything is to be seen, they have a
threshold of their own.
-/

namespace StakingElection.Logging

/-- Why a name gives no level: it stands for something else that the log has. -/
inductive LevelFault where
  /-- The name stands for the text of a line format. -/
  | lineFormat
  /-- The name stands for the table of styles. -/
  | styles
  deriving Repr, DecidableEq

/-- The level of a name, without regard to case; a name that is not known stands for that of
information. -/
def levelOfName (name : String) : Except LevelFault Int :=
  match Text.upper name with
  | "NOTSET" => .ok 0
  | "DEBUG" => .ok 10
  | "INFO" => .ok 20
  | "WARN" => .ok 30
  | "WARNING" => .ok 30
  | "ERROR" => .ok 40
  | "FATAL" => .ok 50
  | "CRITICAL" => .ok 50
  | "BASIC_FORMAT" => .error .lineFormat
  | "_STYLES" => .error .styles
  | _ => .ok 20

/-- How the log is set up. -/
structure Setup where
  level : Int
  console : Format
  file : Option String
  deriving Repr, DecidableEq

namespace Setup

/-- Before anything is set up, only warnings are seen. -/
def initial : Setup := ⟨30, .human, none⟩

/-- A setup by the name of its level. -/
def ofName (level : String) (json : Bool) (file : Option String) : Except LevelFault Setup := do
  return {
    level := ← levelOfName level
    console := if json then .json else .human
    file }

/-- The loggers of the transport. -/
def noisyLoggers : List String := ["aiohttp.access", "aiohttp.client", "asyncio"]

/-- The threshold of the noisy loggers, zero where they have none of their own. -/
def noisyLevel (s : Setup) : Int := if 10 < s.level then 30 else 0

/-- The loggers that a name stands below, itself first. -/
def ancestors (name : String) : List String :=
  let parts := name.splitOn "."
  (List.range parts.length).reverse.map fun n => ".".intercalate (parts.take (n + 1))

/-- The threshold of a logger: that of the nearest noisy logger it stands below, or else that of the
log. -/
def threshold (s : Setup) (name : String) : Int :=
  if (ancestors name).any noisyLoggers.contains && s.noisyLevel ≠ 0 then s.noisyLevel else s.level

/-- Whether a record of a level is written. -/
def shows (s : Setup) (level : Int) (name : String) : Bool :=
  0 < level && s.threshold name ≤ level

end Setup

end StakingElection.Logging
