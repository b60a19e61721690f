import StakingElection.CommandLine.Arguments
import StakingElection.Failure
import StakingElection.Toml.Parser

/-!
# Settings

The settings have four sections, each with its keys and their defaults. A settings file, then the
environment, then the command line change values; none of them adds a key. A value keeps whatever
kind it was given, and is read only where it is used. Some keys between double underscores do not
set a value but concern a section as a whole.
-/

namespace StakingElection

/-- A section: its keys with their defaults, and what is set. -/
structure Section where
  defaults : OrderedMap Value
  own : OrderedMap Value

namespace Section

/-- A section where nothing is set. -/
def ofDefaults (fields : List (String × Value)) : Section := ⟨.ofList fields, ∅⟩

/-- The value under a key, null under a key that the section does not have. -/
def value (sec : Section) (key : String) : Value :=
  ((sec.own.find? key).or (sec.defaults.find? key)).getD .null

/-- Sets a value. -/
def put (sec : Section) (key : String) (v : Value) : Section :=
  { sec with own := sec.own.insert key v }

/-- The key under which it can be set what a section lists. -/
def listingKey : String := "__dataclass_fields__"

/-- Takes over a value of a settings file if its key is known. What a section is cannot be changed;
all that is set can be replaced at once, by an object. -/
def take (sec : Section) (key : String) (v : Value) : Except DecodeFault Section :=
  match key with
  | "__class__" => .error (.unusable v.kindName)
  | "__weakref__" => .error (.wrongKind v.kindName)
  | "__dict__" =>
    match v with
    | .object fields => .ok { sec with own := .ofList fields }
    | v => .error (.unusable v.kindName)
  | key =>
    .ok (if sec.defaults.contains key || key = listingKey then sec.put key v else sec)

/-- Takes over values; a dash in a key is an underscore. -/
def merge (sec : Section) (raw : List (String × Value)) : Except DecodeFault Section :=
  raw.foldlM (fun sec e => sec.take (e.1.map fun c => if c = '-' then '_' else c) e.2) sec

/-- All keys with their values. Where it is set what to list, that has to be nothing. -/
def listing (sec : Section) : Except DecodeFault (List (String × Value)) :=
  match sec.own.find? listingKey with
  | none => .ok (sec.defaults.entries.map fun e => (e.1, sec.value e.1))
  | some (.object []) => .ok []
  | some v => .error (.wrongKind v.kindName)

end Section

structure Settings where
  rpc : Section
  paths : Section
  election : Section
  logging : Section

namespace Settings

/-- The settings where nothing is set. -/
def standard : Settings where
  rpc := .ofDefaults [
    ("uri", .text "http://127.0.0.1:9933"), ("connection_timeout", .int 60),
    ("request_timeout", .int 600), ("retry_delay", .float (.ofDecimal false 25 (-1))),
    ("max_connect_attempts", .int 0)]
  paths := .ofDefaults [
    ("snapshot_path", .text "data/states.db"), ("output_path", .text "./output.csv")]
  election := .ofDefaults [
    ("solver", .text Election.Method.seqPhragmen.name),
    ("iterations", .int Election.Solver.defaultIterations), ("compute_unbounded", .bool true),
    ("do_feasibility", .bool false), ("share_distribution", .text ShareRule.proRata.name),
    ("max_iterations_coefficient", .int 2)]
  logging := .ofDefaults [("level", .text "INFO"), ("format", .text "human"), ("file", .null)]

/-- The sections by name. -/
inductive Part where
  | rpc
  | paths
  | election
  | logging
  deriving Repr, DecidableEq

def Part.all : List Part := [.rpc, .paths, .election, .logging]

def Part.name : Part → String
  | rpc => "rpc"
  | paths => "paths"
  | election => "election"
  | logging => "logging"

def part (s : Settings) : Part → Section
  | .rpc => s.rpc
  | .paths => s.paths
  | .election => s.election
  | .logging => s.logging

/-- Changes a section. -/
def modifyPart (s : Settings) (f : Section → Section) : Part → Settings
  | .rpc => { s with rpc := f s.rpc }
  | .paths => { s with paths := f s.paths }
  | .election => { s with election := f s.election }
  | .logging => { s with logging := f s.logging }

/-- A value of a section. -/
def value (s : Settings) (p : Part) (key : String) : Value := (s.part p).value key

/-- Sets a value of a section. -/
def put (s : Settings) (p : Part) (key : String) (v : Value) : Settings :=
  s.modifyPart (·.put key v) p

/-- Takes over a section of a settings file, if it is there. -/
def mergePart (fields : List (String × Value)) (s : Settings) (p : Part) :
    Except DecodeFault Settings :=
  match fields.lookup p.name with
  | none => .ok s
  | some raw => do
    let merged ← (s.part p).merge (← raw.fields)
    return s.modifyPart (fun _ => merged) p

/-- Takes over a settings file. -/
def mergeText (s : Settings) (text : String) : Except Failure Settings := do
  let fields ← (Toml.parse text).mapError .toml
  (Part.all.foldlM (mergePart fields) s).mapError .decode

/-- An integer of the environment. -/
def readCount (v : String) : Except Failure Value :=
  (Value.text v).toInt.map .int |>.mapError .decode

/-- A variable of the environment, and the value that it overrides. -/
structure Variable where
  name : String
  part : Part
  key : String
  read : String → Except Failure Value

/-- The variables that are looked at, in order. -/
def knownVariables : List Variable := [
  ⟨"TIMETRAVEL_URI", .rpc, "uri", pure ∘ .text⟩,
  ⟨"TIMETRAVEL_SNAPSHOT_PATH", .paths, "snapshot_path", pure ∘ .text⟩,
  ⟨"TIMETRAVEL_OUTPUT_PATH", .paths, "output_path", pure ∘ .text⟩,
  ⟨"TIMETRAVEL_SOLVER", .election, "solver", pure ∘ .text⟩,
  ⟨"TIMETRAVEL_ITERATIONS", .election, "iterations", readCount⟩,
  ⟨"TIMETRAVEL_LOG_LEVEL", .logging, "level", pure ∘ .text ∘ Text.upper⟩,
  ⟨"TIMETRAVEL_LOG_FMT", .logging, "format", pure ∘ .text⟩]

/-- Takes over a variable, if it is there and not empty. -/
def override (env : OrderedMap String) (s : Settings) (v : Variable) : Except Failure Settings :=
  match (env.find? v.name).filter (· ≠ "") with
  | none => .ok s
  | some text => return s.put v.part v.key (← v.read text)

/-- Takes over the environment. -/
def mergeEnvironment (env : OrderedMap String) (s : Settings) : Except Failure Settings :=
  knownVariables.foldlM (override env) s

/-- The settings of a file, if there is one, and the environment. -/
def load (file? : Option String) (env : OrderedMap String) : Except Failure Settings := do
  let s ← match file? with
    | some text => standard.mergeText text
    | none => pure standard
  s.mergeEnvironment env

/-- Sets a value if one is given. -/
def putGiven (s : Settings) (p : Part) (key : String) (v : Value) : Settings :=
  if v.isGiven then s.put p key v else s

/-- A value with a text in upper case. -/
def upperText : Value → Value
  | .text t => .text (Text.upper t)
  | v => v

/-- Takes over the options of a transformation. -/
def applyTransform (s : Settings) (t : CommandLine.Transform) : Settings :=
  let s := s.putGiven .election "solver" t.solver
  let s := if t.iterations.isNull then s else s.put .election "iterations" t.iterations
  let s := if t.noUnbounded then s.put .election "compute_unbounded" (.bool false) else s
  let s := if t.feasibility then s.put .election "do_feasibility" (.bool true) else s
  s.putGiven .election "share_distribution" t.shareRule

/-- Takes over the command line. -/
def applyArguments (s : Settings) (a : CommandLine.Arguments) : Settings :=
  let s := s.putGiven .rpc "uri" a.uri
  let s := s.putGiven .paths "snapshot_path" a.snapshotPath
  let s := s.putGiven .paths "output_path" a.outputPath
  let s := s.putGiven .logging "level" (upperText a.logLevel)
  match a.command with
  | .extract _ => s
  | .transform t => s.applyTransform t

end Settings

/-! ## The analysis that is asked for -/

/-- What the settings say about an analysis. The solver and the share rule are known; numbers and
flags may still be of any kind. -/
structure AnalysisSettings where
  method : Election.Method
  iterations : Value
  computeUnbounded : Value
  doFeasibility : Value
  shareRule : ShareRule
  coefficient : Value

namespace Value

/-- Whether a number is negative. -/
def isNegative : Value → Except DecodeFault Bool
  | int i => .ok (i < 0)
  | bool _ => .ok false
  | float (.finite negative m _) => .ok (negative && m != 0)
  | float (.infinite negative) => .ok negative
  | float .nan => .ok false
  | v => .error (.unusable v.kindName)

/-- The least integer that is not below a number. There is a limit for infinity. -/
def toCount : Value → Except DecodeFault Int
  | int i => .ok i
  | bool b => .ok (if b then 1 else 0)
  | float x => .ok (x.ceil?.getD 1000000)
  | v => .error (.unusable v.kindName)

end Value

/-- The method of a solver that is named with a number of passes. The name is looked at first. -/
def chooseMethod (name iterations : Value) : Except Failure Election.Method := do
  let name ← name.toName.mapError .decode
  match Election.Method.ofName? name with
  | none => throw (.choice (.solver (.unknown name)))
  | some method =>
    if ← iterations.isNegative.mapError .decode then throw (.choice (.solver .negativeIterations))
    return method

/-- What the settings say about the analysis. -/
def Settings.analysis (s : Settings) : Except Failure AnalysisSettings := do
  let iterations := s.value .election "iterations"
  let method ← chooseMethod (s.value .election "solver") iterations
  let rule := s.value .election "share_distribution"
  let shareRule ← match rule with
    | .text name =>
      match ShareRule.ofName? name with
      | some r => pure r
      | none => throw (.choice (.shareRuleValue rule))
    | _ => throw (.choice (.shareRuleValue rule))
  return {
    method, iterations, shareRule
    computeUnbounded := s.value .election "compute_unbounded"
    doFeasibility := s.value .election "do_feasibility"
    coefficient := s.value .election "max_iterations_coefficient" }

/-- The analysis with its numbers and flags read. -/
def AnalysisSettings.config (a : AnalysisSettings) : Except Failure Analysis.Config := do
  return {
    solver := ⟨a.method, ← a.iterations.toCount.mapError .decode⟩
    computeUnbounded := a.computeUnbounded.isGiven
    doFeasibility := a.doFeasibility.isGiven
    shareRule := a.shareRule
    coefficient := .ofValue a.coefficient }

end StakingElection
