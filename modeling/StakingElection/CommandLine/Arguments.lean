import StakingElection.Analysis.Operation
import StakingElection.CommandLine.Grammar

/-!
# The arguments of the program

The program knows two commands: `extract` fetches states from a node and stores them, `transform`
runs an operation over stored or fresh states. Options that concern both stand before the command.
-/

namespace StakingElection.CommandLine

/-- What to transform, and how. An option that is not given is null. -/
structure Transform where
  operation : Analysis.Operation
  hashes : List Value
  solver : Value
  iterations : Value
  noUnbounded : Bool
  feasibility : Bool
  shareRule : Value
  live : Bool
  deriving Repr

inductive Command where
  | extract (hashes : List Value)
  | transform (what : Transform)
  deriving Repr

def Command.name : Command → String
  | extract _ => "extract"
  | transform _ => "transform"

/-- The arguments. An option that is not given is null. -/
structure Arguments where
  config : Value
  uri : Value
  snapshotPath : Value
  outputPath : Value
  logLevel : Value
  command : Command
  deriving Repr

/-- An option that takes any text. -/
def textOption (name : String) : Opt := ⟨name, .value fun _ => true⟩

/-- An option that takes one of some words. -/
def choiceOption (name : String) (choices : List String) : Opt := ⟨name, .value choices.contains⟩

def mainGrammar : Grammar where
  options := helpOptions ++
    ["--config", "--uri", "--snapshot-path", "--output-path", "--log-level"].map textOption
  positional := ⟨.rest, ["extract", "transform"]⟩

def extractOptions : List Opt := helpOptions ++ [textOption "--at"]

def transformGrammar : Grammar where
  options := helpOptions ++ [
    textOption "--at",
    choiceOption "--solver" Election.Method.names,
    ⟨"--iterations", .value fun v => (Text.readInt? v).isSome⟩,
    ⟨"--no-unbounded", .nothing⟩,
    ⟨"--feasibility", .nothing⟩,
    choiceOption "--share-distribution" [ShareRule.proRata.name, ShareRule.pareto.name],
    ⟨"--live", .nothing⟩]
  positional := ⟨.one, Analysis.Operation.all.map Analysis.Operation.name⟩

/-- The command without a positional argument. -/
def readExtract (args : List String) : Except Stop (Command × List String) := do
  let words ← classifyAll extractOptions args
  let r ← readWords ⟨.one, []⟩ (words.length + 1) ⟨[], some ("", []), []⟩ words
  return (.extract (r.all "--at"), r.extras)

/-- The integer that an option gives. -/
def countOf : Value → Value
  | .text s => .ofInt? (Text.readInt? s)
  | v => v

def readTransform (args : List String) : Except Stop (Command × List String) := do
  let r ← transformGrammar.read args
  match r.positional.bind fun p => Analysis.Operation.ofName? p.1 with
  | none => throw .usage
  | some operation =>
    return (.transform {
      operation
      hashes := r.all "--at"
      solver := r.value "--solver"
      iterations := countOf (r.value "--iterations")
      noUnbounded := r.has "--no-unbounded"
      feasibility := r.has "--feasibility"
      shareRule := r.value "--share-distribution"
      live := r.has "--live" }, r.extras)

/-- Reads the command and what belongs to it. -/
def readCommand : String × List String → Except Stop (Command × List String)
  | ("extract", args) => readExtract args
  | (_, args) => readTransform args

/-- Reads the arguments of the program. Words that nothing takes are an error of usage. -/
def Arguments.read (args : List String) : Except Stop Arguments := do
  let r ← mainGrammar.read args
  match r.positional with
  | none => throw .usage
  | some positional =>
    let (command, extras) ← readCommand positional
    if !(r.extras ++ extras).isEmpty then throw .usage
    return {
      config := r.value "--config"
      uri := r.value "--uri"
      snapshotPath := r.value "--snapshot-path"
      outputPath := r.value "--output-path"
      logLevel := r.value "--log-level"
      command }

/-- The exit code of a program whose arguments stop it. -/
def Stop.exitCode : Stop → Nat
  | help => 0
  | usage => 2

end StakingElection.CommandLine
