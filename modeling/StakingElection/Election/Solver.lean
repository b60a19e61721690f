import StakingElection.Election.PhragMms
import StakingElection.Text.Letter
import StakingElection.Text.Quoted
import StakingElection.Value

/-!
# Solvers

A solver is one of the two kinds of election together with a number of balancing passes. Mining runs
a solver on a snapshot and scores the outcome. Balancing between the rounds of an election by score
changes who wins later rounds, so that election is also run without balancing, and the better
outcome is kept.
-/

namespace StakingElection.Election

/-- The two kinds of election. -/
inductive Method where
  | seqPhragmen
  | phragMms
  deriving Repr, DecidableEq, Inhabited

namespace Method

def name : Method → String
  | seqPhragmen => "seq-phragmen"
  | phragMms => "phragmms"

/-- The names of all methods, sorted. -/
def names : List String := ["phragmms", "seq-phragmen"]

/-- The method of a name, without regard to case or blanks around it, and with an underscore for a
dash. -/
def ofName? (name : String) : Option Method :=
  match (Text.lower (Text.strip name)).map fun c => if c = '_' then '-' else c with
  | "seq-phragmen" => some seqPhragmen
  | "phragmms" => some phragMms
  | _ => none

end Method

/-- A method with its number of balancing passes; zero or less means none. -/
structure Solver where
  method : Method
  iterations : Int
  deriving Repr, DecidableEq

/-- Why a solver cannot be chosen. -/
inductive SolverFault where
  | unknown (name : String)
  | negativeIterations
  deriving Repr, DecidableEq

def SolverFault.message : SolverFault → String
  | unknown name =>
    s!"unknown solver {Text.quoted name}; expected one of {Value.shownTexts Method.names}"
  | negativeIterations => "balancing iterations must be non-negative"

namespace Solver

/-- The number of passes where none is given. -/
def defaultIterations : Int := 10

def name (s : Solver) : String := s.method.name

end Solver

/-- A mined solution with the score that it claims. -/
structure Solution where
  winners : List String
  assignments : List Assignment
  score : Score
  solver : String
  deriving Repr, DecidableEq

/-- Why a solver gives no solution. -/
inductive MiningFault where
  | tooFewWinners (solver : String) (elected : Nat) (desired : Int)
  | divisionByZero
  deriving Repr, DecidableEq

namespace Solver

/-- An outcome with its score, if it has the winners that are desired. -/
def scored (s : Solver) (outcome : Outcome) (desired : Int) : Except MiningFault Solution :=
  let winners := outcome.winners.map Prod.fst
  if (winners.length : Int) < desired then
    .error (.tooFewWinners s.name winners.length desired)
  else
    .ok {
      winners
      assignments := outcome.assignments
      score := evaluate (winnerSupports winners outcome.assignments)
      solver := s.name }

/-- Runs one election. -/
def elect (method : Method) (desired : Int) (s : Snapshot) (balancing : Option BalancingConfig) :
    Except MiningFault Outcome :=
  let outcome :=
    match method with
    | .seqPhragmen => seqPhragmen desired s.targets s.voters balancing
    | .phragMms => phragMms desired s.targets s.voters balancing
  outcome.mapError fun _ => .divisionByZero

end Solver

/-- What mining gives: a solution and, if another one was dropped for it, that one's score. -/
structure Mined where
  solution : Solution
  beaten? : Option Score
  deriving Repr, DecidableEq

/-- Runs a solver and scores its outcome. -/
def Solver.mine (solver : Solver) (s : Snapshot) (desired : Int) : Except MiningFault Mined := do
  let balanced ←
    solver.scored (← elect solver.method desired s (some ⟨solver.iterations, 0⟩)) desired
  if solver.method = .phragMms ∧ 0 < solver.iterations then
    let plain ← solver.scored (← elect .phragMms desired s none) desired
    if plain.score.isBetterThan balanced.score then
      return ⟨plain, some balanced.score⟩
  return ⟨balanced, none⟩

end StakingElection.Election
