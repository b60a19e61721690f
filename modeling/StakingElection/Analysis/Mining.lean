import StakingElection.Dpos
import StakingElection.Journal

/-!
# Mining with a journal

The elections as tasks: each tells what it found.
-/

namespace StakingElection.Analysis

open Election (Solver Solution)

variable {σ : Type}

def solverSource : String := "timetravel.solver"

def dposSource : String := "timetravel.dpos"

/-- Runs a solver, checks its solution where asked to, and tells the score. -/
def mineWith (solver : Solver) (s : Snapshot) (desired : Int) (feasibility : Bool) :
    Task σ Solution := do
  let mined ← Task.ofExcept .ofMining (solver.mine s desired)
  let solution := mined.solution
  if let some beaten := mined.beaten? then
    Task.log .debug solverSource
      (s!"phragmms: unbalanced outcome {solution.score.toText} " ++
        s!"beats balanced {beaten.toText}")
  if feasibility then
    let _ ← Task.ofExcept .infeasible (solution.check s desired)
  Task.log .info solverSource
    (s!"mined a npos-like solution with {solver.name}: score = {solution.score.toText} " ++
      s!"(voters: {s.voters.length}, targets: {s.targets.length})")
  return solution

/-- The entries about voters that take no part in a delegated election. -/
def idleVoterEntries (s : Snapshot) : List Entry :=
  (s.voters.filter fun v => !Dpos.takesPart v).map fun v =>
    ⟨.warning, dposSource,
      s!"Bad voter {v.id} with stake {v.stake}, targets: {v.targets.length}. skipping."⟩

/-- The assignments of a delegated election. -/
def dposAssignments (s : Snapshot) (rule : ShareRule) : Task σ (List Assignment) := do
  Task.logAll (idleVoterEntries s)
  return Dpos.assignments s rule

/-- The score of a delegated election. -/
def mineDpos (s : Snapshot) (desired : Int) (rule : ShareRule) : Task σ Score := do
  Task.logAll (idleVoterEntries s)
  let score := Dpos.mine s desired rule
  Task.log .info dposSource
    s!"mined a dpos-like solution ({rule.name}) with score = {score.toText}"
  return score

end StakingElection.Analysis
