import StakingElection.Analysis.Mining
import StakingElection.Analysis.Row
import StakingElection.LedgerChecks.Report
import StakingElection.State.Snapshots

/-!
# Analyses of a state

Three analyses are known: the least active stake of a state, all elections of a state, and the
ledger checks of a pair of states. The elections run over the snapshot within the bounds of the
profile, which is reused if the state has one, and then, where asked for, over a fresh snapshot of
all voters.
-/

namespace StakingElection.Analysis

open Election (Solver)

/-- The analyses by name. -/
inductive Operation where
  | minActiveStake
  | electionAnalysis
  | ledgerChecks
  deriving Repr, DecidableEq, Inhabited

namespace Operation

def name : Operation → String
  | minActiveStake => "min-active-stake"
  | electionAnalysis => "election-analysis"
  | ledgerChecks => "staking-ledger-checks"

def all : List Operation := [minActiveStake, electionAnalysis, ledgerChecks]

def ofName? (name : String) : Option Operation := all.find? fun op => op.name = name

end Operation

/-- How the elections are run. -/
structure Config where
  solver : Solver
  computeUnbounded : Bool
  doFeasibility : Bool
  shareRule : ShareRule
  coefficient : Coefficient
  deriving Repr, DecidableEq

/-- The configuration where nothing is asked for. -/
def Config.standard : Config where
  solver := ⟨.seqPhragmen, Solver.defaultIterations⟩
  computeUnbounded := true
  doFeasibility := false
  shareRule := .proRata
  coefficient := .standard

def operationSource : String := "timetravel.operations"

variable {σ : Type}

def tell (severity : Severity) (text : String) : Task σ Unit :=
  Task.log severity operationSource text

/-- The least active stake of a state. -/
def minActiveStake (coefficient : Coefficient) : Task StakingState StakeResult := do
  tell .info "Transform::min_active_stake starting."
  let s ← get
  let stake? ← Task.ofExcept .decode (s.minActiveStake coefficient)
  match stake? with
  | none => tell .warning s!"Transform::min_active_stake: no active voter at #{s.blockNumber}"
  | some stake =>
    let shown ← Task.ofExcept .ofBalance (s.profile.formatBalance stake)
    tell .info s!"Transform::min_active_stake result {stake} ({shown})"
  return ⟨s.blockNumber, stake?⟩

/-- The size of a snapshot, whose text there has to be. -/
def snapshotSize (x : Snapshot) : Task σ Nat :=
  if x.toValue.hasText then pure x.size else throw .numberTooLong

/-- The elections over all voters. -/
def unboundedElections (config : Config) : Task StakingState Unbounded := do
  let (snapshot, counts) ← StakingState.buildUnbounded true config.coefficient
  let size ← snapshotSize snapshot
  let seats := (← get).slots.seats?.getD 0
  let phragmen ← mineWith config.solver snapshot seats config.doFeasibility
  let dpos ← mineDpos snapshot seats config.shareRule
  return ⟨phragmen.score, dpos, ⟨counts.voters, counts.targets, size⟩⟩

/-- All elections of a state. -/
def elections (config : Config) : Task StakingState ElectionResult := do
  let number := (← get).blockNumber
  tell .info s!"Transform::election_analysis starting at #{number}."
  let (snapshot, counts) ← StakingState.buildBounded false config.coefficient
  let size ← snapshotSize snapshot
  let s ← get
  let seats := s.slots.seats?.getD 0
  let minActiveStake? ← Task.ofExcept .decode (s.minActiveStake config.coefficient)
  let phragmen ← mineWith config.solver snapshot seats config.doFeasibility
  let mms ← mineWith ⟨.phragMms, config.solver.iterations⟩ snapshot seats config.doFeasibility
  let dpos ← mineDpos snapshot seats config.shareRule
  let unbounded? ← if config.computeUnbounded then some <$> unboundedElections config else pure none
  tell .info s!"Transform::election_analysis done at #{number}."
  return {
    blockNumber := number
    activeEra := if s.activeEra.isGiven then s.activeEra else .int 0
    solver := config.solver.method
    phragmen := phragmen.score
    phragMms := mms.score
    dpos
    extent := ⟨counts.voters, counts.targets, size⟩
    minActiveStake?
    unbounded? }

/-- The ledger checks of a parent and a child. -/
def ledgerChecks (states : List StakingState) : Task σ LedgerChecks.Report := do
  tell .info "Transform::staking_ledger_checks starting."
  let report ← LedgerChecks.check states
  if report.isConsistent then
    tell .info s!"Transform::staking_ledger_checks: child block #{report.childBlock} is consistent."
  return report

end StakingElection.Analysis
