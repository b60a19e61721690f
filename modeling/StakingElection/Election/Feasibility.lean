import StakingElection.Election.Solver

/-!
# Feasibility

A solution is feasible for a snapshot if it has the desired number of distinct winners among the
targets, each of its assignments comes from another voter of the snapshot, hands no negative amount
and at most that voter's stake to winners the voter votes for, and the score it claims is the score
it has. The check reports the first rule that is violated.
-/

namespace StakingElection.Election

/-- A rule that a solution violates. -/
inductive Violation where
  | winnerCount (winners : Nat) (desired : Int)
  | duplicateWinner
  | invalidWinner (target : String)
  | invalidVoter (who : String)
  | duplicateVoter (who : String)
  | negativeStake (who target : String)
  | invalidVote (who target : String)
  | exceedsStake (who : String) (total stake : Int)
  | invalidScore (claimed computed : Score)
  deriving Repr, DecidableEq

namespace Violation

/-- The name of the rule. -/
def reason : Violation → String
  | winnerCount .. => "wrong winner count"
  | duplicateWinner => "duplicate winner"
  | invalidWinner _ => "invalid winner"
  | invalidVoter _ => "invalid voter"
  | duplicateVoter _ => "duplicate voter"
  | negativeStake .. => "negative stake"
  | invalidVote .. => "invalid vote"
  | exceedsStake .. => "assignment exceeds stake"
  | invalidScore .. => "invalid score"

/-- What violates the rule. -/
def detail : Violation → String
  | winnerCount winners desired => s!"{winners} != {desired}"
  | duplicateWinner => ""
  | invalidWinner target => target
  | invalidVoter who => who
  | duplicateVoter who => who
  | negativeStake who target => s!"{who} -> {target}"
  | invalidVote who target => s!"{who} -> {target}"
  | exceedsStake who total stake => s!"{who}: {total} > {stake}"
  | invalidScore claimed computed => s!"claimed {claimed.toText}, computed {computed.toText}"

/-- Whether the numbers that violate the rule are given as texts. Counts of what is in memory are
never too long for one. -/
def hasText : Violation → Bool
  | winnerCount _ desired => Text.hasText desired
  | exceedsStake _ total stake => Text.hasText total && Text.hasText stake
  | invalidScore claimed computed => claimed.hasText && computed.hasText
  | _ => true

def message (v : Violation) : String :=
  let text := s!"feasibility check failed: {v.reason}"
  if v.detail = "" then text else s!"{text} ({v.detail})"

end Violation

namespace Solution

/-- Checks the winners. -/
def checkWinners (winners : List String) (s : Snapshot) (desired : Int) :
    Except Violation Unit := do
  if (winners.length : Int) ≠ desired then throw (.winnerCount winners.length desired)
  if ¬ winners.Nodup then throw .duplicateWinner
  match winners.find? (· ∉ s.targets) with
  | some w => throw (.invalidWinner w)
  | none => return

/-- Checks one share of a voter's stake. -/
def checkShare (winners : List String) (v : Voter) (who : String) (share : String × Int) :
    Except Violation Unit := do
  if share.2 < 0 then throw (.negativeStake who share.1)
  if share.1 ∉ winners ∨ share.1 ∉ v.targets then throw (.invalidVote who share.1)

/-- Checks one assignment; `seen` holds the voters of those before it. -/
def checkAssignment (winners : List String) (voters : OrderedMap Voter) (seen : List String)
    (a : Assignment) : Except Violation Unit := do
  match voters.find? a.who with
  | none => throw (.invalidVoter a.who)
  | some v =>
    if a.who ∈ seen then throw (.duplicateVoter a.who)
    a.shares.forM (checkShare winners v a.who)
    if v.stake < a.total then throw (.exceedsStake a.who a.total v.stake)

/-- Checks assignments in order. -/
def checkAssignments (winners : List String) (voters : OrderedMap Voter) :
    (seen : List String) → List Assignment → Except Violation Unit
  | _, [] => .ok ()
  | seen, a :: rest => do
    checkAssignment winners voters seen a
    checkAssignments winners voters (a.who :: seen) rest

/-- Checks a solution against its snapshot; gives its score. -/
def check (solution : Solution) (s : Snapshot) (desired : Int) : Except Violation Score := do
  checkWinners solution.winners s desired
  checkAssignments solution.winners s.voterIndex [] solution.assignments
  let score := evaluate (winnerSupports solution.winners solution.assignments)
  if score ≠ solution.score then throw (.invalidScore solution.score score)
  return score

end Solution

end StakingElection.Election
