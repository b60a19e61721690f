import StakingElection.Snapshot

/-!
# Stake ranking and share rules

Targets are ranked by the stake of the voters that name them, smallest first. A share rule splits
the stake of a voter over a ranked list of targets: in equal parts, or so that the lower four fifths
of the targets share one fifth of the stake and the others the rest. Shares are rounded down.
-/

namespace StakingElection

/-- How a voter's stake is split over its targets. -/
inductive ShareRule where
  | proRata
  | pareto
  deriving Repr, DecidableEq, Inhabited

namespace ShareRule

def name : ShareRule → String
  | proRata => "pro-rata"
  | pareto => "pareto"

/-- The rule of a name. -/
def ofName? : String → Option ShareRule
  | "pro-rata" => some proRata
  | "pareto" => some pareto
  | _ => none

/-- Each target with the same amount: a total divided by the number of targets. -/
def evenly (total : Int) (targets : List String) : List (String × Int) :=
  targets.map fun t => (t, total / (targets.length : Int))

/-- Splits a stake over ranked targets. -/
def split (rule : ShareRule) (targets : List String) (stake : Int) : List (String × Int) :=
  match rule with
  | proRata => evenly stake targets
  | pareto =>
    let lower := targets.length * 4 / 5
    evenly (stake / 5) (targets.take lower) ++ evenly (stake * 4 / 5) (targets.drop lower)

end ShareRule

/-- Targets ordered by the stake that names them, with that stake. -/
structure Ranking where
  targets : List String
  stakes : OrderedMap Int

namespace Ranking

/-- Adds a voter's stake to each target it names, as often as it names it. -/
def addVoter (stakes : OrderedMap Int) (v : Voter) : OrderedMap Int :=
  v.targets.foldl (fun m t => m.insert t ((m.find? t).getD 0 + v.stake)) stakes

/-- The stake behind every target that is named. -/
def stakesOf (voters : List Voter) : OrderedMap Int := voters.foldl addVoter ∅

/-- The order of the ranking: by stake, then by name. -/
def precedes (a b : String × Int) : Bool := a.2 < b.2 || (a.2 == b.2 && decide (a.1 ≤ b.1))

/-- The targets that the voters name, ranked. -/
def ofVoters (voters : List Voter) : Ranking :=
  let stakes := stakesOf voters
  { targets := (stakes.entries.mergeSort precedes).map Prod.fst, stakes }

/-- The ranking of some of its targets, in the same order. -/
def restrict (r : Ranking) (targets : List String) : Ranking :=
  { r with targets := r.targets.filter targets.contains }

/-- The place of a target, from zero. -/
def rank? (r : Ranking) (target : String) : Option Nat := r.targets.idxOf? target

def toText (r : Ranking) : String := s!"SortedTargets({Value.shownTexts r.targets})"

end Ranking

end StakingElection
