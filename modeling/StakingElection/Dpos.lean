import StakingElection.Score
import StakingElection.Shares

/-!
# Delegated election

The plain heuristic to compare with: every voter splits its stake over its targets by a share rule,
and the targets that collect the most win.
-/

namespace StakingElection.Dpos

/-- Whether a voter takes part: it has stake and names a target. -/
def takesPart (v : Voter) : Bool := !v.targets.isEmpty && v.stake != 0

/-- The assignments of all voters that take part. -/
def assignments (s : Snapshot) (rule : ShareRule) : List Assignment :=
  let ranking := Ranking.ofVoters s.voters
  (s.voters.filter takesPart).map fun v =>
    ⟨v.id, rule.split (ranking.restrict v.targets).targets v.stake⟩

/-- The front of a list: its first `count` items, or for a negative count all but the last ones. -/
def front {α : Type} (count : Int) (l : List α) : List α :=
  if 0 ≤ count then l.take count.toNat else l.take (l.length - (-count).toNat)

/-- The order of the targets: the larger total first, then by name. -/
def precedes (a b : String × Support) : Bool :=
  b.2.total < a.2.total || (a.2.total == b.2.total && decide (a.1 ≤ b.1))

/-- The supports of the winners, best first. -/
def winners (assignments : List Assignment) (desired : Int) : List (String × Support) :=
  front desired ((supportsOf assignments).entries.mergeSort precedes)

/-- The score of the winners. -/
def mine (s : Snapshot) (desired : Int) (rule : ShareRule) : Score :=
  evaluate (winners (assignments s rule) desired)

end StakingElection.Dpos
