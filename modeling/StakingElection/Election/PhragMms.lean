import StakingElection.Election.Phragmen

/-!
# Elections by score

Each round elects the candidate with the highest score: its approval, shared with what its electors
already put on elected candidates, each counted as the part of that candidate's backing that comes
from the elector. The winner takes the unspent stake of its electors and, from candidates that are
backed above its score, the stake that lifts them above it.
-/

namespace StakingElection.Election

attribute [local instance] zeroAmount

variable {n : Nat}

namespace Elector

/-- The parts of the backing of elected candidates that an elector makes up, in load units. -/
def commitment (elected : List (Fin n)) (backed : Tally n) (v : Elector n) : Int :=
  let used := v.edges.filter fun e =>
    elected.contains e.candidate && (0 : Int) < backed.get e.candidate
  (used.map fun e => (e.weight * loadUnit).fdiv (backed.get e.candidate)).sum

/-- Lowers the edges to candidates backed above the cutoff. Gives the edges, the backing and what
was taken from them all. -/
def pull (winner : Fin n) (cutoff : Int) :
    Tally n → List (Edge n) → Except DivisionByZero (List (Edge n) × Tally n × Int)
  | backed, [] => .ok ([], backed, 0)
  | backed, e :: rest => do
    let b := backed.get e.candidate
    if e.candidate = winner ∨ e.weight = 0 ∨ b * loadUnit ≤ cutoff then
      let (edges, backed, taken) ← pull winner cutoff backed rest
      return (e :: edges, backed, taken)
    else if b = 0 then .error ⟨⟩
    else
      let keep := (e.weight * cutoff).fdiv (loadUnit * b)
      let take := e.weight - keep
      let (edges, backed, taken) ← pull winner cutoff (backed.put e.candidate (b - take)) rest
      return ({ e with weight := keep } :: edges, backed, take + taken)

/-- Gives the winner all the stake that an elector has left or pulls down to the cutoff. -/
def support (winner : Fin n) (cutoff : Int) (backed : Tally n) (v : Elector n) :
    Except DivisionByZero (Elector n × Tally n) := do
  let (edges, backed, taken) ← pull winner cutoff backed v.edges
  let weight := max 0 (v.budget - v.spent) + taken
  return ({ v with
      edges := edges.map fun e => if e.candidate = winner then { e with weight } else e },
    backed.add winner weight)

/-- Lets each elector of the winner support it, in order. -/
def supportAll (winner : Fin n) (cutoff : Int) :
    Tally n → List (Elector n) → Except DivisionByZero (List (Elector n) × Tally n)
  | backed, [] => .ok ([], backed)
  | backed, v :: rest => do
    let (v, backed) ← if v.backs winner then v.support winner cutoff backed else pure (v, backed)
    let (rest, backed) ← supportAll winner cutoff backed rest
    return (v :: rest, backed)

end Elector

namespace Graph

/-- One plus the commitments of the electors of a candidate, in load units. -/
def denominator (commitments : List (Elector n × Int)) (c : Fin n) : Int :=
  loadUnit + ((commitments.filter fun v => v.1.backs c).map Prod.snd).sum

/-- The candidates that can be elected, with their scores. -/
def scores (g : Graph n) (approvals : Tally n) :
    Except DivisionByZero (List (Fin n × Int)) :=
  let commitments := g.electors.map fun v => (v, v.commitment g.elected g.backed)
  (g.remaining.filter fun c => approvals.get c ≠ 0).mapM fun c =>
    let den := denominator commitments c
    if den = 0 then .error ⟨⟩
    else .ok (c, (approvals.get c * loadUnit * loadUnit).fdiv den)

/-- The candidate with the highest score, the first of several, and its score. -/
def highestScored? (g : Graph n) (approvals : Tally n) :
    Except DivisionByZero (Option (Fin n × Int)) := do
  return firstBest? (fun a b => b < a) (← g.scores approvals)

/-- Elects a candidate at a score. -/
def insert (g : Graph n) (winner : Fin n) (score : Int) : Except DivisionByZero (Graph n) := do
  let (electors, backed) ← Elector.supportAll winner score g.backed g.electors
  return { g with electors, backed, elected := g.elected ++ [winner] }

/-- Up to so many rounds, each with its balancing. -/
def phragMmsRounds (balancing : Option BalancingConfig) (approvals : Tally n) :
    Nat → Graph n → Except DivisionByZero (Graph n)
  | 0, g => .ok g
  | k + 1, g => do
    match ← g.highestScored? approvals with
    | none => return g
    | some (winner, score) =>
      phragMmsRounds balancing approvals k (← balanceIf balancing (← g.insert winner score))

end Graph

/-- The election by score, balanced after every round. -/
def phragMms (seats : Int) (targets : List String) (voters : List Voter)
    (balancing : Option BalancingConfig) : Except DivisionByZero Outcome := do
  let graph := Graph.ofVoters ⟨targets.toArray, List.size_toArray⟩ voters
  let final ← graph.phragMmsRounds balancing graph.approvals (Graph.roundBound targets.length seats)
  return final.outcome

end StakingElection.Election
