import StakingElection.Election.Balancing

/-!
# Sequential elections by load

Each round elects the candidate that loads its electors least: one unit of load is spread over the
stake that approves of it, on top of the load those electors carry already. Loads are fixed-point
numbers in units of `loadUnit`, rounded down. In the end each elector splits its stake in proportion
to the load that each elected candidate put on it.

The part of a score that comes from loads already carried is kept from round to round, and a round
only adds to it what it changes.
-/

namespace StakingElection.Election

attribute [local instance] zeroAmount

/-- One unit of load, a one with forty zeros. -/
def loadUnit : Int := 10000000000000000000000000000000000000000

variable {n : Nat}

/-- A graph in the middle of a count. -/
structure Count (n : Nat) where
  graph : Graph n
  approvals : Tally n
  /-- For each candidate that is not elected, the sum of stake times load over its electors. -/
  carried : Tally n

namespace Count

def start (g : Graph n) : Count n := ⟨g, g.approvals, .zero⟩

/-- The load that an election of a candidate brings its electors to. -/
def score (s : Count n) (c : Fin n) : Int := (loadUnit + s.carried.get c).fdiv (s.approvals.get c)

/-- The candidates that can be elected. -/
def eligible (s : Count n) : List (Fin n) := s.graph.remaining.filter fun c => s.approvals.get c ≠ 0

/-- The candidate with the least score, the first of several, and its score. -/
def leastLoaded? (s : Count n) : Option (Fin n × Int) :=
  Graph.firstBest? (fun a b => a < b) (s.eligible.map fun c => (c, s.score c))

/-- By how much an elector's load rises to a score. -/
def rise (score : Int) (v : Elector n) : Int := max 0 (score - v.load)

/-- The elector with its load raised, if it votes for the winner. -/
def load (winner : Fin n) (score : Int) (v : Elector n) : Elector n :=
  if v.backs winner then
    { v with
      load := v.load + rise score v
      edges := v.edges.map fun e =>
        if e.candidate = winner then { e with load := rise score v } else e }
  else v

/-- Adds the raised load of an elector to each of its candidates that is not elected. -/
def carry (elected : List (Fin n)) (winner : Fin n) (score : Int) (carried : Tally n)
    (v : Elector n) : Tally n :=
  if v.backs winner then
    v.edges.foldl
      (fun sums e =>
        if elected.contains e.candidate then sums
        else sums.add e.candidate (v.budget * rise score v))
      carried
  else carried

/-- Elects a candidate at a score. -/
def elect (s : Count n) (winner : Fin n) (score : Int) : Count n :=
  let elected := s.graph.elected ++ [winner]
  { s with
    graph := { s.graph with elected, electors := s.graph.electors.map (load winner score) }
    carried := s.graph.electors.foldl (carry elected winner score) s.carried }

/-- Up to so many rounds. -/
def rounds : Nat → Count n → Count n
  | 0, s => s
  | k + 1, s =>
    match s.leastLoaded? with
    | none => s
    | some (winner, score) => rounds k (s.elect winner score)

end Count

namespace Elector

/-- Splits the budget by load. What the division leaves goes to the candidate elected last. -/
def splitByLoad (elected : List (Fin n)) (v : Elector n) : Elector n :=
  let last := elected.reverse.find? v.backs
  if last = none ∨ v.load ≤ 0 then v
  else
    let part (e : Edge n) : Int :=
      if elected.contains e.candidate then (v.budget * e.load).fdiv v.load else 0
    let rest := max 0 (v.budget - (v.edges.map part).sum)
    { v with
      edges := v.edges.map fun e =>
        if elected.contains e.candidate then
          { e with weight := part e + if some e.candidate = last then rest else 0 }
        else e }

end Elector

namespace Graph

/-- The backing with the stake on the elected edges of an elector that has load. -/
def addBacking (elected : List (Fin n)) (backed : Tally n) (v : Elector n) : Tally n :=
  if v.load ≤ 0 then backed
  else
    (v.edges.filter fun e => elected.contains e.candidate).foldl
      (fun b e => b.add e.candidate e.weight) backed

/-- Turns loads into stake. -/
def splitByLoad (g : Graph n) : Graph n :=
  let electors := g.electors.map (·.splitByLoad g.elected)
  { g with electors, backed := electors.foldl (addBacking g.elected) g.backed }

/-- How many rounds an election has at most. -/
def roundBound (n : Nat) (seats : Int) : Nat := min seats.toNat n

/-- The sequential election before any balancing. -/
def phragmen (g : Graph n) (seats : Int) : Graph n :=
  ((Count.start g).rounds (roundBound n seats)).graph.splitByLoad

end Graph

/-- The balanced graph, where balancing is asked for. -/
def balanceIf (balancing : Option BalancingConfig) (g : Graph n) :
    Except DivisionByZero (Graph n) :=
  match balancing with
  | none => .ok g
  | some config =>
    match g.balance config with
    | (g, .ok _) => .ok g
    | (_, .error e) => .error e

/-- The sequential election, balanced at its end. -/
def seqPhragmen (seats : Int) (targets : List String) (voters : List Voter)
    (balancing : Option BalancingConfig) : Except DivisionByZero Outcome := do
  let graph := Graph.ofVoters ⟨targets.toArray, List.size_toArray⟩ voters
  return (← balanceIf balancing (graph.phragmen seats)).outcome

end StakingElection.Election
