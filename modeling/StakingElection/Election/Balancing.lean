import StakingElection.Election.Graph

/-!
# Balancing

Balancing moves the stake of one elector at a time. The elector takes its stake back from its
elected candidates and pours it over them anew, filling the least backed ones up to a common level;
what is left by the division goes one unit each to the first of them. A pass does so for every
elector, and passes go on until none of them sees a difference above the tolerance.
-/

namespace StakingElection.Election

attribute [local instance] zeroAmount

/-- How many passes to make at most, and which difference is small enough. -/
structure BalancingConfig where
  iterations : Int
  tolerance : Int
  deriving Repr, DecidableEq

variable {n : Nat}

namespace Elector

/-- The edges to elected candidates, each with its place among all edges. -/
def electedEdges (elected : List (Fin n)) (v : Elector n) : List (Edge n × Nat) :=
  v.edges.zipIdx.filter fun e => elected.contains e.1.candidate

/-- The difference that an elector sees: between the most backed candidate that it hands stake to
and the least backed one that it votes for, and the stake it has not spent. None of an elector that
hands out nothing. -/
def imbalance? (backed : Tally n) (budget : Int) (edges : List (Edge n)) : Option Int :=
  let used := (edges.filter fun e => 0 < e.weight).map fun e => backed.get e.candidate
  match used.max?, (edges.map fun e => backed.get e.candidate).min? with
  | some most, some least => some (most - least + max 0 (budget - (edges.map Edge.weight).sum))
  | _, _ => none

/-- The backing once the stake on some edges is taken back. -/
def withdraw (backed : Tally n) (edges : List (Edge n)) : Tally n :=
  edges.foldl (fun b e => b.put e.candidate (max 0 (b.get e.candidate - e.weight))) backed

/-- How many of the levels, which ascend, a budget reaches when it fills them up to a common one,
and the sum of those. -/
def reach (budget : Int) : (count : Nat) → (sum : Int) → List Int → Nat × Int
  | count, sum, [] => (count, sum)
  | count, sum, level :: rest =>
    if budget < level * count - sum then (count, sum)
    else reach budget (count + 1) (sum + level) rest

/-- Pours stake on edges: each is filled up to `level`, and the first `extra` of them get one unit
more. Gives the weights by place and the new backing. -/
def pour (level : Int) : (extra : Nat) → Tally n → List (Edge n × Nat) →
    List (Nat × Int) × Tally n
  | _, backed, [] => ([], backed)
  | extra, backed, (e, place) :: rest =>
    let weight := level - backed.get e.candidate + if 0 < extra then 1 else 0
    let (weights, backed) :=
      pour level (extra - 1) (backed.add e.candidate weight) rest
    ((place, weight) :: weights, backed)

/-- The edges with new weights; an edge to an elected candidate without one is empty. -/
def setWeights (elected : List (Fin n)) (weights : List (Nat × Int)) (v : Elector n) : Elector n :=
  { v with
    edges := v.edges.mapIdx fun place e =>
      if elected.contains e.candidate then { e with weight := (weights.lookup place).getD 0 }
      else e }

end Elector

/-- An elector and the backing after a move, and the difference that it saw before. -/
structure Move (n : Nat) where
  elector : Elector n
  backed : Tally n
  difference : Except DivisionByZero Int

/-- Pours the whole budget of an elector over its elected candidates. A negative budget may reach
none of them. -/
def refill (elected : List (Fin n)) (backed : Tally n) (v : Elector n) (difference : Int) :
    Move n :=
  let edges := v.electedEdges elected
  let backed := Elector.withdraw backed (edges.map Prod.fst)
  let edges := edges.mergeSort fun a b =>
    decide (backed.get a.1.candidate ≤ backed.get b.1.candidate)
  let levels := edges.map fun e => backed.get e.1.candidate
  let (count, sum) := Elector.reach v.budget 0 0 levels
  if count = 0 then ⟨v.setWeights elected [], backed, .error ⟨⟩⟩
  else
    let top := levels.getD (count - 1) 0
    let excess := v.budget + sum - top * count
    let (weights, backed) :=
      Elector.pour (excess / count + top) (excess % count).toNat backed (edges.take count)
    ⟨v.setWeights elected weights, backed, .ok difference⟩

/-- Moves the stake of one elector. With at most one elected candidate there is nothing to move, and
a difference below the tolerance is left alone. -/
def rebalance (elected : List (Fin n)) (tolerance : Int) (backed : Tally n) (v : Elector n) :
    Move n :=
  let edges := (v.electedEdges elected).map Prod.fst
  if edges.length ≤ 1 then ⟨v, backed, .ok 0⟩
  else
    match Elector.imbalance? backed v.budget edges with
    | some difference =>
      if difference < tolerance then ⟨v, backed, .ok difference⟩
      else refill elected backed v difference
    | none => refill elected backed v v.budget

/-- Electors and the backing after some moves, and the largest difference seen. -/
structure Pass (n : Nat) where
  electors : List (Elector n)
  backed : Tally n
  difference : Except DivisionByZero Int

/-- Moves the stake of each elector once, in order, up to a division by zero. -/
def pass (elected : List (Fin n)) (tolerance : Int) :
    (largest : Int) → Tally n → List (Elector n) → Pass n
  | largest, backed, [] => ⟨[], backed, .ok largest⟩
  | largest, backed, v :: rest =>
    let move := rebalance elected tolerance backed v
    match move.difference with
    | .error e => ⟨move.elector :: rest, move.backed, .error e⟩
    | .ok difference =>
      let after := pass elected tolerance (max largest difference) move.backed rest
      { after with electors := move.elector :: after.electors }

namespace Graph

/-- One pass over all electors, with the largest difference, at least zero. -/
def balanceOnce (g : Graph n) (tolerance : Int) : Graph n × Except DivisionByZero Int :=
  let after := pass g.elected tolerance 0 g.backed g.electors
  ({ g with electors := after.electors, backed := after.backed }, after.difference)

/-- At most `fuel` more passes after `made` of them, and how many were made at the end. -/
def balanceFrom (tolerance : Int) :
    (fuel made : Nat) → Graph n → Graph n × Except DivisionByZero Nat
  | 0, made, g => (g, .ok made)
  | fuel + 1, made, g =>
    match g.balanceOnce tolerance with
    | (g, .error e) => (g, .error e)
    | (g, .ok difference) =>
      if difference ≤ tolerance then (g, .ok (made + 1))
      else balanceFrom tolerance fuel (made + 1) g

/-- Balances a graph, and tells how many passes were made. -/
def balance (g : Graph n) (config : BalancingConfig) : Graph n × Except DivisionByZero Nat :=
  balanceFrom config.tolerance config.iterations.toNat 0 g

end Graph

end StakingElection.Election
