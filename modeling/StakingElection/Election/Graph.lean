import StakingElection.Election.Tally
import StakingElection.Score
import StakingElection.Snapshot

/-!
# Election graphs

Both solvers work on a graph between electors and candidates. A candidate is a place in the target
list, of which there are `n`. An elector has an edge to each candidate it votes for, with the load
and the stake that it puts on that candidate. What a candidate is backed with and who is elected
stands in the graph.
-/

namespace StakingElection.Election

attribute [local instance] zeroAmount

/-- A division by zero, which only amounts out of their usual range lead to. -/
structure DivisionByZero where
  deriving Repr, DecidableEq

/-- A vote: the load and the stake that an elector puts on a candidate. -/
structure Edge (n : Nat) where
  candidate : Fin n
  load : Int
  weight : Int
  deriving Repr, DecidableEq

/-- A voter in an election: the stake it can spend, its load and its votes. -/
structure Elector (n : Nat) where
  who : String
  budget : Int
  load : Int
  edges : List (Edge n)
  deriving Repr, DecidableEq

namespace Elector

variable {n : Nat}

/-- Whether an elector votes for a candidate. -/
def backs (v : Elector n) (c : Fin n) : Bool := v.edges.any fun e => e.candidate = c

/-- The stake on all edges. -/
def spent (v : Elector n) : Int := (v.edges.map Edge.weight).sum

end Elector

/-- The state of an election among `n` candidates. The elected ones are in order of election. -/
structure Graph (n : Nat) where
  names : Vector String n
  backed : Tally n
  elected : List (Fin n)
  electors : List (Elector n)

namespace Graph

variable {n : Nat}

/-- The candidate of a name; a name that stands twice in the list is its last place. -/
def candidate? (names : Vector String n) (name : String) : Option (Fin n) :=
  (List.finRange n).reverse.find? fun c => names.get c = name

/-- A voter with an edge to each known target it names. -/
def electorOf (names : Vector String n) (v : Voter) : Elector n where
  who := v.id
  budget := v.stake
  load := 0
  edges := (v.targets.filterMap (candidate? names)).eraseDups.map fun c => ⟨c, 0, 0⟩

/-- The graph before the first round. -/
def ofVoters (names : Vector String n) (voters : List Voter) : Graph n where
  names
  backed := .zero
  elected := []
  electors := voters.map (electorOf names)

/-- The stake of the electors that vote for a candidate. -/
def approval (g : Graph n) (c : Fin n) : Int :=
  ((g.electors.filter (·.backs c)).map Elector.budget).sum

/-- The approvals of all candidates. -/
def approvals (g : Graph n) : Tally n := .ofFn g.approval

/-- The candidates that are not elected. -/
def remaining (g : Graph n) : List (Fin n) :=
  (List.finRange n).filter fun c => !g.elected.contains c

/-- The first candidate whose score is better than that of each one before it. -/
def firstBest? (better : Int → Int → Bool) (scored : List (Fin n × Int)) : Option (Fin n × Int) :=
  scored.foldl
    (fun best s =>
      match best with
      | none => some s
      | some b => if better s.2 b.2 then some s else best)
    none

end Graph

/-- The winners with their backing, in order of election, and where the stake goes. -/
structure Outcome where
  winners : List (String × Int)
  assignments : List Assignment
  deriving Repr, DecidableEq

namespace Graph

variable {n : Nat}

/-- The stake that an elector hands to elected candidates. -/
def sharesOf (g : Graph n) (v : Elector n) : List (String × Int) :=
  (v.edges.filter fun e => g.elected.contains e.candidate && 0 < e.weight).map fun e =>
    (g.names.get e.candidate, e.weight)

/-- The result of an election; electors that hand out nothing have no assignment. -/
def outcome (g : Graph n) : Outcome where
  winners := g.elected.map fun c => (g.names.get c, g.backed.get c)
  assignments :=
    (g.electors.map fun v => ⟨v.who, g.sharesOf v⟩).filter fun a => !a.shares.isEmpty

end Graph

end StakingElection.Election
