import StakingElection.OrderedMap
import StakingElection.Text.Integer

/-!
# Supports and scores

The outcome of an election is a list of assignments: which stake each voter hands to which target.
Gathered by target they are the supports, and the supports of the winners reduce to a score. A score
is better with a larger least support, then with a larger sum, then with a smaller sum of squares.
-/

namespace StakingElection

/-- The zero that sums of amounts start from, whatever else is imported. -/
abbrev zeroAmount : Zero Int := ⟨0⟩

attribute [local instance] zeroAmount

/-- The stake that one voter hands to each of its targets. -/
structure Assignment where
  who : String
  shares : List (String × Int)
  deriving Repr, DecidableEq

/-- All the stake that a voter hands out. -/
def Assignment.total (a : Assignment) : Int := (a.shares.map Prod.snd).sum

/-- The backing of one target: its total and where it comes from. -/
structure Support where
  total : Int
  backers : List (String × Int)
  deriving Repr, DecidableEq

namespace Support

/-- No backing. -/
def none : Support := ⟨0, []⟩

/-- A support with one more share. -/
def add (s : Support) (who : String) (amount : Int) : Support :=
  ⟨s.total + amount, s.backers ++ [(who, amount)]⟩

end Support

/-- One number for each of the three ways in which outcomes are compared. -/
structure Score where
  minimalStake : Int
  sumStake : Int
  sumStakeSquared : Int
  deriving Repr, DecidableEq, Inhabited

namespace Score

/-- The score of an election without winners. -/
def zero : Score := ⟨0, 0, 0⟩

/-- The score of winners with these totals. -/
def ofTotals : List Int → Score
  | [] => zero
  | t :: ts =>
    { minimalStake := ts.foldl min t
      sumStake := (t :: ts).sum
      sumStakeSquared := ((t :: ts).map fun x => x * x).sum }

/-- Whether one outcome beats another. -/
def isBetterThan (a b : Score) : Bool :=
  if a.minimalStake ≠ b.minimalStake then b.minimalStake < a.minimalStake
  else if a.sumStake ≠ b.sumStake then b.sumStake < a.sumStake
  else a.sumStakeSquared < b.sumStakeSquared

/-- The text of a score. -/
def toText (s : Score) : String :=
  s!"ElectionScore(minimal_stake={s.minimalStake}, sum_stake={s.sumStake}, " ++
    s!"sum_stake_squared={s.sumStakeSquared})"

/-- Whether all parts of a score are given as texts. -/
def hasText (s : Score) : Bool :=
  Text.hasText s.minimalStake && Text.hasText s.sumStake && Text.hasText s.sumStakeSquared

end Score

/-- Adds one share to the support of its target; a new target goes to the end. -/
def addShare (who : String) (m : OrderedMap Support) (share : String × Int) : OrderedMap Support :=
  m.insert share.1 (((m.find? share.1).getD Support.none).add who share.2)

/-- The support of every target that is named, in order of first appearance. -/
def supportsOf (assignments : List Assignment) : OrderedMap Support :=
  assignments.foldl (fun m a => a.shares.foldl (addShare a.who) m) ∅

/-- The score of the supports of the winners. -/
def evaluate (supports : List (String × Support)) : Score :=
  .ofTotals (supports.map fun s => s.2.total)

/-- The support of every winner, in the order of the winners; a winner nobody backs has none. -/
def winnerSupports (winners : List String) (assignments : List Assignment) :
    List (String × Support) :=
  let supports := supportsOf assignments
  winners.map fun w => (w, (supports.find? w).getD Support.none)

end StakingElection
