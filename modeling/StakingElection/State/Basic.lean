import StakingElection.ActiveStake
import StakingElection.Profile
import StakingElection.Snapshot

/-!
# Staking states

A staking state is the view of a chain's staking system at one block: who is bonded to which
controller, the ledgers of the controllers, who nominates whom, and three slots for the snapshot of
the next election.

Bonds lead from a stash to its controller, ledgers are kept by controller, and the stake of a stash
is the active part of the ledger that its bond leads to.
-/

namespace StakingElection

/-- The funds of a stash. -/
structure Ledger where
  stash : String
  total : Int
  active : Int
  deriving Repr, DecidableEq

/-- The snapshot of an election with its counts and its number of winners, as far as they are set.
-/
structure Slots where
  snapshot? : Option Snapshot
  metadata? : Option Metadata
  seats? : Option Int
  deriving Repr, DecidableEq

namespace Slots

def empty : Slots := ⟨none, none, none⟩

end Slots

/-- The staking and election state of one block. The active era is passed through unread. -/
structure StakingState where
  blockNumber : Int
  blockHash : String
  profile : Profile
  activeEra : Value
  validatorCount : Int
  validators : List String
  nominators : OrderedMap (List String)
  /-- The ledgers by controller. -/
  ledgers : OrderedMap Ledger
  /-- The controller of each stash. -/
  bonded : OrderedMap String
  /-- Where the rewards of each stash go. -/
  payees : OrderedMap String
  slots : Slots

namespace StakingState

/-- The ledger that the bond of a stash leads to. -/
def ledgerOfStash? (s : StakingState) (stash : String) : Option Ledger :=
  (s.bonded.find? stash).bind s.ledgers.find?

/-- The active stake of a stash, zero without a ledger. -/
def weightOf (s : StakingState) (stash : String) : Int :=
  ((s.ledgerOfStash? stash).map Ledger.active).getD 0

/-- How many ledgers, bonds and payees there are. -/
structure Counts where
  ledgers : Nat
  bonded : Nat
  payees : Nat
  deriving Repr, DecidableEq

def counts (s : StakingState) : Counts := ⟨s.ledgers.size, s.bonded.size, s.payees.size⟩

/-- The order of voters: the heavier first, then by name. -/
def heavier (a b : String × Int) : Bool := b.2 < a.2 || (a.2 == b.2 && decide (a.1 ≤ b.1))

/-- All voters with their weights: nominators and validators, the heaviest first. -/
def weightedVoters (s : StakingState) : List (String × Int) :=
  ((s.nominators.keys ++ s.validators).eraseDups.map fun who => (who, s.weightOf who)).mergeSort
    heavier

/-- All voters, the heaviest first. -/
def voterList (s : StakingState) : List String := s.weightedVoters.map Prod.fst

/-- The least stake that is not zero among the voters that the profile lets take part. -/
def minActiveStake (s : StakingState) (coefficient : Coefficient) :
    Except DecodeFault (Option Int) :=
  let voters := s.weightedVoters
  StakingElection.minActiveStake (voters.map Prod.snd) s.profile.maxElectingVoters voters.length
    coefficient

/-- Fills the slots. -/
def putSnapshot (s : StakingState) (slots : Slots) : StakingState :=
  { s with slots }

/-- Empties the slots. -/
def killSnapshot (s : StakingState) : StakingState := { s with slots := .empty }

end StakingState

end StakingElection
