import StakingElection.Decode
import StakingElection.Json.Printer
import StakingElection.OrderedMap

/-!
# Election snapshots

A snapshot is the frozen view of voters and targets that one election runs on. Its size is that of
its canonical text.
-/

namespace StakingElection

/-- A voter: its stake and the targets it votes for. -/
structure Voter where
  id : String
  stake : Int
  targets : List String
  deriving Repr, DecidableEq

namespace Voter

/-- Whether a voter can back anything. -/
def isGood (v : Voter) : Bool := 0 < v.stake && !v.targets.isEmpty

def toValue (v : Voter) : Value :=
  .list [.text v.id, .int v.stake, .list (v.targets.map .text)]

def ofValue (raw : Value) : Except DecodeFault Voter := do
  let (id, stake, targets) ← raw.threeParts
  return { id := id.toText, stake := ← stake.toInt, targets := ← targets.toTexts }

end Voter

/-- How many voters and targets a snapshot has. -/
structure Metadata where
  voters : Int
  targets : Int
  deriving Repr, DecidableEq

/-- The text of the counts. -/
def Metadata.toText (m : Metadata) : String :=
  s!"SnapshotMetadata(voters={m.voters}, targets={m.targets})"

/-- How many voters and targets a snapshot may have. -/
structure Bounds where
  voters : Int
  targets : Int
  deriving Repr, DecidableEq

/-- Voters and targets of one election. -/
structure Snapshot where
  voters : List Voter
  targets : List String
  deriving Repr, DecidableEq

namespace Snapshot

def metadata (s : Snapshot) : Metadata := ⟨s.voters.length, s.targets.length⟩

/-- The voters by id; a repeated id stands for its last voter. -/
def voterIndex (s : Snapshot) : OrderedMap Voter := .ofList (s.voters.map fun v => (v.id, v))

def toValue (s : Snapshot) : Value :=
  .object [("voters", .list (s.voters.map Voter.toValue)), ("targets", .list (s.targets.map .text))]

/-- Reads a snapshot; a missing list is empty. -/
def ofValue (raw : Value) : Except DecodeFault Snapshot := do
  let voters ← (← (← raw.fieldD "voters" (.list [])).items).mapM Voter.ofValue
  let targets ← (← raw.fieldD "targets" (.list [])).toTexts
  return { voters, targets }

/-- The canonical text of a snapshot. -/
def encode (s : Snapshot) : String := Json.print Json.compact s.toValue

/-- The size of the canonical text, which is ASCII, in bytes. -/
def size (s : Snapshot) : Nat := s.encode.length

end Snapshot

end StakingElection
