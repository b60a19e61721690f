import StakingElection.Failure
import StakingElection.State.Basic

/-!
# The export of a state

A state is exported as one object. Reading an export is lenient: a missing field takes its default,
numbers and names may come as any value that stands for one, and only the block number and the stash
of a ledger must be there. The counts of a snapshot are not exported and are counted anew.
-/

namespace StakingElection

namespace Ledger

def toValue (l : Ledger) : Value :=
  .object [("stash", .text l.stash), ("total", .int l.total), ("active", .int l.active)]

/-- Reads a ledger; without an active part all of it is active. -/
def ofValue (raw : Value) : Except DecodeFault Ledger := do
  let total ← (← raw.fieldD "total" (.int 0)).toInt
  let stash ← raw.requiredField "stash"
  let active ← (← raw.fieldD "active" (.int total)).toInt
  return { stash := stash.toText, total, active }

end Ledger

/-- An object from a map. -/
def mapValue {α : Type} (f : α → Value) (m : OrderedMap α) : Value :=
  .object (m.entries.map fun e => (e.1, f e.2))

/-- Reads each field of an object. -/
def readMap {α : Type} (f : Value → Except DecodeFault α) (raw : Value) :
    Except DecodeFault (OrderedMap α) := do
  return .ofList (← (← raw.fields).mapM fun e => return (e.1, ← f e.2))

namespace Slots

def toValue (s : Slots) : Value :=
  .object [
    ("snapshot", (s.snapshot?.map Snapshot.toValue).getD .null),
    ("desired_targets", .ofInt? s.seats?)]

/-- Reads the slots of an export; without a snapshot they are empty, and the number of winners
defaults to that of the validators. -/
def ofValue (raw : Value) (validatorCount : Int) : Except DecodeFault Slots := do
  if !raw.isGiven then return .empty
  let snapshot ← raw.fieldD "snapshot" .null
  if snapshot.isNull then return .empty
  let snapshot ← Snapshot.ofValue snapshot
  let seats ← raw.fieldD "desired_targets" .null
  let seats ← if seats.isNull then pure validatorCount else seats.toInt
  return ⟨some snapshot, some snapshot.metadata, some seats⟩

end Slots

namespace Profile

/-- The profile of the chain that a value names. -/
def ofValue (raw : Value) : Except Failure Profile := do
  let chain ← raw.toName.mapError .decode
  match ofChain? chain with
  | some p => return p
  | none => throw (.precondition (.knownChain chain))

end Profile

namespace StakingState

/-- The export of a state. -/
def toValue (s : StakingState) : Value :=
  .object [
    ("chain", .text s.profile.name),
    ("block_hash", .text s.blockHash),
    ("block_number", .int s.blockNumber),
    ("active_era", s.activeEra),
    ("validator_count", .int s.validatorCount),
    ("validators", .list (s.validators.map .text)),
    ("nominators", mapValue (fun ts => .list (ts.map .text)) s.nominators),
    ("ledgers", mapValue Ledger.toValue s.ledgers),
    ("bonded", mapValue .text s.bonded),
    ("payees", mapValue .text s.payees),
    ("election", s.slots.toValue)]

/-- The block number of an export, which must be an object. -/
def readBlockNumber (raw : Value) : Except DecodeFault Int := do
  match raw with
  | .object _ => (← raw.requiredField "block_number").toInt
  | _ => throw (.notIndexed raw.kindName)

/-- Reads an export. -/
def ofValue (raw : Value) : Except Failure StakingState := do
  let field (key : String) (default : Value) : Except Failure Value :=
    (raw.fieldD key default).mapError .decode
  let blockNumber ← (readBlockNumber raw).mapError .decode
  let blockHash ← field "block_hash" (.text "")
  let profile ← Profile.ofValue (← field "chain" (.text "polkadot"))
  let activeEra ← field "active_era" .null
  let validatorCount ← (← field "validator_count" (.int 0)).toInt.mapError .decode
  let validators ← (← field "validators" (.list [])).toTexts.mapError .decode
  let nominators ← (readMap Value.toTexts (← field "nominators" (.object []))).mapError .decode
  let ledgers ← (readMap Ledger.ofValue (← field "ledgers" (.object []))).mapError .decode
  let bonded ← (readMap (pure ·.toText) (← field "bonded" (.object []))).mapError .decode
  let payees ← (readMap (pure ·.toText) (← field "payees" (.object []))).mapError .decode
  let slots ← (Slots.ofValue (← field "election" .null) validatorCount).mapError .decode
  return {
    blockNumber, blockHash := blockHash.toText, profile, activeEra, validatorCount, validators,
    nominators, ledgers, bonded, payees, slots }

/-- The text that a state is stored as. -/
def encode (s : StakingState) : String := Json.print Json.compact s.toValue

/-- The state that a text stores. -/
def decode (text : String) : Except Failure StakingState := do
  ofValue (← (Json.parse text).mapError .json)

end StakingState

end StakingElection
