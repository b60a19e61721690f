import StakingElection.Journal
import StakingElection.State.Export

/-!
# Building snapshots

The snapshot of an election takes the heaviest voters up to a bound and all validators as targets.
It is built once and then reused until it is forced or the slots are emptied; what was stored is
read back and its counts are compared.
-/

namespace StakingElection.StakingState

/-- Where the journal entries of this module come from. -/
def snapshotSource : String := "timetravel.snapshot"

/-- A voter with its weight and its votes: a nominator votes for those of its nominations that are
validators, a validator for itself. -/
def voterOf (s : StakingState) (who : String × Int) : Voter where
  id := who.1
  stake := who.2
  targets :=
    match s.nominators.find? who.1 with
    | some targets => targets.filter s.validators.contains
    | none => [who.1]

/-- How many of `total` voters are taken: the scan ends when there are enough voters, or when it has
looked at as many entries as it may. Nothing is ever as many as a bound that is no number. -/
def takenVoters (limit : Option Int) (total : Int) (coefficient : Coefficient) :
    Except DecodeFault Nat := do
  let allowed := acceptedVoters limit total
  if allowed ≤ 0 then return 0
  let bound ← coefficient.bound allowed
  return if bound.isNan then allowed.toNat
    else min allowed.toNat (bound.countsBelow allowed.toNat)

/-- With an integer as coefficient the scan takes so many voters. -/
theorem takenVoters_whole (limit : Option Int) (total c : Int) :
    takenVoters limit total (.whole c) =
      .ok (min (acceptedVoters limit total) (c * acceptedVoters limit total)).toNat := by
  unfold takenVoters
  by_cases h : acceptedVoters limit total ≤ 0
  · have h0 : (min (acceptedVoters limit total) (c * acceptedVoters limit total)).toNat = 0 := by
      omega
    simp only [h, if_pos, h0]
    rfl
  · simp only [h, if_neg, not_false_eq_true]
    change Except.ok (min _ (c * acceptedVoters limit total).toNat) = _
    congr 1
    omega

/-- The voters of an election, at most `limit` of them, the heaviest first. -/
def electingVoters (s : StakingState) (limit : Option Int) (coefficient : Coefficient) :
    Except Failure (List Voter) :=
  match s.weightedVoters with
  | [] => .error (.unavailable .noVoters)
  | voters => do
    let count ← (takenVoters limit voters.length coefficient).mapError .decode
    return (voters.take count).map s.voterOf

/-- The targets of an election, sorted. More of them than `limit` are an error. -/
def electableTargets (s : StakingState) (limit : Option Int) : Except Unavailable (List String) :=
  if s.validators.isEmpty then .error .noTargets
  else
    let targets := s.validators.eraseDups.mergeSort fun a b => decide (a ≤ b)
    match limit with
    | some limit =>
      if limit < (targets.length : Int) then .error (.tooManyTargets targets.length limit)
      else .ok targets
    | none => .ok targets

/-- The bounds that the profile sets; without a bound on voters there is room for all of them. -/
def bounds (s : StakingState) : Bounds where
  voters := s.profile.maxElectingVoters.getD s.voterList.length
  targets := s.profile.maxElectableTargets

/-- The bounds with room for all voters. -/
def openBounds (s : StakingState) : Bounds :=
  ⟨s.voterList.length, s.profile.maxElectableTargets⟩

/-- The slots as they are filled by a fresh snapshot. -/
def freshSlots (s : StakingState) (targets : List String) (voters : List Voter) : Slots where
  snapshot? := some ⟨voters, targets⟩
  metadata? := some ⟨voters.length, targets.length⟩
  seats? := some (min s.validatorCount targets.length)

/-- What the slots hold, if it is what was written. -/
def readBack (s : StakingState) (wrote : Metadata) : Except StoredFault (Snapshot × Metadata) :=
  match s.slots.snapshot?, s.slots.metadata? with
  | some snapshot, some metadata =>
    if snapshot.metadata ≠ metadata ∨ metadata ≠ wrote then
      .error (.miscounted wrote metadata snapshot.metadata)
    else .ok (snapshot, metadata)
  | _, _ => .error .lost

/-- Takes the voters of an election, and tells how many there are. -/
def takeVoters (limit : Option Int) (coefficient : Coefficient) :
    Task StakingState (List Voter) := do
  let s ← get
  let voters ← Task.ofExcept id (s.electingVoters limit coefficient)
  Task.log .debug "timetravel.state"
    s!"electing_voters: took {voters.length} of {s.voterList.length} voters (seen {voters.length})"
  return voters

/-- Builds a snapshot and stores it. -/
def buildFresh (limits : Bounds) (coefficient : Coefficient) :
    Task StakingState (Snapshot × Metadata) := do
  modify killSnapshot
  let s ← get
  let targets ← Task.ofExcept .unavailable (s.electableTargets limits.targets)
  let voters ← takeVoters limits.voters coefficient
  if (targets.length : Int) < s.validatorCount then
    Task.log .warning snapshotSource
      (s!"build_snapshot: desired targets {s.validatorCount} capped to " ++
        s!"the {targets.length} available targets.")
  modify (·.putSnapshot (s.freshSlots targets voters))
  Task.ofExcept .stored ((← get).readBack ⟨voters.length, targets.length⟩)

/-- The snapshot in the slots, or a new one if there is none or `force` is set. Without bounds all
voters are taken. -/
def build (bounds : Option Bounds) (force : Bool) (coefficient : Coefficient) :
    Task StakingState (Snapshot × Metadata) := do
  let s ← get
  match s.slots.snapshot?, force with
  | some snapshot, false =>
    Task.log .info snapshotSource
      s!"build_snapshot: snapshot already exists at #{s.blockNumber}, reusing it."
    return (snapshot, s.slots.metadata?.getD snapshot.metadata)
  | _, _ =>
    let limits := bounds.getD s.openBounds
    let mode := if bounds.isNone then "unbounded" else "bounded"
    Task.log .info snapshotSource
      (s!"build_snapshot: creating {mode} snapshot at #{s.blockNumber} " ++
        s!"(voter limit {limits.voters}, target limit {limits.targets}).")
    buildFresh limits coefficient

/-- The snapshot in the slots, or a new one within the bounds of the profile. -/
def buildBounded (force : Bool) (coefficient : Coefficient) :
    Task StakingState (Snapshot × Metadata) := do
  build (some (← get).bounds) force coefficient

/-- A new snapshot over all voters, unless the one in the slots is asked for. -/
def buildUnbounded (force : Bool) (coefficient : Coefficient) :
    Task StakingState (Snapshot × Metadata) :=
  build none force coefficient

end StakingElection.StakingState
