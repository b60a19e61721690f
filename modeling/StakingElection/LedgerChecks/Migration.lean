import StakingElection.LedgerChecks.Scan

/-!
# Simulated migration

A migration makes stashes their own controllers: the bond of each is set to itself and its ledger
moves there. It is tried out on a copy of the staking relation, stash by stash; one whose ledger
cannot be found stops it, and what was done before stays done.
-/

namespace StakingElection.LedgerChecks

/-- A copy of the staking relation. -/
structure Relation where
  ledgers : OrderedMap Ledger
  bonded : OrderedMap String
  payees : OrderedMap String

namespace Relation

def ofState (s : StakingState) : Relation := ⟨s.ledgers, s.bonded, s.payees⟩

def counts (r : Relation) : StakingState.Counts := ⟨r.ledgers.size, r.bonded.size, r.payees.size⟩

/-- The ledger to move for a stash and the key it is kept under: that of the controller that is
given, or else of the controller that the stash is bonded to here. -/
def source? (r : Relation) (stash controller : String) : Option (String × Ledger) :=
  match r.ledgers.find? controller with
  | some l => some (controller, l)
  | none =>
    let bonded := (r.bonded.find? stash).getD controller
    (r.ledgers.find? bonded).map fun l => (bonded, l)

/-- Makes a stash its own controller. -/
def moveLedger (r : Relation) (stash key : String) (ledger : Ledger) : Relation :=
  { r with
    bonded := r.bonded.insert stash stash
    ledgers := (r.ledgers.erase key).insert stash ledger }

end Relation

/-- Migrates one stash. -/
def migrateOne (stash controller : String) : Task Relation Unit := do
  let r ← get
  match r.source? stash controller with
  | none => throw (.precondition (.ledger controller stash))
  | some (key, ledger) =>
    if ledger.stash ≠ stash then
      Task.log .warning source s!"ledger stash != stash in batch {ledger.stash} {stash}"
    set (r.moveLedger stash key ledger)

/-- Migrates stashes in order; gives the migrated ones. -/
def migrate : List (String × String) → Task Relation (List String)
  | [] => pure []
  | (stash, controller) :: rest => do
    migrateOne stash controller
    return stash :: (← migrate rest)

end StakingElection.LedgerChecks
