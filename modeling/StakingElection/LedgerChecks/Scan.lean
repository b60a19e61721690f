import StakingElection.Journal
import StakingElection.State.Basic

/-!
# Scanning ledgers and bonds

For every ledger, the stash that it records must be bonded to the controller the ledger is kept
under. For every bond, the controller must keep a ledger that records the stash. Both scans only
read, and report what they find.
-/

namespace StakingElection.LedgerChecks

/-- Where the journal entries of the checks come from. -/
def source : String := "timetravel.ledger"

/-- What is wrong with a ledger. -/
inductive LedgerFault where
  /-- Its stash has no bond. -/
  | unbonded (stash : String)
  /-- Its stash is bonded to another controller. -/
  | otherController (stash controller bonded : String)
  deriving Repr, DecidableEq

namespace LedgerFault

def stash : LedgerFault → String
  | unbonded stash => stash
  | otherController stash _ _ => stash

def entry (f : LedgerFault) : Entry :=
  ⟨.error, source,
    match f with
    | unbonded stash => s!"ledger's controller does not have a bonded stash. {stash}"
    | otherController stash controller bonded =>
      "ledger's controller does not match bonded controller. " ++
        s!"stash: {stash} (controllers: {controller} != {bonded})"⟩

end LedgerFault

/-- Checks the ledger of a controller. -/
def ledgerFault? (bonded : OrderedMap String) (controller : String) (ledger : Ledger) :
    Option LedgerFault :=
  match bonded.find? ledger.stash with
  | none => some (.unbonded ledger.stash)
  | some c => if c = controller then none else some (.otherController ledger.stash controller c)

/-- What is wrong with the ledgers, in their order. -/
def ledgerFaults (ledgers : OrderedMap Ledger) (bonded : OrderedMap String) : List LedgerFault :=
  ledgers.entries.filterMap fun e => ledgerFault? bonded e.1 e.2

/-- The stashes of the ledgers with a fault. -/
def badStashes (ledgers : OrderedMap Ledger) (bonded : OrderedMap String) : List String :=
  (ledgerFaults ledgers bonded).map LedgerFault.stash

/-- What a bond leads to. -/
inductive BondStatus where
  | noLedger
  | otherStash (recorded : String)
  | ok
  deriving Repr, DecidableEq

/-- Follows a bond. -/
def bondStatus (ledgers : OrderedMap Ledger) (stash controller : String) : BondStatus :=
  match ledgers.find? controller with
  | none => .noLedger
  | some l => if l.stash = stash then .ok else .otherStash l.stash

/-- All bonds by what they lead to. -/
structure BondScan where
  /-- Bonds without a ledger: stash and controller. -/
  noLedger : List (String × String)
  /-- Bonds to a ledger of another stash: stash and recorded stash. -/
  inconsistent : List (String × String)
  ok : List String
  deriving Repr, DecidableEq

/-- Follows all bonds. -/
def scanBonds (ledgers : OrderedMap Ledger) (bonded : OrderedMap String) : BondScan where
  noLedger := bonded.entries.filter fun e => bondStatus ledgers e.1 e.2 = .noLedger
  inconsistent := bonded.entries.filterMap fun e =>
    match bondStatus ledgers e.1 e.2 with
    | .otherStash recorded => some (e.1, recorded)
    | _ => none
  ok := (bonded.entries.filter fun e => bondStatus ledgers e.1 e.2 = .ok).map Prod.fst

/-- What is told about a bond. -/
def bondEntry? (ledgers : OrderedMap Ledger) (stash controller : String) : Option Entry :=
  match bondStatus ledgers stash controller with
  | .noLedger =>
    some ⟨.error, source,
      s!"{stash} with bonded does not have a ledger associated with the controller {controller}"⟩
  | .otherStash recorded =>
    some ⟨.error, source, s!"stash in ledger does not match expected {recorded} != {stash}"⟩
  | .ok => none

variable {σ : Type}

/-- Scans the ledgers and tells what is wrong with them. -/
def reportLedgers (ledgers : OrderedMap Ledger) (bonded : OrderedMap String) :
    Task σ (List String) := do
  Task.logAll ((ledgerFaults ledgers bonded).map LedgerFault.entry)
  return badStashes ledgers bonded

/-- Scans the bonds and tells what is wrong with them. -/
def reportBonds (ledgers : OrderedMap Ledger) (bonded : OrderedMap String) : Task σ BondScan := do
  Task.logAll (bonded.entries.filterMap fun e => bondEntry? ledgers e.1 e.2)
  return scanBonds ledgers bonded

end StakingElection.LedgerChecks
