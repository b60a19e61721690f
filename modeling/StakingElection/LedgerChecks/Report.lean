import StakingElection.LedgerChecks.Migration

/-!
# The ledger report

The checks take the states of a parent and a child block. They scan the child, then the parent, and
try to repair on a copy of the parent every bond that has no ledger in the child.
-/

namespace StakingElection.LedgerChecks

open StakingState (Counts)

/-- What the checks found. -/
structure Report where
  parentBlock : Int
  childBlock : Int
  childCounts : Counts
  childBad : List String
  childBonds : BondScan
  parentCounts : Counts
  parentBad : List String
  migrated : List String
  relation : Relation

namespace Report

/-- Whether there are as many ledgers as bonds and payees in the child. -/
def inSync (r : Report) : Bool :=
  r.childCounts.ledgers == r.childCounts.bonded && r.childCounts.bonded == r.childCounts.payees

/-- Whether nothing is wrong with the child. -/
def isConsistent (r : Report) : Bool :=
  r.inSync && r.childBad.isEmpty && r.childBonds.noLedger.isEmpty &&
  r.childBonds.inconsistent.isEmpty

end Report

/-- The parent and the child of two states, by block number. -/
def orderStates : List StakingState → Except Precondition (StakingState × StakingState)
  | [a, b] => .ok (if b.blockNumber < a.blockNumber then (b, a) else (a, b))
  | states => .error (.twoStates states.length)

/-- The text of counts. -/
def countsText (c : Counts) : String :=
  s!"#ledgers: {c.ledgers}, #bonded: {c.bonded}, #payees: {c.payees}"

variable {σ : Type}

def tell (severity : Severity) (text : String) : Task σ Unit := Task.log severity source text

/-- Scans the child. -/
def checkChild (child : StakingState) : Task σ (List String × BondScan) := do
  let counts := child.counts
  tell .info s!" ------ Running logic for child block #{child.blockNumber}.."
  tell .info (countsText counts)
  if ¬ (counts.ledgers = counts.bonded ∧ counts.bonded = counts.payees) then
    tell .error s!"#s out of sync: {countsText counts}"
  let bad ← reportLedgers child.ledgers child.bonded
  let bonds ← reportBonds child.ledgers child.bonded
  tell .warning
    (s!" Report: #none_ledgers: {bonds.noLedger.length}; " ++
      s!"#inconsistent_ledgers: {bonds.inconsistent.length}, #bad_ledgers: {bad.length}")
  return (bad, bonds)

/-- Scans the parent. -/
def checkParent (parent : StakingState) (bonds : BondScan) : Task σ (List String) := do
  tell .info s!" ------ Running logic for parent block #{parent.blockNumber}.."
  tell .info (countsText parent.counts)
  let bad ← reportLedgers parent.ledgers parent.bonded
  tell .warning
    (s!" Report: none_ledgers: {bonds.noLedger.length}, inconsistent_ledgers: {bad.length}, " ++
      s!"ok_ledgers: {bonds.ok.length}, total_ledgers: {parent.counts.ledgers}")
  return bad

/-- Tries the migration out on a copy of the parent. -/
def simulate (parent : StakingState) (batch : List (String × String)) :
    Task σ (List String × Relation) :=
  Task.isolated (Relation.ofState parent) do
    let migrated ← migrate batch
    return (migrated, ← get)

/-- Checks two states. -/
def check (states : List StakingState) : Task σ Report := do
  let (parent, child) ← Task.ofExcept .precondition (orderStates states)
  let (childBad, childBonds) ← checkChild child
  let parentBad ← checkParent parent childBonds
  let (migrated, relation) ← simulate parent childBonds.noLedger
  tell .info s!"After deprecate: {countsText relation.counts}"
  return {
    parentBlock := parent.blockNumber
    childBlock := child.blockNumber
    childCounts := child.counts
    childBad, childBonds
    parentCounts := parent.counts
    parentBad, migrated, relation }

end StakingElection.LedgerChecks
