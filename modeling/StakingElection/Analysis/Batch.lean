import StakingElection.Analysis.Operation

/-!
# Runs over several states

A run takes one operation to each of several states and appends a row to a table for each one that
succeeds. A state whose analysis fails is reported and counted, and the run goes on. The ledger
checks take all states at once and write no row.
-/

namespace StakingElection.Analysis

/-- A table in a file. -/
structure Table where
  /-- The path as it is shown. -/
  path : String
  /-- The text, if the path leads to anything. -/
  text? : Option String
  /-- What keeps the file from being opened. -/
  obstacle? : Option DiskFault
  deriving Repr, DecidableEq

namespace Table

/-- A table whose file can be opened. -/
def ofText (path : String) (text? : Option String) : Table := ⟨path, text?, none⟩

/-- Appends a row. A row with a cell that has no text is refused, but a new table has its header by
then. -/
def append (r : Row) : Task Table Unit := do
  if let some fault := (← get).obstacle? then throw (.disk fault)
  if !r.hasText then
    modify fun t => { t with text? := some (r.opened t.text?) }
    throw .numberTooLong
  modify fun t => { t with text? := some (r.appendTo t.text?) }
  Task.log .info "timetravel.reporting" s!"CSV entry stored in {(← get).path}"

/-- The records of a table; none if there is nothing. -/
def records (t : Table) : Except DiskFault (List Csv.Record) :=
  match t.text?, t.obstacle? with
  | none, _ => .ok []
  | some _, some fault => .error fault
  | some text, none => .ok (Csv.readRecords text)

end Table

def runnerSource : String := "timetravel.runner"

/-- The row of one state. -/
def rowOf (op : Operation) (config : Config) : Task StakingState Row :=
  match op with
  | .minActiveStake => StakeResult.toRow <$> minActiveStake config.coefficient
  | _ => ElectionResult.toRow <$> elections config

/-- Analyses one state; gives the number of failures. -/
def runOne (op : Operation) (config : Config) (s : StakingState) : Task Table Nat := do
  match ← Task.attempt (Task.isolated s (rowOf op config)) with
  | .ok row =>
    Table.append row
    return 0
  | .error f =>
    if f.isAnalysis then
      Task.log .error runnerSource s!"Error in operation {op.name} at #{s.blockNumber}: {f.message}"
      return 1
    else throw f

/-- Analyses states in order; gives the number of failures. -/
def runAll (op : Operation) (config : Config) : List StakingState → Task Table Nat
  | [] => pure 0
  | s :: rest => do
    let failures ← runOne op config s
    return failures + (← runAll op config rest)

/-- Checks the ledgers of a pair of states; gives the number of failures. -/
def runLedgerChecks (states : List StakingState) : Task Table Nat := do
  match ← Task.attempt (ledgerChecks states) with
  | .ok r =>
    Task.log .info runnerSource
      (s!"Ledger checks #{r.parentBlock} -> #{r.childBlock}: {r.childBad.length} bad stashes, " ++
        s!"{r.childBonds.noLedger.length} none ledgers, " ++
        s!"{r.childBonds.inconsistent.length} inconsistent ledgers, {r.migrated.length} migrated")
    return 0
  | .error f =>
    if f.isAnalysis then
      Task.log .error runnerSource s!"Error in operation {Operation.ledgerChecks.name}: {f.message}"
      return 1
    else throw f

/-- Runs an operation over states; gives the number of failures. -/
def run (op : Operation) (states : List StakingState) (config : Config) : Task Table Nat :=
  match op with
  | .ledgerChecks => runLedgerChecks states
  | op => runAll op config states

end StakingElection.Analysis
