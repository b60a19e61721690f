import StakingElection.Csv
import StakingElection.Election.Solver

/-!
# Result rows

An analysis of one state gives one row of a table. A table is a CSV text: it starts with the header
when its first row comes, and later rows are appended as they are. A value that is not known is an
empty cell.
-/

namespace StakingElection.Analysis

/-- A row: the value of each column. -/
structure Row where
  fields : List (String × Value)

namespace Row

/-- The columns with these values. -/
def ofCells (columns : List String) (cells : List Value) : Row := ⟨columns.zip cells⟩

/-- The names of the columns. -/
def header (r : Row) : List String := r.fields.map Prod.fst

/-- The value of a cell. -/
def cell (v : Value) : Value := if v.isNull then .text "" else v

/-- The columns with their cells. -/
def record (r : Row) : List (String × Value) := r.fields.map fun f => (f.1, cell f.2)

/-- Whether every cell of a row is given as a text. -/
def hasText (r : Row) : Bool := r.fields.all fun f => f.2.hasText

/-- A line of the table. -/
def line (cells : List String) : String := String.ofList (Csv.writeRow (cells.map String.toList))

/-- The line of a row. -/
def text (r : Row) : String := line (r.record.map fun f => f.2.toText)

/-- The text of a table that a row is about to be appended to; one that does not exist yet gets its
header. -/
def opened (r : Row) (table? : Option String) : String := table?.getD (line r.header)

/-- The text of a table with one more row. -/
def appendTo (r : Row) (table? : Option String) : String := r.opened table? ++ r.text

end Row

/-! ## The two kinds of rows -/

/-- The least active stake at a block. -/
structure StakeResult where
  blockNumber : Int
  minActiveStake? : Option Int
  deriving Repr, DecidableEq

def stakeColumns : List String := ["block_number", "min_active_stake"]

def StakeResult.toRow (r : StakeResult) : Row :=
  .ofCells stakeColumns [.int r.blockNumber, .ofInt? r.minActiveStake?]

/-- The counts of a snapshot and its size. -/
structure Extent where
  voters : Int
  targets : Int
  size : Nat
  deriving Repr, DecidableEq

/-- The elections over one snapshot. -/
structure Unbounded where
  phragmen : Score
  dpos : Score
  extent : Extent
  deriving Repr, DecidableEq

/-- All elections at a block, over the bounded snapshot and, where asked for, over all voters. -/
structure ElectionResult where
  blockNumber : Int
  activeEra : Value
  solver : Election.Method
  phragmen : Score
  phragMms : Score
  dpos : Score
  extent : Extent
  minActiveStake? : Option Int
  unbounded? : Option Unbounded

/-- The columns of a score. -/
def scoreColumns (name : String) : List String :=
  [s!"{name}_min_stake", s!"{name}_sum_stake", s!"{name}_sum_stake_squared"]

def electionColumns : List String :=
  ["block_number", "active_era", "solver"] ++ scoreColumns "phrag" ++ scoreColumns "phrag_mms" ++
  scoreColumns "phrag_unbound" ++ scoreColumns "dpos" ++ scoreColumns "dpos_unbound" ++
  ["voters", "targets", "snapshot_size", "voters_unbound", "targets_unbound",
    "snapshot_size_unbound", "min_active_stake"]

/-- The cells of a score. -/
def scoreCells : Option Score → List Value
  | some s => [.int s.minimalStake, .int s.sumStake, .int s.sumStakeSquared]
  | none => [.null, .null, .null]

/-- The cells of counts. -/
def extentCells : Option Extent → List Value
  | some e => [.int e.voters, .int e.targets, .int e.size]
  | none => [.null, .null, .null]

def ElectionResult.toRow (r : ElectionResult) : Row :=
  .ofCells electionColumns <|
    [.int r.blockNumber, r.activeEra, .text r.solver.name] ++
    scoreCells (some r.phragmen) ++ scoreCells (some r.phragMms) ++
    scoreCells (r.unbounded?.map Unbounded.phragmen) ++
    scoreCells (some r.dpos) ++ scoreCells (r.unbounded?.map Unbounded.dpos) ++
    extentCells (some r.extent) ++ extentCells (r.unbounded?.map Unbounded.extent) ++
    [.ofInt? r.minActiveStake?]

end StakingElection.Analysis
