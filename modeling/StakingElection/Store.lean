import StakingElection.State.Snapshots

/-!
# The state store

States are kept by block hash, each as the text of its export. Saving a state again replaces what
was saved under its hash, and what is listed is ordered by block number, in order of saving where
numbers are equal. A store without a file is empty whenever it is opened.
-/

namespace StakingElection

/-- A saved state. -/
structure SavedState where
  blockHash : String
  blockNumber : Int
  chain : String
  payload : String
  deriving Repr, DecidableEq

/-- What a store keeps, in order of saving. -/
structure Archive where
  saved : List SavedState
  version : Int
  deriving Repr, DecidableEq

namespace Archive

/-- A new archive. -/
def empty : Archive := ⟨[], schemaVersion⟩

/-- The state saved under a hash. -/
def find? (a : Archive) (hash : String) : Option SavedState :=
  a.saved.find? fun s => s.blockHash = hash

/-- Saves a state in place of the one with its hash. -/
def insert (a : Archive) (s : SavedState) : Archive :=
  { a with saved := (a.saved.filter fun x => x.blockHash ≠ s.blockHash) ++ [s] }

/-- The saved states by block number. -/
def list (a : Archive) : List SavedState :=
  a.saved.mergeSort fun x y => decide (x.blockNumber ≤ y.blockNumber)

end Archive

/-- An archive in use. -/
structure Store where
  path : String
  archive : Archive
  isOpen : Bool
  deriving Repr, DecidableEq

namespace Store

def source : String := "timetravel.storage"

/-- Whether a store with this path has no file. -/
def isTransient (path : String) : Bool := path = ":memory:" || path = ""

/-- Whether a number fits into 64 bits. -/
def fits (i : Int) : Bool := -9223372036854775808 ≤ i && i < 9223372036854775808

/-- A store that is not open yet. -/
def closedAt (path : String) (archive : Archive) : Store := ⟨path, archive, false⟩

/-- Opens a store; a newer layout is refused. -/
def start : Task Store Unit := do
  let s ← get
  let archive := if isTransient s.path then .empty else s.archive
  if schemaVersion < archive.version then throw (.store (.newerSchema archive.version))
  set (⟨s.path, archive, true⟩ : Store)
  Task.log .info source s!"Storage opened: {s.path}"

def close : Task Store Unit := modify fun s => { s with isOpen := false }

/-- The archive of a store that is open. -/
def opened : Task Store Archive := do
  let s ← get
  if s.isOpen then return s.archive else throw (.store .closed)

/-- Changes the archive. -/
def update (f : Archive → Archive) : Task Store Unit := do
  let a ← opened
  modify fun s => { s with archive := f a }

/-- What is saved of a state. -/
def savedOf (s : StakingState) : SavedState :=
  ⟨s.blockHash, s.blockNumber, s.profile.name, s.encode⟩

/-- Saves a state, whose text there has to be. -/
def save (s : StakingState) : Task Store Unit := do
  if s.blockHash = "" then throw (.store .noBlockHash)
  if !s.toValue.hasText then throw .numberTooLong
  let _ ← opened
  if !fits s.blockNumber then throw (.store .numberTooLarge)
  update (·.insert (savedOf s))
  Task.log .info source s!"Stored state #{s.blockNumber} ({s.blockHash})"

def has (hash : String) : Task Store Bool := do
  return ((← opened).find? hash).isSome

/-- Loads the state under a hash. -/
def load (hash : String) : Task Store StakingState := do
  match (← opened).find? hash with
  | none => throw (.stored (.unknownBlock hash))
  | some saved => Task.ofExcept id (StakingState.decode saved.payload)

/-- Loads the state under what was given as its hash. -/
def loadGiven (hash : Value) : Task Store StakingState := do
  match hash with
  | .text hash => load hash
  | v =>
    let _ ← opened
    throw (.store (.unusableHash v.kindName))

def list : Task Store (List SavedState) := do
  return (← opened).list

end Store

end StakingElection
