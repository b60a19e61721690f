import StakingElection.Decode
import StakingElection.Election.Feasibility
import StakingElection.Json.Parser
import StakingElection.Profile
import StakingElection.Toml.Quoted

/-!
# Failures

Everything that can stop an operation, by its cause. An analysis failure is expected: a run over
many states reports it and goes on with the next state. A bad value ends a whole command with a
report. All else is a fault of the input's form or of the surroundings, and nothing catches it.

A failure whose text would show a number that is too long for a text is a bad value instead,
whatever its cause (`Failure.hasText`).
-/

namespace StakingElection

/-- Why the election data cannot be listed. -/
inductive Unavailable where
  | noVoters
  | noTargets
  | tooManyTargets (count : Nat) (limit : Int)
  deriving Repr, DecidableEq

def Unavailable.message : Unavailable → String
  | noVoters => "voter list is empty"
  | noTargets => "no electable targets"
  | tooManyTargets count limit => s!"target snapshot too big: {count} > {limit}"

/-- Why a stored snapshot or state cannot be used. -/
inductive StoredFault where
  /-- A snapshot is gone right after it was written. -/
  | lost
  /-- The counts that were written, and those read back from the metadata and from the snapshot. -/
  | miscounted (wrote read counted : Metadata)
  /-- No state is stored under a block hash. -/
  | unknownBlock (hash : String)
  deriving Repr, DecidableEq

def StoredFault.message : StoredFault → String
  | lost => "snapshot missing right after it was stored"
  | miscounted wrote read counted =>
    s!"snapshot counts do not read back: wrote {wrote.toText}, " ++
      s!"read {read.toText} / {counted.toText}"
  | unknownBlock hash => s!"no stored state for block {hash}"

/-- What an operation needs and was not given. -/
inductive Precondition where
  | knownChain (name : String)
  | twoStates (got : Nat)
  | ledger (controller stash : String)
  deriving Repr, DecidableEq

def Precondition.message : Precondition → String
  | knownChain name => s!"unexpected chain: {Text.quoted name}"
  | twoStates got => s!"staking ledger checks need exactly 2 states, got {got}"
  | ledger controller stash => s!"ledger should exist for controller {controller} (stash {stash})"

/-- A text or value that names none of the known choices. -/
inductive BadChoice where
  | solver (fault : Election.SolverFault)
  /-- A share rule named to the split itself. -/
  | shareRule (name : String)
  | shareRuleValue (given : Value)
  | operation (given : Value)
  deriving Repr

def BadChoice.message : BadChoice → String
  | solver fault => fault.message
  | shareRule name => s!"unknown share distribution: {Text.quoted name}"
  | shareRuleValue given => s!"{given.shown} is not a valid ShareDistribution"
  | operation given => s!"{given.shown} is not a valid Operation"

/-- What the files refuse. -/
inductive DiskFault where
  /-- A folder stands where a file is needed. -/
  | isFolder
  /-- A file stands where a folder is needed on the way to something else. -/
  | notAFolder
  /-- A file stands where a folder is to be made. -/
  | alreadyThere
  | nameTooLong
  /-- A path has a null character in it. -/
  | nullCharacter
  /-- A file is read that holds no text. -/
  | notText
  deriving Repr, DecidableEq

def DiskFault.message : DiskFault → String
  | isFolder => "this is a folder"
  | notAFolder => "this is no folder"
  | alreadyThere => "there is a file already"
  | nameTooLong => "the name is too long"
  | nullCharacter => "embedded null byte"
  | notText => "the file holds no text"

/-- What the state store refuses. -/
inductive StoreFault where
  | noBlockHash
  /-- A block number or a version needs more than 64 bits. -/
  | numberTooLarge
  | closed
  | newerSchema (version : Int)
  /-- What is looked up is no text. -/
  | unusableHash (kind : String)
  /-- There is a folder where the store should be. -/
  | cannotOpen
  /-- The file holds something else. -/
  | notAStore
  deriving Repr, DecidableEq

/-- The version of the store's layout. -/
def schemaVersion : Int := 1

def StoreFault.message : StoreFault → String
  | noBlockHash => "cannot store a state without a block hash"
  | numberTooLarge => "the number does not fit into 64 bits"
  | closed => "the store is closed"
  | newerSchema version =>
    s!"Database schema v{version} is newer than this software (v{schemaVersion}).  " ++
      "Upgrade timetravel."
  | unusableHash kind => s!"a {kind} is no block hash"
  | cannotOpen => "unable to open database file"
  | notAStore => "file is not a database"

/-- Why an operation stopped. -/
inductive Failure where
  | unavailable (cause : Unavailable)
  | stored (cause : StoredFault)
  | tooFewWinners (solver : String) (elected : Nat) (desired : Int)
  | infeasible (rule : Election.Violation)
  | precondition (cause : Precondition)
  /-- A node failed to answer, or answered with an error and its code. -/
  | rpc (text : String) (code : Value)
  /-- A node did not answer in time. -/
  | timeout
  | decode (fault : DecodeFault)
  | json (fault : Json.Fault)
  | toml (fault : Toml.Fault)
  | disk (fault : DiskFault)
  /-- The name of a log level stands for a text instead. -/
  | unknownLevel (text : String)
  | choice (cause : BadChoice)
  | store (fault : StoreFault)
  | notRanked (target : String)
  /-- A number has no text. -/
  | numberTooLong
  | divisionByZero
  deriving Repr

namespace Failure

def ofMining : Election.MiningFault → Failure
  | .tooFewWinners solver elected desired => tooFewWinners solver elected desired
  | .divisionByZero => divisionByZero

def ofBalance : BalanceFault → Failure
  | .divisionByZero => divisionByZero
  | .numberTooLong => numberTooLong

/-- The text of an error that a node answered with. -/
def rpcMessage (text : String) (code : Value) : String :=
  if code.isNull then text else s!"[{code.toText}] {text}"

/-- The text that is made of a cause. -/
def ownMessage : Failure → String
  | unavailable cause => cause.message
  | stored cause => cause.message
  | tooFewWinners solver elected desired =>
    s!"{solver} elected {elected} winners, {desired} desired"
  | infeasible rule => rule.message
  | precondition cause => cause.message
  | rpc text code => rpcMessage text code
  | timeout => ""
  | decode fault => fault.message
  | json fault => fault.message
  | toml fault => fault.message
  | disk fault => fault.message
  | unknownLevel text => s!"Unknown level: {Text.quoted text}"
  | choice cause => cause.message
  | store fault => fault.message
  | notRanked target => s!"{Text.quoted target} is not in list"
  | numberTooLong => Text.noTextMessage
  | divisionByZero => "division by zero"

/-- Whether the numbers in the text of a failure are given as texts. Counts of what is in memory are
never too long for one, nor is what a node answered with. -/
def hasText : Failure → Bool
  | unavailable (.tooManyTargets _ limit) => Text.hasText limit
  | tooFewWinners _ _ desired => Text.hasText desired
  | infeasible rule => rule.hasText
  | choice (.shareRuleValue given) | choice (.operation given) => given.hasText
  | _ => true

/-- The text of a failure. -/
def message (f : Failure) : String := if f.hasText then f.ownMessage else Text.noTextMessage

/-- Whether a failure is one of an analysis by its cause. -/
def isExpected : Failure → Bool
  | unavailable _ | stored _ | tooFewWinners .. | infeasible _ | precondition _ | rpc .. => true
  | _ => false

/-- Whether a run over several states goes on after this. -/
def isAnalysis (f : Failure) : Bool := f.hasText && f.isExpected

/-- Whether the form of a value is right and its content is not, by the cause of a failure. -/
def isOfContent : Failure → Bool
  | decode (.notAnInteger _) | decode (.tooManyDigits _) | decode .nanToInteger => true
  | decode (.partCount ..) | choice _ | store .noBlockHash | notRanked _ | numberTooLong => true
  | disk .nullCharacter => true
  | json fault => fault.reason ≠ .tooDeep && fault.reason ≠ .loneSurrogate
  | toml fault => fault ≠ .tooDeep
  | _ => false

/-- Whether the form of a value is right and its content is not. -/
def isBadValue (f : Failure) : Bool := !f.hasText || f.isOfContent

/-- Whether a command reports this and ends. -/
def isReported (f : Failure) : Bool := f.isAnalysis || f.isBadValue

end Failure

end StakingElection
