import StakingElection.Failure

/-!
# Journals and tasks

What an operation tells on its way goes into a journal, in order. A task works on a state, writes to
the journal, and may fail; what it did and wrote before a failure stays.
-/

namespace StakingElection

/-- How important an entry is. -/
inductive Severity where
  | debug
  | info
  | warning
  | error
  deriving Repr, DecidableEq

namespace Severity

/-- The number of a severity; a threshold lets an entry pass if it is not above it. -/
def value : Severity → Int
  | debug => 10
  | info => 20
  | warning => 30
  | error => 40

def name : Severity → String
  | debug => "DEBUG"
  | info => "INFO"
  | warning => "WARNING"
  | error => "ERROR"

end Severity

/-- One entry: who tells what. -/
structure Entry where
  severity : Severity
  source : String
  message : String
  deriving Repr, DecidableEq

abbrev Journal := Array Entry

/-- The entries at or above a threshold. -/
def Journal.above (j : Journal) (threshold : Int) : List Entry :=
  j.toList.filter fun e => threshold ≤ e.severity.value

/-- A task on a state `σ`. -/
abbrev Task (σ : Type) := ExceptT Failure (StateT σ (StateM Journal))

/-- What a task leaves behind: its answer or failure, the state, and the journal. -/
structure Run (σ α : Type) where
  result : Except Failure α
  state : σ
  journal : Journal

namespace Task

variable {σ τ α : Type}

/-- Runs a task. -/
def run (t : Task σ α) (s : σ) (journal : Journal := #[]) : Run σ α :=
  match StateT.run (StateT.run (ExceptT.run t) s) journal with
  | ((result, state), journal) => ⟨result, state, journal⟩

/-- The task that leaves behind what a run did. -/
def ofRun (f : σ → Journal → Run σ α) : Task σ α :=
  ExceptT.mk fun s journal =>
    let r := f s journal
    ((r.result, r.state), r.journal)

/-- Writes an entry. -/
def log (severity : Severity) (source message : String) : Task σ Unit :=
  ofRun fun s journal => ⟨.ok (), s, journal.push ⟨severity, source, message⟩⟩

/-- Writes entries in order. -/
def logAll (entries : List Entry) : Task σ Unit :=
  ofRun fun s journal => ⟨.ok (), s, journal ++ entries.toArray⟩

/-- The answer of a computation that leaves no trace. -/
def ofExcept (f : ε → Failure) (e : Except ε α) : Task σ α :=
  match e with
  | .ok a => pure a
  | .error x => throw (f x)

/-- Runs a task on a part of a state. -/
def zoom (part : σ → τ) (put : τ → σ → σ) (t : Task τ α) : Task σ α :=
  ofRun fun s journal =>
    let r := t.run (part s) journal
    ⟨r.result, put r.state s, r.journal⟩

/-- Runs a task on a state of its own, which is gone afterwards. -/
def isolated (s : τ) (t : Task τ α) : Task σ α :=
  ofRun fun outer journal =>
    let r := t.run s journal
    ⟨r.result, outer, r.journal⟩

/-- The answer of a task or its failure, as a value. -/
def attempt (t : Task σ α) : Task σ (Except Failure α) :=
  ofRun fun s journal =>
    let r := t.run s journal
    ⟨.ok r.result, r.state, r.journal⟩

/-- Runs `after` whatever `t` comes to. -/
def closing (t : Task σ α) (after : Task σ Unit) : Task σ α := do
  let result ← attempt t
  after
  ofExcept id result

end Task

end StakingElection
