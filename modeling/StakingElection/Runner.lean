import StakingElection.Analysis.Batch
import StakingElection.Disk
import StakingElection.Logging.Setup
import StakingElection.Node.Client
import StakingElection.Settings

/-!
# The program

The program reads its arguments and settings, sets up the log, and runs one command: it fetches
states from a node and stores them, or it analyses stored or fresh states and appends the results to
a table. The exit code is zero if everything that was asked for succeeded.
-/

namespace StakingElection

/-- What the program runs in: files, the environment, the endpoint of a node, and the log. -/
structure World where
  disk : Disk
  environment : OrderedMap String
  endpoint : Node.Endpoint
  log : Logging.Setup

namespace Runner

open Analysis (runnerSource)

/-- A text among the settings. -/
def readText (s : Settings) (p : Settings.Part) (key : String) : Except Failure String :=
  match s.value p key with
  | .text t => .ok t
  | v => .error (.decode (.unusable v.kindName))

/-! ## The parts of the world -/

/-- Runs a task on a store, which is opened before and closed afterwards. -/
def session {α : Type} (t : Task Store α) : Task Store α := do
  Store.start
  Task.closing t Store.close

/-- Runs a task on the store at a path. Its file is there from then on, unless it needs none. -/
def withStore {α : Type} (path : String) (t : Task Store α) : Task World α := do
  if Store.isTransient path then
    Task.zoom (fun _ => Store.closedAt path .empty) (fun _ w => w) (session t)
  else
    let opened ← Task.ofExcept id ((← get).disk.openArchive path)
    Task.zoom (fun _ => Store.closedAt path opened.archive)
      (fun s w => { w with disk := opened.disk.put opened.place (.archive s.archive) })
      (session t)

/-- The table at a path. -/
def tableAt (d : Disk) (path : String) : Analysis.Table :=
  let shown := Disk.shownPath path
  match d.leads path, d.openForWriting path with
  | .error fault, _ => ⟨shown, some "", some fault⟩
  | .ok leads, opened =>
    let text? := if leads then some (d.textIn path) else none
    match opened with
    | .ok _ => ⟨shown, text?, none⟩
    | .error fault => ⟨shown, text?, some fault⟩

/-- The disk with a table that has grown. Where the path led to nothing and the folders on the way
make it lead to a file, the table stands behind the text of that file. -/
def keepTable (d : Disk) (path : String) (before after : Analysis.Table) : Disk :=
  match after.text?, d.openForWriting path with
  | some text, .ok opened =>
    match opened.content with
    | .archive _ => opened.disk
    | .text old =>
      if before.text? = after.text? then d
      else if before.text?.isSome then opened.disk.put opened.place (.text text)
      else opened.disk.put opened.place (.text (old ++ text))
  | _, _ => d

/-- Runs a task on the table at a path. -/
def withTable {α : Type} (path : String) (t : Task Analysis.Table α) : Task World α := do
  let disk := (← get).disk
  let before := tableAt disk path
  Task.zoom (fun _ => before) (fun after w => { w with disk := keepTable disk path before after }) t

/-- How the settings say to connect. -/
def retryOf (s : Settings) : Node.Retry where
  limit := .ofValue (s.value .rpc "max_connect_attempts")
  hasTime := Node.hasTime (s.value .rpc "connection_timeout")
  pause := (Node.waits (s.value .rpc "retry_delay")).map fun _ => ()

/-- Connects to the node and runs a task with it; the session is closed afterwards. -/
def withNode {α : Type} (s : Settings) (t : Task Node.Link α) : Task World α :=
  Task.zoom World.endpoint (fun e w => { w with endpoint := e }) do
    let client ← Node.connect (s.value .rpc "uri") (retryOf s)
    Task.ofRun fun endpoint journal =>
      let r := Task.run (Task.closing t Node.close) ⟨endpoint, client⟩ journal
      ⟨r.result, r.state.endpoint, r.journal⟩

/-! ## The commands -/

/-- The states at blocks, fresh from the node; the latest one if no block is given. -/
def fetchLive (s : Settings) (hashes : List Value) : Task World (List StakingState) :=
  withNode s do
    let profile ← Node.chainProfile
    let hashes ←
      if hashes.isEmpty then (fun h => [.text h]) <$> Node.blockHash none else pure hashes
    let states ← Node.fetchStates hashes
    return states.map fun x => { x with profile }

/-- Saves states. -/
def saveAll : List StakingState → Task Store Unit
  | [] => pure ()
  | s :: rest => do
    Store.save s
    saveAll rest

/-- Fetches states and stores them. -/
def extract (s : Settings) (hashes : List Value) : Task World Nat := do
  let states ← fetchLive s hashes
  let path ← Task.ofExcept id (readText s .paths "snapshot_path")
  withStore path (saveAll states)
  return 0

/-- Loads stored states; gives those that are there and the number of the others. -/
def loadAll : List Value → Task Store (List StakingState × Nat)
  | [] => pure ([], 0)
  | hash :: rest => do
    match ← Task.attempt (Store.loadGiven hash) with
    | .ok s =>
      let (states, failures) ← loadAll rest
      return (s :: states, failures)
    | .error f =>
      if !f.isAnalysis then throw f
      Task.log .error runnerSource s!"Error loading state at {hash.toText}: {f.message}"
      let (states, failures) ← loadAll rest
      return (states, failures + 1)

/-- Runs an operation over states; gives the number of failures. The numbers of the analysis are
read only if a state is analysed. -/
def analyse (s : Settings) (op : Analysis.Operation) (a : AnalysisSettings)
    (states : List StakingState) : Task World Nat := do
  let path ← Task.ofExcept id (readText s .paths "output_path")
  let config ←
    if op = .ledgerChecks || states.isEmpty then pure Analysis.Config.standard
    else Task.ofExcept id a.config
  withTable path (Analysis.run op states config)

/-- Analyses states; the exit code tells whether all of it succeeded. -/
def transform (s : Settings) (t : CommandLine.Transform) : Task World Nat := do
  let a ← Task.ofExcept id s.analysis
  if !t.live && t.hashes.isEmpty then
    Task.log .error runnerSource "transform needs at least one --at block hash without --live"
    return 2
  let (states, failures) ←
    if t.live then do pure (← fetchLive s t.hashes, 0)
    else do
      let path ← Task.ofExcept id (readText s .paths "snapshot_path")
      withStore path (loadAll t.hashes)
  let failures := failures + (← analyse s t.operation a states)
  return if failures = 0 then 0 else 1

/-! ## The whole program -/

/-- The failure of a name that gives no level. -/
def levelFailure : Logging.LevelFault → Failure
  | .lineFormat => .unknownLevel "%(levelname)s:%(name)s:%(message)s"
  | .styles => .decode (.unusable "dict")

/-- The log by the values that its level, its format and its file are given by. -/
def setupOf (level format file : Value) : Except Failure Logging.Setup := do
  let name ← level.toName.mapError .decode
  let setup ← (Logging.Setup.ofName name (format == .text "json") none).mapError levelFailure
  if !file.isGiven then return setup
  match file with
  | .text path => return { setup with file := some path }
  | v => throw (.decode (.unusable v.kindName))

/-- The disk with the file of a log, which is there from the start. -/
def withLogFile (d : Disk) (setup : Logging.Setup) : Except Failure Disk :=
  match setup.file with
  | none => .ok d
  | some path => do
    let opened ← (d.openForWriting path).mapError .disk
    return opened.disk.put opened.place opened.content

/-- Sets up the log. -/
def setUpLog (s : Settings) : Task World Unit := do
  let setup ← Task.ofExcept id
    (setupOf (s.value .logging "level") (s.value .logging "format") (s.value .logging "file"))
  let disk ← Task.ofExcept id (withLogFile (← get).disk setup)
  modify fun w => { w with disk, log := setup }

/-- Runs a command. -/
def runCommand (s : Settings) : CommandLine.Command → Task World Nat
  | .extract hashes => extract s hashes
  | .transform t => transform s t

/-- The text of the settings file, if there is one. -/
def settingsText (d : Disk) : Value → Except Failure (Option String)
  | .null => .ok none
  | .text path => (d.text? path).mapError .disk
  | v => .error (.decode (.unusable v.kindName))

/-- The settings of the program. -/
def loadSettings (w : World) (a : CommandLine.Arguments) : Except Failure Settings := do
  let s ← Settings.load (← settingsText w.disk a.config) w.environment
  return s.applyArguments a

/-- Runs the program; gives the exit code. What is reported ends the command with code one. -/
def run (args : List String) : Task World Nat := do
  match CommandLine.Arguments.read args with
  | .error stop => return stop.exitCode
  | .ok a =>
    let s ← Task.ofExcept id (loadSettings (← get) a)
    setUpLog s
    match ← Task.attempt (runCommand s a.command) with
    | .ok code => return code
    | .error f =>
      if !f.isReported then throw f
      Task.log .error runnerSource s!"{a.command.name} failed: {f.message}"
      return 1

end Runner

end StakingElection
