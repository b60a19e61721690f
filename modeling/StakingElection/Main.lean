import StakingElection.Runner
import StakingElection.Store.ArchiveText
import Std.Time.DateTime.Timestamp

/-!
# The command line

The command line reads what the run needs from the machine, runs, and puts back what has changed.
Log lines go to the standard error stream, and to the log file if there is one. There is no
transport to a node here: whatever is asked of one is answered by a failed connection.
-/

namespace StakingElection.Console

/-- How the program is called. -/
def usage : String :=
  "usage: staking-election [--config FILE] [--uri URI] [--snapshot-path FILE] " ++
    "[--output-path FILE] [--log-level LEVEL] (extract | transform OPERATION) [OPTION]..."

/-- The text of a file, if it is there. -/
def readFile? (path : String) : IO (Option String) := do
  try some <$> IO.FS.readFile path catch _ => return none

/-- The variables of the environment that are set. -/
def readEnvironment : IO (OrderedMap String) := do
  let values ← Settings.knownVariables.filterMapM fun v => do
    return (← IO.getEnv v.name).map fun text => (v.name, text)
  return .ofList values

/-- Whether a path leads to a folder. -/
def isFolder (path : String) : IO Bool := do
  try
    let _ ← IO.FS.realPath (path ++ "/.")
    return true
  catch _ => return false

/-- The disk with what stands on the way to a path and at its end: folders, or a text. -/
def withWay (d : Disk) (path : String) : IO Disk := do
  let parts := Disk.parts path
  (List.range parts.length).foldlM
    (fun d n => do
      let way := Disk.join (Disk.root path) (parts.take (n + 1))
      if ← isFolder way then
        return d.withFolder ((Disk.parts way).foldl Disk.Place.step (.start way))
      match ← readFile? way with
      | some text => return d.write way (.text text)
      | none => return d)
    d

/-- The disk with the file at a path, read as it is asked for, if the file is there. -/
def withFile (d : Disk) (path : String) (read : String → IO Content) : IO Disk := do
  let d ← withWay d path
  match ← readFile? path with
  | some text => return d.write path (← read text)
  | none => return d

/-- What is in a file that holds a store. A file that holds something else is left alone. -/
def readArchive (path text : String) : IO Content := do
  match Archive.ofText? text with
  | some a => return .archive a
  | none => throw (.userError s!"{path} is not a state store")

/-- The disk with the file that a setting names, if it is there. -/
def withSetting (s : Settings) (d : Disk) (p : Settings.Part) (key : String)
    (read : String → String → IO Content) : IO Disk := do
  match s.value p key with
  | .text path => withFile d path (read path)
  | _ => return d

/-- The disk with the files that the settings name. -/
def withSettings (d : Disk) (s : Settings) : IO Disk := do
  let d ← withSetting s d .paths "output_path" fun _ text => return .text text
  let d ← withSetting s d .logging "file" fun _ text => return .text text
  withSetting s d .paths "snapshot_path" readArchive

/-- What the program runs in. -/
def readWorld (args : List String) : IO World := do
  let empty : World := {
    disk := .empty
    environment := ← readEnvironment
    endpoint := .ofReplies [] (.disconnected "there is no transport to a node")
    log := .initial }
  match CommandLine.Arguments.read args with
  | .error _ => return empty
  | .ok a =>
    let w := { empty with
      disk := ← match a.config with
        | .text path => withFile empty.disk path fun text => return .text text
        | _ => pure empty.disk }
    match Runner.loadSettings w a with
    | .error _ => return w
    | .ok s => return { w with disk := ← withSettings w.disk s }

/-- The text of what a file holds. -/
def textOf : Content → String
  | .text s => s
  | .archive a => a.toText

/-- Writes a file; the folders that lead to it are made. -/
def writeFile (path text : String) : IO Unit := do
  let folder := "/".intercalate (path.splitOn "/").dropLast
  if folder ≠ "" then IO.FS.createDirAll folder
  IO.FS.writeFile path text

/-- Puts back the files that have changed. -/
def writeDisk (before after : Disk) : IO Unit :=
  for (path, content) in after.files.entries do
    if before.files.find? path ≠ some content then writeFile path (textOf content)

/-- The moment that it is now. -/
def now : IO Logging.Moment := do
  let nanoseconds := (← Std.Time.Timestamp.now).toNanosecondsSinceUnixEpoch.val.toNat
  let moment := Logging.Moment.ofSeconds (.fraction (.ofDecimal false nanoseconds (-9)))
  return moment.toOption.getD .epoch

/-- The lines of a journal in one format. -/
def lines (moment : Logging.Moment) (entries : List Entry) (f : Logging.Format) : List String :=
  entries.map fun e =>
    (Logging.Record.mk moment (.whole e.severity.value) e.source e.message none).format f

/-- The disk with lines added to a file. -/
def appendLines (d : Disk) (path : String) (added : List String) : Disk :=
  d.write path (.text (d.textIn path ++ String.join (added.map (· ++ "\n"))))

/-- Runs the program; gives the exit code. -/
def run (args : List String) : IO UInt32 := do
  let before ← readWorld args
  let r := Task.run (Runner.run args) before
  let moment ← now
  let entries := r.journal.above r.state.log.level
  for line in lines moment entries r.state.log.console do
    IO.eprintln line
  let disk := match r.state.log.file with
    | some path => appendLines r.state.disk path (lines moment entries .json)
    | none => r.state.disk
  writeDisk before.disk disk
  if let .error stop := CommandLine.Arguments.read args then
    if stop.exitCode = 0 then IO.println usage else IO.eprintln usage
  match r.result with
  | .ok code => return UInt32.ofNat code
  | .error f =>
    IO.eprintln s!"error: {f.message}"
    return 1

end StakingElection.Console

def main (args : List String) : IO UInt32 := do
  try StakingElection.Console.run args
  catch e =>
    IO.eprintln s!"error: {e}"
    return 1
