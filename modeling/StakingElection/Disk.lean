import StakingElection.Store

/-!
# Files and folders

The program's files are tables, logs, settings and state stores, in a tree of folders. A path is
followed name by name: each name but the last has to lead to a folder, also where the path goes up
again behind it. Folders that are missing on the way are made before a file is written.
-/

namespace StakingElection

/-- What a file holds. -/
inductive Content where
  | text (s : String)
  | archive (a : Archive)
  deriving Repr, DecidableEq

/-- Files by the shortest path that leads to them, and the folders above them or made on their own.
-/
structure Disk where
  files : OrderedMap Content
  folders : List String

namespace Disk

/-- A disk with nothing on it. -/
def empty : Disk := ⟨∅, []⟩

/-! ## Paths -/

/-- The parts of a path that count. -/
def parts (path : String) : List String := (path.splitOn "/").filter fun p => p ≠ "" && p ≠ "."

/-- Whether a path starts at the root. -/
def isAbsolute (path : String) : Bool := path.toList.head? = some '/'

/-- A path from what stands in front of it and its parts. -/
def join (root : String) (parts : List String) : String :=
  if root = "" && parts.isEmpty then "." else root ++ "/".intercalate parts

/-- What stands in front of a path: two slashes are kept, more of them are one. -/
def root (path : String) : String :=
  match path.toList with
  | '/' :: '/' :: '/' :: _ => "/"
  | '/' :: '/' :: _ => "//"
  | '/' :: _ => "/"
  | _ => ""

/-- A path as it is shown: without empty parts and single dots. -/
def shownPath (path : String) : String := join (root path) (parts path)

/-- A place in the tree, by the names that lead to it, the last one first. A place above the working
folder has only dots for names. -/
structure Place where
  absolute : Bool
  names : List String
  deriving Repr, DecidableEq

namespace Place

/-- Where a path starts. -/
def start (path : String) : Place := ⟨isAbsolute path, []⟩

/-- The place one name further. -/
def step (p : Place) (name : String) : Place :=
  if name = ".." then
    match p.names with
    | [] => if p.absolute then p else { p with names := [".."] }
    | last :: above =>
      if last = ".." then { p with names := ".." :: last :: above } else { p with names := above }
  else { p with names := name :: p.names }

/-- The shortest path that leads to a place. -/
def key (p : Place) : String := join (if p.absolute then "/" else "") p.names.reverse

end Place

/-! ## What is where -/

def isFile (d : Disk) (p : Place) : Bool := d.files.contains p.key

/-- The root, the working folder, those above it, and the folders that are known. -/
def isFolder (d : Disk) (p : Place) : Bool :=
  p.names.all (· = "..") || d.folders.contains p.key

/-- Where a path leads. -/
inductive Target where
  | file (p : Place)
  | folder (p : Place)
  /-- There is nothing, but the folder that it would be in. -/
  | missing (p : Place)
  /-- A folder on the way is missing. -/
  | nowhere
  /-- A file stands on the way. -/
  | blocked
  | nameTooLong

/-- The most bytes of a name. -/
def nameLimit : Nat := 255

/-- What a path has fewer bytes than. -/
def pathLimit : Nat := 4096

/-- Follows the parts of a path from a place on. -/
def follow (d : Disk) : Place → List String → Target
  | p, [] =>
    if d.isFolder p then .folder p else if d.isFile p then .file p else .missing p
  | p, name :: rest =>
    if d.isFolder p then
      if nameLimit < name.utf8ByteSize then .nameTooLong else d.follow (p.step name) rest
    else if d.isFile p then .blocked
    else .nowhere

/-- Where a path leads. -/
def target (d : Disk) (path : String) : Target :=
  if pathLimit ≤ (shownPath path).utf8ByteSize then .nameTooLong
  else d.follow (.start path) (parts path)

/-- Whether a path has a null character in it, so that it leads nowhere. -/
def hasNull (path : String) : Bool := path.toList.contains '\x00'

/-! ## Changing the disk -/

/-- The disk with a folder. -/
def withFolder (d : Disk) (p : Place) : Disk :=
  if d.isFolder p then d else { d with folders := p.key :: d.folders }

/-- The places above a place. -/
def placesAbove (p : Place) : List Place :=
  (List.range p.names.length).map fun n => { p with names := p.names.drop (n + 1) }

/-- The disk with a file and the folders above it. -/
def put (d : Disk) (p : Place) (c : Content) : Disk :=
  let d := (placesAbove p).foldl withFolder d
  { d with files := d.files.insert p.key c }

/-- The disk with a file at a path. -/
def write (d : Disk) (path : String) (c : Content) : Disk :=
  d.put ((parts path).foldl Place.step (.start path)) c

/-- Makes the folder that a path leads to, and before that those on the way that are missing. The
parts of the path are given from its end. -/
def makeFolders (start : Place) : List String → Disk → Except DiskFault Disk
  | [], d => .ok d
  | name :: before, d => do
    let make (d : Disk) : Except DiskFault Disk :=
      match d.follow start (name :: before).reverse with
      | .missing p => .ok (d.withFolder p)
      | .folder _ => .ok d
      | .file _ => .error .alreadyThere
      | .nameTooLong => .error .nameTooLong
      | .nowhere => .ok d
      | .blocked => .error .notAFolder
    match d.follow start (name :: before).reverse with
    | .nowhere => do make (← makeFolders start before d)
    | _ => make d

/-- The disk with the folder that a path's last part stands in. -/
def makeParent (d : Disk) (path : String) : Except DiskFault Disk :=
  let above := (parts path).reverse.drop 1
  if above.any hasNull then .error .nullCharacter
  else if pathLimit ≤ (join (root path) above.reverse).utf8ByteSize then .error .nameTooLong
  else makeFolders (.start path) above d

/-! ## Reading and writing files -/

/-- Whether a path leads to anything. -/
def leads (d : Disk) (path : String) : Except DiskFault Bool :=
  if hasNull path then .ok false
  else
    match d.target path with
    | .file _ => .ok true
    | .folder _ => .ok true
    | .nameTooLong => .error .nameTooLong
    | _ => .ok false

/-- The content of a file that is there. -/
def content? (d : Disk) (path : String) : Option Content :=
  match d.target path with
  | .file p => d.files.find? p.key
  | _ => none

/-- The text that is in a file, empty where there is none or a store. -/
def textIn (d : Disk) (path : String) : String :=
  match d.content? path with
  | some (.text s) => s
  | _ => ""

/-- The text that a path leads to, if it leads to anything. -/
def text? (d : Disk) (path : String) : Except DiskFault (Option String) := do
  if !(← d.leads path) then return none
  match d.content? path with
  | some (.text s) => return some s
  | some (.archive _) => throw .notText
  | none => throw .isFolder

/-- Where a file can be written, in folders that are there; opening it makes it. -/
def openFile (d : Disk) (path : String) : Except DiskFault (Place × Content) :=
  if hasNull path then .error .nullCharacter
  else
    match d.target path with
    | .file p => .ok (p, (d.files.find? p.key).getD (.text ""))
    | .missing p => .ok (p, .text "")
    | .folder _ => .error .isFolder
    | .nameTooLong => .error .nameTooLong
    | .nowhere => .error .notAFolder
    | .blocked => .error .notAFolder

/-- A disk with a file and the folders above it, where the file is opened for writing. -/
structure Opened where
  disk : Disk
  place : Place
  content : Content

/-- The store in an opened file; a text is none yet. -/
def Opened.archive (o : Opened) : Archive :=
  match o.content with
  | .archive a => a
  | .text _ => .empty

/-- Makes the folders above a file and opens it. -/
def openForWriting (d : Disk) (path : String) : Except DiskFault Opened := do
  let disk ← d.makeParent path
  let (place, content) ← disk.openFile path
  return ⟨disk, place, content⟩

/-- Opens the file of a store. One that has not been written to is an empty store. -/
def openArchive (d : Disk) (path : String) : Except Failure Opened := do
  let disk ← (d.makeParent path).mapError .disk
  match disk.openFile path with
  | .ok (place, content) =>
    match content with
    | .text s => if 1 < s.utf8ByteSize then throw (.store .notAStore)
    | .archive _ => pure ()
    return ⟨disk, place, content⟩
  | .error .nullCharacter => throw (.disk .nullCharacter)
  | .error _ => throw (.store .cannotOpen)

end Disk

end StakingElection
