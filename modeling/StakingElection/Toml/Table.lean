import StakingElection.Json.Parser

/-!
# Tables of TOML

A document is built as a tree of tables, key by key. A table that has its own header may not get
another one, and a table or list that stands as a value may not be added to later. A path leads
through lists of tables to the last table of each.
-/

namespace StakingElection.Toml

/-- The keys that lead to a value. -/
abbrev Path := List String

abbrev Fields := List (String × Value)

/-- Replaces the last item of a list. -/
def mapLast? (f : Value → Option Value) (vs : List Value) : Option (List Value) :=
  match vs.reverse with
  | [] => none
  | last :: before => (f last).map fun v => (v :: before).reverse

/-- Changes the table that a path leads to; missing tables are made. `intoLists` tells whether the
path may lead through a list. -/
def updateTable (intoLists : Bool) (f : Fields → Option Fields) : Path → Fields → Option Fields
  | [], table => f table
  | key :: path, table => do
    let inner ← match (table.lookup key).getD (.object []) with
      | .object fields => (updateTable intoLists f path fields).map .object
      | .list items =>
        if intoLists then
          (mapLast? (fun
            | .object fields => (updateTable intoLists f path fields).map .object
            | _ => none) items).map .list
        else none
      | _ => none
    return OrderedMap.setEntry key inner table

/-- Sets a key that is not there yet. -/
def addNew (key : String) (v : Value) (table : Fields) : Option Fields :=
  if (table.lookup key).isSome then none else some (table ++ [(key, v)])

/-- Adds an empty table to a list of tables. -/
def addItem (key : String) (table : Fields) : Option Fields :=
  match table.lookup key with
  | none => some (table ++ [(key, .list [.object []])])
  | some (.list items) => some (OrderedMap.setEntry key (.list (items ++ [.object []])) table)
  | some _ => none

/-- A document so far. -/
structure Document where
  tables : Fields
  /-- The tables that have a header or were made by a dotted key before the last header. -/
  declared : List Path
  /-- The tables that dotted keys made since the last header. -/
  pending : List Path
  /-- The values that may not be added to, with all below them. -/
  frozen : List Path

namespace Document

def empty : Document := ⟨[], [], [], []⟩

def isDeclared (d : Document) (path : Path) : Bool := d.declared.contains path

def isFrozen (d : Document) (path : Path) : Bool := d.frozen.any (·.isPrefixOf path)

/-- The document when a header comes. -/
def settle (d : Document) : Document :=
  { d with declared := d.declared ++ d.pending, pending := [] }

/-- The header of a table. -/
def openTable (d : Document) (path : Path) : Option Document := do
  guard (!d.isDeclared path && !d.isFrozen path)
  let tables ← updateTable true some path d.tables
  return { d with tables, declared := path :: d.declared }

/-- The header of a table in a list. What lies below the list so far is forgotten. -/
def openItem (d : Document) (path : Path) : Option Document := do
  guard (!d.isFrozen path)
  let last ← path.getLast?
  let tables ← updateTable true (addItem last) path.dropLast d.tables
  return { d with
    tables
    declared := path :: d.declared.filter fun p => !path.isPrefixOf p
    frozen := d.frozen.filter fun p => !path.isPrefixOf p }

/-- The proper beginnings of a key. -/
def beginnings (key : Path) : List Path :=
  (List.range (key.length - 1)).map fun i => key.take (i + 1)

/-- Whether a value is a table or a list. -/
def isNested : Value → Bool
  | .object _ => true
  | .list _ => true
  | _ => false

/-- A key with its value under a header. -/
def assign (d : Document) (header key : Path) (v : Value) : Option Document := do
  let above := (beginnings key).map (header ++ ·)
  guard (!above.any d.isDeclared)
  guard (!d.isFrozen (header ++ key.dropLast))
  let last ← key.getLast?
  let tables ← updateTable true (addNew last v) (header ++ key.dropLast) d.tables
  return { d with
    tables
    pending := d.pending ++ above
    frozen := if isNested v then (header ++ key) :: d.frozen else d.frozen }

end Document

end StakingElection.Toml
