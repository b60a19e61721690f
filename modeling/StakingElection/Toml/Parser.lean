import StakingElection.Toml.Number
import StakingElection.Toml.Table

/-!
# Reading TOML

A document is a sequence of lines: headers, keys with values, comments and blank lines. A text that
is no document gives a fault, the first one in it.
-/

namespace StakingElection.Toml

/-- The text behind a comment, if there is one. -/
def skipComment? (cs : List Char) : Option (List Char) :=
  match cs with
  | '#' :: rest =>
    if (rest.takeWhile (· ≠ '\n')).any (isForbidden false) then none
    else some (rest.dropWhile (· ≠ '\n'))
  | cs => some cs

/-- The text behind blanks, line feeds and comments. -/
def skipFiller : (fuel : Nat) → List Char → Option (List Char)
  | 0, cs => some cs
  | fuel + 1, cs =>
    match cs.dropWhile isBlankOrNewline with
    | '#' :: rest => do skipFiller fuel (← skipComment? ('#' :: rest))
    | rest => some rest

/-- How deep values may stand within each other: a list takes two steps, an inline table three. -/
def depthLimit : Nat := 980

mutual

/-- A value, at most `depth` steps deep. Each call takes one unit of fuel. -/
def readValue (depth : Nat) : (fuel : Nat) → List Char → Except Fault (Value × List Char)
  | 0, _ => .error .malformed
  | fuel + 1, cs =>
    match cs with
    | '"' :: _ => do
      let (s, rest) ← readString cs
      return (.text s, rest)
    | '\'' :: _ => do
      let (s, rest) ← readString cs
      return (.text s, rest)
    | 't' :: 'r' :: 'u' :: 'e' :: rest => .ok (.bool true, rest)
    | 'f' :: 'a' :: 'l' :: 's' :: 'e' :: rest => .ok (.bool false, rest)
    | '[' :: rest => do
      if depth < 2 then throw .tooDeep
      let rest ← skipFiller rest.length rest
      let (items, rest) ← readItems (depth - 2) fuel rest
      return (.list items, rest)
    | '{' :: rest => do
      if depth < 3 then throw .tooDeep
      match skipBlanks rest with
      | '}' :: rest => return (.object [], rest)
      | rest =>
        let (table, rest) ← readInline (depth - 3) fuel .empty rest
        return (.object table.tables, rest)
    | cs => readNumber cs

/-- The items of a list, with its closing bracket. -/
def readItems (depth : Nat) : (fuel : Nat) → List Char → Except Fault (List Value × List Char)
  | 0, _ => .error .malformed
  | fuel + 1, cs =>
    match cs with
    | ']' :: rest => .ok ([], rest)
    | cs => do
      let (v, rest) ← readValue depth fuel cs
      match ← skipFiller rest.length rest with
      | ']' :: rest => return ([v], rest)
      | ',' :: rest =>
        let rest ← skipFiller rest.length rest
        let (vs, rest) ← readItems depth fuel rest
        return (v :: vs, rest)
      | _ => throw .malformed

/-- A key with its value. -/
def readPair (depth : Nat) : (fuel : Nat) → List Char →
    Except Fault ((Path × Value) × List Char)
  | 0, _ => .error .malformed
  | fuel + 1, cs => do
    let (key, rest) ← readKey cs.length cs
    match rest with
    | '=' :: rest =>
      let (v, rest) ← readValue depth fuel (skipBlanks rest)
      return ((key, v), rest)
    | _ => throw .malformed

/-- The pairs of an inline table, with its closing brace. -/
def readInline (depth : Nat) : (fuel : Nat) → Document → List Char →
    Except Fault (Document × List Char)
  | 0, _, _ => .error .malformed
  | fuel + 1, table, cs => do
    let ((key, v), rest) ← readPair depth fuel cs
    if table.isFrozen key then throw .malformed
    let last ← key.getLast?
    let tables ← updateTable false (addNew last v) key.dropLast table.tables
    let table := { table with
      tables
      frozen := if Document.isNested v then key :: table.frozen else table.frozen }
    match skipBlanks rest with
    | '}' :: rest => return (table, rest)
    | ',' :: rest => readInline depth fuel table (skipBlanks rest)
    | _ => throw .malformed

end

/-- A header or a key with its value: the document, the header in force, and the text behind. -/
def readStatement (d : Document) (header : Path) (cs : List Char) :
    Except Fault (Document × Path × List Char) :=
  match cs with
  | '[' :: '[' :: rest => do
    let (key, rest) ← readKey rest.length (skipBlanks rest)
    let d ← d.settle.openItem key
    match rest with
    | ']' :: ']' :: rest => return (d, key, rest)
    | _ => throw .malformed
  | '[' :: rest => do
    let (key, rest) ← readKey rest.length (skipBlanks rest)
    let d ← d.settle.openTable key
    match rest with
    | ']' :: rest => return (d, key, rest)
    | _ => throw .malformed
  | cs => do
    let ((key, v), rest) ← readPair depthLimit (2 * cs.length + 2) cs
    let d ← d.assign header key v
    return (d, header, rest)

/-- What follows a statement: a comment, and the end of the line or of the text. -/
def endLine? (cs : List Char) : Option (List Char) := do
  match ← skipComment? (skipBlanks cs) with
  | [] => return []
  | '\n' :: rest => return rest
  | _ => none

/-- Reads lines. Each takes one unit of fuel. -/
def readLines : (fuel : Nat) → Document → (header : Path) → List Char → Except Fault Document
  | 0, d, _, cs => if cs = [] then .ok d else .error .malformed
  | fuel + 1, d, header, cs =>
    match skipBlanks cs with
    | [] => .ok d
    | '\n' :: rest => readLines fuel d header rest
    | '#' :: rest => do
      let rest ← endLine? ('#' :: rest)
      readLines fuel d header rest
    | cs => do
      let (d, header, rest) ← readStatement d header cs
      let rest ← endLine? rest
      readLines fuel d header rest

/-- Line ends of two characters as line feeds. -/
def normalizeLines : List Char → List Char
  | [] => []
  | '\r' :: '\n' :: rest => '\n' :: normalizeLines rest
  | c :: rest => c :: normalizeLines rest

/-- The tables of a document. -/
def parse (text : String) : Except Fault Fields :=
  let cs := normalizeLines text.toList
  (readLines (cs.length + 1) .empty [] cs).map Document.tables

end StakingElection.Toml
