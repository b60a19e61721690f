import StakingElection.Json.Parser

/-!
# Strings and keys of TOML

A basic string knows escapes, a literal one is taken as it stands; both may run over several lines
between three quotes. A control character other than the tab has no place in a string, apart from
line feeds in those over several lines. A reader gives what it read and what is left.
-/

namespace StakingElection.Toml

/-- Why a text is not read. -/
inductive Fault where
  | malformed
  | tooManyDigits (count : Nat)
  /-- Too many values stand within each other. -/
  | tooDeep
  deriving Repr, DecidableEq

def Fault.message : Fault → String
  | malformed => "the settings file is malformed"
  | tooManyDigits count => Text.tooManyDigitsMessage count
  | tooDeep => "too many values within each other"

/-- What is not there is malformed. -/
instance : MonadLift Option (Except Fault) where
  monadLift
    | some a => .ok a
    | none => .error .malformed

/-- A reader of the front of a text. -/
abbrev Reader (α : Type) := List Char → Option (α × List Char)

/-- Blanks within a line. -/
def isBlank (c : Char) : Bool := c = ' ' || c = '\t'

def isBlankOrNewline (c : Char) : Bool := isBlank c || c = '\n'

def skipBlanks (cs : List Char) : List Char := cs.dropWhile isBlank

/-- A control character that is neither a tab nor, where `lines` is set, a line feed. -/
def isForbidden (lines : Bool) (c : Char) : Bool :=
  (c.toNat < 0x20 || c.toNat = 0x7f) && c ≠ '\t' && !(lines && c = '\n')

/-- The number that hexadecimal digits write. -/
def hexValue? (ds : List Char) : Option Nat :=
  ds.foldlM (fun n d => (Json.hexValue? d).map (n * 16 + ·)) 0

/-- The character of so many hexadecimal digits; a surrogate is none. -/
def readHexChar (digits : Nat) : Reader Char := fun cs => do
  let ds := cs.take digits
  guard (ds.length = digits)
  let n ← hexValue? ds
  if h : n.isValidChar then return (Char.ofNatAux n h, cs.drop digits) else none

/-- The character of an escape after its backslash. -/
def readEscape : Reader Char
  | 'b' :: rest => some ('\x08', rest)
  | 't' :: rest => some ('\t', rest)
  | 'n' :: rest => some ('\n', rest)
  | 'f' :: rest => some ('\x0c', rest)
  | 'r' :: rest => some ('\r', rest)
  | '"' :: rest => some ('"', rest)
  | '\\' :: rest => some ('\\', rest)
  | 'u' :: rest => readHexChar 4 rest
  | 'U' :: rest => readHexChar 8 rest
  | _ => none

/-- The text behind a backslash at the end of a line, if it is one: blanks and line feeds up to the
next other character are skipped. -/
def skipLineEnd? (cs : List Char) : Option (List Char) :=
  match cs with
  | c :: _ =>
    if isBlankOrNewline c then
      match skipBlanks cs with
      | [] => some []
      | '\n' :: rest => some (rest.dropWhile isBlankOrNewline)
      | _ => none
    else none
  | [] => none

/-- A basic string after its opening quotes. Each character takes one unit of fuel. -/
def readBasic (lines : Bool) : (fuel : Nat) → Reader (List Char)
  | 0, _ => none
  | fuel + 1, cs =>
    match cs with
    | [] => none
    | '"' :: '"' :: '"' :: rest =>
      if lines then some ([], rest) else some ([], '"' :: '"' :: rest)
    | '"' :: rest =>
      if lines then (readBasic lines fuel rest).map fun r => ('"' :: r.1, r.2) else some ([], rest)
    | '\\' :: rest =>
      if lines && (rest.head?.map isBlankOrNewline).getD false then do
        readBasic lines fuel (← skipLineEnd? rest)
      else do
        let (c, rest) ← readEscape rest
        let (cs, rest) ← readBasic lines fuel rest
        return (c :: cs, rest)
    | c :: rest =>
      if isForbidden lines c then none
      else (readBasic lines fuel rest).map fun r => (c :: r.1, r.2)

/-- A literal string after its opening quote. -/
def readLiteral : Reader (List Char)
  | [] => none
  | '\'' :: rest => some ([], rest)
  | c :: rest =>
    if isForbidden false c then none else (readLiteral rest).map fun r => (c :: r.1, r.2)

/-- A literal string over several lines, after its opening quotes. -/
def readLiteralLines : Reader (List Char)
  | [] => none
  | '\'' :: '\'' :: '\'' :: rest => some ([], rest)
  | c :: rest =>
    if isForbidden true c then none else (readLiteralLines rest).map fun r => (c :: r.1, r.2)

/-- A text without a line feed at its front. -/
def skipNewline : List Char → List Char
  | '\n' :: rest => rest
  | cs => cs

/-- Up to two quotes right behind the closing ones belong to the string. -/
def addQuotes (quote : Char) (s rest : List Char) : List Char × List Char :=
  let extra := (rest.take 2).takeWhile (· = quote)
  (s ++ extra, rest.drop extra.length)

/-- A string of any kind. -/
def readString : Reader String := fun cs => do
  let (s, rest) ← match cs with
    | '"' :: '"' :: '"' :: rest => do
      let (s, rest) ← readBasic true (rest.length + 1) (skipNewline rest)
      pure (addQuotes '"' s rest)
    | '"' :: rest => readBasic false (rest.length + 1) rest
    | '\'' :: '\'' :: '\'' :: rest => do
      let (s, rest) ← readLiteralLines (skipNewline rest)
      pure (addQuotes '\'' s rest)
    | '\'' :: rest => readLiteral rest
    | _ => none
  return (String.ofList s, rest)

/-- The characters of a key without quotes. -/
def isBare (c : Char) : Bool := c.isAlphanum || c = '-' || c = '_'

/-- One part of a key. -/
def readKeyPart : Reader String
  | '"' :: rest => (readBasic false (rest.length + 1) rest).map fun r => (String.ofList r.1, r.2)
  | '\'' :: rest => (readLiteral rest).map fun r => (String.ofList r.1, r.2)
  | c :: rest =>
    if isBare c then
      some (String.ofList (c :: rest.takeWhile isBare), rest.dropWhile isBare)
    else none
  | [] => none

/-- A key, its parts between dots, and the blanks behind it. -/
def readKey : (fuel : Nat) → Reader (List String)
  | 0, _ => none
  | fuel + 1, cs => do
    let (part, rest) ← readKeyPart cs
    match skipBlanks rest with
    | '.' :: rest =>
      let (parts, rest) ← readKey fuel (skipBlanks rest)
      return (part :: parts, rest)
    | rest => return ([part], rest)

end StakingElection.Toml
