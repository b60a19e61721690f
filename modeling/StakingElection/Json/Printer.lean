import StakingElection.Value

/-!
# JSON text

The canonical text of a value is ASCII: any other character is escaped by its UTF-16 units, in lower
case, and the control characters that have a short escape take it. Compact text has no blanks;
spaced text has one after each comma and colon.
-/

namespace StakingElection.Json

/-- The escape of one UTF-16 unit. -/
def unitEscape (n : Nat) : List Char := '\\' :: 'u' :: Text.hexDigits 4 n

/-- One character of a string. -/
def escapeChar (c : Char) : List Char :=
  if c = '"' then ['\\', '"']
  else if c = '\\' then ['\\', '\\']
  else if c = '\n' then ['\\', 'n']
  else if c = '\r' then ['\\', 'r']
  else if c = '\t' then ['\\', 't']
  else if c.toNat = 0x8 then ['\\', 'b']
  else if c.toNat = 0xc then ['\\', 'f']
  else if 0x20 ≤ c.toNat ∧ c.toNat < 0x7f then [c]
  else if c.toNat < 0x10000 then unitEscape c.toNat
  else
    let n := c.toNat - 0x10000
    unitEscape (0xd800 + n / 0x400) ++ unitEscape (0xdc00 + n % 0x400)

/-- A string in quotes. -/
def printString (s : String) : List Char :=
  '"' :: s.toList.flatMap escapeChar ++ ['"']

/-- A binary64 number; the ones that are no numbers have names. -/
def printFloat : Binary64 → List Char
  | .nan => "NaN".toList
  | .infinite negative => (if negative then "-Infinity" else "Infinity").toList
  | x => x.toText.toList

/-- What stands between items and between a key and its value. -/
structure Separators where
  item : List Char
  key : List Char

/-- No blanks. -/
def compact : Separators := ⟨[','], [':']⟩

/-- One blank after each separator. -/
def spaced : Separators := ⟨[',', ' '], [':', ' ']⟩

mutual

/-- The text of a value. -/
def printChars (sep : Separators) : Value → List Char
  | .null => "null".toList
  | .bool b => (if b then "true" else "false").toList
  | .int i => (toString i).toList
  | .float x => printFloat x
  | .text s => printString s
  | .stamp t => printString t.toText
  | .list [] => ['[', ']']
  | .list (v :: vs) => '[' :: printChars sep v ++ printItems sep vs ++ [']']
  | .object [] => ['{', '}']
  | .object ((k, v) :: fs) =>
    '{' :: printString k ++ sep.key ++ printChars sep v ++ printFields sep fs ++ ['}']

/-- The items after the first. -/
def printItems (sep : Separators) : List Value → List Char
  | [] => []
  | v :: vs => sep.item ++ printChars sep v ++ printItems sep vs

/-- The fields after the first. -/
def printFields (sep : Separators) : List (String × Value) → List Char
  | [] => []
  | (k, v) :: fs =>
    sep.item ++ printString k ++ sep.key ++ printChars sep v ++ printFields sep fs

end

/-- The text of a value. -/
def print (sep : Separators) (v : Value) : String := String.ofList (printChars sep v)

end StakingElection.Json
