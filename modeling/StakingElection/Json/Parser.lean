import StakingElection.OrderedMap
import StakingElection.Text.Integer
import StakingElection.Value

/-!
# Reading JSON

The grammar is strict: no trailing commas, no leading zeros, no control characters in strings.
Beyond it `NaN`, `Infinity` and `-Infinity` are numbers. A repeated key of an object keeps its first
place and its last value. A text that is no JSON is a `Fault` at a position of the text; so is a
number of too many digits and a value within too many others.

Texts are sequences of Unicode characters. An escape can also name a surrogate that is no part of a
pair, which is none: data with it is outside of what is modelled here, and its fault
(`Reason.loneSurrogate`) is no fault of the text.
-/

namespace StakingElection.Json

/-- What is wrong with a text. -/
inductive Reason where
  | byteOrderMark
  | value
  | name
  | colon
  | comma
  | openString
  | controlCharacter
  | escapeLetter
  | escapeDigits
  | extraData
  | tooManyDigits (count : Nat)
  | tooDeep
  /-- Data that is not modelled (module doc). -/
  | loneSurrogate
  deriving Repr, DecidableEq

/-- The text of a reason. -/
def Reason.message : Reason → String
  | byteOrderMark => "Unexpected UTF-8 BOM (decode using utf-8-sig)"
  | value => "Expecting value"
  | name => "Expecting property name enclosed in double quotes"
  | colon => "Expecting ':' delimiter"
  | comma => "Expecting ',' delimiter"
  | openString => "Unterminated string starting at"
  | controlCharacter => "Invalid control character at"
  | escapeLetter => "Invalid \\escape"
  | escapeDigits => "Invalid \\uXXXX escape"
  | extraData => "Extra data"
  | tooManyDigits count => Text.tooManyDigitsMessage count
  | tooDeep => "too many values within each other"
  | loneSurrogate => "a surrogate without its pair"

/-- Whether a reason is one of the grammar, and not of size or of what is modelled. -/
def Reason.isOfGrammar : Reason → Bool
  | tooManyDigits _ | tooDeep | loneSurrogate => false
  | _ => true

/-- What is wrong with a text, and how much of the text is left there. -/
structure Stop where
  reason : Reason
  rest : List Char

/-- A reader of the front of a text, with what it leaves. -/
abbrev Reader (α : Type) := List Char → Except Stop (α × List Char)

/-- What is wrong with a text, and where: line and column count from one, `offset` from zero. -/
structure Fault where
  reason : Reason
  line : Nat
  column : Nat
  offset : Nat
  deriving Repr, DecidableEq

/-- The text of a fault. What is too large is so at any place. -/
def Fault.message (f : Fault) : String :=
  if f.reason.isOfGrammar then
    s!"{f.reason.message}: line {f.line} column {f.column} (char {f.offset})"
  else f.reason.message

/-- The fault of a text whose reader stopped. -/
def Stop.fault (text : List Char) (stop : Stop) : Fault :=
  let before := text.take (text.length - stop.rest.length)
  { reason := stop.reason
    line := before.count '\n' + 1
    column := (before.reverse.takeWhile (· != '\n')).length + 1
    offset := before.length }

/-! ## Blanks and strings -/

/-- The blanks of the grammar. -/
def isSpace (c : Char) : Bool := c = ' ' || c = '\t' || c = '\n' || c = '\r'

/-- A text without the blanks at its front. -/
def skipSpace (cs : List Char) : List Char := cs.dropWhile isSpace

/-- The value of a hexadecimal digit. -/
def hexValue? (c : Char) : Option Nat :=
  if c.isDigit then some (c.toNat - '0'.toNat)
  else if 'a' ≤ c ∧ c ≤ 'f' then some (c.toNat - 'a'.toNat + 10)
  else if 'A' ≤ c ∧ c ≤ 'F' then some (c.toNat - 'A'.toNat + 10)
  else none

/-- The number that four hexadecimal digits write. -/
def hexUnit? (a b c d : Char) : Option Nat := do
  return (((← hexValue? a) * 16 + (← hexValue? b)) * 16 + (← hexValue? c)) * 16 + (← hexValue? d)

/-- The character that a short escape stands for. -/
def shortEscape? : Char → Option Char
  | '"' => some '"'
  | '\\' => some '\\'
  | '/' => some '/'
  | 'b' => some '\x08'
  | 'f' => some '\x0c'
  | 'n' => some '\n'
  | 'r' => some '\r'
  | 't' => some '\t'
  | _ => none

/-- The characters of a string up to its closing quote, as code points or UTF-16 units; `start` is
the text from the opening quote on. -/
def readUnits (start : List Char) : Reader (List Nat)
  | [] => .error ⟨.openString, start⟩
  | '"' :: rest => .ok ([], rest)
  | '\\' :: [] => .error ⟨.openString, start⟩
  | '\\' :: 'u' :: a :: b :: c :: d :: e :: rest =>
    match hexUnit? a b c d with
    | some n => do
      let (units, rest) ← readUnits start (e :: rest)
      return (n :: units, rest)
    | none => .error ⟨.escapeDigits, 'u' :: a :: b :: c :: d :: e :: rest⟩
  | '\\' :: 'u' :: rest => .error ⟨.escapeDigits, 'u' :: rest⟩
  | '\\' :: c :: rest =>
    match shortEscape? c with
    | some c => do
      let (units, rest) ← readUnits start rest
      return (c.toNat :: units, rest)
    | none => .error ⟨.escapeLetter, '\\' :: c :: rest⟩
  | c :: rest =>
    if c.toNat < 0x20 then .error ⟨.controlCharacter, c :: rest⟩
    else do
      let (units, rest) ← readUnits start rest
      return (c.toNat :: units, rest)

/-- Joins pairs of surrogates. A surrogate on its own is no character. -/
def joinUnits? : List Nat → Option (List Char)
  | [] => some []
  | [n] => if 0xd800 ≤ n ∧ n < 0xe000 then none else some [Char.ofNat n]
  | high :: low :: rest =>
    if 0xd800 ≤ high ∧ high < 0xdc00 ∧ 0xdc00 ≤ low ∧ low < 0xe000 then
      (joinUnits? rest).map
        (Char.ofNat (0x10000 + (high - 0xd800) * 0x400 + (low - 0xdc00)) :: ·)
    else if 0xd800 ≤ high ∧ high < 0xe000 then none
    else (joinUnits? (low :: rest)).map (Char.ofNat high :: ·)

/-- A string after its opening quote; `start` is the text from that quote on. -/
def readString (start : List Char) : Reader String := fun cs => do
  let (units, rest) ← readUnits start cs
  match joinUnits? units with
  | some chars => return (String.ofList chars, rest)
  | none => throw ⟨.loneSurrogate, start⟩

/-! ## Numbers -/

/-- The number that digits write. -/
def digitsValue (ds : List Char) : Nat := ds.foldl (fun n d => n * 10 + (d.toNat - '0'.toNat)) 0

/-- The digits at the front of a text. -/
def takeDigits (cs : List Char) : List Char × List Char :=
  (cs.takeWhile Char.isDigit, cs.dropWhile Char.isDigit)

/-- A fraction at the front of a text: a point and digits. -/
def readFraction? : List Char → Option (List Char × List Char)
  | '.' :: d :: rest => if d.isDigit then some (takeDigits (d :: rest)) else none
  | _ => none

/-- An exponent after its letter: an optional sign and digits. -/
def readExponentDigits? : List Char → Option (Int × List Char)
  | '-' :: d :: rest =>
    if d.isDigit then
      let (ds, rest) := takeDigits (d :: rest)
      some (-(digitsValue ds : Int), rest)
    else none
  | '+' :: d :: rest =>
    if d.isDigit then
      let (ds, rest) := takeDigits (d :: rest)
      some (digitsValue ds, rest)
    else none
  | d :: rest =>
    if d.isDigit then
      let (ds, rest) := takeDigits (d :: rest)
      some (digitsValue ds, rest)
    else none
  | [] => none

/-- An exponent at the front of a text. -/
def readExponent? : List Char → Option (Int × List Char)
  | 'e' :: rest => readExponentDigits? rest
  | 'E' :: rest => readExponentDigits? rest
  | _ => none

/-- The integer part of a number: a zero, or digits that start with none. -/
def readWhole? : List Char → Option (List Char × List Char)
  | '0' :: rest => some (['0'], rest)
  | d :: rest => if d.isDigit then some (takeDigits (d :: rest)) else none
  | [] => none

/-- A number after its sign: an integer, or with a fraction or an exponent a binary64 number. -/
def readMagnitude? (negative : Bool) (cs : List Char) : Option (Value × List Char) := do
  let (whole, rest) ← readWhole? cs
  let (fraction, rest, fractional) :=
    match readFraction? rest with
    | some (ds, rest) => (ds, rest, true)
    | none => ([], rest, false)
  let (exponent, rest, scaled) :=
    match readExponent? rest with
    | some (e, rest) => (e, rest, true)
    | none => (0, rest, false)
  if fractional || scaled then
    return (.float (.ofDecimal negative (digitsValue (whole ++ fraction))
      (exponent - fraction.length)), rest)
  else
    let n := digitsValue whole
    return (.int (if negative then -(n : Int) else n), rest)

/-- A number. -/
def readNumber? : List Char → Option (Value × List Char)
  | '-' :: rest => readMagnitude? true rest
  | cs => readMagnitude? false cs

/-! ## Values -/

/-- A word that stands for a value. -/
def readWord? : List Char → Option (Value × List Char)
  | 'n' :: 'u' :: 'l' :: 'l' :: rest => some (.null, rest)
  | 't' :: 'r' :: 'u' :: 'e' :: rest => some (.bool true, rest)
  | 'f' :: 'a' :: 'l' :: 's' :: 'e' :: rest => some (.bool false, rest)
  | 'N' :: 'a' :: 'N' :: rest => some (.float .nan, rest)
  | 'I' :: 'n' :: 'f' :: 'i' :: 'n' :: 'i' :: 't' :: 'y' :: rest =>
    some (.float (.infinite false), rest)
  | '-' :: 'I' :: 'n' :: 'f' :: 'i' :: 'n' :: 'i' :: 't' :: 'y' :: rest =>
    some (.float (.infinite true), rest)
  | _ => none

/-- A word or a number. -/
def readScalar (cs : List Char) : Except Stop (Value × List Char) :=
  match (readWord? cs).orElse fun _ => readNumber? cs with
  | some (.int i, rest) =>
    if i.natAbs < Text.tooLong then .ok (.int i, rest)
    else .error ⟨.tooManyDigits (Nat.repr i.natAbs).length, cs⟩
  | some r => .ok r
  | none => .error ⟨.value, cs⟩

/-- Each key once, in its first place and with its last value. -/
def mergeFields (fields : List (String × Value)) : List (String × Value) :=
  fields.foldl (fun l e => OrderedMap.setEntry e.1 e.2 l) []

/-- How many lists and objects may stand within each other. -/
def depthLimit : Nat := 990

mutual

/-- A value at the very front of a text, within at most `depth` more lists and objects. Each call
takes one unit of `fuel`. -/
def readValue : (fuel depth : Nat) → Reader Value
  | 0, _, cs => .error ⟨.value, cs⟩
  | fuel + 1, depth, cs =>
    match cs, depth with
    | '"' :: rest, _ => do
      let (s, rest) ← readString cs rest
      return (.text s, rest)
    | '[' :: _, 0 => .error ⟨.tooDeep, cs⟩
    | '{' :: _, 0 => .error ⟨.tooDeep, cs⟩
    | '[' :: rest, depth + 1 =>
      match skipSpace rest with
      | ']' :: rest => .ok (.list [], rest)
      | rest => do
        let (vs, rest) ← readItems fuel depth rest
        return (.list vs, rest)
    | '{' :: rest, depth + 1 =>
      match skipSpace rest with
      | '}' :: rest => .ok (.object [], rest)
      | rest => do
        let (fs, rest) ← readFields fuel depth rest
        return (.object (mergeFields fs), rest)
    | cs, _ => readScalar cs

/-- The items of a list that has some, with its closing bracket. -/
def readItems : (fuel depth : Nat) → Reader (List Value)
  | 0, _, cs => .error ⟨.value, cs⟩
  | fuel + 1, depth, cs => do
    let (v, rest) ← readValue fuel depth cs
    match skipSpace rest with
    | ']' :: rest => return ([v], rest)
    | ',' :: rest =>
      let (vs, rest) ← readItems fuel depth (skipSpace rest)
      return (v :: vs, rest)
    | rest => throw ⟨.comma, rest⟩

/-- The fields of an object that has some, with its closing brace. -/
def readFields : (fuel depth : Nat) → Reader (List (String × Value))
  | 0, _, cs => .error ⟨.name, cs⟩
  | fuel + 1, depth, cs =>
    match cs with
    | '"' :: rest => do
      let (k, rest) ← readString cs rest
      match skipSpace rest with
      | ':' :: rest =>
        let (v, rest) ← readValue fuel depth (skipSpace rest)
        match skipSpace rest with
        | '}' :: rest => return ([(k, v)], rest)
        | ',' :: rest =>
          let (fs, rest) ← readFields fuel depth (skipSpace rest)
          return ((k, v) :: fs, rest)
        | rest => throw ⟨.comma, rest⟩
      | rest => throw ⟨.colon, rest⟩
    | cs => .error ⟨.name, cs⟩

end

/-- A whole text: one value with blanks around it. A value and what precedes it take two units of
fuel for each character. -/
def readAll (cs : List Char) : Except Stop Value := do
  if cs.head? = some '\uFEFF' then throw ⟨.byteOrderMark, cs⟩
  let (v, rest) ← readValue (2 * cs.length + 2) depthLimit (skipSpace cs)
  match skipSpace rest with
  | [] => return v
  | rest => throw ⟨.extraData, rest⟩

/-- The value that a text writes. -/
def parse (s : String) : Except Fault Value :=
  match readAll s.toList with
  | .ok v => .ok v
  | .error stop => .error (stop.fault s.toList)

end StakingElection.Json
