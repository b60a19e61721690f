import StakingElection.Binary64.Decimal
import StakingElection.Decode

/-!
# Message templates

A template is a text with places for arguments: `%d` for a number, `%s` for a text, `%r` for a value
as it is shown, and some more. A place may name its argument, ask for a sign, zeros or blanks up to
a width, and a number of digits; width and digits may be arguments themselves. Reading a template
never fails: what is wrong with a place shows when it is filled, from left to right.
-/

namespace StakingElection.Logging

/-- Why a template cannot be filled. -/
inductive TemplateFault where
  | tooFewArguments
  | tooManyArguments
  /-- An argument is of the wrong kind for its place, or named though there are no names. -/
  | wrongKind
  /-- No argument has the name of a place. -/
  | unknownName (name : String)
  /-- What is no number stands where an integer is written. -/
  | noNumber
  /-- A number does not fit where it is written: infinity as an integer, a character that does not
  exist, a width beyond 64 bits. -/
  | outOfRange
  /-- The template ends within a place, asks for what is not known, or has too long a width. -/
  | badPlace
  /-- A place is wider than any memory. -/
  | tooWide
  deriving Repr, DecidableEq

/-! ## Reading -/

/-- What a place says of sign and filling. -/
structure Flags where
  left : Bool
  plus : Bool
  blank : Bool
  alternate : Bool
  zeros : Bool
  deriving Repr, DecidableEq

/-- The name in a place. -/
inductive Key where
  | name (s : String)
  /-- The template ends before the name does. -/
  | unclosed
  deriving Repr, DecidableEq

/-- A width or a number of digits. -/
inductive Size where
  | given (n : Nat)
  /-- The next argument says it. -/
  | argument
  deriving Repr, DecidableEq

/-- A place for an argument. -/
structure Place where
  key : Option Key
  flags : Flags
  width : Option Size
  precision : Option Size
  /-- What to write there; none where the template ends too early. -/
  conversion : Option Char
  deriving Repr, DecidableEq

/-- A part of a template. -/
inductive Piece where
  | char (c : Char)
  | place (p : Place)
  deriving Repr, DecidableEq

/-- A name up to the parenthesis that closes it, `depth` further ones being open. -/
def readName : (depth : Nat) → List Char → Option (List Char × List Char)
  | _, [] => none
  | 0, ')' :: rest => some ([], rest)
  | depth, c :: rest => do
    let depth := if c = '(' then depth + 1 else if c = ')' then depth - 1 else depth
    let (name, rest) ← readName depth rest
    return (c :: name, rest)

/-- Reads the name of a place, if it has one. -/
def readKey : List Char → Option Key × List Char
  | '(' :: rest =>
    match readName 0 rest with
    | some (name, rest) => (some (.name (String.ofList name)), rest)
    | none => (some .unclosed, [])
  | cs => (none, cs)

/-- Reads flags. -/
def readFlags (f : Flags) : List Char → Flags × List Char
  | '-' :: rest => readFlags { f with left := true } rest
  | '+' :: rest => readFlags { f with plus := true } rest
  | ' ' :: rest => readFlags { f with blank := true } rest
  | '#' :: rest => readFlags { f with alternate := true } rest
  | '0' :: rest => readFlags { f with zeros := true } rest
  | cs => (f, cs)

/-- Reads a number, zero if there is none. -/
def readCount (cs : List Char) : Nat × List Char :=
  ((cs.takeWhile Char.isDigit).foldl (fun n d => n * 10 + (d.toNat - '0'.toNat)) 0,
    cs.dropWhile Char.isDigit)

/-- Reads a size, zero if there is none. -/
def readSize : List Char → Size × List Char
  | '*' :: rest => (.argument, rest)
  | cs => let (n, rest) := readCount cs; (.given n, rest)

/-- Reads a width, if there is one. -/
def readWidth (cs : List Char) : Option Size × List Char :=
  match cs.head? with
  | some c =>
    if c = '*' || c.isDigit then
      let (size, rest) := readSize cs
      (some size, rest)
    else (none, cs)
  | none => (none, cs)

/-- Reads a precision, if there is one. -/
def readPrecision : List Char → Option Size × List Char
  | '.' :: rest => let (size, rest) := readSize rest; (some size, rest)
  | cs => (none, cs)

/-- Leaves out the one letter that may tell the size of a number. -/
def dropModifier : List Char → List Char
  | c :: rest => if c = 'h' || c = 'l' || c = 'L' then rest else c :: rest
  | [] => []

/-- Reads a place after its percent sign. -/
def readPlace (cs : List Char) : Place × List Char :=
  let (key, cs) := readKey cs
  let (flags, cs) := readFlags ⟨false, false, false, false, false⟩ cs
  let (width, cs) := readWidth cs
  let (precision, cs) := readPrecision cs
  match dropModifier cs with
  | c :: rest => (⟨key, flags, width, precision, some c⟩, rest)
  | [] => (⟨key, flags, width, precision, none⟩, [])

/-- The parts of a template; two percent signs stand for one. Each takes one unit of fuel. -/
def pieces : (fuel : Nat) → List Char → List Piece
  | 0, _ => []
  | _ + 1, [] => []
  | fuel + 1, '%' :: '%' :: rest => .char '%' :: pieces fuel rest
  | fuel + 1, '%' :: rest =>
    let (place, rest) := readPlace rest
    .place place :: pieces fuel rest
  | fuel + 1, c :: rest => .char c :: pieces fuel rest

/-! ## Writing an argument -/

/-- How an argument is laid out. -/
structure Layout where
  flags : Flags
  width : Nat
  precision : Option Nat
  deriving Repr, DecidableEq

/-- No text gets longer than this, `2 ^ 30`. -/
def widest : Nat := 1073741824

/-- A text filled up to the width with blanks. -/
def fill (l : Layout) (cs : List Char) : Except TemplateFault (List Char) := do
  if widest < l.width then throw .tooWide
  let blanks := List.replicate (l.width - cs.length) ' '
  return if l.flags.left then cs ++ blanks else blanks ++ cs

/-- A number by its sign, what stands before its digits, and the digits. -/
def fillNumber (l : Layout) (negative : Bool) (mark digits : List Char) :
    Except TemplateFault (List Char) := do
  if widest < l.width then throw .tooWide
  let sign :=
    if negative then ['-'] else if l.flags.plus then ['+'] else if l.flags.blank then [' '] else []
  let front := sign ++ mark
  if l.flags.zeros && !l.flags.left then
    return front ++ List.replicate (l.width - front.length - digits.length) '0' ++ digits
  else fill l (front ++ digits)

/-- The most digits that an integer is asked for. -/
def mostDigits : Nat := 2147483644

/-- An integer by its digits, with zeros in front of them up to the precision. -/
def fillInteger (l : Layout) (negative : Bool) (mark digits : List Char) :
    Except TemplateFault (List Char) := do
  let count := l.precision.getD 0
  if mostDigits < count then throw .outOfRange
  if widest < count then throw .tooWide
  fillNumber l negative mark (List.replicate (count - digits.length) '0' ++ digits)

/-- A binary64 number in a form; letters stand for what is no finite number. -/
def fillFraction (l : Layout) (form : Binary64.DecimalForm) (isUpper : Bool) (x : Binary64) :
    Except TemplateFault (List Char) := do
  let count := l.precision.getD 6
  if widest < count then throw .tooWide
  let (negative, digits) := match x with
    | .finite negative m e =>
      let (num, den) := Binary64.ratio m e
      (negative, Binary64.decimalText form l.flags.alternate count num den)
    | .infinite negative => (negative, ['i', 'n', 'f'])
    | .nan => (false, ['n', 'a', 'n'])
  fillNumber l negative [] (if isUpper then digits.map Char.toUpper else digits)

/-- The integer that a decimal place writes: a fraction is cut off. -/
def wholeNumber : Value → Except TemplateFault Int
  | .int i => .ok i
  | .bool b => .ok (if b then 1 else 0)
  | .float x =>
    match x.truncate? with
    | some i => .ok i
    | none => .error (if x = .nan then .noNumber else .outOfRange)
  | _ => .error .wrongKind

/-- The integer that a place in another base writes. -/
def integer : Value → Except TemplateFault Int
  | .int i => .ok i
  | .bool b => .ok (if b then 1 else 0)
  | _ => .error .wrongKind

/-- A binary64 number of an argument. -/
def fraction : Value → Except TemplateFault Binary64
  | .float x => .ok x
  | v => do
    match Binary64.ofInt (← integer v) with
    | .finite negative m e => return .finite negative m e
    | _ => throw .outOfRange

/-- The character of an argument: a text of one, or its number. -/
def character : Value → Except TemplateFault Char
  | .text s =>
    match s.toList with
    | [c] => .ok c
    | _ => .error .wrongKind
  | v => do
    let i ← integer v
    if i < 0 ∨ 0x110000 ≤ i then throw .outOfRange
    return Char.ofNat i.toNat

/-- A text cut to the precision. -/
def cut (l : Layout) (cs : List Char) : List Char :=
  match l.precision with
  | some n => cs.take n
  | none => cs

/-- A text with every character beyond ASCII escaped. -/
def escaped (cs : List Char) : List Char :=
  cs.flatMap fun c => if c.toNat < 0x80 then [c] else Text.numericEscape c

/-- An integer in base 8 or 16, marked by a letter where the place asks for it. -/
def fillBased (l : Layout) (base : Nat) (letter : Char) (isUpper : Bool) (i : Int) :
    Except TemplateFault (List Char) :=
  let digits := Nat.toDigits base i.natAbs
  fillInteger l (i < 0) (if l.flags.alternate then ['0', letter] else [])
    (if isUpper then digits.map Char.toUpper else digits)

/-- An argument as its place writes it. -/
def convert (l : Layout) (conversion : Char) (v : Value) : Except TemplateFault (List Char) := do
  match conversion with
  | 's' => fill l (cut l v.toText.toList)
  | 'r' => fill l (cut l v.shown.toList)
  | 'a' => fill l (cut l (escaped v.shown.toList))
  | 'c' => fill l [← character v]
  | 'd' | 'i' | 'u' =>
    let i ← wholeNumber v
    fillInteger l (i < 0) [] (Nat.repr i.natAbs).toList
  | 'o' => fillBased l 8 'o' false (← integer v)
  | 'x' => fillBased l 16 'x' false (← integer v)
  | 'X' => fillBased l 16 'X' true (← integer v)
  | 'e' => fillFraction l .scientific false (← fraction v)
  | 'E' => fillFraction l .scientific true (← fraction v)
  | 'f' => fillFraction l .positional false (← fraction v)
  | 'F' => fillFraction l .positional true (← fraction v)
  | 'g' => fillFraction l .general false (← fraction v)
  | 'G' => fillFraction l .general true (← fraction v)
  | _ => throw .badPlace

/-! ## Filling -/

/-- The arguments that are left, and the fields of the object that is the only one. -/
structure Supply where
  named : Option (List (String × Value))
  rest : List Value

namespace Supply

/-- An object with fields, where it is the only argument, gives its fields by name. -/
def ofArguments : List Value → Supply
  | [.object (field :: fields)] => ⟨some (field :: fields), [.object (field :: fields)]⟩
  | arguments => ⟨none, arguments⟩

/-- Takes the next argument. -/
def next (s : Supply) : Except TemplateFault (Value × Supply) :=
  match s.rest with
  | v :: rest => .ok (v, { s with rest })
  | [] => .error .tooFewArguments

/-- Looks up the argument that a place names; it is the next one then. -/
def select (s : Supply) : Option Key → Except TemplateFault Supply
  | none => .ok s
  | some key =>
    match s.named, key with
    | none, _ => .error .wrongKind
    | some _, .unclosed => .error .badPlace
    | some fields, .name name =>
      match fields.lookup name with
      | some v => .ok { s with rest := [v] }
      | none => .error (.unknownName name)

/-- A size below a limit, negative where an argument says so. -/
def size (s : Supply) (limit : Int) : Option Size → Except TemplateFault (Option Int × Supply)
  | none => .ok (none, s)
  | some (.given n) => if n < limit then .ok (some (n : Int), s) else .error .badPlace
  | some .argument => do
    let (v, s) ← s.next
    let i ← integer v
    if i < -limit ∨ limit ≤ i then throw .outOfRange
    return (some i, s)

end Supply

/-- What widths stay below, `2 ^ 63`. -/
def widthLimit : Int := 9223372036854775808

/-- What precisions stay below, `2 ^ 31`. -/
def precisionLimit : Int := 2147483648

/-- The characters of a width. The least one of 64 bits has no counterpart, and counts as none. -/
def widthCount (width : Int) : Nat := if width = -widthLimit then 0 else width.natAbs

/-- Fills one place. A negative width is one with blanks on the right. -/
def fillPlace (s : Supply) (p : Place) : Except TemplateFault (List Char × Supply) := do
  let s ← s.select p.key
  let (width, s) ← s.size widthLimit p.width
  let (precision, s) ← s.size precisionLimit p.precision
  match p.conversion with
  | none => throw .badPlace
  | some conversion =>
    let (v, s) ← s.next
    let layout : Layout := {
      flags := { p.flags with left := p.flags.left || width.any (· < 0) }
      width := widthCount (width.getD 0)
      precision := precision.map Int.toNat }
    return (← convert layout conversion v, s)

/-- Fills places with arguments in order; those that are left over must have names. -/
def fillPieces (s : Supply) : List Piece → Except TemplateFault (List Char)
  | [] => if s.rest.isEmpty || s.named.isSome then .ok [] else .error .tooManyArguments
  | .char c :: rest => do return c :: (← fillPieces s rest)
  | .place p :: rest => do
    let (cs, s) ← fillPlace s p
    return cs ++ (← fillPieces s rest)

/-- A template with its arguments filled in. Without arguments it stands as it is. -/
def fillTemplate (template : String) (arguments : List Value) : Except TemplateFault String := do
  if arguments.isEmpty then return template
  let cs := template.toList
  return String.ofList (← fillPieces (.ofArguments arguments) (pieces cs.length cs))

end StakingElection.Logging
