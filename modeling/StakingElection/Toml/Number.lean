import StakingElection.Toml.Quoted

/-!
# Numbers and dates of TOML

Integers are decimal, hexadecimal, octal or binary; a fraction or an exponent makes a binary64
number. Single underscores may stand between digits. Only a decimal integer can have too many
digits.
-/

namespace StakingElection.Toml

/-- Digits with single underscores between them, without the underscores. -/
def takeDigits (isDigit : Char → Bool) : List Char → List Char × List Char
  | [] => ([], [])
  | '_' :: c :: rest =>
    if isDigit c then
      let (ds, rest) := takeDigits isDigit rest
      (c :: ds, rest)
    else ([], '_' :: c :: rest)
  | c :: rest =>
    if isDigit c then
      let (ds, rest) := takeDigits isDigit rest
      (c :: ds, rest)
    else ([], c :: rest)

/-- One digit or more at the front of a text. -/
def readDigits? (isDigit : Char → Bool) (cs : List Char) : Option (List Char × List Char) :=
  if (cs.head?.map isDigit).getD false then some (takeDigits isDigit cs) else none

/-- The number that digits write in a base up to sixteen. -/
def digitsValue (base : Nat) (ds : List Char) : Nat :=
  ds.foldl (fun n d => n * base + (Json.hexValue? d).getD 0) 0

/-- An integer with a base mark. -/
def readBased? : Reader Value
  | '0' :: mark :: rest => do
    let (base, isDigit) ← match mark with
      | 'x' => some (16, fun c => (Json.hexValue? c).isSome)
      | 'o' => some (8, fun c => '0' ≤ c && c ≤ '7')
      | 'b' => some (2, fun c => c = '0' || c = '1')
      | _ => none
    let (ds, rest) ← readDigits? isDigit rest
    return (.int (digitsValue base ds), rest)
  | _ => none

/-- The integer part of a decimal number: a zero, or digits that start with none. -/
def readWhole? : Reader (List Char)
  | '0' :: rest => some (['0'], rest)
  | cs => readDigits? Char.isDigit cs

/-- A fraction, if there is one. -/
def readFraction (cs : List Char) : Option (List Char) × List Char :=
  match cs with
  | '.' :: rest =>
    match readDigits? Char.isDigit rest with
    | some (ds, rest) => (some ds, rest)
    | none => (none, cs)
  | _ => (none, cs)

/-- A sign, if there is one: whether it is a minus, and the text behind it. -/
def readSign : List Char → Bool × List Char
  | '-' :: rest => (true, rest)
  | '+' :: rest => (false, rest)
  | cs => (false, cs)

/-- An exponent, if there is one. -/
def readExponent (cs : List Char) : Option Int × List Char :=
  match cs with
  | c :: rest =>
    if c = 'e' || c = 'E' then
      let (negative, digits) := readSign rest
      match readDigits? Char.isDigit digits with
      | some (ds, rest) =>
        let n : Int := digitsValue 10 ds
        (some (if negative then -n else n), rest)
      | none => (none, cs)
    else (none, cs)
  | [] => (none, cs)

/-- A decimal number. -/
def readDecimal? : Reader Value := fun cs => do
  let (negative, rest) := readSign cs
  let (whole, rest) ← readWhole? rest
  let (fraction?, rest) := readFraction rest
  let (exponent?, rest) := readExponent rest
  if fraction?.isSome || exponent?.isSome then
    let fraction := fraction?.getD []
    return (.float (.ofDecimal negative (digitsValue 10 (whole ++ fraction))
      (exponent?.getD 0 - fraction.length)), rest)
  else
    let n : Int := digitsValue 10 whole
    return (.int (if negative then -n else n), rest)

/-- The numbers that have names. -/
def readNamed? : Reader Value := fun cs => do
  let (negative, rest) := readSign cs
  match rest with
  | 'i' :: 'n' :: 'f' :: rest => some (.float (.infinite negative), rest)
  | 'n' :: 'a' :: 'n' :: rest => some (.float .nan, rest)
  | _ => none

/-! ## Dates and times -/

/-- Two digits at the front of a text, up to a limit. -/
def readTwo? (least most : Nat) : Reader Nat
  | a :: b :: rest =>
    if a.isDigit && b.isDigit then
      let n := digitsValue 10 [a, b]
      if least ≤ n && n ≤ most then some (n, rest) else none
    else none
  | _ => none

/-- A character that must stand there. -/
def readChar? (c : Char) : Reader Unit
  | d :: rest => if d = c then some ((), rest) else none
  | [] => none

/-- The microseconds behind a time of day, if there are any; digits after the sixth do not count. -/
def readMicroseconds (cs : List Char) : Nat × List Char :=
  match cs with
  | '.' :: rest =>
    let digits := rest.takeWhile Char.isDigit
    if digits.isEmpty then (0, cs)
    else
      let six := digits.take 6
      (digitsValue 10 (six ++ List.replicate (6 - six.length) '0'), rest.dropWhile Char.isDigit)
  | _ => (0, cs)

/-- A time of day. -/
def readTime? : Reader TimeOfDay := fun cs => do
  let (hour, cs) ← readTwo? 0 23 cs
  let (_, cs) ← readChar? ':' cs
  let (minute, cs) ← readTwo? 0 59 cs
  let (_, cs) ← readChar? ':' cs
  let (second, cs) ← readTwo? 0 59 cs
  let (microsecond, cs) := readMicroseconds cs
  return (⟨hour, minute, second, microsecond⟩, cs)

/-- An offset from universal time after its sign, in minutes. -/
def readMinutes? : Reader Nat := fun cs => do
  let (hours, cs) ← readTwo? 0 23 cs
  let (_, cs) ← readChar? ':' cs
  let (minutes, cs) ← readTwo? 0 59 cs
  return (hours * 60 + minutes, cs)

/-- An offset from universal time, if there is one. -/
def readOffset (cs : List Char) : Option Int × List Char :=
  match cs with
  | 'Z' :: rest => (some 0, rest)
  | 'z' :: rest => (some 0, rest)
  | '+' :: rest =>
    match readMinutes? rest with
    | some (n, rest) => (some n, rest)
    | none => (none, cs)
  | '-' :: rest =>
    match readMinutes? rest with
    | some (n, rest) => (some (-n), rest)
    | none => (none, cs)
  | _ => (none, cs)

/-- A day, which need not be one of the calendar. -/
def readDay? : Reader Day := fun cs => do
  let (century, cs) ← readTwo? 0 99 cs
  let (years, cs) ← readTwo? 0 99 cs
  let (_, cs) ← readChar? '-' cs
  let (month, cs) ← readTwo? 1 12 cs
  let (_, cs) ← readChar? '-' cs
  let (day, cs) ← readTwo? 1 31 cs
  return (⟨century * 100 + years, month, day⟩, cs)

/-- The time and the offset that may follow a day. -/
def readTimeOf (d : Day) (cs : List Char) : Stamp × List Char :=
  match cs with
  | c :: rest =>
    if c = 'T' || c = 't' || c = ' ' then
      match readTime? rest with
      | some (t, rest) =>
        let (offset, rest) := readOffset rest
        (.moment d t offset, rest)
      | none => (.day d, cs)
    else (.day d, cs)
  | [] => (.day d, cs)

/-- A decimal number, which must not have too many digits. -/
def readLimited (cs : List Char) : Except Fault (Value × List Char) := do
  match ← readDecimal? cs with
  | (.int i, rest) =>
    if i.natAbs < Text.tooLong then return (.int i, rest)
    else throw (.tooManyDigits (Nat.repr i.natAbs).length)
  | r => return r

/-- A date or a time, a number with a name, or any other number. -/
def readNumber (cs : List Char) : Except Fault (Value × List Char) :=
  match readDay? cs with
  | some (d, rest) => do
    if !d.isValid then throw .malformed
    let (stamp, rest) := readTimeOf d rest
    return (.stamp stamp, rest)
  | none =>
    match readTime? cs with
    | some (t, rest) => .ok (.stamp (.time t), rest)
    | none =>
      match readNamed? cs, readBased? cs with
      | some r, _ => .ok r
      | none, some r => .ok r
      | none, none => readLimited cs

end StakingElection.Toml
