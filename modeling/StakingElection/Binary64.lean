/-!
# Binary64 numbers

Amounts are integers; a fraction only passes through the program, as a delay or as a value of a
foreign export. It is then a binary64 number: a 53-bit mantissa and a power of two, rounded from its
decimal text to the nearest such number and written back with the fewest digits that read back.
All of it is exact arithmetic on natural numbers.
-/

namespace StakingElection

/-- A binary64 number. A finite one is in normal form: the mantissa is below `2 ^ 53`, the exponent
at least `-1074`, and one of the two is as far up or down as it gets. -/
inductive Binary64 where
  /-- `mantissa · 2 ^ exponent`, or its negative. -/
  | finite (negative : Bool) (mantissa : Nat) (exponent : Int)
  | infinite (negative : Bool)
  | nan
  deriving Repr, DecidableEq, Inhabited

namespace Binary64

/-! ## Rounding -/

/-- `num / den` rounded to the nearest integer, a tie to the even one. -/
def roundDiv (num den : Nat) : Nat :=
  let q := num / den
  let r := num % den
  if 2 * r < den then q else if den < 2 * r then q + 1 else q + q % 2

/-- Numerator and denominator of `num / den · 2 ^ (-e)`. -/
def scaled (num den : Nat) (e : Int) : Nat × Nat :=
  if 0 ≤ e then (num, den * Nat.pow 2 e.toNat) else (num * Nat.pow 2 (-e).toNat, den)

/-- What a mantissa stays below, `2 ^ 53`. -/
def limit : Nat := 9007199254740992

/-- The exponent at which `num / den` has a 53-bit integer part, or the least exponent there is. -/
def exponentOf (num den : Nat) : Int :=
  let e : Int := (num.log2 : Int) - den.log2 - 53
  let (n, d) := scaled num den e
  max (if n / d < limit then e else e + 1) (-1074)

/-- The number nearest to `num / den`, a tie to the even mantissa. -/
def ofRatio (negative : Bool) (num den : Nat) : Binary64 :=
  if num = 0 then finite negative 0 (-1074)
  else
    let e := exponentOf num den
    let (n, d) := scaled num den e
    let m := roundDiv n d
    let (m, e) := if m = limit then (limit / 2, e + 1) else (m, e)
    if 971 < e then infinite negative else finite negative m e

/-- The number nearest to `digits · 10 ^ exponent`. The two early answers are beyond the range. -/
def ofDecimal (negative : Bool) (digits : Nat) (exponent : Int) : Binary64 :=
  if digits = 0 || (digits.log2 : Int) + 1 + exponent < -400 then finite negative 0 (-1074)
  else if 400 < exponent then infinite negative
  else if 0 ≤ exponent then ofRatio negative (digits * Nat.pow 10 exponent.toNat) 1
  else ofRatio negative digits (Nat.pow 10 (-exponent).toNat)

/-- The number nearest to an integer. -/
def ofInt (i : Int) : Binary64 := ofRatio (i < 0) i.natAbs 1

/-! ## Reading a number -/

/-- Numerator and denominator of the magnitude of a finite number. -/
def ratio (mantissa : Nat) (exponent : Int) : Nat × Nat := scaled mantissa 1 (-exponent)

/-- The integer part, towards zero; none of an infinite number or of `nan`. -/
def truncate? : Binary64 → Option Int
  | finite negative m e =>
    let (n, d) := ratio m e
    some (if negative then -((n / d : Nat) : Int) else (n / d : Nat))
  | _ => none

/-- The least integer not below a number; none of an infinite number or of `nan`. -/
def ceil? : Binary64 → Option Int
  | finite negative m e =>
    let (n, d) := ratio m e
    some (if negative then -((n / d : Nat) : Int) else ((n + d - 1) / d : Nat))
  | _ => none

/-- The greatest integer not above a number; none of an infinite number or of `nan`. -/
def floor? : Binary64 → Option Int
  | finite negative m e =>
    let (n, d) := ratio m e
    some (if negative then -((n + d - 1) / d : Nat) else ((n / d : Nat) : Int))
  | _ => none

/-- Whether a number is zero. -/
def isZero : Binary64 → Bool
  | finite _ m _ => m == 0
  | _ => false

/-! ## Multiplication -/

/-- The number nearest to a product. -/
def mul : Binary64 → Binary64 → Binary64
  | finite s m e, finite t n f =>
    let (num, den) := ratio (m * n) (e + f)
    ofRatio (s != t) num den
  | infinite s, infinite t => infinite (s != t)
  | infinite s, finite t n _ => if n = 0 then nan else infinite (s != t)
  | finite s m _, infinite t => if m = 0 then nan else infinite (s != t)
  | _, _ => nan

/-! ## The fewest digits that read back -/

/-- `10 ^ point` is the least power of ten above a positive ratio. Scaling by `10 ^ 400` makes an
integer with many digits out of every binary64 number. -/
def decimalPoint (num den : Nat) : Int :=
  ((Nat.repr (num * Nat.pow 10 400 / den)).length : Int) - 400

/-- The two sides of the comparison of `digits · 10 ^ q` with `num / den`. -/
def sides (digits : Nat) (q : Int) (num den : Nat) : Nat × Nat :=
  if 0 ≤ q then (digits * Nat.pow 10 q.toNat * den, num)
  else (digits * den, num * Nat.pow 10 (-q).toNat)

/-- The decimals `digits · 10 ^ q` that read as `mantissa · 2 ^ exponent` lie between the midpoints
to its neighbours; a midpoint itself belongs to the even mantissa. Bounds are in quarters of the
last place, and the gap below a power of two is half as wide. -/
structure ReadRange where
  low : Nat
  high : Nat
  value : Nat
  /-- The last place, quartered, as a ratio. -/
  unit : Nat × Nat
  closed : Bool

def readRange (m : Nat) (e : Int) : ReadRange where
  low := if m = limit / 2 && -1074 < e then 4 * m - 1 else 4 * m - 2
  high := 4 * m + 2
  value := 4 * m
  unit := ratio 1 (e - 2)
  closed := m % 2 == 0

/-- Whether the decimal is not below the range. -/
def ReadRange.above (r : ReadRange) (digits : Nat) (q : Int) : Bool :=
  let (d, bound) := sides digits q (r.low * r.unit.1) r.unit.2
  if r.closed then bound ≤ d else bound < d

/-- Whether the decimal is not beyond the range. -/
def ReadRange.below (r : ReadRange) (digits : Nat) (q : Int) : Bool :=
  let (d, bound) := sides digits q (r.high * r.unit.1) r.unit.2
  if r.closed then d ≤ bound else d < bound

/-- The decimal on the grid `10 ^ q` that reads back, the nearer of two. -/
def ReadRange.hit? (r : ReadRange) (q : Int) : Option Nat :=
  let (one, value) := sides 1 q (r.value * r.unit.1) r.unit.2
  let floor := value / one
  match r.above floor q, r.below (floor + 1) q with
  | true, false => some floor
  | false, true => some (floor + 1)
  | false, false => none
  | true, true =>
    let (middle, twice) := sides (2 * floor + 1) q (2 * r.value * r.unit.1) r.unit.2
    some (if twice < middle then floor
      else if middle < twice then floor + 1
      else floor + floor % 2)

/-- The first grid that has a hit, of `fuel` grids from `10 ^ q` down. -/
def ReadRange.search (r : ReadRange) : (fuel : Nat) → (q : Int) → Nat × Int
  | 0, q => (0, q)
  | fuel + 1, q =>
    match r.hit? q with
    | some digits => (digits, q)
    | none => r.search fuel (q - 1)

/-- The significant digits of a positive number and its decimal point: the number reads back from
`0.d₁d₂… · 10 ^ point`, and from no shorter decimal. Seventeen digits always do. -/
def shortest (m : Nat) (e : Int) : List Char × Int :=
  let r := readRange m e
  let point := decimalPoint (r.value * r.unit.1) r.unit.2
  let (digits, q) := r.search 17 (point - 1)
  let text := (Nat.repr digits).toList
  ((text.reverse.dropWhile (· = '0')).reverse, q + text.length)

/-! ## Text -/

/-- A decimal exponent: a sign and at least two digits. -/
def exponentText (e : Int) : List Char :=
  let digits := (Nat.repr e.natAbs).toList
  (if e < 0 then '-' else '+') :: (List.replicate (2 - digits.length) '0' ++ digits)

/-- Digits with a point: positional from `10 ^ -4` to below `10 ^ 16`, else with an exponent. -/
def place (digits : List Char) (point : Int) : List Char :=
  if -4 < point ∧ point ≤ 16 then
    if point ≤ 0 then '0' :: '.' :: (List.replicate (-point).toNat '0' ++ digits)
    else if digits.length ≤ point.toNat then
      digits ++ List.replicate (point.toNat - digits.length) '0' ++ ['.', '0']
    else digits.take point.toNat ++ '.' :: digits.drop point.toNat
  else
    digits.take 1 ++ (if digits.length ≤ 1 then [] else '.' :: digits.drop 1)
      ++ 'e' :: exponentText (point - 1)

/-- The text of a number. -/
def toText : Binary64 → String
  | nan => "nan"
  | infinite negative => if negative then "-inf" else "inf"
  | finite negative m e =>
    let body :=
      if m = 0 then ['0', '.', '0']
      else
        let (digits, point) := shortest m e
        place digits point
    String.ofList (if negative then '-' :: body else body)

end Binary64

end StakingElection
