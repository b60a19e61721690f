import StakingElection.Binary64

/-!
# A number with so many digits

Where a place asks for a number of digits, a binary64 number is written in one of three forms: with
so many places behind the point, with so many places and a power of ten, or with so many significant
digits in the shorter of the two. It is rounded once, exactly, a tie to the even digit.
-/

namespace StakingElection.Binary64

/-- How digits and point are written. -/
inductive DecimalForm where
  /-- All digits before the point, and a number of places behind it. -/
  | positional
  /-- One digit before the point, a number of places behind it, and a power of ten. -/
  | scientific
  /-- A number of significant digits, positional unless the power of ten is below -4 or the digits
  do not reach the point. Zeros at the end are left out. -/
  | general
  deriving Repr, DecidableEq

/-- The digits of `n`, at least `width` of them. -/
def digitsOf (width n : Nat) : List Char :=
  let digits := (Nat.repr n).toList
  List.replicate (width - digits.length) '0' ++ digits

/-- The digits of `num / den` before the point, and `places` digits behind it. -/
def positionalDigits (places num den : Nat) : List Char × List Char :=
  let digits := digitsOf (places + 1) (roundDiv (num * Nat.pow 10 places) den)
  digits.splitAt (digits.length - places)

/-- The first `places + 1` significant digits of `num / den`, and the power of ten of the first. -/
def scientificDigits (places num den : Nat) : List Char × Int :=
  if num = 0 then (List.replicate (places + 1) '0', 0)
  else
    let power := decimalPoint num den - 1
    let (n, d) := sides 1 (power - places) num den
    let digits := (Nat.repr (roundDiv d n)).toList
    if places + 1 < digits.length then (digits.take (places + 1), power + 1) else (digits, power)

/-- Digits with a point; the point is left out where nothing is behind it, unless it is kept. -/
def pointed (keepsPoint : Bool) (whole places : List Char) : List Char :=
  if places.isEmpty && !keepsPoint then whole else whole ++ '.' :: places

/-- Digits without the zeros at their end. -/
def withoutZeros (digits : List Char) : List Char := (digits.reverse.dropWhile (· = '0')).reverse

/-- A magnitude with a power of ten. -/
def scientificText (keepsPoint : Bool) (digits : List Char) (power : Int) : List Char :=
  pointed keepsPoint (digits.take 1) (digits.drop 1) ++ 'e' :: exponentText power

/-- The magnitude `num / den` in a form, with a number of digits. -/
def decimalText (form : DecimalForm) (keepsPoint : Bool) (count num den : Nat) : List Char :=
  match form with
  | .positional =>
    let (whole, places) := positionalDigits count num den
    pointed keepsPoint whole places
  | .scientific =>
    let (digits, power) := scientificDigits count num den
    scientificText keepsPoint digits power
  | .general =>
    let count := max 1 count
    let trim := if keepsPoint then id else withoutZeros
    let (digits, power) := scientificDigits (count - 1) num den
    if power < -4 ∨ count ≤ power then
      scientificText keepsPoint (digits.take 1 ++ trim (digits.drop 1)) power
    else if power < 0 then
      pointed keepsPoint ['0'] (trim (List.replicate (-power - 1).toNat '0' ++ digits))
    else
      let (whole, places) := digits.splitAt (power.toNat + 1)
      pointed keepsPoint whole (trim places)

end StakingElection.Binary64
