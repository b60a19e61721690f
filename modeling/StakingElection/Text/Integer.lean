/-!
# Integers in text

An integer is read from text as an optional sign and decimal digits of any script, with single
underscores allowed between digits and blanks around the whole. Each script has its ten digits in a
row, from zero to nine. A number of very many digits is refused, also where something else follows
it that does not belong to it, and an integer with so many digits is given as no text either.
-/

namespace StakingElection.Text

/-! ## Blanks -/

/-- The white space of Unicode and the four separators U+001C to U+001F, as closed ranges. -/
def blankRanges : List (Nat × Nat) := [
  (0x9, 0xd), (0x1c, 0x20), (0x85, 0x85), (0xa0, 0xa0), (0x1680, 0x1680), (0x2000, 0x200a),
  (0x2028, 0x2029), (0x202f, 0x202f), (0x205f, 0x205f), (0x3000, 0x3000)]

/-- Whether a character is white space. -/
def isBlank (c : Char) : Bool :=
  blankRanges.any fun (first, last) => first ≤ c.toNat && c.toNat ≤ last

/-- A text without the characters around it that are blanks in the given sense. -/
def stripBy (blank : Char → Bool) (s : List Char) : List Char :=
  ((s.dropWhile blank).reverse.dropWhile blank).reverse

/-- A text without the blanks around it. -/
def strip (s : String) : String := String.ofList (stripBy isBlank s.toList)

/-! ## Decimal digits -/

/-- The zero of every script of Unicode 14 that has decimal digits. -/
def digitZeros : List Nat := [
  0x30, 0x660, 0x6f0, 0x7c0, 0x966, 0x9e6, 0xa66, 0xae6, 0xb66, 0xbe6, 0xc66, 0xce6, 0xd66,
  0xde6, 0xe50, 0xed0, 0xf20, 0x1040, 0x1090, 0x17e0, 0x1810, 0x1946, 0x19d0, 0x1a80, 0x1a90,
  0x1b50, 0x1bb0, 0x1c40, 0x1c50, 0xa620, 0xa8d0, 0xa900, 0xa9d0, 0xa9f0, 0xaa50, 0xabf0, 0xff10,
  0x104a0, 0x10d30, 0x11066, 0x110f0, 0x11136, 0x111d0, 0x112f0, 0x11450, 0x114d0, 0x11650,
  0x116c0, 0x11730, 0x118e0, 0x11950, 0x11c50, 0x11d50, 0x11da0, 0x16a60, 0x16ac0, 0x16b50,
  0x1d7ce, 0x1d7d8, 0x1d7e2, 0x1d7ec, 0x1d7f6, 0x1e140, 0x1e2f0, 0x1e950, 0x1fbf0]

/-- The value of a decimal digit. -/
def digitValue? (c : Char) : Option Nat :=
  (digitZeros.find? fun first => first ≤ c.toNat && c.toNat < first + 10).map (c.toNat - ·)

theorem digitValue?_lt {c : Char} {d : Nat} (h : digitValue? c = some d) : d < 10 := by
  simp only [digitValue?, Option.map_eq_some_iff] at h
  obtain ⟨first, hf, rfl⟩ := h
  have := List.find?_some hf
  simp only [Bool.and_eq_true, decide_eq_true_eq] at this
  omega

/-! ## Integers -/

/-- Why a text is not read as an integer. -/
inductive IntegerFault where
  | notANumber
  | tooManyDigits (count : Nat)
  deriving Repr, DecidableEq

/-- The most decimal digits of an integer that is read. -/
def digitLimit : Nat := 4300

/-- The text of a fault about too many digits. -/
def tooManyDigitsMessage (count : Nat) : String :=
  s!"Exceeds the limit ({digitLimit} digits) for integer string conversion: " ++
    s!"value has {count} digits; use sys.set_int_max_str_digits() to increase the limit"

/-- The least number with more digits than that. -/
def tooLong : Nat := Nat.pow 10 digitLimit

/-- Whether an integer is given as a text. -/
def hasText (i : Int) : Bool := i.natAbs < tooLong

/-- The text of a fault about an integer that has no text. -/
def noTextMessage : String :=
  s!"Exceeds the limit ({digitLimit} digits) for integer string conversion; " ++
    "use sys.set_int_max_str_digits() to increase the limit"

/-- The digits at the front of a text, and what follows them. An underscore counts only between two
digits, and `afterDigit` tells whether a digit comes right before. -/
def takeDigits : (afterDigit : Bool) → List Char → Option (List Nat × List Char)
  | afterDigit, [] => if afterDigit then some ([], []) else none
  | afterDigit, '_' :: rest => if afterDigit then takeDigits false rest else none
  | afterDigit, c :: rest =>
    match digitValue? c with
    | some d => (takeDigits true rest).map fun r => (d :: r.1, r.2)
    | none => if afterDigit then some ([], c :: rest) else none

/-- The number that digits write. -/
def digitsValue (ds : List Nat) : Nat := ds.foldl (fun n d => n * 10 + d) 0

/-- Reads a whole text of digits. -/
def readDigits (cs : List Char) : Except IntegerFault Nat :=
  match takeDigits false cs with
  | none => .error .notANumber
  | some (ds, rest) =>
    if digitLimit < ds.length then .error (.tooManyDigits ds.length)
    else if rest = [] then .ok (digitsValue ds)
    else .error .notANumber

/-- Whether a character may stand around a number: a blank that is none of the four separators. -/
def isNumberBlank (c : Char) : Bool := isBlank c && !(0x1c ≤ c.toNat && c.toNat ≤ 0x1f)

/-- The integer that a text stands for. -/
def readInt (s : String) : Except IntegerFault Int :=
  match stripBy isNumberBlank s.toList with
  | '-' :: digits => (readDigits digits).map fun n => -(n : Int)
  | '+' :: digits => (readDigits digits).map Int.ofNat
  | digits => (readDigits digits).map Int.ofNat

/-- The integer that a text stands for, if it does. -/
def readInt? (s : String) : Option Int := (readInt s).toOption

end StakingElection.Text
