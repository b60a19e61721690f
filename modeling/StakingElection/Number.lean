import StakingElection.Binary64

/-!
# Numbers of both kinds

A number in the settings may be an integer or a binary64 number where an integer is meant. It is
compared with counts and multiplied by them as it is, without rounding first.
-/

namespace StakingElection

/-- An integer or a binary64 number. -/
inductive Number where
  | whole (i : Int)
  | fraction (x : Binary64)
  deriving Repr, DecidableEq

namespace Number

/-- The integer that a number is. -/
def whole? : Number → Option Int
  | whole i => some i
  | fraction x => if x.floor? = x.ceil? then x.floor? else none

/-- The text of a number. -/
def toText : Number → String
  | whole i => toString i
  | fraction x => x.toText

/-- Whether a number is not above an integer. -/
def isAtMost : Number → Int → Bool
  | whole i, n => i ≤ n
  | fraction x, n =>
    match x.ceil? with
    | some i => i ≤ n
    | none => x = .infinite true

/-- Whether a number is no number at all. -/
def isNan : Number → Bool
  | fraction .nan => true
  | _ => false

/-- How many of the counts from zero on are below a number. All counts are below infinity; then
there are `most` of them. -/
def countsBelow (most : Nat) : Number → Nat
  | whole i => i.toNat
  | fraction x =>
    match x.ceil? with
    | some i => i.toNat
    | none => if x = .infinite false then most else 0

theorem countsBelow_whole (most : Nat) (i : Int) : (whole i).countsBelow most = i.toNat := rfl

/-- A multiple of a number. A fraction is multiplied by the binary64 number nearest to the integer,
if there is one. -/
def times : Number → Int → Option Number
  | whole i, n => some (whole (i * n))
  | fraction x, n =>
    match Binary64.ofInt n with
    | .finite negative m e => some (fraction (x.mul (.finite negative m e)))
    | _ => none

end Number

end StakingElection
