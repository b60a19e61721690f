import StakingElection.Decode

/-!
# Scan coefficients

A scan of the voter list accepts some number of voters, and may look at no more entries than a
multiple of that number. The coefficient comes from the settings and is of whatever kind it was
given there: a fraction is multiplied as it is, a text or a list can be repeated but not compared
with a count, and nothing else can be multiplied. What is of no use is a fault where it is used.
-/

namespace StakingElection

/-- What the number of accepted voters is multiplied by. -/
inductive Coefficient where
  | number (x : Number)
  /-- A text or a list, by the name of its kind. -/
  | repeatable (kind : String)
  /-- A value that cannot be multiplied, by the name of its kind. -/
  | unusable (kind : String)
  deriving Repr, DecidableEq

namespace Coefficient

/-- An integer as a coefficient. -/
def whole (c : Int) : Coefficient := number (.whole c)

/-- Twice as many entries as accepted voters, where nothing else is asked for. -/
def standard : Coefficient := whole 2

/-- The coefficient that a value stands for. -/
def ofValue (v : Value) : Coefficient :=
  match v, v.toNumber with
  | _, .ok x => number x
  | .text _, _ => repeatable v.kindName
  | .list _, _ => repeatable v.kindName
  | _, _ => unusable v.kindName

/-- A multiple of a coefficient, if it can be multiplied; `none` is no number. -/
def times (c : Coefficient) (n : Int) : Except DecodeFault (Option Number) :=
  match c with
  | number x =>
    match x.times n with
    | some y => .ok (some y)
    | none => .error .integerToFraction
  | repeatable _ => .ok none
  | unusable kind => .error (.unusable kind)

/-- A multiple of a coefficient for comparing it with counts. -/
def bound (c : Coefficient) (n : Int) : Except DecodeFault Number := do
  match ← c.times n with
  | some x => return x
  | none =>
    match c with
    | repeatable kind => throw (.unusable kind)
    | _ => throw (.unusable "")

end Coefficient

end StakingElection
