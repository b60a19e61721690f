import StakingElection.Number
import StakingElection.Text.Integer
import StakingElection.Value

/-!
# Reading untyped values

The readers are lenient where a text or a number stands for another: an integer may come as a
boolean, a fraction or a text, a name as anything, a list as a text (its characters) or an object
(its keys). Everything else is a `DecodeFault`, which says what was found in place of what.
-/

namespace StakingElection

/-- Why untyped data could not be read. -/
inductive DecodeFault where
  /-- An object lacks a field. -/
  | missingKey (key : String)
  /-- A value that is no object was asked for a field by key. -/
  | notIndexed (kind : String)
  /-- A value that is no object, or no text, was used as one. -/
  | wrongKind (kind : String)
  /-- A text is no integer. -/
  | notAnInteger (text : String)
  /-- A text is an integer with more digits than are read. -/
  | tooManyDigits (count : Nat)
  /-- A value of this kind is no integer. -/
  | noInteger (kind : String)
  | nanToInteger
  | infinityToInteger
  /-- An integer is beyond the binary64 numbers. -/
  | integerToFraction
  /-- A value of this kind has no items. -/
  | notIterable (kind : String)
  /-- A value of this kind cannot be taken apart. -/
  | notUnpackable (kind : String)
  /-- A list has too few or too many parts. -/
  | partCount (expected got : Nat)
  /-- A value of this kind stands where it is of no use. -/
  | unusable (kind : String)
  deriving Repr, DecidableEq

namespace DecodeFault

/-- The text of a fault. -/
def message : DecodeFault → String
  | missingKey key => Text.quoted key
  | notIndexed kind => s!"'{kind}' object is not subscriptable"
  | wrongKind kind => s!"'{kind}' object has no such attribute"
  | notAnInteger text =>
    "invalid literal for int() with base 10: "
      ++ String.ofList ((Text.quoted text).toList.take 200)
  | tooManyDigits count => Text.tooManyDigitsMessage count
  | noInteger kind =>
    s!"int() argument must be a string, a bytes-like object or a real number, not '{kind}'"
  | nanToInteger => "cannot convert float NaN to integer"
  | infinityToInteger => "cannot convert float infinity to integer"
  | integerToFraction => "int too large to convert to float"
  | notIterable kind => s!"'{kind}' object is not iterable"
  | notUnpackable kind => s!"cannot unpack non-iterable {kind} object"
  | partCount expected got =>
    if got < expected then s!"not enough values to unpack (expected {expected}, got {got})"
    else s!"too many values to unpack (expected {expected})"
  | unusable kind => s!"'{kind}' object cannot be used here"

end DecodeFault

namespace Value

/-- Reads an integer: a boolean counts as one or zero, a fraction is cut off towards zero. -/
def toInt : Value → Except DecodeFault Int
  | int i => .ok i
  | bool b => .ok (if b then 1 else 0)
  | float x =>
    match x.truncate? with
    | some i => .ok i
    | none => .error (if x = .nan then .nanToInteger else .infinityToInteger)
  | text s =>
    match Text.readInt s with
    | .ok i => .ok i
    | .error .notANumber => .error (.notAnInteger s)
    | .error (.tooManyDigits count) => .error (.tooManyDigits count)
  | v => .error (.noInteger v.kindName)

/-- The number of a value, for comparing and multiplying: texts are none. -/
def toNumber : Value → Except DecodeFault Number
  | int i => .ok (.whole i)
  | bool b => .ok (.whole (if b then 1 else 0))
  | float x => .ok (.fraction x)
  | v => .error (.unusable v.kindName)

/-- The items of a list, the characters of a text, the keys of an object. -/
def items : Value → Except DecodeFault (List Value)
  | list vs => .ok vs
  | text s => .ok (s.toList.map fun c => text (String.singleton c))
  | object fields => .ok (fields.map fun e => text e.1)
  | v => .error (.notIterable v.kindName)

/-- The fields of an object. -/
def fields : Value → Except DecodeFault (List (String × Value))
  | object fs => .ok fs
  | v => .error (.wrongKind v.kindName)

/-- A text. -/
def toName : Value → Except DecodeFault String
  | text s => .ok s
  | v => .error (.wrongKind v.kindName)

/-- The texts of the items of a value. -/
def toTexts (v : Value) : Except DecodeFault (List String) := do
  return (← v.items).map toText

/-- A field of an object, or a default; anything but an object is a fault. -/
def fieldD (v : Value) (key : String) (default : Value) : Except DecodeFault Value := do
  return ((← v.fields).lookup key).getD default

/-- A field that an object must have. -/
def requiredField (v : Value) (key : String) : Except DecodeFault Value := do
  match (← v.fields).lookup key with
  | some w => return w
  | none => throw (.missingKey key)

/-- Takes a value with three parts apart. -/
def threeParts (v : Value) : Except DecodeFault (Value × Value × Value) := do
  match v.items with
  | .ok [a, b, c] => return (a, b, c)
  | .ok vs => throw (.partCount 3 vs.length)
  | .error _ => throw (.notUnpackable v.kindName)

end Value

end StakingElection
