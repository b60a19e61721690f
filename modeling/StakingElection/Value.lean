import StakingElection.Binary64
import StakingElection.Calendar
import StakingElection.Text.Integer
import StakingElection.Text.Quoted

/-!
# Untyped values

State exports, configuration files and answers of a node come in as untyped data. A `Value` is such
data before it is read into a domain type, and the few fields that are passed through unread stay
one. `shown` is the text of a value inside a list or a message, where texts are quoted; `toText` is
its text alone, where a text stands for itself.

A value that was read from a text has such a text. One with a number in it that was computed may
have a number too long for it, so that `hasText` is asked before it is written.
-/

namespace StakingElection

/-- Untyped data. The keys of an object are in order, each once. -/
inductive Value where
  | null
  | bool (b : Bool)
  | int (i : Int)
  | float (x : Binary64)
  | text (s : String)
  /-- A day or a time, which only settings can hold. -/
  | stamp (t : Stamp)
  | list (items : List Value)
  | object (fields : List (String × Value))
  deriving Repr, Inhabited

namespace Value

/-- The name of a value's kind in a message. -/
def kindName : Value → String
  | null => "NoneType"
  | bool _ => "bool"
  | int _ => "int"
  | float _ => "float"
  | text _ => "str"
  | stamp t => t.kindName
  | list _ => "list"
  | object _ => "dict"

/-- Whether a value counts as given: not null, false, zero or empty. -/
def isGiven : Value → Bool
  | null => false
  | bool b => b
  | int i => i != 0
  | float x => !x.isZero
  | text s => s != ""
  | stamp _ => true
  | list items => !items.isEmpty
  | object fields => !fields.isEmpty

/-- Whether a value is null. -/
def isNull : Value → Bool
  | null => true
  | _ => false

/-- A field of an object. -/
def field? (v : Value) (key : String) : Option Value :=
  match v with
  | object fields => fields.lookup key
  | _ => none

mutual

/-- Whether two values are the same data, the fields of objects in the same order. -/
def same : Value → Value → Bool
  | null, null => true
  | bool a, bool b => a == b
  | int a, int b => a == b
  | float a, float b => a == b
  | text a, text b => a == b
  | stamp a, stamp b => a == b
  | list as, list bs => sameItems as bs
  | object as, object bs => sameFields as bs
  | _, _ => false

/-- Whether two lists have the same items. -/
def sameItems : List Value → List Value → Bool
  | [], [] => true
  | a :: as, b :: bs => same a b && sameItems as bs
  | _, _ => false

/-- Whether two objects have the same fields. -/
def sameFields : List (String × Value) → List (String × Value) → Bool
  | [], [] => true
  | (k, a) :: as, (l, b) :: bs => k == l && same a b && sameFields as bs
  | _, _ => false

end

instance : BEq Value := ⟨same⟩

mutual

/-- A value inside a list or a message. -/
def shown : Value → String
  | null => "None"
  | bool b => if b then "True" else "False"
  | int i => toString i
  | float x => x.toText
  | text s => Text.quoted s
  | stamp t => t.shown
  | list items => "[" ++ ", ".intercalate (shownItems items) ++ "]"
  | object fields => "\x7b" ++ ", ".intercalate (shownFields fields) ++ "\x7d"

/-- The items of a list, each as shown. -/
def shownItems : List Value → List String
  | [] => []
  | v :: rest => shown v :: shownItems rest

/-- The fields of an object, each as shown. -/
def shownFields : List (String × Value) → List String
  | [] => []
  | (k, v) :: rest => (Text.quoted k ++ ": " ++ shown v) :: shownFields rest

end

mutual

/-- Whether every integer in a value is given as a text. -/
def hasText : Value → Bool
  | int i => Text.hasText i
  | list items => itemsHaveText items
  | object fields => fieldsHaveText fields
  | _ => true

/-- Whether every integer in the items of a list is given as a text. -/
def itemsHaveText : List Value → Bool
  | [] => true
  | v :: rest => hasText v && itemsHaveText rest

/-- Whether every integer in the fields of an object is given as a text. -/
def fieldsHaveText : List (String × Value) → Bool
  | [] => true
  | (_, v) :: rest => hasText v && fieldsHaveText rest

end

theorem itemsHaveText_iff {items : List Value} :
    itemsHaveText items = true ↔ ∀ v ∈ items, v.hasText = true := by
  induction items with
  | nil => simp [itemsHaveText]
  | cons v rest ih => simp [itemsHaveText, ih]

theorem fieldsHaveText_iff {fields : List (String × Value)} :
    fieldsHaveText fields = true ↔ ∀ f ∈ fields, f.2.hasText = true := by
  induction fields with
  | nil => simp [fieldsHaveText]
  | cons f rest ih => simp [fieldsHaveText, ih]

/-- The text of a value; a text is its own. -/
def toText : Value → String
  | text s => s
  | stamp t => t.toText
  | v => v.shown

/-- A list of texts as shown. -/
def shownTexts (names : List String) : String := (list (names.map text)).shown

/-- An integer, or null for none. -/
def ofInt? : Option Int → Value
  | some i => int i
  | none => null

end Value

end StakingElection
