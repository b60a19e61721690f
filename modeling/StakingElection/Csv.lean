/-!
# CSV

Fields stand between commas, rows end with a carriage return and a line feed. A field with a comma,
a quote or a line break in it is quoted, and a quote in it is written twice.

The reader accepts what the writer writes, and more: rows may end with a carriage return, a line
feed or both, a quote inside an unquoted field is an ordinary character, text may follow a closing
quote, and the end of the text ends whatever is open. A blank line is a row without fields.
-/

namespace StakingElection.Csv

/-! ## Writing -/

/-- The characters that make a field be quoted. -/
def isSpecial (c : Char) : Bool := c = ',' || c = '"' || c = '\r' || c = '\n'

/-- A field without quotes of its own, each quote twice. -/
def doubleQuotes (cs : List Char) : List Char :=
  cs.flatMap fun c => if c = '"' then ['"', '"'] else [c]

/-- A field as it is written. -/
def writeField (cs : List Char) : List Char :=
  if cs.any isSpecial then '"' :: doubleQuotes cs ++ ['"'] else cs

/-- The fields of a row with commas between them. -/
def writeFields : List (List Char) → List Char
  | [] => []
  | [f] => writeField f
  | f :: rest => writeField f ++ ',' :: writeFields rest

/-- A row with its line end. A single empty field is quoted, so that the row is no blank line. -/
def writeRow (fields : List (List Char)) : List Char :=
  (if fields = [[]] then ['"', '"'] else writeFields fields) ++ ['\r', '\n']

/-! ## Reading -/

/-- Where the reader is. -/
inductive Place where
  | rowStart
  | fieldStart
  | plain
  | quoted
  /-- After a quote in a quoted field, which may close the field or be the first of two. -/
  | quoteSeen
  deriving Repr, DecidableEq

/-- The row when its last field ends; `field` and `row` are what was read of both, backwards. -/
def closeRow (place : Place) (field : List Char) (row : List (List Char)) : List (List Char) :=
  if place = .rowStart then [] else (field.reverse :: row).reverse

/-- Reads the rows of a text. -/
def readRows : Place → (field : List Char) → (row : List (List Char)) → List Char →
    List (List (List Char))
  | place, field, row, [] => if place = .rowStart then [] else [closeRow place field row]
  | .quoted, field, row, c :: rest =>
    if c = '"' then readRows .quoteSeen field row rest
    else readRows .quoted (c :: field) row rest
  | place, field, row, '\r' :: '\n' :: rest =>
    closeRow place field row :: readRows .rowStart [] [] rest
  | place, field, row, c :: rest =>
    if c = '\r' ∨ c = '\n' then closeRow place field row :: readRows .rowStart [] [] rest
    else if c = ',' then readRows .fieldStart [] (field.reverse :: row) rest
    else if c = '"' ∧ (place = .rowStart ∨ place = .fieldStart) then
      readRows .quoted [] row rest
    else if c = '"' ∧ place = .quoteSeen then readRows .quoted ('"' :: field) row rest
    else readRows .plain (c :: field) row rest

/-- A record: the fields of a row by the columns of the header. What goes beyond the header stands
under no column, a field that is missing has no value. -/
structure Record where
  fields : List (String × Option String)
  extra : List String
  deriving Repr, DecidableEq

/-- Sets the value of a column; a column that stands twice in the header keeps its first place. -/
def setField (column : String) (value : Option String) :
    List (String × Option String) → List (String × Option String)
  | [] => [(column, value)]
  | (k, v) :: rest =>
    if k = column then (k, value) :: rest else (k, v) :: setField column value rest

/-- The record of a row. -/
def Record.ofRow (header row : List String) : Record where
  fields :=
    (header.zip (row.map some ++ List.replicate (header.length - row.length) none)).foldl
      (fun fields e => setField e.1 e.2 fields) []
  extra := row.drop header.length

/-- The records of a text: its first row is the header, and blank lines after it do not count. -/
def readRecords (text : String) : List Record :=
  match (readRows .rowStart [] [] text.toList).map fun row => row.map String.ofList with
  | [] => []
  | header :: rows => (rows.filter (· ≠ [])).map (Record.ofRow header)

end StakingElection.Csv
