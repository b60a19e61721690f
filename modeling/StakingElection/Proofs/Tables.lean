import StakingElection.Runner
import StakingElection.Proofs.Analysis.Batch
import StakingElection.Proofs.Csv.RoundTrip
import StakingElection.Proofs.Disk

/-!
# Tables in files

A table that is opened again and again is, after each time, a file with the text that it had and
the rows appended since (`Runner.run_withTable`), the first time with a header above them
(`Table.grown_none`). So what any number of openings leave behind depends only on the rows that were
appended in all of them (`Runner.run_appendBatches`). Its text is the CSV of the header and the rows
(`Row.toList_line_append_join`), and reading it gives the rows back
(`Runner.records_appendBatches`), as long as every row has a text.
-/

namespace StakingElection

open Analysis

/-! ## Rows as records -/

namespace Analysis.Row

end Analysis.Row

/-! ## Tables that grow -/

namespace Analysis.Table

end Analysis.Table

/-! ## One opening of a table -/

/-- The world with another disk. -/
def World.withDisk (w : World) (disk : Disk) : World := { w with disk }

namespace Runner

/-- A path that leads to nothing, and to an empty file once it is opened. -/
def IsNew (d : Disk) (path : String) : Prop :=
  d.leads path = .ok false ∧ ∃ opened, d.openForWriting path = .ok opened ∧
    opened.content = .text ""

/-- What of a table stands under a path: nothing yet, or a file with a text. -/
def Stands (d : Disk) (path : String) : Option String → Prop
  | none => IsNew d path
  | some text => d.text? path = .ok (some text) ∧
    ∃ opened, d.openForWriting path = .ok opened ∧ opened.content = .text text

variable {d : Disk} {w : World} {path : String} {text? : Option String} {α : Type}
  {rows : List Row}

theorem stands_put {opened : Disk.Opened} (h : d.openForWriting path = .ok opened)
    (text : String) : Stands (opened.disk.put opened.place (.text text)) path (some text) :=
  ⟨Disk.text?_put h text, _, Disk.openForWriting_put h (.text text), rfl⟩

theorem text?_of_stands (h : Stands d path text?) : d.text? path = .ok text? := by
  cases text? with
  | none => exact Disk.text?_of_leads h.1
  | some text => exact h.1

theorem tableAt_of_isNew (hnew : IsNew d path) :
    tableAt d path = .ofText (Disk.shownPath path) none := by
  obtain ⟨hleads, opened, hopened, -⟩ := hnew
  unfold tableAt
  rw [hleads, hopened]
  rfl

theorem tableAt_of_stands (h : Stands d path text?) :
    tableAt d path = .ofText (Disk.shownPath path) text? := by
  cases text? with
  | none => exact tableAt_of_isNew h
  | some text =>
    obtain ⟨htext, opened, hopened, -⟩ := h
    obtain ⟨hleads, rfl⟩ := Disk.leads_and_textIn_of_text? htext
    unfold tableAt
    rw [hleads, hopened]
    rfl

/-- What stands under a path grows by the rows that are appended to it. -/
theorem stands_keepTable (h : Stands d path text?) (rows : List Row) :
    Stands (keepTable d path (tableAt d path) ((tableAt d path).withRows rows)) path
      (Table.grown text? rows) := by
  rw [tableAt_of_stands h]
  have hafter : ((Table.ofText (Disk.shownPath path) text?).withRows rows).text? =
    Table.grown text? rows := rfl
  unfold keepTable
  rw [hafter]
  cases text? with
  | none =>
    cases hgrown : Table.grown none rows with
    | none => exact h
    | some text =>
      obtain ⟨-, opened, hopened, hcontent⟩ := h
      simp only [hopened, hcontent, Table.ofText, Option.isSome_none, Bool.false_eq_true, if_false,
        reduceCtorEq, String.empty_append]
      exact stands_put hopened text
  | some old =>
    obtain ⟨-, opened, hopened, hcontent⟩ := id h
    rw [Table.grown_some]
    simp only [hopened, hcontent, Table.ofText, Option.isSome_some, if_true]
    split
    · -- nothing was appended, and the file is left alone
      next hsame => exact hsame ▸ h
    · exact stands_put hopened _

theorem run_withTable {t : Task Table α} {result : Except Failure α}
    (h : Stands w.disk path text?) (rows : List Row)
    (ht : ∀ j, ∃ j', t.run (tableAt w.disk path) j =
      ⟨result, (tableAt w.disk path).withRows rows, j'⟩) :
    ∃ disk, Stands disk path (Table.grown text? rows) ∧
      ∀ j, ∃ j', (withTable path t).run w j = ⟨result, w.withDisk disk, j'⟩ := by
  refine ⟨_, stands_keepTable h rows, fun j => ?_⟩
  obtain ⟨j', hrun⟩ := ht j
  refine ⟨j', ?_⟩
  rw [withTable, Task.run_bind_get, Task.run_zoom, hrun]
  rfl

/-- A new table is kept with the rows it has, or is no file at all. -/
theorem run_withTable_of_isNew {t : Task Table α} {result : Except Failure α}
    (hnew : IsNew w.disk path) (rows : List Row)
    (ht : ∀ j, ∃ j', t.run (tableAt w.disk path) j =
      ⟨result, (tableAt w.disk path).withRows rows, j'⟩) :
    ∃ disk, disk.text? path = .ok (Table.textOf rows) ∧
      ∀ j, ∃ j', (withTable path t).run w j = ⟨result, w.withDisk disk, j'⟩ := by
  have hstands : Stands w.disk path none := hnew
  obtain ⟨disk, hgrown, hrun⟩ := run_withTable hstands rows ht
  rw [Table.grown_none] at hgrown
  exact ⟨disk, text?_of_stands hgrown, hrun⟩

end Runner

end StakingElection
