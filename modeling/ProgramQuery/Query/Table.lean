import ProgramQuery.Data.Ascending
import ProgramQuery.Data.Grouping

/-!
# Tables of values

Rows of values under named columns, and their natural join. The table without columns is where
joining starts: it has no rows, and joined with a table it is that table.
-/

namespace ProgramQuery

/-- The values of one row, one for each column. -/
abbrev Row := List String

/-- Rows of values under named columns. -/
structure Table where
  /-- The names of the columns. -/
  columns : List String := []
  /-- The rows, in order and possibly with repetitions. -/
  rows : List Row := []
deriving DecidableEq

namespace Table

/-- A table with one column. -/
def ofValues (column : String) (values : List String) : Table :=
  ⟨[column], values.map ([·])⟩

/-- A table with two columns. -/
def ofPairs (first second : String) (pairs : List (String × String)) : Table :=
  ⟨[first, second], pairs.map fun p => [p.1, p.2]⟩

/-- The value of a row in the first column of the given name. -/
def value (t : Table) (row : Row) (column : String) : String :=
  ((t.columns.zip row).lookup column).getD ""

/-- The values of a row in some columns. -/
def project (t : Table) (row : Row) (columns : List String) : Row :=
  columns.map (t.value row)

/-- The values of a row of `u` in the columns that `t` has too, and in those that it has not. -/
def split (t u : Table) (row : Row) : Row × Row :=
  let (shared, extra) := (u.columns.zip row).partition fun cell => cell.1 ∈ t.columns
  (shared.map Prod.snd, extra.map Prod.snd)

/-- The natural join: every row of the first table is extended by every row of the second one that
has the same values in the columns of both. -/
def join (t u : Table) : Table :=
  if t.columns = [] then
    u
  else
    let shared := u.columns.filter (· ∈ t.columns)
    let parts := groupPairs (u.rows.map (split t u))
    { columns := t.columns ++ u.columns.filter (· ∉ t.columns)
      rows := t.rows.flatMap fun row =>
        (parts.getD (t.project row shared) []).map fun extra => row ++ extra }

/-- The distinct values of the rows in some columns, ascending. There are none if the table does
not have all of the columns. -/
def tuples? (t : Table) (columns : List String) : Option (List Row) :=
  if columns.all (· ∈ t.columns) then
    some (ascending (t.rows.map fun row => t.project row columns))
  else
    none

end Table

end ProgramQuery
