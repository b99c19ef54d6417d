import CodeGraph.Table.Column

/-!
# Tables

A table is a list of columns with different names and one size. The first column gives the size;
later columns and the table are padded to the larger of the two sizes. A table of predicate columns
has the size `predicateSize` and no rows, and it takes no column that has cells.

An operation that fails returns no table, so the table it was given stands as it was.
-/

namespace CodeGraph

/-- Named columns of one size. -/
structure Table where
  name : String
  size : Int
  columns : List Column

namespace Table

def new (name : String) : Table := ⟨name, 0, []⟩

def ofColumn (name : String) (c : Column) : Table := ⟨name, c.size, [c]⟩

def renamed (t : Table) (name : String) : Table := { t with name }

def rowCount (t : Table) : Nat := t.size.toNat

def headers (t : Table) : List String := t.columns.map Column.name

def column? (t : Table) (name : String) : Option Column := t.columns.find? (·.name == name)

def hasColumn (t : Table) (name : String) : Bool := (t.column? name).isSome

def column (t : Table) (name : String) : Except Error Column :=
  match t.column? name with
  | some c => .ok c
  | none => .error (.notFound "column" name)

def hasPredicate (t : Table) : Bool := t.columns.any Column.isPredicate

/-- Adds a column at the end, padding the shorter side with a cell. -/
def addColumnWithDefault (b : Bindings) (t : Table) (c : Column) (default : Cell Ref) :
    Except Error Table :=
  if t.hasColumn c.name then .error (.duplicateName "column" c.name)
  else if t.columns.isEmpty then .ok { t with size := c.size, columns := [c] }
  else
    let target := max t.size c.size
    if t.size < target ∧ t.hasPredicate then .error (.unsupported "pad a predicate column")
    else do
      let c ← c.pad b default (target - c.size).toNat
      let columns ← t.columns.mapM (Column.pad b default (target - t.size).toNat)
      return { t with size := target, columns := columns ++ [c] }

def addColumn (b : Bindings) (t : Table) (c : Column) : Except Error Table :=
  t.addColumnWithDefault b c .null

def removeColumn (t : Table) (name : String) : Except Error (Column × Table) := do
  let c ← t.column name
  let columns := t.columns.eraseP (·.name == name)
  return (c, { t with columns, size := if columns.isEmpty then 0 else t.size })

/-- Adds a row at the end. A column that the row does not name gets an empty cell, and cells of
other names are dropped. -/
def addRow (b : Bindings) (t : Table) (r : Row Ref) : Except Error Table :=
  if t.hasPredicate then .error (.unsupported "add a row to a table with a predicate column")
  else do
    let columns ← t.columns.mapM fun c => c.push b ((r.lookup c.name).getD .null)
    return { t with size := t.size + 1, columns }

def checkRow (t : Table) (i : Nat) : Except Error Unit :=
  if i < t.rowCount then .ok ()
  else .error (.notFound "row" (toString i ++ " of table " ++ t.name))

def row (t : Table) (i : Nat) : Except Error (Row Ref) := do
  t.checkRow i
  t.columns.mapM fun c => do return (c.name, ← c.cell i)

def rowCells (t : Table) (i : Nat) : Except Error (List (Cell Ref)) := do
  t.checkRow i
  t.columns.mapM (·.cell i)

def rows (t : Table) : Except Error (List (Row Ref)) := (List.range t.rowCount).mapM t.row

def duplicate (t : Table) (schemaOnly : Bool) : Table :=
  { t with
    size := if schemaOnly then min t.size 0 else t.size
    columns := t.columns.map (·.duplicate schemaOnly) }

def onlyColumn (t : Table) : Except Error Column :=
  match t.columns with
  | [c] => .ok c
  | cs => .error (.notExactlyOne "column" cs.length)

/-- The table of the columns with these names. A name without a column becomes a column that repeats
the name in every row. -/
def project (b : Bindings) (t : Table) (names : List String) : Except Error Table :=
  names.foldlM (fun result name =>
    result.addColumn b ((t.column? name).getD (.filled name (.text name) t.rowCount))) (new t.name)

end Table

end CodeGraph
