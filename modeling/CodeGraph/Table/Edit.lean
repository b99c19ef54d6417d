import CodeGraph.Table.Basic

/-!
# Tables changed in place

The operations on tables give new tables. Here they work on a table that a caller keeps: an `Edit`
changes one column after the other, cell by cell, and if it fails, what it has changed stays changed.
A column that is to be added belongs to the call, and so does a row, whose cells are taken out of it
one by one.
-/

namespace CodeGraph

/-- A step on something that is kept; what a failed step has changed stays changed. -/
abbrev Editing (σ : Type) := ExceptT Error (StateM σ)

namespace Column

/-- Adds a cell at the end. -/
def extend (b : Bindings) (cell : Cell Ref) (c : Column) : Except Error Unit × Column :=
  match c.push b cell with
  | .ok c' => (.ok (), c')
  | .error e => (.error e, c)

/-- Adds copies of a cell one by one. -/
def extendBy (b : Bindings) (cell : Cell Ref) : Nat → Column → Except Error Unit × Column
  | 0, c => (.ok (), c)
  | n + 1, c =>
    match c.extend b cell with
    | (.ok (), c) => extendBy b cell n c
    | (.error e, c) => (.error e, c)

/-- Adds the cell that a row has for the column, and takes it out of the row. -/
def extendFrom (b : Bindings) (r : Row Ref) (c : Column) : Except Error (Row Ref) × Column :=
  match c.extend b ((r.lookup c.name).getD .null) with
  | (.ok (), c') => (.ok (r.filter (·.1 ≠ c.name)), c')
  | (.error e, c') => (.error e, c')

/-- Changes columns one after the other, each with what the one before has left over, and stops where
it fails. -/
def editEach {ρ : Type} (step : ρ → Column → Except Error ρ × Column) :
    ρ → List Column → Except Error ρ × List Column
  | r, [] => (.ok r, [])
  | r, c :: cs =>
    match step r c with
    | (.ok r, c) =>
      let (out, cs) := editEach step r cs
      (out, c :: cs)
    | (.error e, c) => (.error e, c :: cs)

end Column

namespace Table

def editColumns {ρ : Type} (step : ρ → Column → Except Error ρ × Column) (r : ρ) : Editing Table ρ :=
  fun t =>
    let (out, columns) := Column.editEach step r t.columns
    (out, { t with columns })

/-- How many cells a new column lacks. -/
def lacking (t : Table) (c : Column) : Int := max t.size c.size - c.size

/-- How many cells the columns of the table lack, given a new one. -/
def missing (t : Table) (c : Column) : Int := max t.size c.size - t.size

def insertColumn (b : Bindings) (c : Column) (default : Cell Ref) : Editing Table Unit := do
  let t ← get
  if t.hasColumn c.name then throw (.duplicateName "column" c.name)
  else if t.columns.isEmpty then set { t with size := c.size, columns := [c] }
  else if t.size < max t.size c.size ∧ t.hasPredicate then throw (.unsupported "pad a predicate column")
  else do
    let c' ← c.pad b default (t.lacking c).toNat
    editColumns (fun () => Column.extendBy b default (t.missing c).toNat) ()
    modify fun t' => { t' with size := max t.size c.size }
    modify fun t' => { t' with columns := t'.columns ++ [c'] }

def dropColumn (name : String) : Editing Table Column := do
  let c ← (← get).column name
  modify fun t => { t with columns := t.columns.eraseP (·.name == name) }
  modify fun t => if t.columns.isEmpty then { t with size := 0 } else t
  return c

def appendRow (b : Bindings) (r : Row Ref) : Editing Table Unit := do
  if (← get).hasPredicate then throw (.unsupported "add a row to a table with a predicate column")
  else do
    let _ ← editColumns (Column.extendFrom b) r
    modify fun t => { t with size := t.size + 1 }

end Table

/-- An operation on a table that is kept, with the bindings that it reads. -/
inductive Edit where
  | new (name : String)
  | ofColumn (name : String) (c : Column)
  | addColumn (b : Bindings) (c : Column)
  | addColumnWithDefault (b : Bindings) (c : Column) (default : Cell Ref)
  | removeColumn (name : String)
  | addRow (b : Bindings) (r : Row Ref)
  | rename (name : String)
  | duplicate (schemaOnly : Bool)

namespace Edit

/-- Changes the table in place, and gives back the column that is taken out if there is one. -/
def run : Edit → Editing Table (Option Column)
  | new name => do
    set (Table.new name)
    return none
  | ofColumn name c => do
    set (Table.ofColumn name c)
    return none
  | addColumn b c => do
    Table.insertColumn b c .null
    return none
  | addColumnWithDefault b c default => do
    Table.insertColumn b c default
    return none
  | removeColumn name => do
    let c ← Table.dropColumn name
    return some c
  | addRow b r => do
    Table.appendRow b r
    return none
  | rename name => do
    modify (·.renamed name)
    return none
  | duplicate schemaOnly => do
    modify (·.duplicate schemaOnly)
    return none

/-- The table after some edits, of which any may fail. -/
def runAll (edits : List Edit) (t : Table) : Table := edits.foldl (fun t e => (e.run.run.run t).2) t

end Edit

end CodeGraph
