import CodeGraph.Graph.Predicate
import CodeGraph.Table.Cell

/-!
# Columns

A data column holds cells and may have an index from vertices to rows, filled as cells are added: it
gives the first row whose value belonged to the vertex when it was added. A predicate column holds
no cells and answers membership by its predicate; its size is `predicateSize`. Any other cells go
into an `any` column.
-/

namespace CodeGraph

/-- The size of a column that holds no cells. -/
def predicateSize : Int := -1

structure DataColumn where
  name : String
  cells : Array (Cell Ref)
  /-- The first row of each vertex. -/
  index : Option (Std.HashMap VertexId Nat)

namespace DataColumn

def new (name : String) (indexed : Bool) : DataColumn :=
  ⟨name, #[], if indexed then some ∅ else none⟩

def size (c : DataColumn) : Nat := c.cells.size

def hasIndex (c : DataColumn) : Bool := c.index.isSome

def vertexIn (b : Bindings) (cell : Cell Ref) : Option VertexId := cell.value?.bind b.vertex?

def push (b : Bindings) (c : DataColumn) (cell : Cell Ref) : DataColumn :=
  { c with
    cells := c.cells.push cell
    index := c.index.map fun index =>
      match vertexIn b cell with
      | some id => index.insertIfNew id c.cells.size
      | none => index }

/-- Whether a cell is among the cells: by the index if there is one and the cell has a vertex. -/
def contains (b : Bindings) (c : DataColumn) (cell : Cell Ref) : Bool :=
  match c.index, vertexIn b cell with
  | some index, some id => index.contains id
  | _, _ => c.cells.any (b.sameCell · cell)

/-- The first cell whose value belonged to a vertex when it was added. -/
def cellOf (c : DataColumn) (id : VertexId) : Except Error (Option (Cell Ref)) :=
  match c.index with
  | none => .error (.unsupported "key lookup on a column without index")
  | some index => .ok (index[id]?.bind fun row => c.cells[row]?)

def hasKey (c : DataColumn) (id : VertexId) : Except Error Bool := do
  return (← c.cellOf id).isSome

end DataColumn

inductive Column where
  | data (c : DataColumn)
  | predicate (name : String) (accepts : ValuePredicate)
  | any (name : String) (cells : Array (Cell Ref))

namespace Column

def filled (name : String) (cell : Cell Ref) (count : Nat) : Column :=
  any name (Array.replicate count cell)

def name : Column → String
  | data c => c.name
  | predicate n _ => n
  | any n _ => n

/-- The number of cells, or `predicateSize`. -/
def size : Column → Int
  | data c => c.cells.size
  | predicate .. => predicateSize
  | any _ cells => cells.size

/-- Whether the size is zero. A predicate column is not empty. -/
def isEmpty (c : Column) : Bool := c.size = 0

def isPredicate : Column → Bool
  | predicate .. => true
  | _ => false

def hasIndex : Column → Bool
  | data c => c.hasIndex
  | _ => false

def push (b : Bindings) (cell : Cell Ref) : Column → Except Error Column
  | data c => .ok (data (c.push b cell))
  | predicate .. => .error (.unsupported "add value to a predicate column")
  | any n cells => .ok (any n (cells.push cell))

def pad (b : Bindings) (cell : Cell Ref) : Nat → Column → Except Error Column
  | 0, c => .ok c
  | n + 1, c => do pad b cell n (← c.push b cell)

def cells : Column → Except Error (Array (Cell Ref))
  | data c => .ok c.cells
  | predicate .. => .error (.unsupported "read a predicate column")
  | any _ cells => .ok cells

def cell (c : Column) (row : Nat) : Except Error (Cell Ref) := do
  match (← c.cells)[row]? with
  | some cell => return cell
  | none => throw (.notFound "row" (toString row ++ " of column " ++ c.name))

def contains (c : Column) (cell : Cell Ref) : StateM Context Bool :=
  match c with
  | data c => do return c.contains (← get).bindings cell
  | predicate _ accepts =>
    match cell.value? with
    | some v => accepts.test v
    | none => return false
  | any _ cells => do
    let b := (← get).bindings
    return cells.any (b.sameCell · cell)

def schema : Column → Column
  | data c => data (.new c.name c.hasIndex)
  | predicate n accepts => predicate n accepts
  | any n _ => any n #[]

def duplicate (c : Column) (schemaOnly : Bool) : Column := if schemaOnly then c.schema else c

end Column

end CodeGraph
