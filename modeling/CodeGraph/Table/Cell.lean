import CodeGraph.Graph.Path

/-!
# Cells and rows

A cell holds nothing, a value, a text or a path. What a cell is compared by is its `CellKey`: the
tag of a value, the tags along a path. Stored cells are compared by the identities that the bindings
give, so the relation is an equivalence whatever the bindings are.
-/

namespace CodeGraph

inductive Cell (ι : Type u) where
  /-- Nothing, or padding. -/
  | null
  | value (v : Tree ι)
  | text (s : String)
  | path (p : FlowPath ι)

inductive CellKey (ι : Type u) where
  | null
  | value (tag : ι)
  | text (s : String)
  | path (tags : List ι)
  deriving DecidableEq

namespace Cell

variable {ι : Type u} {κ : Type v}

instance : Inhabited (Cell ι) := ⟨null⟩

def isNull : Cell ι → Bool
  | null => true
  | _ => false

def value? : Cell ι → Option (Tree ι)
  | value v => some v
  | _ => none

def text? : Cell ι → Option String
  | text s => some s
  | _ => none

def path? : Cell ι → Option (FlowPath ι)
  | path p => some p
  | _ => none

def map (f : ι → κ) : Cell ι → Cell κ
  | null => null
  | value v => value (v.map f)
  | text s => text s
  | path p => path (Tree.mapAll f p)

def key (f : ι → κ) : Cell ι → CellKey κ
  | null => .null
  | value v => .value (f v.tag)
  | text s => .text s
  | path p => .path (p.map (f ·.tag))

end Cell

/-- A row: a cell under each column name. -/
abbrev Row (ι : Type u) := List (String × Cell ι)

namespace Bindings

def cellKey (b : Bindings) (c : Cell Ref) : CellKey Identity := c.key b.identity

def sameCell (b : Bindings) (c d : Cell Ref) : Bool := b.cellKey c = b.cellKey d

def viewRow (b : Bindings) (r : Row Ref) : Row Identity :=
  r.map fun (name, c) => (name, c.map b.identity)

end Bindings

/-- Whether two cells, as they are seen, are equal. -/
def Cell.same (c d : Cell Identity) : Bool := c.key id = d.key id

end CodeGraph
