import CodeGraph.Engine.View
import CodeGraph.Query.Pipeline

/-!
# Rendering tables

A value is shown as its node, a path as its places, a text as it is and an empty cell as nothing. A
value whose node is no longer registered is shown as its kind, and a notice is left.
-/

namespace CodeGraph

def Cell.render : Cell Ref → StateM Context String
  | null => return ""
  | text s => return s
  | path p => p.describe
  | value v => do
    match ← Context.nodeOf? (.value v) with
    | some n => return n.text
    | none => do
      Context.notify .nodeMissing
      return v.identifier

namespace TableView

def addRow (t : Table) (v : TableView) (i : Nat) : Resolving TableView := do
  let cells ← t.rowCells i
  let texts ← ExceptT.lift (cells.mapM Cell.render)
  v.pushRow texts

def ofTable (t : Table) : Resolving TableView :=
  (List.range t.rowCount).foldlM (addRow t) (ofHeaders t.headers)

end TableView

namespace Query

def output (q : Query) : QueryM TableView := do
  let t ← q.resultTable
  World.resolving (TableView.ofTable t)

def render (q : Query) (style : OutputStyle) : QueryM String := do
  return (← q.output).render style

end Query

end CodeGraph
