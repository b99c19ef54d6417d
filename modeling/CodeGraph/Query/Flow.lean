import CodeGraph.Query.World

/-!
# Flow stages

A flow stage looks for paths from the values of one table to those of another which no value of a
third blocks. How the paths are found is up to a `FlowAlgorithm`, which is asked once for each
source value and adds its findings to a `FlowResult`. The columns of that table are the source, the
sink, the barrier if there is one, and the path, each under its alias.

A finding is added when it is made. A search may bind values as it goes on, and the indexes of the
result know a value only by a binding that was there when the value was added.
-/

namespace CodeGraph

structure Finding where
  source : Value
  sink : Value
  path : FlowPath Ref

structure FlowAliases where
  source : String
  sink : String
  barrier : Option String
  name : String
  deriving DecidableEq, Repr

structure FlowResult where
  aliases : FlowAliases
  table : Table

namespace FlowResult

/-- Nothing is found yet. The aliases must be different. -/
def new (b : Bindings) (a : FlowAliases) : Except Error FlowResult := do
  let t ← (Table.new a.name).addColumn b (.data (.new a.source true))
  let t ← t.addColumn b (.data (.new a.sink true))
  let t ←
    match a.barrier with
    | some barrier => t.addColumn b (.any barrier #[])
    | none => pure t
  let t ← t.addColumn b (.any a.name #[])
  return ⟨a, t⟩

def rowOf (a : FlowAliases) (x : Finding) : Row Ref :=
  (a.source, .value x.source) :: (a.sink, .value x.sink) :: (a.name, .path x.path) ::
    (a.barrier.map (·, Cell.null)).toList

def emit (r : FlowResult) (x : Finding) : QueryM FlowResult := do
  let b ← World.bindings
  let table ← r.table.addRow b (rowOf r.aliases x)
  return { r with table }

end FlowResult

/-- Finds the paths that start at a value, given the columns of sources, sinks and barriers. -/
abbrev FlowAlgorithm := Value → Column → Column → Column → FlowResult → QueryM FlowResult

structure Flow extends FlowAliases where
  algorithm : FlowAlgorithm

namespace Flow

def noBarrier : Column := .predicate "__no_barrier__" .none

def addFindings (f : Flow) (source sink barrier : Column) (r : FlowResult) (cell : Cell Ref) :
    QueryM FlowResult :=
  match cell.value? with
  | none => return r
  | some v => f.algorithm v source sink barrier r

/-- The table that a stage makes of its tables, each of which must have one column. -/
def apply (f : Flow) (source sink : Table) (barrier : Option Table) : QueryM Table := do
  let source ← source.onlyColumn
  let sink ← sink.onlyColumn
  let barrier ←
    match barrier with
    | some t => t.onlyColumn
    | none => pure noBarrier
  let r ← FlowResult.new (← World.bindings) f.toFlowAliases
  let r ← (← source.cells).toList.foldlM (f.addFindings source sink barrier) r
  return r.table

def pairWith (v : Value) (barrier : Column) (r : FlowResult) (cell : Cell Ref) :
    QueryM FlowResult :=
  match cell.value? with
  | none => return r
  | some w => do
    if ← World.member barrier cell then return r
    else r.emit ⟨v, w, [v, w]⟩

/-- The algorithm that pairs a value with every sink value that is no barrier, if the value is among
the sources. -/
def pairs : FlowAlgorithm := fun v source sink barrier r => do
  if ← World.member source (.value v) then (← sink.cells).toList.foldlM (pairWith v barrier) r
  else return r

end Flow

end CodeGraph
