import CodeGraph.Store.Memory

/-!
# Stores that are filled in place

`InMemoryStore.addVertex` and `InMemoryStore.addEdge` give a new store. Here they work on a store that a
caller keeps: a `Filling` changes one part of the store after the other, and if it fails, what it has
changed stays changed. A record is an `Addition`, and `Addition.runAll` goes on after one that is refused.
-/

namespace CodeGraph

/-- A step on a store that is kept; what a failed step has changed stays changed. -/
abbrev Filling := ExceptT Error (StateM InMemoryStore)

namespace InMemoryStore

def insertVertex (v : Vertex) : Filling Unit := do
  if (← get).contains v.id then throw (.duplicateName "vertex" v.id.text)
  else do
    modify fun s => { s with positions := s.positions.insert v.id s.vertices.size }
    modify fun s => { s with vertices := s.vertices.push v }

/-- Refuses the name of a vertex that is not there. -/
def requireVertex (id : VertexId) : Filling Unit := do
  if (← get).contains id then return
  else throw (.notFound "vertex" id.text)

def insertEdge (e : Edge) : Filling Unit := do
  [e.tail, e.head].forM requireVertex
  modify fun s => { s with out := s.out.insert e.tail ((s.out.getD e.tail #[]).push e) }

def insertGraph (d : GraphDump) : Filling Unit := do
  d.vertices.forM insertVertex
  d.edges.forM insertEdge

/-- The store that a step makes of this one, which is given up if the step fails. -/
def filled (s : InMemoryStore) (m : Filling Unit) : Except Error InMemoryStore :=
  let (out, s') := m.run.run s
  out.map fun () => s'

end InMemoryStore

/-- A record that is to be added to a store. -/
inductive Addition where
  | vertex (v : Vertex)
  | edge (e : Edge)

namespace Addition

def run : Addition → Filling Unit
  | vertex v => InMemoryStore.insertVertex v
  | edge e => InMemoryStore.insertEdge e

/-- Adds one record after the other, and says what came of each. -/
def runAll (xs : List Addition) : StateM InMemoryStore (List (Addition × Except Error Unit)) :=
  xs.mapM fun x => do return (x, ← x.run.run)

def vertex? : Addition × Except Error Unit → Option Vertex
  | (vertex v, .ok ()) => some v
  | _ => none

def edge? : Addition × Except Error Unit → Option Edge
  | (edge e, .ok ()) => some e
  | _ => none

/-- The records that were accepted, in the order in which they came. -/
def accepted (log : List (Addition × Except Error Unit)) : GraphDump :=
  ⟨log.filterMap vertex?, log.filterMap edge?⟩

end Addition

end CodeGraph
