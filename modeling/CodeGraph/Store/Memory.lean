import Std.Data.HashMap
import CodeGraph.Store.Basic

/-!
# Graphs in memory

An `InMemoryStore` lists vertices in the order in which they were added, knows the position of each
by its name, and groups the edges by their tail. A vertex is added once, an edge only between
vertices that are there. A `GraphDump` is such a graph as a record.
-/

namespace CodeGraph

/-- A graph as a record: vertices in listing order, and edges. -/
structure GraphDump where
  vertices : List Vertex
  edges : List Edge

namespace GraphDump

def ofLiteral? : Decoder GraphDump := fun depth l => do
  let f ← RecordFields.ofLiteral? .json ["vertices", "edges"] depth l
  let vertices ← f.optional "vertices" (Decoder.list Vertex.ofLiteral?) []
  let edges ← f.optional "edges" (Decoder.list Edge.ofLiteral?) []
  pure ⟨vertices, edges⟩

def toJson (d : GraphDump) : Json :=
  .obj [("vertices", .ofList Vertex.toJson d.vertices), ("edges", .ofList Edge.toJson d.edges)]

end GraphDump

structure InMemoryStore where
  vertices : Array Vertex
  positions : Std.HashMap VertexId Nat
  out : Std.HashMap VertexId (Array Edge)

namespace InMemoryStore

def empty : InMemoryStore := ⟨#[], ∅, ∅⟩

def contains (s : InMemoryStore) (id : VertexId) : Bool := s.positions.contains id

def size (s : InMemoryStore) : Nat := s.vertices.size

def addVertex (s : InMemoryStore) (v : Vertex) : Except Error InMemoryStore :=
  if s.contains v.id then .error (.duplicateName "vertex" v.id.text)
  else
    .ok { s with
      vertices := s.vertices.push v
      positions := s.positions.insert v.id s.vertices.size }

def addEdge (s : InMemoryStore) (e : Edge) : Except Error InMemoryStore :=
  match [e.tail, e.head].find? (fun id => !s.contains id) with
  | some id => .error (.notFound "vertex" id.text)
  | none => .ok { s with out := s.out.insert e.tail ((s.out.getD e.tail #[]).push e) }

def ofDump (d : GraphDump) : Except Error InMemoryStore := do
  let s ← d.vertices.foldlM addVertex empty
  d.edges.foldlM addEdge s

def ofString (text : String) : Except Error InMemoryStore :=
  match GraphDump.ofLiteral?.parse? text with
  | some d => ofDump d
  | none => .error (.parse "not a graph")

def load (contents : Except String String) : Except Error InMemoryStore :=
  match contents with
  | .ok text => ofString text
  | .error reason => .error (.io reason)

def page (s : InMemoryStore) (offset limit : Nat) : List Vertex :=
  (s.vertices.toList.drop offset).take limit

def vertex? (s : InMemoryStore) (id : VertexId) : Option Vertex :=
  s.positions[id]?.bind fun i => s.vertices[i]?

def outEdges (s : InMemoryStore) (id : VertexId) (label : Option String) : List Edge :=
  (s.out.getD id #[]).toList.filter fun e => label.all (e.label == ·)

theorem page_of_size_le (s : InMemoryStore) (limit : Nat) {offset : Nat} (h : s.size ≤ offset) :
    s.page offset limit = [] := by
  simp only [page, List.take_eq_nil_iff, List.drop_eq_nil_iff, Array.length_toList]
  exact Or.inr h

/-- A graph in memory as a store that never refuses a request. -/
def toStore (s : InMemoryStore) : GraphStore where
  vertices offset limit := .ok (s.page offset limit)
  vertex id := .ok (s.vertex? id)
  outEdges id label := .ok (s.outEdges id label)
  extent := s.size
  ends offset limit page h hp := by
    rw [page_of_size_le s limit h] at hp
    exact (Except.ok.inj hp).symm

end InMemoryStore

end CodeGraph
