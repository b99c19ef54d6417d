import CodeGraph.Error
import CodeGraph.Graph.Vertex

/-!
# Graph stores

The engine only reads its store: it pages through the vertices, asks for single vertices and follows
outgoing edges. A store answers the same question always in the same way, and from `extent` on its
pages are empty or refused, which is why a scan ends.
-/

namespace CodeGraph

/-- A graph to be read. -/
structure GraphStore where
  vertices : Nat → Nat → Except Error (List Vertex)
  vertex : VertexId → Except Error (Option Vertex)
  outEdges : VertexId → Option String → Except Error (List Edge)
  /-- An offset from which on there are no vertices. -/
  extent : Nat
  ends : ∀ offset limit page, extent ≤ offset → vertices offset limit = .ok page → page = []

inductive Request where
  /-- A page at an offset, with the number of vertices returned unless the page was rejected. -/
  | page (offset : Nat) (returned : Option Nat)
  | vertex (id : VertexId)
  | edges (id : VertexId) (label : Option String)
  deriving DecidableEq, Repr

end CodeGraph
