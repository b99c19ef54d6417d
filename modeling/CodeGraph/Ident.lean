/-!
# Identifiers

Vertices and edges are named by 64-bit words. The two kinds of name are different types, so that
a vertex is never looked up under an edge's name.
-/

namespace CodeGraph

structure VertexId where
  word : UInt64
  deriving DecidableEq, Hashable, Repr

structure EdgeId where
  word : UInt64
  deriving DecidableEq, Hashable, Repr

namespace VertexId

def text (id : VertexId) : String := toString id.word.toNat

end VertexId

namespace EdgeId

def text (id : EdgeId) : String := toString id.word.toNat

end EdgeId

end CodeGraph
