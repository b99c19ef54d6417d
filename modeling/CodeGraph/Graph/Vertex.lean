import CodeGraph.Ident
import CodeGraph.Json.Decoder
import CodeGraph.Json.Writer

/-!
# Vertices and edges

The records that a graph store holds. A vertex property may have several values, an edge property
has one. `Vertex.ofLiteral?` and `Edge.ofLiteral?` decode the records, `toJson` encodes them with
their fields in the order of the record.
-/

namespace CodeGraph

def codeLabel : String := "code"

def fileLabel : String := "file"

/-- A vertex of the graph. The values of a property are in the order in which they were given. -/
structure Vertex where
  id : VertexId
  label : String
  properties : Dictionary (List Json)

structure Edge where
  id : EdgeId
  label : String
  tail : VertexId
  head : VertexId
  properties : Dictionary Json

namespace Vertex

def bare (id : VertexId) (label : String) : Vertex := ⟨id, label, .empty⟩

def withProperty (v : Vertex) (name : String) (value : Json) : Vertex :=
  { v with properties :=
      v.properties.insert name (((v.properties.get? name).getD []) ++ [value]) }

def property? (v : Vertex) (name : String) : Option Json :=
  (v.properties.get? name).bind List.head?

/-- The text of a document as a property: a string stands for itself. -/
def textOf : Json → String
  | .str s => s
  | j => j.compact

def propertyText? (v : Vertex) (name : String) : Option String := (v.property? name).map textOf

def decodeValue : Decoder Json := fun depth l => do
  let f ← RecordFields.ofLiteral? .json ["value"] depth l
  f.required "value" Decoder.json

def ofLiteral? : Decoder Vertex := fun depth l => do
  let f ← RecordFields.ofLiteral? .json ["id", "label", "properties"] depth l
  let id ← f.required "id" Decoder.word64
  let label ← f.required "label" Decoder.string
  let properties ←
    f.optional "properties" (Decoder.dictionary (Decoder.list decodeValue)) Dictionary.empty
  pure ⟨⟨id⟩, label, properties⟩

def toJson (v : Vertex) : Json :=
  .obj [
    ("id", .num (.natural v.id.word)),
    ("label", .str v.label),
    ("properties", .obj (v.properties.entries.map fun (name, values) =>
      (name, .ofList (fun value => .obj [("value", value)]) values)))]

end Vertex

namespace Edge

def bare (id : EdgeId) (label : String) (tail head : VertexId) : Edge :=
  ⟨id, label, tail, head, .empty⟩

def ofLiteral? : Decoder Edge := fun depth l => do
  let f ← RecordFields.ofLiteral? .json ["id", "label", "outV", "inV", "properties"] depth l
  let id ← f.required "id" Decoder.word64
  let label ← f.required "label" Decoder.string
  let tail ← f.required "outV" Decoder.word64
  let head ← f.required "inV" Decoder.word64
  let properties ← f.optional "properties" (Decoder.dictionary Decoder.json) Dictionary.empty
  pure ⟨⟨id⟩, label, ⟨tail⟩, ⟨head⟩, properties⟩

def toJson (e : Edge) : Json :=
  .obj [
    ("id", .num (.natural e.id.word)),
    ("label", .str e.label),
    ("outV", .num (.natural e.tail.word)),
    ("inV", .num (.natural e.head.word)),
    ("properties", .obj e.properties.entries)]

end Edge

end CodeGraph
