import CodeGraph.Table.Column

/-!
# Cells compared part by part

`Bindings.sameCell` compares what two cells are known by. Here two cells are compared part by part: a value
by its vertex if both values have one, and else as an object, and a path step by step.
-/

namespace CodeGraph

namespace Bindings

/-- Whether two values belong to the same vertex, or are one object if one of them belongs to none. -/
def sameValue (b : Bindings) (u v : Value) : Bool :=
  match b.vertex? u, b.vertex? v with
  | some x, some y => x == y
  | _, _ => u.tag == v.tag

/-- Whether two paths pass the same values step by step. -/
def samePath (b : Bindings) (p q : FlowPath Ref) : Bool :=
  p.length == q.length && (p.zip q).all fun (u, v) => b.sameValue u v

def equalCells (b : Bindings) : Cell Ref → Cell Ref → Bool
  | .null, .null => true
  | .value u, .value v => b.sameValue u v
  | .text s, .text t => s == t
  | .path p, .path q => b.samePath p q
  | _, _ => false

end Bindings

end CodeGraph
