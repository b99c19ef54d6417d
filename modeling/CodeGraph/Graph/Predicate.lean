import CodeGraph.Graph.Context

/-!
# Predicates on values

A `ValuePredicate` accepts or rejects a value. It sees the value with the identities that hold when
it is asked, and it may ask for the node that the value belongs to. A predicate that asks for no
node changes nothing; one that does uses the registry's entries in doing so. Left out are predicates that
remember what they were asked, that tell objects of one identity apart, or that ask for anything else.
-/

namespace CodeGraph

/-- A test of a value. -/
inductive ValuePredicate where
  | sees (accepts : Seen → Bool)
  /-- A test of the node that the value belongs to; a value without one is rejected. -/
  | node (accepts : GraphNode → Bool)
  /-- The test holds of the value or of something below it. -/
  | contains (inner : ValuePredicate)
  | and (left right : ValuePredicate)
  | or (left right : ValuePredicate)
  | not (inner : ValuePredicate)
  deriving Inhabited

namespace ValuePredicate

def any : ValuePredicate := sees fun _ => true

def none : ValuePredicate := sees fun _ => false

def ofKind (kind : String) : ValuePredicate := sees fun v => v.identifier == kind

def named (kind name : String) : ValuePredicate :=
  sees fun v => v.identifier == kind && v.header.name == some name

def withPart (kind name : String) : ValuePredicate :=
  sees fun v => v.identifier == kind && v.children.any fun c => c.header.name == some name

def ofVertex (accepts : VertexId → Bool) : ValuePredicate :=
  sees fun v => v.tag.vertex?.any accepts

def line (accepts : CodeLine → Bool) : ValuePredicate := node fun n => n.code?.any accepts

/-- Whether a predicate accepts a value. Of two parts the second is asked only if the first does not
decide. -/
def test : ValuePredicate → Value → StateM Context Bool
  | sees accepts, v => do return accepts ((← get).bindings.view v)
  | node accepts, v => do return (← Context.nodeOf? (.value v)).any accepts
  | contains inner, v => v.stream.anyM inner.test
  | and left right, v => do if ← left.test v then right.test v else return false
  | or left right, v => do if ← left.test v then return true else right.test v
  | not inner, v => do return !(← inner.test v)

end ValuePredicate

end CodeGraph
