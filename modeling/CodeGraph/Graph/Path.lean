import CodeGraph.Graph.Context

/-!
# Flow paths

A path lists the values that a flow passes, from its source to its sink. Two paths are the same when
they pass the same values step by step.
-/

namespace CodeGraph

abbrev FlowPath (ι : Type u) := List (Tree ι)

namespace FlowPath

def same (p q : FlowPath Identity) : Bool := p.map Tree.tag = q.map Tree.tag

/-- Whether a path, as it is seen, passes a value. -/
def passes (p : FlowPath Identity) (v : Seen) : Bool := p.any (Seen.same · v)

/-- The place of a step, or a question mark when the step is not registered. -/
def place (v : Value) : StateM Context String := do
  match ← Context.nodeOf? (.value v) with
  | some n => return n.location
  | none => return "?"

def describe (p : FlowPath Ref) : StateM Context String := do
  return " -> ".intercalate (← p.mapM place)

end FlowPath

end CodeGraph
