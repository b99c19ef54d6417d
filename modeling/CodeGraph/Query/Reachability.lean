import CodeGraph.Query.Flow
import CodeGraph.Query.Marks

/-!
# Reachability

The flow algorithm that follows the edges of the store, breadth first, from the vertex of a source
value. Every vertex is met once. A vertex whose value the barrier accepts is neither reported nor
followed; any other vertex met is reported if the sink accepts its value, with the path by which it
was met. The start is never reported. A vertex that is not registered is fetched and registered, and
one that is not there or cannot be resolved is not followed.

The search goes on in rounds: it takes the first vertex that waits, follows its edges and lets the
vertices met there wait behind the others. As many wait as were met, so the rounds are bounded by
the names of vertices.
-/

namespace CodeGraph

structure Reachability where
  label : Option String
  /-- The number of edges that a path has at most, if there is a limit. -/
  maxDepth : Option Nat
  deriving DecidableEq, Repr

namespace Reachability

/-- A vertex whose edges are still to be followed, with the path to it, latest value first. -/
structure Waiting where
  vertex : VertexId
  trail : List Value

namespace Waiting

def depth (w : Waiting) : Nat := w.trail.length - 1

end Waiting

structure Round where
  marks : Marks
  waiting : List Waiting
  result : FlowResult

/-- Rounds in which at least as many vertices were met as wait. -/
def Grown (before : Marks) : Type :=
  { r : Round // before.count + r.waiting.length ≤ r.marks.count }

def valueOf (a : App) (id : VertexId) : QueryM (Option Value) := do
  if ← World.isRegistered id then
    let v ← World.resolving (Context.valueOf (.id id))
    return some v
  else
    match ← World.vertex a id with
    | none => return none
    | some vertex => World.valueOf? (.vertex vertex)

/-- Looks at a vertex that has just been met, and returns the vertex to follow. -/
def visit (a : App) (sink barrier : Column) (start : Value) (trail : List Value) (id : VertexId)
    (result : FlowResult) : QueryM (Option Waiting × FlowResult) := do
  match ← valueOf a id with
  | none => return (none, result)
  | some v =>
    if ← World.member barrier (.value v) then return (none, result)
    else
      let trail := v :: trail
      let reached ← World.member sink (.value v)
      let result ← if reached then result.emit ⟨start, v, trail.reverse⟩ else pure result
      return (some ⟨id, trail⟩, result)

def follow (a : App) (sink barrier : Column) (start : Value) (trail : List Value) (before : Marks) :
    List Edge → Grown before → QueryM (Grown before)
  | [], r => return r
  | e :: es, r =>
    match h : r.1.marks.add? e.head with
    | none => follow a sink barrier start trail before es r
    | some marks => do
      have grown := Marks.count_of_add? h
      match ← visit a sink barrier start trail e.head r.1.result with
      | (none, result) =>
        follow a sink barrier start trail before es
          ⟨{ r.1 with marks, result }, by have := r.2; simp only; omega⟩
      | (some next, result) =>
        follow a sink barrier start trail before es
          ⟨⟨marks, r.1.waiting ++ [next], result⟩, by
            have := r.2
            simp only [List.length_append, List.length_cons, List.length_nil]
            omega⟩

def follows (f : Reachability) (w : Waiting) : Bool :=
  match f.maxDepth with
  | some limit => w.depth < limit
  | none => true

/-- Goes on until no vertex waits. -/
def rounds (f : Reachability) (a : App) (sink barrier : Column) (start : Value) (marks : Marks)
    (result : FlowResult) : List Waiting → QueryM FlowResult
  | [] => return result
  | w :: ws =>
    if f.follows w then do
      let edges ← World.outEdges a w.vertex f.label
      let ⟨r, _⟩ ← follow a sink barrier start w.trail marks edges
        ⟨⟨marks, [], result⟩, Nat.le_refl _⟩
      have := r.marks.count_le
      rounds f a sink barrier start r.marks r.result (ws ++ r.waiting)
    else rounds f a sink barrier start marks result ws
termination_by ws => (UInt64.size - marks.count) + ws.length
decreasing_by
  · simp only [List.length_append, List.length_cons]
    omega
  · simp only [List.length_cons]
    omega

def algorithm (f : Reachability) (a : App) : FlowAlgorithm := fun v _ sink barrier result => do
  let start ← World.resolving (Context.vertexOf v)
  rounds f a sink barrier v (.single start) result [⟨start, [v]⟩]

end Reachability

end CodeGraph
