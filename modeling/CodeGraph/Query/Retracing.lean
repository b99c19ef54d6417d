import CodeGraph.Query.Reachability

/-!
# Searches that retrace paths

In the search of `Reachability` each vertex that waits has the path to it. Here a vertex waits with its
depth alone, and `Origins` tell of each vertex that has been entered its value and the vertex from which it
was met. When a vertex is reported, the path to it is retraced: from it back to the vertex from which it was
met, and so on to the start, and then forwards along the values. Both searches are the same
(`Reachability.retracing_eq`).
-/

namespace CodeGraph

namespace Reachability

/-- The vertices from which vertices were met, and the values of the vertices that were entered. -/
structure Origins where
  parents : Std.HashMap VertexId VertexId
  values : Std.HashMap VertexId Value

namespace Origins

def start (id : VertexId) (v : Value) : Origins := ⟨∅, (∅ : Std.HashMap VertexId Value).insert id v⟩

/-- One more vertex has been entered. -/
def enter (o : Origins) (id parent : VertexId) (v : Value) : Origins :=
  ⟨o.parents.insert id parent, o.values.insert id v⟩

theorem size_erase_lt {parents : Std.HashMap VertexId VertexId} {id parent : VertexId}
    (h : parents[id]? = some parent) : (parents.erase id).size < parents.size := by
  have hmem : id ∈ parents := Std.HashMap.mem_iff_isSome_getElem?.2 (by rw [h]; rfl)
  have hsize : parents.size ≠ 0 := fun hzero => by
    rw [← beq_iff_eq, ← Std.HashMap.isEmpty_eq_size_eq_zero] at hzero
    exact Std.HashMap.isEmpty_iff_forall_not_mem.1 hzero id hmem
  rw [Std.HashMap.size_erase, if_pos hmem]
  omega

/-- The way back from a vertex to one that was met from none. No vertex is left twice. -/
def wayBack (parents : Std.HashMap VertexId VertexId) (id : VertexId) : List VertexId :=
  match h : parents[id]? with
  | none => [id]
  | some parent =>
    have := size_erase_lt h
    id :: wayBack (parents.erase id) parent
termination_by parents.size

def path (o : Origins) (id : VertexId) : List Value :=
  (wayBack o.parents id).reverse.filterMap (o.values[·]?)

end Origins

/-- A vertex whose edges are still to be followed, with the length of the path to it. -/
structure Due where
  vertex : VertexId
  depth : Nat

structure Survey where
  marks : Marks
  origins : Origins
  due : List Due
  result : FlowResult

/-- Surveys in which at least as many vertices were met as are due. -/
def Survey.Grown (before : Marks) : Type :=
  { r : Survey // before.count + r.due.length ≤ r.marks.count }

/-- Looks at a vertex that has just been met, and returns the vertex to follow. -/
def inspect (a : App) (sink barrier : Column) (start : Value) (u : Due) (id : VertexId) (o : Origins)
    (result : FlowResult) : QueryM (Option Due × Origins × FlowResult) := do
  match ← valueOf a id with
  | none => return (none, o, result)
  | some v =>
    if ← World.member barrier (.value v) then return (none, o, result)
    else
      let o := o.enter id u.vertex v
      let reached ← World.member sink (.value v)
      let result ← if reached then result.emit ⟨start, v, o.path id⟩ else pure result
      return (some ⟨id, u.depth + 1⟩, o, result)

def survey (a : App) (sink barrier : Column) (start : Value) (u : Due) (before : Marks) :
    List Edge → Survey.Grown before → QueryM (Survey.Grown before)
  | [], r => return r
  | e :: es, r =>
    match h : r.1.marks.add? e.head with
    | none => survey a sink barrier start u before es r
    | some marks => do
      have grown := Marks.count_of_add? h
      match ← inspect a sink barrier start u e.head r.1.origins r.1.result with
      | (none, origins, result) =>
        survey a sink barrier start u before es
          ⟨{ r.1 with marks, origins, result }, by have := r.2; simp only; omega⟩
      | (some next, origins, result) =>
        survey a sink barrier start u before es
          ⟨⟨marks, origins, r.1.due ++ [next], result⟩, by
            have := r.2
            simp only [List.length_append, List.length_cons, List.length_nil]
            omega⟩

def reaches (f : Reachability) (u : Due) : Bool :=
  match f.maxDepth with
  | some limit => u.depth < limit
  | none => true

/-- Goes on until no vertex is due. -/
def surveys (f : Reachability) (a : App) (sink barrier : Column) (start : Value) (marks : Marks)
    (origins : Origins) (result : FlowResult) : List Due → QueryM FlowResult
  | [] => return result
  | u :: us =>
    if f.reaches u then do
      let edges ← World.outEdges a u.vertex f.label
      let ⟨r, _⟩ ← survey a sink barrier start u marks edges
        ⟨⟨marks, origins, [], result⟩, Nat.le_refl _⟩
      have := r.marks.count_le
      surveys f a sink barrier start r.marks r.origins r.result (us ++ r.due)
    else surveys f a sink barrier start marks origins result us
termination_by us => (UInt64.size - marks.count) + us.length
decreasing_by
  · simp only [List.length_append, List.length_cons]
    omega
  · simp only [List.length_cons]
    omega

def retracing (f : Reachability) (a : App) : FlowAlgorithm := fun v _ sink barrier result => do
  let start ← World.resolving (Context.vertexOf v)
  surveys f a sink barrier v (.single start) (.start start v) result [⟨start, 0⟩]

end Reachability

end CodeGraph
