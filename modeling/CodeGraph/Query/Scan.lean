import CodeGraph.Query.World

/-!
# Scans

One pass over the vertices of the store, page by page, fills a column for each action with the
values that its predicate accepts. While the predicates are asked the vertex is staged, so that they
can see its node; if one accepts it, it is registered. A vertex that cannot be resolved is skipped,
and a page that the store rejects ends the scan with what there is.
-/

namespace CodeGraph

namespace Scan

def answers (actions : List ScanAction) (v : Value) : StateM Context (List Bool) :=
  actions.mapM (·.accepts.test v)

def addMatches (b : Bindings) (v : Value) (columns : List DataColumn) (accepted : List Bool) :
    List DataColumn :=
  List.zipWith (fun c yes => if yes then c.push b (.value v) else c) columns accepted

def classify (actions : List ScanAction) (columns : List DataColumn) (v : Vertex) :
    StateM Context (List DataColumn) := do
  match ← (Context.resolve v .bypass).run with
  | .error _ => do
    Context.notify .vertexSkipped
    return columns
  | .ok built => do
    Context.stage built
    let accepted ← answers actions built.value
    Context.unstage built.id
    if accepted.any id then
      let kept ← Context.register built
      return addMatches (← get).bindings kept.value columns accepted
    else return columns

def classifyPage (actions : List ScanAction) (columns : List DataColumn) (page : List Vertex) :
    StateM Context (List DataColumn) :=
  page.foldlM (classify actions) columns

def pages (s : GraphStore) (limit : Nat) (actions : List ScanAction) (columns : List DataColumn)
    (offset : Nat) : WorldM (List DataColumn) := do
  match h : s.vertices offset limit with
  | .error _ => do
    World.record (.page offset none)
    World.onGraph (Context.notify .pageRejected)
    return columns
  | .ok page => do
    World.record (.page offset (some page.length))
    World.count fun p => { p with fetch := p.fetch + 1 }
    if hp : page = [] then return columns
    else
      have : offset < s.extent := by
        exact Nat.lt_of_not_le fun hle => hp (s.ends offset limit page hle h)
      have : 0 < page.length := List.length_pos_iff.mpr hp
      let columns ← World.onGraph (classifyPage actions columns page)
      World.count fun p => { p with classify := p.classify + page.length.toUInt64 }
      pages s limit actions columns (offset + page.length)
termination_by s.extent - offset

def tablesOf (columns : List DataColumn) : Except Error TableSet :=
  columns.foldlM (fun tables c => tables.add (.ofColumn c.name (.data c))) .empty

/-- The number of vertices to a page: as the application says, unless another number is given, which
counts as one if it is zero. -/
def pageSize (a : App) (other : Option Nat) : Nat :=
  match other with
  | some n => max n 1
  | none => a.batchSize

def run (a : App) (limit : Nat) (actions : List ScanAction) : QueryM TableSet := do
  let columns ← pages a.store limit actions (actions.map fun x => .new x.name true) 0
  tablesOf columns

end Scan

end CodeGraph
