import CodeGraph.Graph.Node
import CodeGraph.Graph.Value

/-!
# The registry of resolved vertices

A registry remembers which node and which value a vertex was resolved to. Its entries are listed by
last use, the latest first: `touch?` moves the entry it finds to the front and `register` puts a new
entry there. A registry with a capacity forgets the entry at the end of the list when it is full.
-/

namespace CodeGraph

structure Registration where
  node : GraphNode
  value : Value

def Registration.id (r : Registration) : VertexId := r.node.id

/-- The entries of a registry, the last used one first. -/
structure Registry where
  /-- How many entries are kept; all of them if there is no number. -/
  capacity : Option Nat
  entries : List (VertexId × Registration)

namespace Registry

/-- A registry without entries. A capacity of zero sets no bound. -/
def ofCapacity (capacity : Option Nat) : Registry := ⟨capacity.filter (· ≠ 0), []⟩

/-- The entry of a vertex, without using it. -/
def peek? (r : Registry) (id : VertexId) : Option Registration := r.entries.lookup id

def contains (r : Registry) (id : VertexId) : Bool := (r.peek? id).isSome

def size (r : Registry) : Nat := r.entries.length

def others (r : Registry) (id : VertexId) : List (VertexId × Registration) :=
  r.entries.filter (fun e => e.1 ≠ id)

def moveToFront (r : Registry) (id : VertexId) (found : Registration) : Registry :=
  { r with entries := (id, found) :: r.others id }

/-- The entry of a vertex, which is used by this. -/
def touch? (r : Registry) (id : VertexId) : Option Registration × Registry :=
  match r.peek? id with
  | some found => (some found, r.moveToFront id found)
  | none => (none, r)

def cut (capacity : Option Nat) (entries : List (VertexId × Registration)) :
    List (VertexId × Registration) :=
  match capacity with
  | some n => entries.take n
  | none => entries

/-- Enters a resolved vertex and returns what the registry then holds for it: an entry that exists
already is used and stays. -/
def register (r : Registry) (new : Registration) : Registration × Registry :=
  match r.touch? new.id with
  | (some found, r) => (found, r)
  | (none, r) => (new, { r with entries := cut r.capacity ((new.id, new) :: r.entries) })

def clear (r : Registry) : Registry := { r with entries := [] }

end Registry

end CodeGraph
