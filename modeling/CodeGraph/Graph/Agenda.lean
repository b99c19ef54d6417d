import CodeGraph.Graph.Value

/-!
# Walks on a stack

A `Walk` keeps the trees that are still to be visited with the next one first. An `Agenda` keeps them on
a stack: the next one is taken from the end, and its children are put there last to first, so that the
first child comes next.
-/

namespace CodeGraph

/-- Trees that are still to be visited, the next one last. -/
structure Agenda (ι : Type u) where
  stack : Array (Tree ι)

namespace Agenda

variable {ι : Type u}

def ofTree (t : Tree ι) : Agenda ι := ⟨#[t]⟩

/-- What a request gets, and what is left to be visited. -/
def next (a : Agenda ι) : Option (Tree ι) × Agenda ι :=
  match a.stack.back? with
  | none => (none, a)
  | some t => (some t, ⟨a.stack.pop ++ t.children.reverse⟩)

/-- What is left to be visited after so many requests. -/
def after (a : Agenda ι) : Nat → Agenda ι
  | 0 => a
  | k + 1 => (a.after k).next.2

end Agenda

end CodeGraph
