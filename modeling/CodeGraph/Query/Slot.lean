import CodeGraph.Error

/-!
# Slots

A slot holds at most one entry and is strict about it: it can be required only while it is empty,
and released or read only while it is not. Two slots guard the queries that are written as
procedures: one for the query that runs and one for the clause that is being built.
-/

namespace CodeGraph

/-- A place for one entry, with a name for errors. -/
structure Slot (α : Type u) where
  name : String
  entry : Option α

namespace Slot

variable {α : Type u}

def empty (name : String) : Slot α := ⟨name, none⟩

def inUse (s : Slot α) : Bool := s.entry.isSome

def require (s : Slot α) (a : α) : Except Error (Slot α) :=
  match s.entry with
  | some _ => .error (.slotInUse s.name)
  | none => .ok { s with entry := some a }

def release (s : Slot α) : Except Error (α × Slot α) :=
  match s.entry with
  | some a => .ok (a, { s with entry := none })
  | none => .error (.slotNotInUse s.name)

def get (s : Slot α) : Except Error α :=
  match s.entry with
  | some a => .ok a
  | none => .error (.slotNotSet s.name)

end Slot

structure QueryContext (α : Type u) where
  query : Slot α
  source : Slot Unit

namespace QueryContext

def free {α : Type u} : QueryContext α := ⟨.empty "query", .empty "from"⟩

end QueryContext

end CodeGraph
