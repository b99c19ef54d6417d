import CodeGraph.Dictionary
import CodeGraph.Table.Basic

/-!
# Sets of tables

The live tables of a query, each under its own name, which serves as its alias. They are listed in
the order of their aliases.
-/

namespace CodeGraph

/-- Tables by alias. -/
structure TableSet where
  tables : Dictionary Table

namespace TableSet

def empty : TableSet := ⟨.empty⟩

def contains (s : TableSet) (name : String) : Bool := s.tables.contains name

def size (s : TableSet) : Nat := s.tables.size

def isEmpty (s : TableSet) : Bool := s.tables.isEmpty

def aliases (s : TableSet) : List String := s.tables.keys

def table (s : TableSet) (name : String) : Except Error Table :=
  match s.tables.get? name with
  | some t => .ok t
  | none => .error (.notFound "table" name)

def add (s : TableSet) (t : Table) : Except Error TableSet :=
  if s.contains t.name then .error (.duplicateName "table" t.name)
  else .ok ⟨s.tables.insert t.name t⟩

def remove (s : TableSet) (name : String) : Except Error (Table × TableSet) := do
  return (← s.table name, ⟨s.tables.erase name⟩)

def merge (s other : TableSet) : Except Error TableSet :=
  match other.aliases.find? s.contains with
  | some name => .error (.duplicateName "table" name)
  | none => .ok ⟨other.tables.entries.foldl (fun d (name, t) => d.insert name t) s.tables⟩

def onlyTable (s : TableSet) : Except Error Table :=
  match s.tables.values with
  | [t] => .ok t
  | ts => .error (.notExactlyOne "table" ts.length)

end TableSet

end CodeGraph
