import CodeGraph.Table.Basic

/-!
# Filters

A filter replaces a table by one of the same name, most often by the rows that a predicate accepts.
A predicate on values or on paths looks at the column that has the table's alias; a row without such
a value or path is rejected. Predicates on rows and on paths see values with the identities that
hold when they are asked. A custom filter is a function of the table and of what is bound; one that has
effects is left out.
-/

namespace CodeGraph

inductive FilterPredicate where
  | value (p : ValuePredicate)
  | row (accepts : Row Identity → Bool)
  | flow (accepts : FlowPath Identity → Bool)

namespace FilterPredicate

/-- Whether a row is accepted, with the column that values and paths are taken from. -/
def test (p : FilterPredicate) (column : String) (r : Row Ref) : StateM Context Bool :=
  match p with
  | value p =>
    match (r.lookup column).bind Cell.value? with
    | some v => p.test v
    | none => return false
  | row accepts => do return accepts ((← get).bindings.viewRow r)
  | flow accepts =>
    match (r.lookup column).bind Cell.path? with
    | some path => do return accepts (Tree.mapAll (← get).bindings.identity path)
    | none => return false

end FilterPredicate

inductive FilterAction where
  | retain (p : FilterPredicate)
  | custom (transform : Bindings → Table → Except Error Table)

structure Filter where
  name : String
  action : FilterAction

namespace Filter

def keep (p : FilterPredicate) (column : String) (kept : Table) (r : Row Ref) :
    Resolving Table := do
  if ← p.test column r then
    let b := (← get).bindings
    kept.addRow b r
  else return kept

def retain (p : FilterPredicate) (column : String) (t : Table) : Resolving Table := do
  (← t.rows).foldlM (keep p column) (t.duplicate true)

/-- The table that a filter makes of a table. It has the alias as its name. -/
def apply (f : Filter) (t : Table) : Resolving Table := do
  let result ←
    match f.action with
    | .retain p => retain p f.name t
    | .custom transform =>
      let b := (← get).bindings
      transform b t
  return result.renamed f.name

end Filter

end CodeGraph
