import CodeGraph.Table.Set

/-!
# Queries

A `Query` is what the stages of a query have come to so far. Before it is prepared it only records
what to look for: scan actions for the tables that a scan fills, and tables of predicates that are
waiting. Once it is prepared its tables are live, until `select` turns the last one into the result.
-/

namespace CodeGraph

/-- A column that a scan fills: the vertices whose values a predicate accepts. -/
structure ScanAction where
  name : String
  accepts : ValuePredicate

inductive SourceMode where
  | data
  /-- They are never collected; the predicate is asked when need be. -/
  | predicate
  deriving DecidableEq, Repr

structure Source where
  name : String
  mode : SourceMode
  accepts : ValuePredicate

/-- The state of a query. -/
structure Query where
  actions : List ScanAction
  /-- The tables of predicates that join the live tables when the query is prepared. -/
  pending : TableSet
  tables : TableSet
  /-- The aliases of all sources, in the order in which they came. -/
  aliases : List String
  prepared : Bool
  result : Option Table

namespace Query

def empty : Query := ⟨[], .empty, .empty, [], false, none⟩

def lastAlias? (q : Query) : Option String := q.aliases.getLast?

def resultTable (q : Query) : Except Error Table :=
  match q.result with
  | some t => .ok t
  | none => .error (.invalidStage "result")

/-- Adds an action to a scan; each alias is used once. -/
def addAction (actions : List ScanAction) (a : ScanAction) : Except Error (List ScanAction) :=
  if actions.any (·.name == a.name) then .error (.duplicateName "table" a.name)
  else .ok (actions ++ [a])

def withSource (q : Query) (s : Source) : Except Error Query :=
  if q.prepared then .error (.invalidStage "from")
  else if q.aliases.contains s.name then .error (.duplicateName "table" s.name)
  else do
    let q ←
      match s.mode with
      | .data => do pure { q with actions := ← addAction q.actions ⟨s.name, s.accepts⟩ }
      | .predicate => do
        let t := Table.ofColumn s.name (.predicate s.name s.accepts)
        pure { q with pending := ← q.pending.add t }
    pure { q with aliases := q.aliases ++ [s.name] }

end Query

end CodeGraph
