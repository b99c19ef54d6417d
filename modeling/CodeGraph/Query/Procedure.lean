import CodeGraph.Query.Pipeline

/-!
# Queries as procedures

A query can be written as a procedure that calls the stages without naming the query. The query is
held in a slot of the world while the procedure runs; `Procedure.current` finds it there. A
procedure that is called while another runs fails at once and leaves everything as it was.

The sources of a procedure accept a value for any part of it.
-/

namespace CodeGraph

structure Queryable where
  name : String
  body : StageM Unit
  deriving Inhabited

namespace Queryable

def runFresh (q : Queryable) : QueryM Unit :=
  ExceptT.mk do return (← Query.empty.run q.body).1

end Queryable

namespace Procedure

def setSlots (slots : QueryContext Query) : QueryM Unit :=
  ExceptT.lift fun w => ((), { w with slots })

def slots : QueryM (QueryContext Query) := ExceptT.lift fun w => (w.slots, w)

def current : QueryM Query := do (← slots).query.get

def setCurrent (q : Query) : QueryM Unit :=
  ExceptT.lift fun w => ((), { w with slots.query.entry := some q })

def isRunning : QueryM Bool := do return (← slots).query.inUse

def hold (q : Query) : QueryM Unit := do
  let s ← slots
  setSlots { s with query := ← s.query.require q }

def release : QueryM Query := do
  let s ← slots
  let (q, slot) ← s.query.release
  setSlots { s with query := slot }
  return q

def toQueryable (name : String) (body : QueryM Unit) : Queryable where
  name
  body := do
    let q ← Query.handOver
    match ← Stage.ofWorldM (hold q).run with
    | .error e => do
      Stage.put q
      throw e
    | .ok _ => do
      let outcome ← Stage.ofWorldM body.run
      let released ← Stage.ofWorldM release.run
      match released with
      | .ok q => Stage.put q
      | .error _ => pure ()
      let _ ← outcome
      let _ ← released

def stage (m : StageM α) : QueryM α := do
  let q ← current
  let (outcome, q) ← ExceptT.lift (q.run m)
  setCurrent q
  outcome

def aliasOr (name : Option String) : QueryM String :=
  match name with
  | some s => return s
  | none => ExceptT.lift World.freshAlias

/-- Claims and gives back the slot of the source clause. -/
def claimSource : QueryM Unit := do
  let s ← slots
  let claimed ← s.source.require ()
  setSlots { s with source := claimed }
  let outcome := claimed.get
  let (_, free) ← claimed.release
  setSlots { s with source := free }
  outcome

/-- Adds a source for values with a part that a predicate accepts, and returns its alias. -/
def addSource (mode : SourceMode) (p : ValuePredicate) (name : Option String) :
    QueryM String := do
  let name ← aliasOr name
  let _ ← current
  claimSource
  stage (Query.source ⟨name, mode, .contains p⟩)
  return name

def nodes (p : ValuePredicate) (name : Option String) : QueryM String := addSource .data p name

def predicate (p : ValuePredicate) (name : Option String) : QueryM String :=
  addSource .predicate p name

def filter (a : App) (name : String) (p : FilterPredicate) : QueryM Unit :=
  stage (Query.filter a ⟨name, .retain p⟩)

def flow (a : App) (algorithm : FlowAlgorithm) (source sink : String) (barrier : Option String)
    (name : Option String) : QueryM String := do
  let name ← aliasOr name
  stage (Query.flow a ⟨⟨source, sink, barrier, name⟩, algorithm⟩)
  return name

def report (a : App) (names : List String) : QueryM Unit := stage (Query.select a names)

end Procedure

end CodeGraph
