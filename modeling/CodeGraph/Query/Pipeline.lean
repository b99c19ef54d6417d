import CodeGraph.Query.Filter
import CodeGraph.Query.Flow
import CodeGraph.Query.Scan

/-!
# The stages of a query

A query is made in stages. `Query.source` only records what to look for. The first other stage
prepares the query: one scan fills all tables of data, and the tables of predicates join them. A
filter then replaces one live table and a flow replaces up to three by one, so that an alias is
never taken twice. `Query.select` makes the last table the result.

A stage takes its tables out of the query before it can fail, so tables that a failed stage has
taken are gone.
-/

namespace CodeGraph

namespace Stage

def ofQueryM (m : QueryM α) : StageM α := ExceptT.mk (StateT.lift m.run)

def ofWorldM (m : WorldM α) : StageM α := ExceptT.lift (StateT.lift m)

def query : StageM Query := ExceptT.lift StateT.get

def put (q : Query) : StageM Unit := ExceptT.lift (StateT.set q)

def update (f : Query → Query) : StageM Unit :=
  ExceptT.lift (StateT.modifyGet fun q => ((), f q))

end Stage

namespace Query

def source (s : Source) : StageM Unit := do
  let q ← Stage.query
  let q ← q.withSource s
  Stage.put q

/-- Makes the tables of the sources live, unless they are already. -/
def prepare (a : App) : StageM Unit := do
  let q ← Stage.query
  if q.prepared then return
  let scanned ←
    if q.actions.isEmpty then pure TableSet.empty
    else Stage.ofQueryM (Scan.run a a.batchSize q.actions)
  Stage.update fun q => { q with pending := .empty }
  let tables ← scanned.merge q.pending
  let tables ← q.tables.merge tables
  Stage.update fun q => { q with tables, prepared := true }

def takeTable (name : String) : StageM Table := do
  let q ← Stage.query
  let (t, tables) ← q.tables.remove name
  Stage.put { q with tables }
  return t

def giveTable (t : Table) : StageM Unit := do
  let q ← Stage.query
  let tables ← q.tables.add t
  Stage.put { q with tables }

/-- Refuses an alias that no live table has. -/
def requireTable (name : String) : StageM Unit := do
  let q ← Stage.query
  let _ ← q.tables.table name

def filter (a : App) (f : Filter) : StageM Unit := do
  prepare a
  let t ← takeTable f.name
  let t ← Stage.ofQueryM (World.resolving (f.apply t))
  giveTable t
  Stage.ofWorldM (World.count fun p => { p with filter := p.filter + 1 })

def flow (a : App) (f : Flow) : StageM Unit := do
  prepare a
  requireTable f.source
  requireTable f.sink
  f.barrier.forM requireTable
  let source ← takeTable f.source
  let sink ← takeTable f.sink
  let barrier ← f.barrier.mapM takeTable
  let t ← Stage.ofQueryM (f.apply source sink barrier)
  giveTable (t.renamed f.name)
  Stage.ofWorldM (World.count fun p => { p with flow := p.flow + 1 })

/-- Makes the columns of these names the result. -/
def select (a : App) (names : List String) : StageM Unit := do
  prepare a
  let q ← Stage.query
  let t ← q.tables.onlyTable
  Stage.update fun q => { q with tables := .empty }
  let b ← Stage.ofWorldM World.bindings
  let result ← t.project b names
  Stage.update fun q => { q with result := some result }
  Stage.ofWorldM (World.count fun p => { p with select := p.select + 1 })

def handOver : StageM Query := do
  let q ← Stage.query
  Stage.put .empty
  return q

/-- Runs stages on a query and returns what it has become, whether they failed or not. -/
def run (q : Query) (m : StageM α) : WorldM (Except Error α × Query) := StateT.run m.run q

end Query

end CodeGraph
