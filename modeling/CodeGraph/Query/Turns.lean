import CodeGraph.Query.Pipeline

/-!
# Work in turns

Several clients may use a world at the same time. What each has to do there is `Work`, and they take turns:
a turn is done at once, and after it any of them may take the next one. `interleave` follows a schedule that
says whose turn it is.

Scans and the stages of queries are given as work here. They do what they do in `Scan` and `Query`, but let
others take turns after every request, every count, every vertex and every other step
(`Work.Call.run_eq`). What happens in a turn is logged: that a store answers a scan, that a stage ends,
that someone looks at the counts.
-/

namespace CodeGraph

/-- A stage that is counted. -/
inductive StageKind where
  | filter
  | flow
  | select
  deriving DecidableEq, Repr

/-- One of the counts that are kept. -/
inductive Counter where
  | fetch
  | classify
  | filter
  | flow
  | select
  deriving DecidableEq, Repr

namespace Counter

def of : Counter → Profile → UInt64
  | fetch, p => p.fetch
  | classify, p => p.classify
  | filter, p => p.filter
  | flow, p => p.flow
  | select, p => p.select

def set (n : UInt64) : Counter → Profile → Profile
  | fetch, p => { p with fetch := n }
  | classify, p => { p with classify := n }
  | filter, p => { p with filter := n }
  | flow, p => { p with flow := n }
  | select, p => { p with select := n }

end Counter

inductive Occurrence where
  /-- A store answers a scan that asks for a page. -/
  | page (answer : Except Error (List Vertex))
  /-- A stage ends, and has succeeded or failed. -/
  | ended (kind : StageKind) (succeeded : Bool)
  /-- These counts have been seen, and each was set to zero if that was asked for. -/
  | snapshot (reset : Bool) (seen : Profile)

/-- A world, and what has happened in it so far. -/
structure Scene where
  world : World
  log : List Occurrence

/-- What is done in a world in turns. -/
inductive Work (α : Type) : Type 1 where
  | done (a : α)
  /-- A step that is done at once, what happens in it, and the work that is left after it. -/
  | turn {β : Type} (m : WorldM β) (happens : β → List Occurrence) (rest : β → Work α)

namespace Work
variable {α β : Type}

protected def bind : Work α → (α → Work β) → Work β
  | done a, f => f a
  | turn m happens rest, f => turn m happens fun b => (rest b).bind f

instance : Monad Work where
  pure := done
  bind := Work.bind

/-- All that is left of the work, without a turn of anyone else. -/
def run : Work α → Scene → α × Scene
  | done a, s => (a, s)
  | turn m happens rest, s =>
    let (b, world) := m.run s.world
    (rest b).run ⟨world, s.log ++ happens b⟩

/-- What the work does to a world when no one else takes a turn. -/
def alone : Work α → WorldM α
  | done a => pure a
  | turn m _ rest => m >>= fun b => (rest b).alone

/-- Lets clients take turns in the order of a schedule, and then each of them do what it has left. -/
def interleave (clients : List (Work Unit)) : List Nat → Scene → Scene
  | [], s => clients.foldl (fun s x => (x.run s).2) s
  | i :: schedule, s =>
    match clients[i]? with
    | some (turn m happens rest) =>
      let (b, world) := m.run s.world
      interleave (clients.set i (rest b)) schedule ⟨world, s.log ++ happens b⟩
    | some (done _) | none => interleave clients schedule s

/-! ### Single turns -/

def act (happens : α → List Occurrence) (m : WorldM α) : Work α := turn m happens done

/-- A step in which nothing happens that is logged. -/
def step (m : WorldM α) : Work α := act (fun _ => []) m

def tell (o : Occurrence) : Work Unit := act (fun _ => [o]) (pure ())

/-- Looks at a count, which may be set to zero by this. -/
def look (reset : Bool) (k : Counter) : Work UInt64 :=
  step (modifyGet fun w =>
    (k.of w.profile, if reset then { w with profile := k.set 0 w.profile } else w))

/-- Looks at the counts one after the other. -/
def snapshot (reset : Bool) : Work Profile := do
  let fetch ← look reset .fetch
  let classify ← look reset .classify
  let filter ← look reset .filter
  let flow ← look reset .flow
  let select ← look reset .select
  tell (.snapshot reset ⟨fetch, classify, filter, flow, select⟩)
  return ⟨fetch, classify, filter, flow, select⟩

/-- A request for a page, which gets this answer. -/
def page (offset : Nat) (answer : Except Error (List Vertex)) : Work Unit :=
  act (fun _ => [.page answer]) (World.record (.page offset (answer.toOption.map List.length)))

/-! ### Scans -/

def classifyPage (actions : List ScanAction) (columns : List DataColumn) (vs : List Vertex) :
    Work (List DataColumn) :=
  vs.foldlM (fun columns v => step (World.onGraph (Scan.classify actions columns v))) columns

def pages (s : GraphStore) (limit : Nat) (actions : List ScanAction) (columns : List DataColumn)
    (offset : Nat) : Work (List DataColumn) :=
  match h : s.vertices offset limit with
  | .error e => do
    page offset (.error e)
    step (World.onGraph (Context.notify .pageRejected))
    return columns
  | .ok vs => do
    page offset (.ok vs)
    step (World.count fun p => { p with fetch := p.fetch + 1 })
    if hp : vs = [] then return columns
    else
      have : offset < s.extent := Nat.lt_of_not_le fun hle => hp (s.ends offset limit vs hle h)
      have : 0 < vs.length := List.length_pos_iff.mpr hp
      let columns ← classifyPage actions columns vs
      step (World.count fun p => { p with classify := p.classify + vs.length.toUInt64 })
      pages s limit actions columns (offset + vs.length)
termination_by s.extent - offset

end Work

/-- Work that may fail. -/
abbrev Turns := ExceptT Error Work

/-- Work on a query in a world. -/
abbrev StageTurns := ExceptT Error (StateT Query Work)

namespace Work

def scan (a : App) (limit : Nat) (actions : List ScanAction) : Turns TableSet := do
  let columns ← pages a.store limit actions (actions.map fun x => .new x.name true) 0
  Scan.tablesOf columns

end Work

/-! ### Flows -/

/-- A flow whose algorithm works in turns. -/
structure FlowInTurns extends FlowAliases where
  find : Value → Column → Column → Column → FlowResult → Turns FlowResult

namespace Turns

def alone (m : Turns α) : QueryM α := ExceptT.mk m.run.alone

end Turns

namespace FlowInTurns

def flow (f : FlowInTurns) : Flow :=
  ⟨f.toFlowAliases, fun v source sink barrier r => (f.find v source sink barrier r).alone⟩

def addFindings (f : FlowInTurns) (source sink barrier : Column) (r : FlowResult) (cell : Cell Ref) :
    Turns FlowResult :=
  match cell.value? with
  | none => return r
  | some v => f.find v source sink barrier r

def apply (f : FlowInTurns) (source sink : Table) (barrier : Option Table) : Turns Table := do
  let source ← source.onlyColumn
  let sink ← sink.onlyColumn
  let barrier ←
    match barrier with
    | some t => t.onlyColumn
    | none => pure Flow.noBarrier
  let b ← (Work.step World.bindings : Work Bindings)
  let r ← FlowResult.new b f.toFlowAliases
  let r ← (← source.cells).toList.foldlM (f.addFindings source sink barrier) r
  return r.table

end FlowInTurns

/-- The flow with each of its searches done in one turn. -/
def Flow.inTurns (f : Flow) : FlowInTurns :=
  ⟨f.toFlowAliases, fun v source sink barrier r =>
    ExceptT.mk (Work.step (f.algorithm v source sink barrier r).run)⟩

/-! ### Stages -/

namespace StageTurns

def alone (m : StageTurns α) : StageM α := ExceptT.mk fun q => (m.run.run q).alone

/-- A step of a stage that is done at once. -/
def step (m : StageM α) : StageTurns α := ExceptT.mk fun q => .step (m.run.run q)

def ofTurns (m : Turns α) : StageTurns α := ExceptT.mk (StateT.lift m.run)

end StageTurns

namespace Work
open StageTurns (ofTurns)

def prepare (a : App) : StageTurns Unit := do
  let q ← StageTurns.step Stage.query
  if q.prepared then return
  let scanned ←
    if q.actions.isEmpty then pure TableSet.empty
    else ofTurns (scan a a.batchSize q.actions)
  StageTurns.step (Stage.update fun q => { q with pending := .empty })
  let tables ← scanned.merge q.pending
  let tables ← q.tables.merge tables
  StageTurns.step (Stage.update fun q => { q with tables, prepared := true })

def filter (a : App) (f : Filter) : StageTurns Unit := do
  prepare a
  let t ← StageTurns.step (Query.takeTable f.name)
  let t ← StageTurns.step (Stage.ofQueryM (World.resolving (f.apply t)))
  StageTurns.step (Query.giveTable t)
  StageTurns.step (Stage.ofWorldM (World.count fun p => { p with filter := p.filter + 1 }))

def flow (a : App) (f : FlowInTurns) : StageTurns Unit := do
  prepare a
  StageTurns.step (Query.requireTable f.source)
  StageTurns.step (Query.requireTable f.sink)
  StageTurns.step (f.barrier.forM Query.requireTable)
  let source ← StageTurns.step (Query.takeTable f.source)
  let sink ← StageTurns.step (Query.takeTable f.sink)
  let barrier ← StageTurns.step (f.barrier.mapM Query.takeTable)
  let t ← ofTurns (f.apply source sink barrier)
  StageTurns.step (Query.giveTable (t.renamed f.name))
  StageTurns.step (Stage.ofWorldM (World.count fun p => { p with flow := p.flow + 1 }))

def select (a : App) (names : List String) : StageTurns Unit := do
  prepare a
  let q ← StageTurns.step Stage.query
  let t ← q.tables.onlyTable
  StageTurns.step (Stage.update fun q => { q with tables := .empty })
  let b ← StageTurns.step (Stage.ofWorldM World.bindings)
  let result ← t.project b names
  StageTurns.step (Stage.update fun q => { q with result := some result })
  StageTurns.step (Stage.ofWorldM (World.count fun p => { p with select := p.select + 1 }))

/-- A call of a stage that is counted. -/
inductive Call where
  | filter (f : Filter)
  | flow (f : FlowInTurns)
  | select (names : List String)

namespace Call

def kind : Call → StageKind
  | filter _ => .filter
  | flow _ => .flow
  | select _ => .select

/-- What the call does when it is done at once. -/
def stage (a : App) : Call → StageM Unit
  | filter f => Query.filter a f
  | flow f => Query.flow a f.flow
  | select names => Query.select a names

def turns (a : App) : Call → StageTurns Unit
  | filter f => Work.filter a f
  | flow f => Work.flow a f
  | select names => Work.select a names

/-- Calls the stage on a query and returns what it has become, whether the stage failed or not. -/
def run (a : App) (c : Call) (q : Query) : Work (Except Error Unit × Query) := do
  let (outcome, q) ← (c.turns a).run.run q
  tell (.ended c.kind outcome.isOk)
  return (outcome, q)

end Call

end Work

/-- The step leaves the counts as they are. -/
def World.LeavesCounts (m : WorldM α) : Prop := ∀ w, (m.run w).2.profile = w.profile

namespace Work

/-- The work of a client: it scans, calls stages and looks at the counts, and whatever else it does leaves
the counts as they are. -/
inductive Client : {α : Type} → Work α → Prop where
  | done {α : Type} (a : α) : Client (.done a)
  | bind {α β : Type} {x : Work α} {f : α → Work β} (hx : Client x) (hf : ∀ a, Client (f a)) :
    Client (x >>= f)
  | step {α : Type} (m : WorldM α) (h : World.LeavesCounts m) : Client (.step m)
  | snapshot (reset : Bool) : Client (.snapshot reset)
  | scan (a : App) (limit : Nat) (actions : List ScanAction) : Client (scan a limit actions).run
  | call (a : App) (c : Call) (q : Query)
    (h : ∀ f, c = .flow f → ∀ v source sink barrier r, Client (f.find v source sink barrier r).run) :
    Client (c.run a q)

end Work

end CodeGraph
