import CodeGraph.Config.Options
import CodeGraph.Query.Basic
import CodeGraph.Query.Slot
import CodeGraph.Store.Basic

/-!
# The world of a query

An `App` is what does not change while queries run: the options and the store. A `World` is what
does: the context, the requests made to the store, the counts of the work done, the slots, and the
notes that query bodies leave for their caller. `QueryM` is a step on a world that may fail, and
`StageM` a step on a query in a world; what a failed step has changed stays changed.

Of the profile only the counts are kept, and always: the time that steps take and the switch that turns
profiling on are left out. A step runs to its end, and a query that is given up half-way is left out too.
The counts belong to a world, and made-up aliases come one after the other from a fixed sequence.
-/

namespace CodeGraph

/-- What queries run against. -/
structure App where
  options : DatabaseOptions
  store : GraphStore

namespace App

def new (options : DatabaseOptions) (store : GraphStore) : Except Error App := do
  options.validate
  return ⟨options, store⟩

def batchSize (a : App) : Nat := a.options.gremlin.batchSize

end App

structure Profile where
  /-- Pages that the store did not reject. -/
  fetch : UInt64
  /-- Vertices on those pages. -/
  classify : UInt64
  filter : UInt64
  flow : UInt64
  select : UInt64
  deriving DecidableEq, Repr

namespace Profile

def zero : Profile := ⟨0, 0, 0, 0, 0⟩

def counts (p : Profile) : List UInt64 := [p.fetch, p.classify, p.filter, p.flow, p.select]

end Profile

/-- What changes while queries run. -/
structure World where
  graph : Context
  requests : Array Request
  profile : Profile
  slots : QueryContext Query
  notes : Array Json
  madeUp : Nat

abbrev WorldM := StateM World

/-- A step on a world that may fail. -/
abbrev QueryM := ExceptT Error WorldM

abbrev StageM := ExceptT Error (StateT Query WorldM)

namespace World

def new (a : App) (l : Language) : World :=
  ⟨.new l a.options.cache.capacity, #[], .zero, .free, #[], 0⟩

def onGraph (m : StateM Context α) : WorldM α :=
  modifyGet fun w =>
    let (a, graph) := m w.graph
    (a, { w with graph })

def resolving (m : Resolving α) : QueryM α := ExceptT.mk (onGraph m.run)

def bindings : WorldM Bindings := fun w => (w.graph.bindings, w)

def isRegistered (id : VertexId) : QueryM Bool :=
  ExceptT.lift fun w => (w.graph.registry.contains id, w)

def valueOf? (k : NodeKey) : QueryM (Option Value) := ExceptT.lift (onGraph (Context.valueOf? k))

def member (c : Column) (cell : Cell Ref) : QueryM Bool := ExceptT.lift (onGraph (c.contains cell))

def record (r : Request) : WorldM Unit :=
  modify fun w => { w with requests := w.requests.push r }

def count (f : Profile → Profile) : WorldM Unit :=
  modify fun w => { w with profile := f w.profile }

/-- The counts, which may be set to zero by this. -/
def snapshot (reset : Bool) : WorldM Profile :=
  modifyGet fun w => (w.profile, if reset then { w with profile := .zero } else w)

def note (j : Json) : WorldM Unit := modify fun w => { w with notes := w.notes.push j }

def aliasChars : List Char :=
  "0123456789ABCDEFGHIJKLMNOPQRSTUVWXYZabcdefghijklmnopqrstuvwxyz".toList

def aliasDigits : Nat → Nat → List Char
  | 0, _ => []
  | places + 1, n => aliasDigits places (n / 62) ++ [aliasChars.getD (n % 62) '0']

/-- The first alias that is made up, as a number. It looks like no name that someone would choose. -/
def aliasStart : Nat := 31415926535897

/-- The distance from one made-up alias to the next. It has no factor in common with 62, so all
numbers of eight digits come before one comes again. -/
def aliasStride : Nat := 97539106134923

def freshAlias : WorldM String :=
  modifyGet fun w =>
    (String.ofList (aliasDigits 8 (aliasStart + aliasStride * w.madeUp)),
      { w with madeUp := w.madeUp + 1 })

def outEdges (a : App) (id : VertexId) (label : Option String) : QueryM (List Edge) := do
  record (.edges id label)
  a.store.outEdges id label

def vertex (a : App) (id : VertexId) : QueryM (Option Vertex) := do
  record (.vertex id)
  a.store.vertex id

def page (a : App) (offset limit : Nat) : QueryM (List Vertex) := do
  let page := a.store.vertices offset limit
  record (.page offset (page.toOption.map List.length))
  page

end World

end CodeGraph
