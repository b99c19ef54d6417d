import CodeGraph.Error
import CodeGraph.Graph.Language
import CodeGraph.Graph.Registry

/-!
# Contexts

A `Context` is the state that resolving vertices works on: the language, the bindings of the values
built so far, the registry, and the registrations that are staged. A staged registration is visible
to lookups although the registry does not keep it; an entry of the registry hides it. Staging is by
vertex, so taking back any stage of a vertex takes back all of them.

`resolve` turns a vertex into a node and a value and binds every node of the value to the vertex.
It fails for labels other than `code` and `file` and for code without a syntax tree. An unreadable
tree is no failure: a placeholder takes its place and a notice is left. Notices are the warnings and errors
of a log, without their fields; what is logged for tracing only is left out.
-/

namespace CodeGraph

/-- What is worth telling someone who watches a query run. -/
inductive Notice where
  | astUnreadable
  | pageRejected
  | vertexSkipped
  | nodeMissing
  | queryFailed
  deriving DecidableEq, Repr

def Notice.name : Notice → String
  | astUnreadable => "context.ast.parse_failed"
  | pageRejected => "scan.page.rejected"
  | vertexSkipped => "scan.vertex.skipped"
  | nodeMissing => "render.node.missing"
  | queryFailed => "engine.query.failed"

inductive CachePolicy where
  | store
  | bypass
  deriving DecidableEq, Repr

/-- What a registration is looked up by. -/
inductive NodeKey where
  | vertex (v : Vertex)
  | id (id : VertexId)
  | node (n : GraphNode)
  | value (v : Value)

/-- The state of resolving vertices. -/
structure Context where
  language : Language
  bindings : Bindings
  registry : Registry
  staged : Std.HashMap VertexId Registration
  notices : Array Notice

/-- A step on a context that may fail; what it has changed stays changed. -/
abbrev Resolving := ExceptT Error (StateM Context)

namespace Context

def new (language : Language) (capacity : Option Nat) : Context :=
  ⟨language, .empty, .ofCapacity capacity, ∅, #[]⟩

def notify (n : Notice) : StateM Context Unit :=
  modify fun c => { c with notices := c.notices.push n }

def buildValue (a : Ast) : StateM Context Value :=
  modifyGet fun c =>
    let (v, serial) := c.language.build a c.bindings.serial
    (v, { c with bindings := { c.bindings with serial } })

def buildStub (identifier : String) : StateM Context Value :=
  modifyGet fun c =>
    (.node (.built c.bindings.serial) (.stub identifier) [],
      { c with bindings := { c.bindings with serial := c.bindings.serial + 1 } })

/-- The registration of a vertex, which is used by this. -/
def cached? (id : VertexId) : StateM Context (Option Registration) :=
  modifyGet fun c =>
    let (found, registry) := c.registry.touch? id
    (found, { c with registry })

/-- Registers a resolved vertex and returns the registration that is kept for it. -/
def register (r : Registration) : StateM Context Registration :=
  modifyGet fun c =>
    let (kept, registry) := c.registry.register r
    (kept, { c with registry })

/-- Makes a registration visible without keeping it. -/
def stage (r : Registration) : StateM Context Unit :=
  modify fun c => { c with staged := c.staged.insert r.id r }

def unstage (id : VertexId) : StateM Context Unit :=
  modify fun c => { c with staged := c.staged.erase id }

def clear : StateM Context Unit := modify fun c => { c with registry := c.registry.clear }

/-- The syntax tree that a property holds: an object as it is, or a string that spells one. -/
def readTree? : Json → Option Json
  | .str s => Json.parse? s
  | j => if j.isObject then some j else none

def buildTree (raw : Json) : StateM Context (Ast × Value) :=
  match readTree? raw with
  | some j => do return (⟨j⟩, ← buildValue ⟨j⟩)
  | none => do
    notify .astUnreadable
    return (.invalid, ← buildStub invalidIdentifier)

def buildCode (v : Vertex) : Resolving Registration :=
  match v.property? "json" with
  | none => throw (.parse ("code vertex " ++ v.id.text ++ " has no json property"))
  | some raw => do
    let (ast, value) ← buildTree raw
    let line : CodeLine := {
      line := ((v.propertyText? "lineno").map lineNumber).getD 0
      code := (v.propertyText? "code").getD ""
      file := (v.propertyText? "file").getD ""
      ast
      function := v.propertyText? "functionDefName" }
    return ⟨.code v line, value⟩

def buildFile (v : Vertex) : Resolving Registration := do
  return ⟨.file v ((v.propertyText? "file").getD ""), ← buildStub fileLabel⟩

def buildVertex (v : Vertex) : Resolving Registration :=
  if v.label = codeLabel then buildCode v
  else if v.label = fileLabel then buildFile v
  else throw (.configuration
    ("unsupported vertex label '" ++ v.label ++ "' on vertex " ++ v.id.text))

def bindAll (id : VertexId) (v : Value) : StateM Context Unit :=
  modify fun c => { c with bindings := c.bindings.bindAll id v }

/-- Turns a vertex into a node and a value that belongs to it. -/
def resolve (v : Vertex) (policy : CachePolicy) : Resolving Registration := do
  let built ← buildVertex v
  bindAll v.id built.value
  match policy with
  | .store => register built
  | .bypass => return built

/-- The registration of a vertex that is registered or staged. -/
def known (id : VertexId) : Resolving Registration := do
  if let some found ← cached? id then return found
  match (← get).staged[id]? with
  | some staged => return staged
  | none => throw (.notFound "node" id.text)

def vertexOf (v : Value) : Resolving VertexId := do
  match (← get).bindings.vertex? v with
  | some id => return id
  | none => throw (.unboundValue v.identifier)

def lookup : NodeKey → Resolving Registration
  | .vertex v => do
    match ← cached? v.id with
    | some found => return found
    | none => resolve v .store
  | .id id => known id
  | .node n => known n.id
  | .value v => do known (← vertexOf v)

def valueOf (k : NodeKey) : Resolving Value := do return (← lookup k).value

def nodeOf (k : NodeKey) : Resolving GraphNode := do return (← lookup k).node

def valueOf? (k : NodeKey) : StateM Context (Option Value) := do
  match ← (valueOf k).run with
  | .ok v => return some v
  | .error _ => return none

def nodeOf? (k : NodeKey) : StateM Context (Option GraphNode) := do
  match ← (nodeOf k).run with
  | .ok n => return some n
  | .error _ => return none

end Context

end CodeGraph
