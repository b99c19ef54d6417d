import CodeGraph.Engine.Record
import CodeGraph.Engine.Render
import CodeGraph.Query.Procedure
import CodeGraph.Text.FileName

/-!
# Engines

An engine runs queries one after another and writes a record of each. A query that fails does not
stop it: its error becomes the result. Only an output that cannot be written to stops it.

The time that a run takes is measured outside; the engine is told it in whole milliseconds and adds it up.
An output is a text that grows, or it is broken; how an operating system may fail is left out.
-/

namespace CodeGraph

structure Sink where
  written : String
  broken : Bool
  deriving DecidableEq, Repr

namespace Sink

def empty : Sink := ⟨"", false⟩

def writeLine (s : Sink) (line : String) : Except Error Sink :=
  if s.broken then .error (.io "broken output")
  else .ok { s with written := s.written ++ line ++ "\n" }

def create (name : String) : Except Error Sink :=
  if FileName.isReachable name then .ok empty else .error (.io ("no file " ++ name))

end Sink

structure Engine where
  style : OutputStyle
  formatter : FormatterKind
  sink : Sink
  executed : Nat
  total : Nat

/-- A step of an engine that may fail; what a failed step has changed stays changed. -/
abbrev EngineM := ExceptT Error (StateT Engine WorldM)

namespace Engine

def new (style : OutputStyle) (formatter : FormatterKind) (sink : Sink) : Engine :=
  ⟨style, formatter, sink, 0, 0⟩

/-- The most milliseconds that a record can give. -/
def clamp (milliseconds : Nat) : UInt64 := (min milliseconds (UInt64.size - 1)).toUInt64

def outcome (style : OutputStyle) (q : Queryable) : QueryM String := ExceptT.mk do
  let (ran, state) ← Query.empty.run q.body
  match ran with
  | .ok _ => (state.render style).run
  | .error e => return .error e

def resultOf (name : String) (milliseconds : Nat) : Except Error String → QueryResult
  | .ok text => ⟨name, text, clamp milliseconds, false⟩
  | .error e =>
    ⟨name, "Error executing query \"" ++ name ++ "\": " ++ e.message, clamp milliseconds, true⟩

def state : EngineM Engine := ExceptT.lift StateT.get

def put (e : Engine) : EngineM Unit := ExceptT.lift (StateT.set e)

def ofWorldM (m : WorldM α) : EngineM α := ExceptT.lift (StateT.lift m)

def execute (q : Queryable) (milliseconds : Nat) : EngineM QueryResult := do
  let e ← state
  let came ← ofWorldM (outcome e.style q).run
  if came.toOption.isNone then
    ofWorldM (World.onGraph (Context.notify .queryFailed))
  let result := resultOf q.name milliseconds came
  let e := { e with executed := e.executed + 1, total := e.total + milliseconds }
  put e
  let sink ← e.sink.writeLine (e.formatter.record result)
  put { e with sink }
  return result

/-- Runs queries in order, up to the first whose record cannot be written. -/
def submit (qs : List (Queryable × Nat)) : EngineM (List QueryResult) :=
  qs.mapM fun (q, milliseconds) => execute q milliseconds

def close : EngineM Unit := do
  let e ← state
  let sink ← e.sink.writeLine (e.formatter.totalTime (clamp e.total))
  put { e with sink }

end Engine

end CodeGraph
