import CodeGraph.Error
import CodeGraph.Dictionary

/-!
# Options

What an engine can be told: where its graph is, how many resolved vertices it keeps, how it shows
results and where it writes them, and what it logs. `DatabaseOptions.validate` refuses the settings
that no engine can run with.
-/

namespace CodeGraph

/-- The number of vertices to a page unless told otherwise. -/
def defaultBatchSize : Nat := 1000

structure GremlinOptions where
  host : String
  port : Nat
  /-- The number of vertices that a scan asks for at once. -/
  batchSize : Nat
  deriving DecidableEq, Repr

namespace GremlinOptions

def default : GremlinOptions := ⟨"localhost", 8182, defaultBatchSize⟩

def endpoint (o : GremlinOptions) : String :=
  "ws://" ++ o.host ++ ":" ++ toString o.port ++ "/gremlin"

end GremlinOptions

structure CacheOptions where
  /-- The number of vertices kept; all of them if there is no number. -/
  capacity : Option Nat
  deriving DecidableEq, Repr

structure DatabaseOptions where
  gremlin : GremlinOptions
  cache : CacheOptions
  deriving DecidableEq, Repr

namespace DatabaseOptions

def default : DatabaseOptions := ⟨.default, ⟨none⟩⟩

/-- Refuses pages without vertices and a registry without room. -/
def validate (o : DatabaseOptions) : Except Error Unit :=
  if o.gremlin.batchSize = 0 then
    .error (.configuration "gremlin.batchSize must be greater than zero")
  else if o.cache.capacity = some 0 then
    .error (.configuration "cache.capacity must be greater than zero")
  else .ok ()

end DatabaseOptions

inductive OutputStyle where
  | markdown
  | json
  | jsonMin
  deriving DecidableEq, Repr

namespace OutputStyle

def names : List (String × OutputStyle) :=
  [("markdown", markdown), ("json", json), ("json-min", jsonMin)]

def name : OutputStyle → String
  | markdown => "markdown"
  | json => "json"
  | jsonMin => "json-min"

def ofName (s : String) : Except Error OutputStyle :=
  match names.lookup s with
  | some style => .ok style
  | none => .error (.configuration ("unknown output style '" ++ s ++ "'"))

end OutputStyle

inductive FormatterKind where
  /-- A line about the query before its result. -/
  | plain
  | json
  | jsonMin
  /-- A JSON record in which a JSON result is nested as it is. -/
  | consoleJson
  deriving DecidableEq, Repr

namespace FormatterKind

def names : List (String × FormatterKind) :=
  [("default", plain), ("json", json), ("json-min", jsonMin), ("console-json", consoleJson)]

def name : FormatterKind → String
  | plain => "default"
  | json => "json"
  | jsonMin => "json-min"
  | consoleJson => "console-json"

end FormatterKind

inductive OutputTarget where
  | stdout
  | file (path : String)
  deriving DecidableEq, Repr

namespace OutputTarget

def ofText (s : String) : OutputTarget :=
  if s = "" ∨ s = "stdout" ∨ s = "-" then stdout else file s

def text : OutputTarget → String
  | stdout => "stdout"
  | file path => path

end OutputTarget

structure LoggingOptions where
  level : String
  targets : Dictionary String

namespace LoggingOptions

def default : LoggingOptions := ⟨"info", .empty⟩

/-- The options as one filter: the level, then each target with its own. -/
def directives (o : LoggingOptions) : String :=
  o.targets.entries.foldl (fun s (target, level) => s ++ "," ++ target ++ "=" ++ level) o.level

end LoggingOptions

structure EngineOptions where
  database : DatabaseOptions
  formatter : FormatterKind
  style : OutputStyle
  output : OutputTarget
  logging : LoggingOptions

namespace EngineOptions

def default : EngineOptions := ⟨.default, .plain, .json, .stdout, .default⟩

end EngineOptions

end CodeGraph
