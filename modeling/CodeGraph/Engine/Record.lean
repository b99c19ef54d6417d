import CodeGraph.Config.Options
import CodeGraph.Json.Literal
import CodeGraph.Json.Writer

/-!
# Records of queries

A `QueryResult` is what a query came to. `FormatterKind.record` is the text that is written for it
and `FormatterKind.totalTime` the text that is written at the end. The seconds of the plain record
are the milliseconds as a double, divided by a thousand, in the shortest digits that read back.
-/

namespace CodeGraph

structure QueryResult where
  name : String
  /-- The result table as text, or the error. -/
  result : String
  milliseconds : UInt64
  failed : Bool
  deriving DecidableEq, Repr

namespace QueryResult

/-- The seconds that a query took, as text. -/
def seconds (milliseconds : UInt64) : String :=
  let (num, den) := Binary.ratio (Binary.nearest milliseconds.toNat 1)
  String.ofList (Decimal.plainText (Binary.nearest num (den * 1000)))

def recordJson (r : QueryResult) (result : Json) : Json :=
  .obj [("name", .str r.name), ("result", result), ("milliseconds", .num (.natural r.milliseconds))]

/-- A text as the document it spells, or else as a string. -/
def nested (s : String) : Json := (Json.parse? s).getD (.str s)

end QueryResult

namespace FormatterKind

def record (k : FormatterKind) (r : QueryResult) : String :=
  match k with
  | plain =>
    "Query " ++ r.name ++ " executed in " ++ toString r.milliseconds.toNat ++ "ms ("
      ++ QueryResult.seconds r.milliseconds ++ "s)\n" ++ r.result ++ "\n"
  | json => (r.recordJson (.str r.result)).pretty
  | jsonMin => (r.recordJson (.str r.result)).compact
  | consoleJson => (r.recordJson (QueryResult.nested r.result)).pretty

def totalTime (k : FormatterKind) (milliseconds : UInt64) : String :=
  let total : Json := .obj [("total_milliseconds", .num (.natural milliseconds))]
  match k with
  | plain => "Total time: " ++ toString milliseconds.toNat ++ "ms"
  | json | consoleJson => total.pretty
  | jsonMin => total.compact

end FormatterKind

end CodeGraph
