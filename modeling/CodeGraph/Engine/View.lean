import CodeGraph.Config.Options
import CodeGraph.Json.Decoder
import CodeGraph.Json.Writer

/-!
# Views of tables

A `TableView` is a table whose cells are texts. It is shown as a table of pipes or as JSON; a view
in JSON reads back as itself. Rows join a view through `pushRow`, which refuses a row of another
width than the headers.
-/

namespace CodeGraph

structure TableView where
  headers : List String
  rows : List (List String)
  deriving DecidableEq, Repr

namespace TableView

def ofHeaders (headers : List String) : TableView := ⟨headers, []⟩

def pushRow (v : TableView) (row : List String) : Except Error TableView :=
  if row.length = v.headers.length then .ok { v with rows := v.rows ++ [row] }
  else .error (.configuration
    ("row has " ++ toString row.length ++ " cells but the table has "
      ++ toString v.headers.length ++ " headers"))

def toJson (v : TableView) : Json :=
  .obj [
    ("headers", .ofList .str v.headers),
    ("rows", .ofList (.ofList .str) v.rows)]

def ofLiteral? : Decoder TableView := fun depth l => do
  let f ← RecordFields.ofLiteral? .json ["headers", "rows"] depth l
  let headers ← f.required "headers" (Decoder.list Decoder.string)
  let rows ← f.required "rows" (Decoder.list (Decoder.list Decoder.string))
  pure ⟨headers, rows⟩

def pipeLine (cells : List String) : String :=
  cells.foldl (fun s cell => s ++ " " ++ cell ++ " |") "|"

def markdown (v : TableView) : String :=
  "\n" ++ pipeLine v.headers ++ "\n" ++ pipeLine (v.headers.map fun _ => "---") ++ "\n"
    ++ String.join (v.rows.map fun row => pipeLine row ++ "\n")

def render (v : TableView) : OutputStyle → String
  | .markdown => v.markdown
  | .json => v.toJson.pretty
  | .jsonMin => v.toJson.compact

end TableView

end CodeGraph
