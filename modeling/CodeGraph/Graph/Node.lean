import CodeGraph.Graph.Ast
import CodeGraph.Graph.Vertex
import CodeGraph.Text.Blank

/-!
# Graph nodes

A `GraphNode` is a vertex with its properties decoded: a line of code or a source file. `text` is
what a result table shows for it and `location` what a path shows.
-/

namespace CodeGraph

def snippetLimit : Nat := 50

/-- The line number that a text gives, surrounded by any blanks and perhaps marked positive. A text
that gives none, or one beyond 32 bits, counts as line 0. -/
def lineNumber (s : String) : Nat :=
  let cs := Text.trimChars s.toList
  let digits :=
    match cs with
    | '+' :: ds => ds
    | ds => ds
  if !digits.isEmpty && digits.all Char.isDigit && digitsValue digits < UInt32.size then
    digitsValue digits
  else 0

structure CodeLine where
  line : Nat
  code : String
  file : String
  ast : Ast
  function : Option String

inductive GraphNode where
  | code (vertex : Vertex) (line : CodeLine)
  | file (vertex : Vertex) (path : String)

namespace GraphNode

def vertex : GraphNode → Vertex
  | code v _ => v
  | file v _ => v

def id (n : GraphNode) : VertexId := n.vertex.id

def code? : GraphNode → Option CodeLine
  | code _ l => some l
  | file .. => none

def path : GraphNode → String
  | code _ l => l.file
  | file _ p => p

def location : GraphNode → String
  | code _ l => toString l.line
  | file _ p => p

/-- Code without the blanks around it, cut after `snippetLimit` characters. -/
def snippet (code : String) : String :=
  let cs := Text.trimChars code.toList
  if cs.length > snippetLimit then String.ofList (cs.take snippetLimit) ++ "..."
  else String.ofList cs

def text : GraphNode → String
  | code _ l => "(" ++ l.file ++ ":" ++ toString l.line ++ ") " ++ snippet l.code
  | file _ p => "(" ++ p ++ ")"

end GraphNode

end CodeGraph
