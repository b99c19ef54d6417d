/-!
# Errors

Every failure a caller can see is a constructor of `Error`, named for its cause. `Error.kind`
sorts the causes into seven families, `Error.code` is the stable name of the family and
`Error.message` is the wording. Nothing else in the library writes an error text.
-/

namespace CodeGraph

inductive ErrorKind where
  | configuration
  | lookup
  | unsupportedOperation
  | structural
  | parse
  | fetch
  | io
  deriving DecidableEq, Repr

namespace ErrorKind

def name : ErrorKind → String
  | configuration => "Configuration"
  | lookup => "Lookup"
  | unsupportedOperation => "UnsupportedOperation"
  | structural => "Structural"
  | parse => "Parse"
  | fetch => "Fetch"
  | io => "Io"

/-- The stable name that logs and result records use. -/
def code (k : ErrorKind) : String := k.name ++ "Error"

end ErrorKind

inductive Error where
  | slotInUse (slot : String)
  | slotNotInUse (slot : String)
  | slotNotSet (slot : String)
  | configuration (reason : String)
  | notFound (kind name : String)
  /-- A value that no vertex owns yet was asked for its vertex. -/
  | unboundValue (identifier : String)
  | unsupported (operation : String)
  | duplicateName (kind name : String)
  /-- One entity of this kind was needed and another number was found. -/
  | notExactlyOne (kind : String) (found : Nat)
  | invalidStage (stage : String)
  | parse (reason : String)
  | fetch (reason : String)
  | io (reason : String)
  deriving DecidableEq, Repr

namespace Error

def kind : Error → ErrorKind
  | slotInUse _ | slotNotInUse _ | slotNotSet _ | configuration _ => .configuration
  | notFound .. | unboundValue _ => .lookup
  | unsupported _ => .unsupportedOperation
  | duplicateName .. | notExactlyOne .. | invalidStage _ => .structural
  | parse _ => .parse
  | fetch _ => .fetch
  | io _ => .io

def code (e : Error) : String := e.kind.code

def message : Error → String
  | slotInUse slot => slot ++ " context in use"
  | slotNotInUse slot => slot ++ " context not in use"
  | slotNotSet slot => slot ++ " context not set"
  | configuration reason => "configuration error: " ++ reason
  | notFound kind name => kind ++ " '" ++ name ++ "' not found"
  | unboundValue identifier => "value '" ++ identifier ++ "' is not bound to a vertex"
  | unsupported operation => "unsupported operation: " ++ operation
  | duplicateName kind name => "duplicate " ++ kind ++ " name '" ++ name ++ "'"
  | notExactlyOne kind found => "expected exactly one " ++ kind ++ ", found " ++ toString found
  | invalidStage stage => "'" ++ stage ++ "' is not allowed at this stage of the query"
  | parse reason => "parse error: " ++ reason
  | fetch reason => "fetch failed: " ++ reason
  | io reason => "I/O error: " ++ reason

end Error

end CodeGraph
