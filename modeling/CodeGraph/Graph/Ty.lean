import CodeGraph.Graph.Ast

/-!
# Semantic types

A type is either a placeholder, which remembers the kind of node that no rule could type, or a name
together with how it was found. Types that carry anything else are left out.
-/

namespace CodeGraph

inductive Origin where
  | resolved
  | inferred
  | unknown
  deriving DecidableEq, Repr

def Origin.name : Origin → String
  | resolved => "resolved"
  | inferred => "inferred"
  | unknown => "unknown"

inductive Ty where
  | placeholder (identifier : String)
  /-- A type that a rule named, with the kind of node it was built from. -/
  | named (identifier name : String) (origin : Origin)
  deriving DecidableEq, Repr

namespace Ty

/-- The placeholder that remembers no kind. -/
def invalid : Ty := placeholder invalidIdentifier

def identifier : Ty → String
  | placeholder k => k
  | named k .. => k

def name : Ty → String
  | placeholder _ => "invalid"
  | named _ n _ => n

def origin : Ty → Origin
  | placeholder _ => .unknown
  | named _ _ o => o

def isSupported : Ty → Bool
  | placeholder _ => false
  | named .. => true

end Ty

end CodeGraph
