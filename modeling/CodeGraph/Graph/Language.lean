import CodeGraph.Graph.Value

/-!
# Languages

A `Language` says how the syntax trees of one source language become values. Its rules are tried in
order and the first whose kinds match decides, even when it then yields nothing: a placeholder takes
the place of the value. `Language.build` applies the rules to a tree and to the parts that the rules
ask for. A rule can ask only for parts strictly inside its tree, so building always ends.

A value rule is here a `Recipe`: it hands out a value that exists, or it makes one node over the values of
parts. Left out are rules that ask for trees which are not parts, that make several nodes, or that look at
the values they are given before they go on. `Factory` has these too, but contexts, scans and queries run
on a `Language`, so that what is proved of them is proved of languages with such recipes.

`Outline` is the rule that most languages need: it names the fields that hold the parts and the
fields that hold the name.
-/

namespace CodeGraph

inductive RuleTypes where
  | one (kind : String)
  | many (kinds : List String)
  | any
  deriving DecidableEq, Repr

namespace RuleTypes

def isFor : RuleTypes → String → Bool
  | one k, kind => k == kind
  | many ks, kind => ks.contains kind
  | any, _ => true

def ofPattern (pattern : String) : RuleTypes := if pattern = "*" then any else one pattern

end RuleTypes

/-- What a value rule does with a tree. It cannot ask for trees elsewhere, make more than one node, or look
at the values of the parts; rules that do are left to `Construction`. -/
inductive Recipe (a : Ast) where
  /-- Hands out an object that exists already. -/
  | existing (v : Value)
  /-- Builds a new node with this header over the values of these parts. -/
  | fresh (header : Header) (parts : List a.Part)

/-- A rule for values. It may ask for the types of any trees, and for values as its recipe says. -/
structure ValueRule where
  types : RuleTypes
  recipe : (Ast → Ty) → (a : Ast) → Option (Recipe a)

structure TypeRule where
  types : RuleTypes
  type : Ast → Option Ty

/-- The rules of a source language. -/
structure Language where
  name : String
  valueRules : List ValueRule
  typeRules : List TypeRule

namespace Language

def typeOf (l : Language) (a : Ast) : Ty :=
  ((l.typeRules.find? (·.types.isFor a.identifier)).bind (·.type a)).getD
    (.placeholder a.identifier)

def recipe? (l : Language) (a : Ast) : Option (Recipe a) :=
  (l.valueRules.find? (·.types.isFor a.identifier)).bind (·.recipe l.typeOf a)

/-- Builds the value of a tree, counting the objects that are built. -/
def build (l : Language) (a : Ast) : StateM Nat Value := do
  match l.recipe? a with
  | some (.existing v) => pure v
  | some (.fresh header parts) =>
    let children ← parts.mapM fun p => l.build p.1
    let serial ← getModify (· + 1)
    pure (.node (.built serial) header children)
  | none =>
    let serial ← getModify (· + 1)
    pure (.node (.built serial) (.stub a.identifier) [])
termination_by sizeOf a.json
decreasing_by exact p.2

end Language

/-- The outline of a node: where its parts and its name are found. -/
structure Outline where
  /-- A field without whose text there is no value. -/
  needs : Option String
  fields : List String
  lists : List String
  names : List String
  /-- The kind of the value, if it is not the kind of the tree. -/
  kind : Option String
  /-- The field whose part gives the type. -/
  typeField : Option String

namespace Outline

def recipe (o : Outline) (typeOf : Ast → Ty) (a : Ast) : Option (Recipe a) :=
  if o.needs.any fun f => (a.str? f).isNone then none
  else
    some (.fresh
      { Header.ofKind (o.kind.getD a.identifier) with
        name := o.names.findSome? a.str?
        type := ((o.typeField.bind a.child?).map fun p => typeOf p.1).getD .invalid }
      (o.fields.filterMap a.child? ++ o.lists.flatMap a.children))

end Outline

end CodeGraph
