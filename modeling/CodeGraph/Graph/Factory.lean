import CodeGraph.Graph.Language

/-!
# Factories

In general a rule is a program that may ask the factory of its language for the values and the types of any
trees, parts of its own tree or not, and that goes on according to the answers. A `Construction` is what
such a program does when it is given a tree. `Factory.Runs` says what it comes to: it counts the objects
that are built and lists the trees whose values are asked for, in order, those included that the rules of
these trees ask for. There need not be a run, as a rule may ask for the tree that it is given.

The rules of a `Language` are such programs (`Language.factory`). They ask only for parts of their trees,
which `Language.asked` lists, so that they can be run by recursion. Contexts run on languages and not on
factories.
-/

namespace CodeGraph

/-- What a rule does up to its next question, and then with each answer. -/
inductive Construction (α : Type) where
  | give (result : Option α)
  /-- Builds a new node. -/
  | node (header : Header) (children : List Value) (next : Value → Construction α)
  /-- Asks for the value of a tree. -/
  | value (a : Ast) (next : Value → Construction α)
  /-- Asks for the type of a tree. -/
  | type (a : Ast) (next : Ty → Construction α)

namespace Construction
variable {α : Type}

/-- Asks for the values of trees, one after the other. -/
def values : List Ast → (List Value → Construction α) → Construction α
  | [], next => next []
  | a :: as, next => value a fun v => values as fun vs => next (v :: vs)

end Construction

structure FactoryRule (α : Type) where
  types : RuleTypes
  construction : Ast → Construction α

namespace FactoryRule
variable {α : Type}

/-- What the first rule for a tree does. -/
def first (rules : List (FactoryRule α)) (a : Ast) : Construction α :=
  match rules.find? (·.types.isFor a.identifier) with
  | some rule => rule.construction a
  | none => .give none

end FactoryRule

structure Factory where
  valueRules : List (FactoryRule Value)
  typeRules : List (FactoryRule Ty)

namespace Factory
variable {α : Type}

/-- The value of a tree and the count after it: a placeholder is built if the rule gives no value. -/
def settle (a : Ast) : Option Value → Nat → Value × Nat
  | some v, n => (v, n)
  | none, n => (.node (.built n) (.stub a.identifier) [], n + 1)

/-- The run of a construction: from which count, the trees whose values are asked for, what is given, up to
which count. -/
inductive Runs (f : Factory) :
    {α : Type} → Construction α → Nat → List Ast → Option α → Nat → Prop
  | give {α : Type} (result : Option α) (n : Nat) : Runs f (.give result) n [] result n
  | node {α : Type} {header : Header} {children : List Value} {next : Value → Construction α} {n m : Nat}
      {asked : List Ast} {result : Option α}
      (hnext : Runs f (next (.node (.built n) header children)) (n + 1) asked result m) :
      Runs f (.node header children next) n asked result m
  | value {α : Type} {a : Ast} {next : Value → Construction α} {n k m : Nat} {asked asked' : List Ast}
      {given : Option Value} {result : Option α}
      (hrule : Runs f (FactoryRule.first f.valueRules a) n asked given k)
      (hnext : Runs f (next (settle a given k).1) (settle a given k).2 asked' result m) :
      Runs f (.value a next) n (a :: asked ++ asked') result m
  | type {α : Type} {a : Ast} {next : Ty → Construction α} {n k m : Nat} {asked asked' : List Ast}
      {given : Option Ty} {result : Option α}
      (hrule : Runs f (FactoryRule.first f.typeRules a) n asked given k)
      (hnext : Runs f (next (given.getD (.placeholder a.identifier))) k asked' result m) :
      Runs f (.type a next) n (asked ++ asked') result m

/-- The value that is built for a tree, and the trees whose values are asked for, the tree itself first. -/
def Builds (f : Factory) (a : Ast) (n : Nat) (asked : List Ast) (v : Value) (m : Nat) : Prop :=
  ∃ asked' given k, f.Runs (FactoryRule.first f.valueRules a) n asked' given k ∧
    asked = a :: asked' ∧ (v, m) = settle a given k

/-- Adds rules for values after those that are there. -/
def withLater (f : Factory) (later : List (FactoryRule Value)) : Factory :=
  { f with valueRules := f.valueRules ++ later }

end Factory

/-- What a rule of a language decided to build, as a program. -/
def Recipe.construction {a : Ast} : Option (Recipe a) → Construction Value
  | none => .give none
  | some (.existing v) => .give (some v)
  | some (.fresh header parts) =>
    .values (parts.map (·.1)) fun children => .node header children fun v => .give (some v)

def ValueRule.program (typeOf : Ast → Ty) (rule : ValueRule) : FactoryRule Value :=
  ⟨rule.types, fun a => Recipe.construction (rule.recipe typeOf a)⟩

def TypeRule.program (rule : TypeRule) : FactoryRule Ty := ⟨rule.types, fun a => .give (rule.type a)⟩

namespace Language

def factory (l : Language) : Factory :=
  ⟨l.valueRules.map (·.program l.typeOf), l.typeRules.map (·.program)⟩

/-- The trees whose values are asked for while the value of a tree is built, the tree itself first. -/
def asked (l : Language) (a : Ast) : List Ast :=
  match l.recipe? a with
  | some (.fresh _ parts) => a :: parts.flatMap fun p => l.asked p.1
  | _ => [a]
termination_by sizeOf a.json
decreasing_by exact p.2

/-- Adds rules for values after those that are there. -/
def withLater (l : Language) (later : List ValueRule) : Language :=
  { l with valueRules := l.valueRules ++ later }

end Language

end CodeGraph
