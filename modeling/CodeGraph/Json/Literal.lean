import CodeGraph.Json.Token

/-!
# Literals

A `Literal` is a document as it is spelled: numbers are not evaluated, strings are not joined, and
an object keeps every field, repeated ones too. Records are decoded from literals, since they judge
repeated fields and skip what they do not know. `Literal.toJson?` evaluates a literal to a
document, and `Literal.ofJson` is the literal of a document, whose numbers need no spelling.

`Literal.ofTokens?` is a machine over tokens with a stack of open brackets, so nothing bounds the
nesting here. The bound is applied by whoever evaluates: `maxDepth` levels of brackets may be open
at once.
-/

namespace CodeGraph

def maxDepth : Nat := 127

inductive Literal where
  | null
  | bool (b : Bool)
  | num (n : Numeral)
  /-- A number that is known without a spelling. -/
  | number (n : Number)
  | str (units : List Nat)
  | arr (items : List Literal)
  | obj (fields : List (List Nat × Literal))
  deriving Repr

namespace Literal

/-- An open bracket with what is complete inside it, latest first. -/
inductive Frame where
  | array (items : List Literal)
  | object (fields : List (List Nat × Literal)) (key : List Nat)

inductive Expect where
  | value (stack : List Frame)
  | first (stack : List Frame)
  | key (mayClose : Bool) (fields : List (List Nat × Literal)) (stack : List Frame)
  | colon (fields : List (List Nat × Literal)) (key : List Nat) (stack : List Frame)
  | after (done : Literal) (stack : List Frame)

def begin? (stack : List Frame) : Token → Option Expect
  | .null => some (.after null stack)
  | .bool b => some (.after (bool b) stack)
  | .numeral n => some (.after (num n) stack)
  | .text us => some (.after (str us) stack)
  | .openArray => some (.first stack)
  | .openObject => some (.key true [] stack)
  | _ => none

def step (e : Expect) (t : Token) : Option Expect :=
  match e, t with
  | .value stack, t => begin? stack t
  | .first stack, .closeArray => some (.after (arr []) stack)
  | .first stack, t => begin? (.array [] :: stack) t
  | .key _ fields stack, .text us => some (.colon fields us stack)
  | .key true _ stack, .closeObject => some (.after (obj []) stack)
  | .colon fields us stack, .colon => some (.value (.object fields us :: stack))
  | .after v (.array items :: stack), .comma => some (.value (.array (v :: items) :: stack))
  | .after v (.array items :: stack), .closeArray =>
    some (.after (arr (v :: items).reverse) stack)
  | .after v (.object fields us :: stack), .comma => some (.key false ((us, v) :: fields) stack)
  | .after v (.object fields us :: stack), .closeObject =>
    some (.after (obj ((us, v) :: fields).reverse) stack)
  | _, _ => none

def ofTokens? (ts : List Token) : Option Literal :=
  match ts.foldlM step (.value []) with
  | some (.after v []) => some v
  | _ => none

def ofString? (s : String) : Option Literal := (Token.ofChars? s.toList).bind ofTokens?

def number? : Literal → Option Number
  | num n => n.value?
  | number n => some n
  | _ => none

mutual

/-- The document meant, if at most `depth` brackets are open at once, every number is in range and
every string is whole. -/
def toJson? (depth : Nat) : Literal → Option Json
  | null => some .null
  | bool b => some (.bool b)
  | num n => n.value?.map .num
  | number n => some (.num n)
  | str us => (Text.ofUnits? us).map .str
  | arr items =>
    match depth with
    | 0 => none
    | d + 1 => (toItems? d items).map .arr
  | obj fields =>
    match depth with
    | 0 => none
    | d + 1 => (toFields? d fields).map .object

def toItems? (depth : Nat) : List Literal → Option (List Json)
  | [] => some []
  | v :: vs =>
    match toJson? depth v with
    | none => none
    | some j => (toItems? depth vs).map (j :: ·)

def toFields? (depth : Nat) : List (List Nat × Literal) → Option (List (String × Json))
  | [] => some []
  | (us, v) :: fs =>
    match Text.ofUnits? us, toJson? depth v with
    | some k, some j => (toFields? depth fs).map ((k, j) :: ·)
    | _, _ => none

end

mutual

def ofJson : Json → Literal
  | .null => null
  | .bool b => bool b
  | .num n => number n
  | .str s => str (Text.unitsOf s)
  | .arr items => arr (ofItems items)
  | .obj fields => obj (ofFields fields)

def ofItems : List Json → List Literal
  | [] => []
  | j :: js => ofJson j :: ofItems js

def ofFields : List (String × Json) → List (List Nat × Literal)
  | [] => []
  | (k, j) :: fs => (Text.unitsOf k, ofJson j) :: ofFields fs

end

end Literal

def Json.parse? (s : String) : Option Json := (Literal.ofString? s).bind (·.toJson? maxDepth)

end CodeGraph
