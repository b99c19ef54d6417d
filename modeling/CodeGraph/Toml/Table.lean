import CodeGraph.Toml.Scalar

/-!
# Tables of TOML

A table grows statement by statement. A table that a header or a key with points only passes through
is implicit, and one that a key with points made is dotted: a header may still define an implicit
table that is not dotted, and a key with points may still add to a dotted one. Nothing is defined
twice.
-/

namespace CodeGraph.Toml

inductive Item where
  | value (v : Literal)
  | table (implicit dotted : Bool) (entries : List (String × Item))
  /-- An array of tables, the latest first. -/
  | tables (rows : List Item)

abbrev Entries := List (String × Item)

namespace Item

mutual

def toLiteral : Item → Literal
  | value v => v
  | table _ _ entries => .obj (toFields entries)
  | tables rows => .arr (toLiterals rows).reverse

def toLiterals : List Item → List Literal
  | [] => []
  | i :: is => toLiteral i :: toLiterals is

def toFields : List (String × Item) → List (List Nat × Literal)
  | [] => []
  | (k, i) :: es => (Text.unitsOf k, toLiteral i) :: toFields es

end

end Item

def put (k : String) (i : Item) : Entries → Entries
  | [] => [(k, i)]
  | e :: es => if e.1 = k then (k, i) :: es else e :: put k i es

/-- Changes the entries of the table at a path, made on the way if need be. `change` also learns
whether that table is dotted. A path is `dotted` if it is the front of a key with points. -/
def descend (dotted : Bool) (change : Bool → Entries → Option Entries) :
    List String → Bool → Entries → Option Entries
  | [], isDotted, es => change isDotted es
  | k :: ks, _, es => do
    let i ←
      match es.lookup k with
      | none => (descend dotted change ks dotted []).map (.table true dotted)
      | some (.value _) => none
      | some (.tables (.table a b sub :: rows)) =>
        (descend dotted change ks b sub).map fun sub => .tables (.table a b sub :: rows)
      | some (.tables _) => none
      | some (.table a b sub) =>
        if dotted && !a then none else (descend dotted change ks b sub).map (.table a b)
    pure (put k i es)

/-- Adds a value under a key with points, `path` being all of the key but its last part. -/
def addValue (path : List String) (k : String) (v : Literal) : Entries → Option Entries :=
  descend true (fun isDotted es =>
    if isDotted = path.isEmpty then none
    else if (es.lookup k).isSome then none
    else some (put k (.value v) es)) path false

def openTable (path : List String) (k : String) : Entries → Option Entries :=
  descend false (fun _ es =>
    match es.lookup k with
    | none => some (put k (.table false false []) es)
    | some (.table true false sub) => some (put k (.table false false sub) es)
    | some _ => none) path false

def openRow (path : List String) (k : String) : Entries → Option Entries :=
  descend false (fun _ es =>
    match es.lookup k with
    | none => some (put k (.tables [.table false false []]) es)
    | some (.tables rows) => some (put k (.tables (.table false false [] :: rows)) es)
    | some _ => none) path false

def within (current : List String) (change : Entries → Option Entries) :
    Entries → Option Entries :=
  descend false (fun _ es => change es) current false

end CodeGraph.Toml
