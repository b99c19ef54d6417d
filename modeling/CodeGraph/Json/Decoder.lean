import CodeGraph.Json.Literal

/-!
# Decoding records

A `Decoder` reads a value of a type from a literal. Records are objects whose unknown fields are
skipped unread; a known field that comes twice is refused, and so is a missing one unless it has a
default. A record may also be written as the array of its fields in the order of their names, where
fields at the end may be left out if they have defaults.

Formats differ in two details, which a `Dialect` states. Nothing here says why a literal was refused:
callers report only that it was.
-/

namespace CodeGraph

structure Dialect where
  /-- What may stand under the only key of an object that names a choice. -/
  marksChoice : Literal → Bool
  /-- Whether an array in place of a record may have more items than the record has fields. -/
  allowsMore : Bool

namespace Dialect

/-- In JSON a choice is marked by `null`, and an array has no more items than there are fields. -/
def json : Dialect where
  marksChoice
    | .null => true
    | _ => false
  allowsMore := false

end Dialect

/-- Reads a literal at which so many brackets may still be opened. -/
abbrev Decoder (α : Type) := Nat → Literal → Option α

namespace Decoder

def json : Decoder Json := fun depth l => l.toJson? depth

def string : Decoder String
  | _, .str us => Text.ofUnits? us
  | _, _ => none

def natural (limit : Nat) : Decoder Nat := fun _ l =>
  match l.number? with
  | some (.natural w) => if w.toNat ≤ limit then some w.toNat else none
  | _ => none

def word64 : Decoder UInt64 := fun _ l =>
  match l.number? with
  | some (.natural w) => some w
  | _ => none

def option (d : Decoder α) : Decoder (Option α)
  | _, .null => some none
  | depth, l => (d depth l).map some

def list (d : Decoder α) : Decoder (List α)
  | depth + 1, .arr items => items.mapM (d depth)
  | _, _ => none

/-- The entries of an object; of two with one key the later stays. -/
def dictionary (d : Decoder α) : Decoder (Dictionary α)
  | depth + 1, .obj fields =>
    (fields.mapM fun (us, l) => do
      let k ← Text.ofUnits? us
      let v ← d depth l
      pure (k, v)).map Dictionary.ofList
  | _, _ => none

/-- One of several names, as a string or as the only key of an object. -/
def choice (dialect : Dialect) (names : List (String × α)) : Decoder α
  | _, .str us => (Text.ofUnits? us).bind fun k => names.lookup k
  | _ + 1, .obj [(us, l)] =>
    if dialect.marksChoice l then (Text.ofUnits? us).bind fun k => names.lookup k else none
  | _, _ => none

end Decoder

/-- The fields that a record was given, and how many brackets may be opened inside them. -/
structure RecordFields where
  depth : Nat
  given : List (String × Literal)

namespace RecordFields

def collect (names : List String) (given : List (String × Literal)) :
    List (List Nat × Literal) → Option (List (String × Literal))
  | [] => some given
  | (us, l) :: rest =>
    match Text.ofUnits? us with
    | none => none
    | some k =>
      if names.contains k then
        if (given.lookup k).isSome then none else collect names ((k, l) :: given) rest
      else collect names given rest

def ofLiteral? (dialect : Dialect) (names : List String) : Decoder RecordFields
  | depth + 1, .obj fields => (collect names [] fields).map (⟨depth, ·⟩)
  | depth + 1, .arr items =>
    if dialect.allowsMore || items.length ≤ names.length then some ⟨depth, names.zip items⟩ else none
  | _, _ => none

def required (f : RecordFields) (name : String) (d : Decoder α) : Option α :=
  (f.given.lookup name).bind (d f.depth)

def optional (f : RecordFields) (name : String) (d : Decoder α) (default : α) : Option α :=
  match f.given.lookup name with
  | none => some default
  | some l => d f.depth l

end RecordFields

def Decoder.parse? (d : Decoder α) (s : String) : Option α :=
  (Literal.ofString? s).bind (d maxDepth)

def Decoder.ofJson? (d : Decoder α) (j : Json) : Option α := d maxDepth (.ofJson j)

end CodeGraph
