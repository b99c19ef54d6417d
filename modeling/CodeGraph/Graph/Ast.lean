import CodeGraph.Json.Basic

/-!
# Syntax trees

The syntax tree of a line of code comes as a document. A node names its kind in `_identifier`, or
in `_type` if it has none; its parts are the objects stored under other fields, alone or in arrays.
`child?` and `children` return each part with the proof that it is smaller than the node, which is
what recursion over a tree rests on.
-/

namespace CodeGraph

def invalidIdentifier : String := "__invalid__"

structure Ast where
  json : Json

namespace Ast

/-- The tree that takes the place of an unreadable one. -/
def invalid : Ast := ⟨.obj [("_identifier", .str invalidIdentifier)]⟩

def get? (a : Ast) (field : String) : Option Json := a.json.get? field

def str? (a : Ast) (field : String) : Option String := (a.get? field).bind Json.str?

/-- The kind of the node. A field `_identifier` decides even when it holds no string. -/
def identifier (a : Ast) : String :=
  (((a.get? "_identifier").or (a.get? "_type")).bind Json.str?).getD invalidIdentifier

/-- The trees strictly inside a tree. -/
def Part (a : Ast) : Type := { b : Ast // sizeOf b.json < sizeOf a.json }

def child? (a : Ast) (field : String) : Option a.Part :=
  match h : a.json.get? field with
  | some j => if j.isObject then some ⟨⟨j⟩, Json.sizeOf_lt_of_get? h⟩ else none
  | none => none

def children (a : Ast) (field : String) : List a.Part :=
  match h : a.json.get? field with
  | some (.arr items) =>
    items.attach.filterMap fun ⟨j, hj⟩ =>
      if j.isObject then
        some ⟨⟨j⟩, Nat.lt_trans (Json.sizeOf_lt_of_mem_items hj) (Json.sizeOf_lt_of_get? h)⟩
      else none
  | _ => []

end Ast

end CodeGraph
