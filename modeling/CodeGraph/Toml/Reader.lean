import CodeGraph.Toml.Table

/-!
# Reading TOML

`Toml.parse?` reads a document of TOML 1.0 as one object literal, so that the decoders of records
serve both formats. Values nest at most `maxNesting` deep. Every step takes at least one character,
so the length of the text bounds the steps.
-/

namespace CodeGraph.Toml

def splitKey (ks : List String) : List String × String := (ks.dropLast, ks.getLastD "")

mutual

/-- Reads a value, inside so many others that `depth` more may be opened. -/
def value? (depth : Nat) : Nat → Reader Literal
  | 0, _ => none
  | steps + 1, cs =>
    match cs with
    | '[' :: cs =>
      match depth with
      | 0 => none
      | depth + 1 => items? depth [] steps (skipLines cs)
    | '{' :: cs =>
      match depth with
      | 0 => none
      | depth + 1 =>
        match skipSpace cs with
        | '}' :: rest => some (.obj [], rest)
        | cs => pairs? depth [] steps cs
    | c :: _ =>
      if c = '"' ∨ c = '\'' then (string? cs).map fun (s, rest) => (ofText s, rest)
      else word? cs
    | [] => none

def items? (depth : Nat) (done : List Literal) : Nat → Reader Literal
  | 0, _ => none
  | steps + 1, cs =>
    match cs with
    | ']' :: rest => some (.arr done.reverse, rest)
    | cs =>
      match value? depth steps cs with
      | none => none
      | some (v, rest) =>
        match skipLines rest with
        | ',' :: rest => items? depth (v :: done) steps (skipLines rest)
        | ']' :: rest => some (.arr (v :: done).reverse, rest)
        | _ => none

def pairs? (depth : Nat) (done : Entries) : Nat → Reader Literal
  | 0, _ => none
  | steps + 1, cs =>
    match key? cs with
    | some (ks, '=' :: cs) =>
      match value? depth steps (skipSpace cs) with
      | none => none
      | some (v, rest) =>
        let (path, k) := splitKey ks
        match addValue path k v done, skipSpace rest with
        | some done, ',' :: rest => pairs? depth done steps rest
        | some done, '}' :: rest => some (.obj (Item.toFields done), rest)
        | _, _ => none
    | _ => none

end

/-- A document so far: its tables, and the path of the table that the last header opened. -/
structure Document where
  root : Entries
  current : List String

def header? (row : Bool) (d : Document) (cs : List Char) : Option (Document × List Char) := do
  let (ks, rest) ← key? cs
  let (path, k) := splitKey ks
  let rest ←
    match row, rest with
    | false, ']' :: rest => some rest
    | true, ']' :: ']' :: rest => some rest
    | _, _ => none
  let rest ← endOfLine? rest
  let root ← if row then openRow path k d.root else openTable path k d.root
  pure (⟨root, ks⟩, rest)

def pair? (d : Document) (cs : List Char) : Option (Document × List Char) := do
  let (ks, rest) ← key? cs
  match rest with
  | '=' :: rest =>
    let (v, rest) ← value? maxNesting (cs.length + 1) (skipSpace rest)
    let rest ← endOfLine? rest
    let (path, k) := splitKey ks
    let root ← within d.current (addValue path k v) d.root
    pure ({ d with root }, rest)
  | _ => none

def statements? (d : Document) : Nat → List Char → Option Document
  | 0, _ => none
  | steps + 1, cs =>
    match skipSpace cs with
    | [] => some d
    | '[' :: '[' :: cs => (header? true d cs).bind fun (d, rest) => statements? d steps rest
    | '[' :: cs => (header? false d cs).bind fun (d, rest) => statements? d steps rest
    | cs =>
      match endOfLine? cs with
      | some rest => statements? d steps rest
      | none => (pair? d cs).bind fun (d, rest) => statements? d steps rest

def parse? (s : String) : Option Literal :=
  let cs :=
    match s.toList with
    | '\uFEFF' :: cs => cs
    | cs => cs
  (statements? ⟨[], []⟩ (cs.length + 1) cs).map fun d => .obj (Item.toFields d.root)

end CodeGraph.Toml
