import CodeGraph.Decimal.Layout
import CodeGraph.Json.Basic

/-!
# Writing documents

`Json.compact` writes a document without spaces and `Json.pretty` with one item a line, four
spaces a level. Inside strings only the quote, the backslash and the control characters below
space are escaped; everything else stands for itself.
-/

namespace CodeGraph

def hexDigit (n : Nat) : Char := Nat.digitChar (n % 16)

namespace Json

def escape (c : Char) : List Char :=
  if c = '"' then ['\\', '"']
  else if c = '\\' then ['\\', '\\']
  else if c = '\x08' then ['\\', 'b']
  else if c = '\t' then ['\\', 't']
  else if c = '\n' then ['\\', 'n']
  else if c = '\x0c' then ['\\', 'f']
  else if c = '\r' then ['\\', 'r']
  else if c.toNat < 0x20 then ['\\', 'u', '0', '0', hexDigit (c.toNat / 16), hexDigit c.toNat]
  else [c]

def quote (s : String) : List Char := '"' :: (s.toList.flatMap escape ++ ['"'])

end Json

def Number.text : Number → List Char
  | natural n => Nat.toDigits 10 n.toNat
  | negative n => '-' :: Nat.toDigits 10 (n.val + 1)
  | float isNegative w => (if isNegative then ['-'] else []) ++ Decimal.floatText w

namespace Json

mutual

def compactChars : Json → List Char
  | null => ['n', 'u', 'l', 'l']
  | bool true => ['t', 'r', 'u', 'e']
  | bool false => ['f', 'a', 'l', 's', 'e']
  | num n => n.text
  | str s => quote s
  | arr items => '[' :: (compactItems true items ++ [']'])
  | obj fields => '{' :: (compactFields true fields ++ ['}'])

def compactItems (first : Bool) : List Json → List Char
  | [] => []
  | v :: vs => (if first then [] else [',']) ++ compactChars v ++ compactItems false vs

def compactFields (first : Bool) : List (String × Json) → List Char
  | [] => []
  | (k, v) :: fs =>
    (if first then [] else [',']) ++ quote k ++ ':' :: compactChars v ++ compactFields false fs

end

def newline (level : Nat) : List Char := '\n' :: List.replicate (4 * level) ' '

mutual

/-- The text of a document with one item a line, for a document that stands at `level`. -/
def prettyChars (level : Nat) : Json → List Char
  | null => ['n', 'u', 'l', 'l']
  | bool true => ['t', 'r', 'u', 'e']
  | bool false => ['f', 'a', 'l', 's', 'e']
  | num n => n.text
  | str s => quote s
  | arr [] => ['[', ']']
  | arr (v :: vs) => '[' :: (prettyItems (level + 1) true (v :: vs) ++ newline level ++ [']'])
  | obj [] => ['{', '}']
  | obj (f :: fs) => '{' :: (prettyFields (level + 1) true (f :: fs) ++ newline level ++ ['}'])

def prettyItems (level : Nat) (first : Bool) : List Json → List Char
  | [] => []
  | v :: vs =>
    (if first then [] else [',']) ++ newline level ++ prettyChars level v
      ++ prettyItems level false vs

def prettyFields (level : Nat) (first : Bool) : List (String × Json) → List Char
  | [] => []
  | (k, v) :: fs =>
    (if first then [] else [',']) ++ newline level ++ quote k ++ ':' :: ' ' :: prettyChars level v
      ++ prettyFields level false fs

end

def compact (j : Json) : String := String.ofList j.compactChars

def pretty (j : Json) : String := String.ofList (prettyChars 0 j)

end Json

end CodeGraph
