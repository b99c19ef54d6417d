import CodeGraph.Json.Token

/-!
# Strings, comments and keys of TOML

The parts of a TOML document that are read character by character: space, comments, the four kinds
of string, and keys. A reader takes the characters that are left and returns what it read with the
characters after it. A line break inside a string is one line feed, however it was spelled.
-/

namespace CodeGraph.Toml

abbrev Reader (α : Type) := List Char → Option (α × List Char)

def isSpace (c : Char) : Bool := c = ' ' || c = '\t'

def skipSpace (cs : List Char) : List Char := cs.dropWhile isSpace

/-- Whether a character may stand in a comment or, quotes and backslashes apart, in a string. -/
def isPrintable (c : Char) : Bool := c = '\t' || (0x20 ≤ c.toNat && c.toNat ≠ 0x7F)

def newline? : List Char → Option (List Char)
  | '\n' :: cs => some cs
  | '\r' :: '\n' :: cs => some cs
  | _ => none

def skipComment : List Char → List Char
  | '#' :: cs => cs.dropWhile isPrintable
  | cs => cs

/-- A text after the rest of a line: space, perhaps a comment, and the line break or the end. -/
def endOfLine? (cs : List Char) : Option (List Char) :=
  match skipComment (skipSpace cs) with
  | [] => some []
  | rest => newline? rest

def skipLines : List Char → List Char := go false
where
  go (comment : Bool) : List Char → List Char
    | [] => []
    | '\r' :: '\n' :: cs => go false cs
    | c :: cs =>
      if c = '\n' then go false cs
      else if comment then if isPrintable c then go true cs else c :: cs
      else if c = '#' then go true cs
      else if isSpace c then go false cs
      else c :: cs

def scalar? (digits : List Char) : Option Char := do
  let n ← digits.foldlM (fun n c => (Token.hexValue? c).map (16 * n + ·)) 0
  if n.isValidChar then some (Char.ofNat n) else none

def unescape? (c : Char) : Option Char :=
  if c = '"' ∨ c = '\\' then some c
  else if c = 'b' then some '\x08'
  else if c = 't' then some '\t'
  else if c = 'n' then some '\n'
  else if c = 'f' then some '\x0c'
  else if c = 'r' then some '\r'
  else none

/-- Reads the rest of a basic string; what is read so far is kept latest first. -/
def basicRest (read : List Char) : Reader String
  | [] => none
  | '"' :: cs => some (String.ofList read.reverse, cs)
  | '\\' :: 'u' :: a :: b :: c :: d :: cs =>
    match scalar? [a, b, c, d] with
    | some x => basicRest (x :: read) cs
    | none => none
  | '\\' :: 'U' :: a :: b :: c :: d :: e :: f :: g :: h :: cs =>
    match scalar? [a, b, c, d, e, f, g, h] with
    | some x => basicRest (x :: read) cs
    | none => none
  | '\\' :: c :: cs =>
    match unescape? c with
    | some x => basicRest (x :: read) cs
    | none => none
  | c :: cs => if c ≠ '\\' ∧ isPrintable c then basicRest (c :: read) cs else none

def literalRest (cs : List Char) : Option (String × List Char) :=
  match cs.dropWhile (fun c => c ≠ '\'' && isPrintable c) with
  | '\'' :: rest => some (String.ofList (cs.takeWhile fun c => c ≠ '\'' && isPrintable c), rest)
  | _ => none

/-- Reads the rest of a basic string of several lines. While `skipping`, the space and the line
breaks after a backslash at the end of a line are passed over. -/
def basicLinesRest (skipping : Bool) (read : List Char) : Reader String
  | [] => none
  | '"' :: '"' :: '"' :: '"' :: '"' :: cs =>
    some (String.ofList ('"' :: '"' :: read).reverse, cs)
  | '"' :: '"' :: '"' :: '"' :: cs => some (String.ofList ('"' :: read).reverse, cs)
  | '"' :: '"' :: '"' :: cs => some (String.ofList read.reverse, cs)
  | '\\' :: 'u' :: a :: b :: c :: d :: cs =>
    match scalar? [a, b, c, d] with
    | some x => basicLinesRest false (x :: read) cs
    | none => none
  | '\\' :: 'U' :: a :: b :: c :: d :: e :: f :: g :: h :: cs =>
    match scalar? [a, b, c, d, e, f, g, h] with
    | some x => basicLinesRest false (x :: read) cs
    | none => none
  | '\\' :: c :: cs =>
    match unescape? c with
    | some x => basicLinesRest false (x :: read) cs
    | none =>
      if (newline? (skipSpace (c :: cs))).isSome then basicLinesRest true read (c :: cs) else none
  | '\r' :: '\n' :: cs =>
    if skipping then basicLinesRest true read cs else basicLinesRest false ('\n' :: read) cs
  | c :: cs =>
    if skipping && (isSpace c || c = '\n') then basicLinesRest true read cs
    else if c = '\n' || (c ≠ '\\' && isPrintable c) then basicLinesRest false (c :: read) cs
    else none

def literalLinesRest (read : List Char) : Reader String
  | [] => none
  | '\'' :: '\'' :: '\'' :: '\'' :: '\'' :: cs =>
    some (String.ofList ('\'' :: '\'' :: read).reverse, cs)
  | '\'' :: '\'' :: '\'' :: '\'' :: cs => some (String.ofList ('\'' :: read).reverse, cs)
  | '\'' :: '\'' :: '\'' :: cs => some (String.ofList read.reverse, cs)
  | '\r' :: '\n' :: cs => literalLinesRest ('\n' :: read) cs
  | c :: cs => if c = '\n' || isPrintable c then literalLinesRest (c :: read) cs else none

def dropNewline (cs : List Char) : List Char := (newline? cs).getD cs

def string? : Reader String
  | '"' :: '"' :: '"' :: cs => basicLinesRest false [] (dropNewline cs)
  | '"' :: cs => basicRest [] cs
  | '\'' :: '\'' :: '\'' :: cs => literalLinesRest [] (dropNewline cs)
  | '\'' :: cs => literalRest cs
  | _ => none

def isBare (c : Char) : Bool :=
  c.isAlphanum || c = '_' || c = '-'

def simpleKey? : Reader String
  | '"' :: cs => basicRest [] cs
  | '\'' :: cs => literalRest cs
  | cs =>
    let bare := cs.takeWhile isBare
    if bare.isEmpty then none else some (String.ofList bare, cs.dropWhile isBare)

/-- The greatest number of values that may be open at once, and of the parts of a key. -/
def maxNesting : Nat := 79

def keyRest? : Nat → Reader (List String)
  | 0, _ => none
  | more + 1, cs =>
    match simpleKey? (skipSpace cs) with
    | none => none
    | some (k, cs) =>
      match skipSpace cs with
      | '.' :: cs => (keyRest? more cs).map fun (ks, rest) => (k :: ks, rest)
      | cs => some ([k], cs)

def key? : Reader (List String) := keyRest? maxNesting

end CodeGraph.Toml
