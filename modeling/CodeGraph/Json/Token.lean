import CodeGraph.Json.Numeral

/-!
# Tokens

`Token.ofChars?` cuts a text into tokens. It is a machine over characters: between tokens, inside a
word, or inside a string. Strings are kept as numbers, because an escape can name half of a
surrogate pair; `Text.ofUnits?` joins the halves and refuses one that stands alone. Whoever skips a
string need not join it. The numbers of a text are those of its characters, and the text reads back
from them.
-/

namespace CodeGraph

namespace Text

def isHighHalf (u : Nat) : Bool := 0xD800 ≤ u && u < 0xDC00

def isLowHalf (u : Nat) : Bool := 0xDC00 ≤ u && u < 0xE000

/-- The characters that numbers stand for, each a code point or half of a pair. -/
def charsOfUnits? : List Nat → Option (List Char)
  | [] => some []
  | u :: us =>
    if isHighHalf u then
      match us with
      | l :: rest =>
        if isLowHalf l then
          (charsOfUnits? rest).map
            (Char.ofNat (0x10000 + (u - 0xD800) * 0x400 + (l - 0xDC00)) :: ·)
        else none
      | [] => none
    else if isLowHalf u then none
    else (charsOfUnits? us).map (Char.ofNat u :: ·)

def ofUnits? (us : List Nat) : Option String := (charsOfUnits? us).map String.ofList

def unitsOf (s : String) : List Nat := s.toList.map Char.toNat

theorem isHighHalf_toNat (c : Char) : isHighHalf c.toNat = false := by
  have : c.toNat < 0xD800 ∨ 0xDFFF < c.toNat ∧ c.toNat < 0x110000 := c.valid
  simp only [isHighHalf, Bool.and_eq_false_iff, decide_eq_false_iff_not]
  omega

theorem isLowHalf_toNat (c : Char) : isLowHalf c.toNat = false := by
  have : c.toNat < 0xD800 ∨ 0xDFFF < c.toNat ∧ c.toNat < 0x110000 := c.valid
  simp only [isLowHalf, Bool.and_eq_false_iff, decide_eq_false_iff_not]
  omega

theorem charsOfUnits?_map_toNat (cs : List Char) : charsOfUnits? (cs.map Char.toNat) = some cs := by
  induction cs with
  | nil => rfl
  | cons c cs ih =>
    rw [List.map_cons, charsOfUnits?.eq_def]
    simp [isHighHalf_toNat, isLowHalf_toNat, ih]

theorem ofUnits?_unitsOf (s : String) : ofUnits? (unitsOf s) = some s := by
  simp [ofUnits?, unitsOf, charsOfUnits?_map_toNat]

end Text

inductive Token where
  | openArray
  | closeArray
  | openObject
  | closeObject
  | comma
  | colon
  | null
  | bool (b : Bool)
  | numeral (n : Numeral)
  | text (units : List Nat)
  deriving DecidableEq, Repr

namespace Token

def ofMark? (c : Char) : Option Token :=
  if c = '[' then some openArray
  else if c = ']' then some closeArray
  else if c = '{' then some openObject
  else if c = '}' then some closeObject
  else if c = ',' then some comma
  else if c = ':' then some colon
  else none

def ofWord? (cs : List Char) : Option Token :=
  if cs = ['n', 'u', 'l', 'l'] then some null
  else if cs = ['t', 'r', 'u', 'e'] then some (bool true)
  else if cs = ['f', 'a', 'l', 's', 'e'] then some (bool false)
  else (Numeral.ofChars? cs).map numeral

def isSpace (c : Char) : Bool := c = ' ' || c = '\t' || c = '\n' || c = '\r'

/-- Where a cut stands. Collected characters and numbers are kept latest first. -/
inductive Place where
  | between
  | word (chars : List Char)
  | text (units : List Nat)
  | escape (units : List Nat)
  /-- In the four digits of an escape, with the digits still missing and the value so far. -/
  | hex (units : List Nat) (missing value : Nat)
  deriving DecidableEq, Repr

/-- A cut: where it stands and the tokens found, latest first. -/
structure Cut where
  place : Place
  found : List Token
  deriving DecidableEq, Repr

def hexValue? (c : Char) : Option Nat :=
  if c.isDigit then some (c.toNat - '0'.toNat)
  else if 'a' ≤ c ∧ c ≤ 'f' then some (c.toNat - 'a'.toNat + 10)
  else if 'A' ≤ c ∧ c ≤ 'F' then some (c.toNat - 'A'.toNat + 10)
  else none

def unescape? (c : Char) : Option Char :=
  if c = '"' ∨ c = '\\' ∨ c = '/' then some c
  else if c = 'b' then some '\x08'
  else if c = 'f' then some '\x0c'
  else if c = 'n' then some '\n'
  else if c = 'r' then some '\r'
  else if c = 't' then some '\t'
  else none

def endsWord (c : Char) : Bool := isSpace c || c = '"' || (ofMark? c).isSome

def enter (found : List Token) (c : Char) : Cut :=
  if isSpace c then ⟨.between, found⟩
  else if c = '"' then ⟨.text [], found⟩
  else
    match ofMark? c with
    | some t => ⟨.between, t :: found⟩
    | none => ⟨.word [c], found⟩

def advance (s : Cut) (c : Char) : Option Cut :=
  match s.place with
  | .between => some (enter s.found c)
  | .word cs =>
    if endsWord c then (ofWord? cs.reverse).map fun t => enter (t :: s.found) c
    else some ⟨.word (c :: cs), s.found⟩
  | .text us =>
    if c = '"' then some ⟨.between, text us.reverse :: s.found⟩
    else if c = '\\' then some ⟨.escape us, s.found⟩
    else if c.toNat < 0x20 then none
    else some ⟨.text (c.toNat :: us), s.found⟩
  | .escape us =>
    if c = 'u' then some ⟨.hex us 4 0, s.found⟩
    else (unescape? c).map fun d => ⟨.text (d.toNat :: us), s.found⟩
  | .hex us missing value =>
    (hexValue? c).map fun d =>
      let value := 16 * value + d
      if missing ≤ 1 then ⟨.text (value :: us), s.found⟩ else ⟨.hex us (missing - 1) value, s.found⟩

def finish (s : Cut) : Option (List Token) :=
  match s.place with
  | .between => some s.found.reverse
  | .word cs => (ofWord? cs.reverse).map fun t => (t :: s.found).reverse
  | _ => none

def ofChars? (cs : List Char) : Option (List Token) :=
  (cs.foldlM advance ⟨.between, []⟩).bind finish

end Token

end CodeGraph
