import CodeGraph.Json.Literal
import CodeGraph.Toml.Text

/-!
# Numbers, dates and truth values of TOML

Everything that is neither a string nor bracketed is one word, apart from a date with a time, which
a space may separate. Words become literals: whole numbers must fit into 64 bits with a sign, other
numbers are only known not to be whole, and a date is an object with one text under `dateKey`.
-/

namespace CodeGraph.Toml

def ofText (s : String) : Literal := .str (Text.unitsOf s)

def digits? (isDigit : Char → Bool) : List Char → Option (List Char)
  | [] => none
  | [c] => if isDigit c then some [c] else none
  | c :: '_' :: cs => if isDigit c then (digits? isDigit cs).map (c :: ·) else none
  | c :: cs => if isDigit c then (digits? isDigit cs).map (c :: ·) else none

def valueIn (base : Nat) (cs : List Char) : Nat :=
  cs.foldl (fun n c => base * n + (Token.hexValue? c).getD 0) 0

def ofInt? (n : Int) : Option Literal :=
  if Int64.minValue.toInt ≤ n ∧ n ≤ Int64.maxValue.toInt then some (.number (.ofInt n)) else none

def sign (cs : List Char) : Bool × List Char :=
  match cs with
  | '-' :: ds => (true, ds)
  | '+' :: ds => (false, ds)
  | ds => (false, ds)

def wholeDigits? (cs : List Char) : Option (List Char) :=
  match digits? Char.isDigit cs with
  | some ('0' :: _ :: _) => none
  | ds => ds

def integer? : List Char → Option Literal
  | '0' :: 'x' :: cs =>
    (digits? (fun c => (Token.hexValue? c).isSome) cs).bind fun ds => ofInt? (valueIn 16 ds)
  | '0' :: 'o' :: cs =>
    (digits? (fun c => '0' ≤ c && c ≤ '7') cs).bind fun ds => ofInt? (valueIn 8 ds)
  | '0' :: 'b' :: cs =>
    (digits? (fun c => c = '0' || c = '1') cs).bind fun ds => ofInt? (valueIn 2 ds)
  | cs =>
    let (negative, cs) := sign cs
    (wholeDigits? cs).bind fun ds =>
      let n : Int := digitsValue ds
      ofInt? (if negative then -n else n)

def maxPlaces : Nat := 309

def notWhole (negative : Bool) : Literal := .number (.float negative 0)

/-- Whether the double nearest to a number without its sign is infinite. The place of the first digit
that counts decides it unless the number has as many places as the greatest double. -/
def overflows (n : Numeral) : Bool :=
  let digits := (n.whole ++ n.fraction).dropWhile (· == '0')
  let exponent : Int :=
    match n.exponent with
    | none => 0
    | some (negative, ds) => if negative then -digitsValue ds else digitsValue ds
  let last := exponent - n.fraction.length
  let first := last + digits.length
  if digits.isEmpty || first < maxPlaces then false
  else if maxPlaces < first then true
  else
    let num := digitsValue digits * Nat.pow 10 last.toNat
    Binary.infinite ≤ Binary.nearest num (Nat.pow 10 (-last).toNat)

/-- Reads a word as a number with a fraction or an exponent. A number below zero may be out of
range. -/
def float? (cs : List Char) : Option Literal :=
  let (negative, cs) := sign cs
  if cs = ['i', 'n', 'f'] ∨ cs = ['n', 'a', 'n'] then some (notWhole negative)
  else do
    let isMark (c : Char) := c = 'e' || c = 'E'
    let mantissa := cs.takeWhile (!isMark ·)
    let exponent ←
      match cs.dropWhile (!isMark ·) with
      | [] => some none
      | _ :: es =>
        let (negative, ds) := sign es
        (digits? Char.isDigit ds).map fun ds => some (negative, ds)
    let whole ← wholeDigits? (mantissa.takeWhile (· ≠ '.'))
    let fraction ←
      match mantissa.dropWhile (· ≠ '.') with
      | [] => if exponent.isNone then none else some []
      | _ :: ds => digits? Char.isDigit ds
    if !negative && overflows ⟨negative, whole, fraction, exponent⟩ then none
    else some (notWhole negative)

def dateKey : String := "$__toml_private_datetime"

def fixed? (count : Nat) (cs : List Char) : Option Nat :=
  if cs.length = count ∧ cs.all Char.isDigit then some (digitsValue cs) else none

def daysIn (year month : Nat) : Nat :=
  if month = 2 then
    if year % 4 = 0 ∧ (year % 100 ≠ 0 ∨ year % 400 = 0) then 29 else 28
  else if month = 4 ∨ month = 6 ∨ month = 9 ∨ month = 11 then 30
  else 31

def date? (cs : List Char) : Option (List Char) :=
  match cs with
  | [a, b, c, d, '-', e, f, '-', g, h] => do
    let year ← fixed? 4 [a, b, c, d]
    let month ← fixed? 2 [e, f]
    let day ← fixed? 2 [g, h]
    if 1 ≤ month ∧ month ≤ 12 ∧ 1 ≤ day ∧ day ≤ daysIn year month then some cs else none
  | _ => none

/-- The text of a fraction of a second, cut to nine digits and without zeros at the end. -/
def fraction? : List Char → Option (List Char)
  | [] => some []
  | '.' :: ds =>
    if ds.isEmpty || !ds.all Char.isDigit then none
    else
      let kept := ((ds.take 9).reverse.dropWhile (· == '0')).reverse
      some (if kept.isEmpty then [] else '.' :: kept)
  | _ => none

def time? (cs : List Char) : Option (List Char) :=
  match cs with
  | a :: b :: ':' :: c :: d :: ':' :: e :: f :: rest => do
    let hour ← fixed? 2 [a, b]
    let minute ← fixed? 2 [c, d]
    let second ← fixed? 2 [e, f]
    let fraction ← fraction? rest
    if hour ≤ 23 ∧ minute ≤ 59 ∧ second ≤ 60 then
      some (a :: b :: ':' :: c :: d :: ':' :: e :: f :: fraction)
    else none
  | _ => none

/-- The text of a distance from universal time, if it is one. No distance is written with a plus. -/
def offset? (cs : List Char) : Option (List Char) :=
  match cs with
  | [] => some []
  | [c] => if c = 'Z' ∨ c = 'z' then some ['Z'] else none
  | [s, a, b, ':', c, d] => do
    let hour ← fixed? 2 [a, b]
    let minute ← fixed? 2 [c, d]
    if (s = '+' ∨ s = '-') ∧ hour ≤ 23 ∧ minute ≤ 59 then
      some ((if hour = 0 ∧ minute = 0 then '+' else s) :: cs.tail)
    else none
  | _ => none

def datetime? (cs : List Char) : Option Literal :=
  let isOffset (c : Char) := c = 'Z' || c = 'z' || c = '+' || c = '-'
  let text :=
    match cs.drop 10 with
    | [] => date? cs <|> time? cs
    | t :: rest =>
      if t = 'T' ∨ t = 't' then do
        let date ← date? (cs.take 10)
        let time ← time? (rest.takeWhile (!isOffset ·))
        let offset ← offset? (rest.dropWhile (!isOffset ·))
        some (date ++ 'T' :: time ++ offset)
      else time? cs
  text.map fun s => .obj [(Text.unitsOf dateKey, .str (s.map Char.toNat))]

def isWordChar (c : Char) : Bool := isBare c || c = '+' || c = '.' || c = ':'

def ofWord? (cs : List Char) : Option Literal :=
  if cs = ['t', 'r', 'u', 'e'] then some (.bool true)
  else if cs = ['f', 'a', 'l', 's', 'e'] then some (.bool false)
  else datetime? cs <|> float? cs <|> integer? cs

/-- Reads a word, which goes on after a space if a date comes before the space and a digit after. -/
def word? (cs : List Char) : Option (Literal × List Char) :=
  let word := cs.takeWhile isWordChar
  let rest := cs.dropWhile isWordChar
  match rest with
  | ' ' :: c :: after =>
    if (date? word).isSome && c.isDigit then
      let time := (c :: after).takeWhile isWordChar
      (ofWord? (word ++ 'T' :: time)).map (·, (c :: after).dropWhile isWordChar)
    else (ofWord? word).map (·, rest)
  | _ => (ofWord? word).map (·, rest)

end CodeGraph.Toml
