import CodeGraph.Decimal.Shortest

/-!
# Layouts of decimals

`Decimal.positional` writes a decimal with all its places and `Decimal.scientific` with an
exponent. `floatText` is the text of a double in a document: positional for decimal exponents from
-5 to 15, with `.0` after a whole number, scientific otherwise. `plainText` is the text of a
magnitude in a sentence: always positional and without `.0`. Half-way between two decimals, a
document takes the even one and a sentence the greater one.
-/

namespace CodeGraph

namespace Decimal

def isWhole (d : Decimal) : Bool := d.digits.length ≤ d.point

def positional (d : Decimal) : List Char :=
  if d.point ≤ 0 then
    '0' :: '.' :: (List.replicate (-d.point).toNat '0' ++ d.digits)
  else if d.isWhole then
    d.digits ++ List.replicate (d.point.toNat - d.digits.length) '0'
  else
    d.digits.take d.point.toNat ++ '.' :: d.digits.drop d.point.toNat

/-- A decimal as one digit, the other digits after a point, and a signed exponent. -/
def scientific (d : Decimal) : List Char :=
  let e := d.point - 1
  let mantissa :=
    match d.digits with
    | [] => []
    | [c] => [c]
    | c :: cs => c :: '.' :: cs
  mantissa ++ 'e' :: (if e < 0 then '-' else '+') :: Nat.toDigits 10 e.natAbs

def floatText (w : Nat) : List Char :=
  if w = 0 then ['0', '.', '0']
  else
    let d := shortest .even w
    if -5 < d.point ∧ d.point ≤ 16 then
      d.positional ++ (if d.isWhole then ['.', '0'] else [])
    else d.scientific

def plainText (w : Nat) : List Char :=
  if w = 0 then ['0'] else (shortest .up w).positional

end Decimal

end CodeGraph
