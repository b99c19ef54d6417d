/-!
# Double precision magnitudes

A finite double without its sign is a word below `infinite`. `ratio` gives the exact quotient that
a word stands for and `nearest` the word closest to a quotient, ties going to the even word.
Everything is arithmetic on natural numbers, so that the reading and writing of numbers can be
evaluated and reasoned about; no machine operation on floats is involved.

Consecutive magnitudes are consecutive words, so a significand that rounds up to `2 ^ 53` carries
into the exponent field by itself, and the subnormal words need no case of their own.
-/

namespace CodeGraph.Binary

/-- The number of words with one exponent field, `2 ^ 52`. -/
def binade : Nat := 0x10000000000000

/-- The word of infinity; the finite magnitudes are the words below it. -/
def infinite : Nat := 0x7FF * binade

/-- The quotient of two naturals rounded to a natural, a half going to the even neighbour. -/
def roundEven (num den : Nat) : Nat :=
  let q := num / den
  let rest := 2 * (num % den)
  if rest < den then q
  else if den < rest then q + 1
  else q + q % 2

/-- The quotient that a word stands for, as numerator and denominator. -/
def ratio (w : Nat) : Nat × Nat :=
  let field := w / binade
  let fraction := w % binade
  if field = 0 then (fraction, 1 <<< 1074)
  else if field < 1075 then (binade + fraction, 1 <<< (1075 - field))
  else ((binade + fraction) <<< (field - 1075), 1)

/-- The exponent of the unit in the last place of the doubles around a positive quotient. -/
def unit (num den : Nat) : Int :=
  let guess : Int := (num.log2 : Int) - den.log2 - 52
  let short := num <<< (-guess).toNat < den <<< (52 + guess.toNat)
  max (-1074) (if short then guess - 1 else guess)

/-- The word nearest to a quotient; `infinite` or more when the quotient is out of range. -/
def nearest (num den : Nat) : Nat :=
  if num = 0 then 0
  else
    let e := unit num den
    (e + 1074).toNat * binade + roundEven (num <<< (-e).toNat) (den <<< e.toNat)

end CodeGraph.Binary
