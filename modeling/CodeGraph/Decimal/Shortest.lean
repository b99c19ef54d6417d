import CodeGraph.Decimal.Binary

/-!
# Shortest decimals

`Decimal.shortest` is the decimal with the fewest digits that reads back as a given double; among
those of that length it is the one nearest to the double, and a `Tie` says which one if two are
equally near. If any decimal of a given length reads back, then one of the two neighbours of the
double on that decimal grid does, so trying these two for one, two, … digits finds it. Seventeen
digits always suffice.
-/

namespace CodeGraph

/-- The positive decimal `0.d₁d₂…dₙ · 10 ^ point`, its digits most significant first. -/
structure Decimal where
  digits : List Char
  point : Int
  deriving DecidableEq, Repr

/-- Which of two neighbouring decimals stands for a double half-way between them. -/
inductive Tie where
  | even
  | up
  deriving DecidableEq, Repr

/-- Whether the lower of two decimals stands for a double half-way between them, by the lower one's
digits. -/
def Tie.takesLower : Tie → Nat → Bool
  | even, below => below % 2 == 0
  | up, _ => false

namespace Decimal

def ofScaled (n : Nat) (e : Int) : Decimal :=
  let all := Nat.toDigits 10 n
  ⟨(all.reverse.dropWhile (· == '0')).reverse, all.length + e⟩

def scaled (n : Nat) (e : Int) : Nat × Nat := (n * Nat.pow 10 e.toNat, Nat.pow 10 (-e).toNat)

/-- The exponent of the leading digit of the quotient `num / den`, which is not below the least
positive double. -/
def leading (num den : Nat) : Int :=
  ((Nat.toDigits 10 (num * Nat.pow 10 324 / den)).length : Int) - 325

/-- Whether `n · 10 ^ e` reads back as the word `w`. -/
def readsBack (w n : Nat) (e : Int) : Bool :=
  let (num, den) := scaled n e
  Binary.nearest num den == w

/-- The decimal of `count` digits that reads back as `w` and is nearest to it, if there is one. -/
def ofLength (tie : Tie) (w count : Nat) : Option Decimal :=
  let (num, den) := Binary.ratio w
  let e := leading num den - count + 1
  let (up, down) := scaled 1 e
  let below := num * down / (den * up)
  let rest := num * down % (den * up)
  let above := below + 1
  match readsBack w below e, readsBack w above e with
  | true, true =>
    let nearBelow := 2 * rest < den * up || (2 * rest == den * up && tie.takesLower below)
    some (ofScaled (if nearBelow then below else above) e)
  | true, false => some (ofScaled below e)
  | false, true => some (ofScaled above e)
  | false, false => none

/-- The shortest decimal that reads back as the positive finite double `w`. -/
def shortest (tie : Tie) (w : Nat) : Decimal :=
  ((List.range 17).findSome? (fun i => ofLength tie w (i + 1))).getD ⟨['0'], 1⟩

end Decimal

end CodeGraph
