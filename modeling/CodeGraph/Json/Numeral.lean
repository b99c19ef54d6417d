import CodeGraph.Decimal.Binary
import CodeGraph.Json.Basic

/-!
# Numerals

A `Numeral` is a number as it is spelled; `Numeral.ofChars?` accepts the spellings of RFC 8259.
`Numeral.value?` is the number meant: whole numbers that fit into 64 bits are kept exactly,
everything else becomes a double, and a double out of range is refused.

A double is read from at most 64 bits of significand. Whole digits beyond them only raise the
exponent and fraction digits beyond them are dropped; the significand is then multiplied or divided
once by a power of ten, with the roundings of both steps. For numerals of up to fifteen digits and
exponents up to 22 this is the nearest double.
-/

namespace CodeGraph

def digitsValue (cs : List Char) : Nat := Nat.ofDigitChars 10 cs 0

/-- A number as it is spelled. A spelling without a fraction has no fraction digits. -/
structure Numeral where
  negative : Bool
  whole : List Char
  fraction : List Char
  exponent : Option (Bool × List Char)
  deriving DecidableEq, Repr

namespace Numeral

def exponentOf? (cs : List Char) : Option (Bool × List Char) :=
  let (negative, digits) :=
    match cs with
    | '-' :: ds => (true, ds)
    | '+' :: ds => (false, ds)
    | ds => (false, ds)
  if !digits.isEmpty && digits.all Char.isDigit then some (negative, digits) else none

def tailOf? (negative : Bool) (whole fraction : List Char) : List Char → Option Numeral
  | [] => some ⟨negative, whole, fraction, none⟩
  | c :: cs =>
    if c = 'e' ∨ c = 'E' then
      (exponentOf? cs).map fun e => ⟨negative, whole, fraction, some e⟩
    else none

def magnitudeOf? (negative : Bool) (cs : List Char) : Option Numeral :=
  let whole := cs.takeWhile Char.isDigit
  let rest := cs.dropWhile Char.isDigit
  if whole.isEmpty || (whole.length > 1 && whole.head? == some '0') then none
  else
    match rest with
    | '.' :: ds =>
      let fraction := ds.takeWhile Char.isDigit
      if fraction.isEmpty then none
      else tailOf? negative whole fraction (ds.dropWhile Char.isDigit)
    | ds => tailOf? negative whole [] ds

def ofChars? : List Char → Option Numeral
  | '-' :: cs => magnitudeOf? true cs
  | cs => magnitudeOf? false cs

structure Scaled where
  significand : Nat
  exponent : Int
  deriving DecidableEq, Repr

def limit : Nat := UInt64.size - 1

/-- Adds a whole digit, or only a place when the significand is full. -/
def Scaled.pushWhole (full : Bool) (s : Scaled) (c : Char) : Bool × Scaled :=
  let grown := 10 * s.significand + (c.toNat - '0'.toNat)
  if full || grown > limit then (true, ⟨s.significand, s.exponent + 1⟩)
  else (false, ⟨grown, s.exponent⟩)

def Scaled.pushWholes (full : Bool) (s : Scaled) : List Char → Scaled
  | [] => s
  | c :: cs =>
    let (full, s) := s.pushWhole full c
    s.pushWholes full cs

def Scaled.pushFraction (s : Scaled) : List Char → Scaled
  | [] => s
  | c :: cs =>
    let grown := 10 * s.significand + (c.toNat - '0'.toNat)
    if grown > limit then s else Scaled.pushFraction ⟨grown, s.exponent - 1⟩ cs

/-- The product or quotient of a magnitude and a power of ten, or `none` out of range. A power
beyond `10 ^ 308` is applied in steps. -/
def scale? (w : Nat) (e : Int) : Option Nat :=
  if w = 0 then some 0
  else
    let (num, den) := Binary.ratio w
    let (tenNum, tenDen) := Binary.ratio (Binary.nearest (Nat.pow 10 (min e.natAbs 308)) 1)
    if 308 < e then none
    else if 0 ≤ e then
      let product := Binary.nearest (num * tenNum) (den * tenDen)
      if product < Binary.infinite then some product else none
    else
      let quotient := Binary.nearest (num * tenDen) (den * tenNum)
      if e < -308 then scale? quotient (e + 308) else some quotient
termination_by e.natAbs

/-- The greatest exponent that is counted. -/
def exponentLimit : Nat := 0x7FFFFFFF

def magnitude? (n : Numeral) : Option Nat :=
  let s := (Scaled.pushWholes false ⟨0, 0⟩ n.whole).pushFraction n.fraction
  let start := Binary.nearest s.significand 1
  match n.exponent with
  | none => scale? start s.exponent
  | some (negative, digits) =>
    let e := digitsValue digits
    if e > exponentLimit then
      if s.significand = 0 ∨ negative then some 0 else none
    else scale? start (if negative then s.exponent - e else s.exponent + e)

def value? (n : Numeral) : Option Number :=
  let double := n.magnitude?.map (Number.float n.negative)
  if n.fraction.isEmpty && n.exponent.isNone then
    let v := digitsValue n.whole
    if n.negative then
      if h : 0 < v ∧ v ≤ 0x8000000000000000 then some (.negative ⟨v - 1, by omega⟩) else double
    else if v ≤ limit then some (.natural v.toUInt64)
    else double
  else double

end Numeral

end CodeGraph
