import Wireboard.Number.Power

/-!
# Doubles as exact numbers

A double is a sign, a whole number and a power of two.  This module takes a `Float` apart into
those three (`decode`), finds the double nearest to a ratio of whole numbers (`nearest`), and gives
every double that is a number its exact place on the line of the rationals with two ends
(`quantity?`).

Everything here is whole-number arithmetic on the 64 bits of the double.  No operation of the
machine is trusted with rounding, so what is said of a result can be proved from its definition.
-/

namespace Wireboard

/-- A place on the line of the rationals, with an end on either side. -/
inductive Quantity where
  | bottom
  | ratio (q : Rat)
  | top
deriving DecidableEq

namespace Quantity

/-- `a` lies strictly before `b`. -/
def lt : Quantity → Quantity → Bool
  | .bottom, .bottom => false
  | .bottom, _ => true
  | .ratio _, .bottom => false
  | .ratio p, .ratio q => decide (p < q)
  | .ratio _, .top => true
  | .top, _ => false

end Quantity

namespace Binary64

/-- A finite double: `mantissa * 2 ^ exponent`, with a sign that zero has too. -/
structure Parts where
  negative : Bool
  mantissa : Nat
  exponent : Int
deriving DecidableEq, Repr

/-- What the bits of a double stand for. -/
inductive Decoded where
  | notANumber
  | infinite (negative : Bool)
  | finite (parts : Parts)
deriving DecidableEq, Repr

/-- The exponent of the smallest doubles. -/
def leastExponent : Int := -1074

def infinityBits : Nat := 2047 * pow2 52

/-- The double that is no number. -/
def notANumber : Float := Float.ofBits (UInt64.ofNat (infinityBits + pow2 51))

/-- The double beyond all others, on the side of the sign. -/
def infinity (negative : Bool) : Float :=
  Float.ofBits (UInt64.ofNat ((if negative then pow2 63 else 0) + infinityBits))

/-- Take a double apart. -/
def decode (x : Float) : Decoded :=
  let bits : Nat := x.toBits.toNat
  let negative := decide (pow2 63 ≤ bits)
  let field : Nat := bits / pow2 52 % 2048
  let fraction : Nat := bits % pow2 52
  if field = 2047 then
    if fraction = 0 then .infinite negative else .notANumber
  else if field = 0 then
    .finite ⟨negative, fraction, leastExponent⟩
  else
    .finite ⟨negative, pow2 52 + fraction, (field : Int) - 1075⟩

/-- `num / den` as a whole number, the half going to the even neighbour. -/
def roundedQuotient (num den : Nat) : Nat :=
  let floor := num / den
  let twice := 2 * (num % den)
  if twice < den then floor
  else if den < twice then floor + 1
  else floor + floor % 2

/-- `num / (den * 2 ^ e)` as a whole number, the half going to the even neighbour. -/
def scaledQuotient (num den : Nat) (e : Int) : Nat :=
  if 0 ≤ e then roundedQuotient num (den * pow2 e.toNat)
  else roundedQuotient (num * pow2 (-e).toNat) den

/-- The exponent at which `num / den` fills the 53 bits of a mantissa, or the least one. -/
def exponentOf (num den : Nat) : Int :=
  let guess : Int := (num.log2 : Int) - (den.log2 : Int) - 53
  let reaches :=
    if 0 ≤ guess then decide (den * pow2 guess.toNat * pow2 53 ≤ num)
    else decide (den * pow2 53 ≤ num * pow2 (-guess).toNat)
  let fitting := if reaches then guess + 1 else guess
  if fitting < leastExponent then leastExponent else fitting

/-- The double nearest to `num / den`, the half going to the even mantissa.  What lies beyond the
largest double by half a unit or more becomes infinite. -/
def nearest (negative : Bool) (num den : Nat) : Float :=
  let sign := if negative then pow2 63 else 0
  if num = 0 then Float.ofBits (UInt64.ofNat sign)
  else
    let e := exponentOf num den
    let bits := (e - leastExponent).toNat * pow2 52 + scaledQuotient num den e
    if infinityBits ≤ bits then infinity negative
    else Float.ofBits (UInt64.ofNat (sign + bits))

/-- The double nearest to a whole number, unless the number lies beyond all doubles. -/
def ofInt? (n : Int) : Option Float :=
  let x := nearest (decide (n < 0)) n.natAbs 1
  if decode x = .infinite (decide (n < 0)) then none else some x

/-- The double nearest to the quotient of two whole numbers, unless it lies beyond all doubles.
The divisor is not zero. -/
def ofQuotient? (num den : Int) : Option Float :=
  let negative := decide (num < 0) != decide (den < 0)
  let x := nearest negative num.natAbs den.natAbs
  if decode x = .infinite negative then none else some x

namespace Parts

def signed (p : Parts) : Int :=
  if p.negative then -(p.mantissa : Int) else p.mantissa

def value (p : Parts) : Rat :=
  if 0 ≤ p.exponent then mkRat (p.signed * pow2 p.exponent.toNat) 1
  else mkRat p.signed (pow2 (-p.exponent).toNat)

/-- The largest whole number that is not above the value. -/
def floor (p : Parts) : Int :=
  if 0 ≤ p.exponent then p.signed * pow2 p.exponent.toNat
  else Int.fdiv p.signed (pow2 (-p.exponent).toNat)

/-- The nearest whole number, the half going to the even neighbour. -/
def round (p : Parts) : Int :=
  let size :=
    if 0 ≤ p.exponent then p.mantissa * pow2 p.exponent.toNat
    else roundedQuotient p.mantissa (pow2 (-p.exponent).toNat)
  if p.negative then -(size : Int) else size

/-- The whole number nearest to the value on the side of zero. -/
def truncate (p : Parts) : Int :=
  let size :=
    if 0 ≤ p.exponent then p.mantissa * pow2 p.exponent.toNat
    else p.mantissa / pow2 (-p.exponent).toNat
  if p.negative then -(size : Int) else size

/-- The value is a whole number. -/
def isWhole (p : Parts) : Bool :=
  decide (0 ≤ p.exponent) || p.mantissa % pow2 (-p.exponent).toNat == 0

end Parts

/-- The place of a double on the line; `none` when it is no number. -/
def quantity? (x : Float) : Option Quantity :=
  match decode x with
  | .notANumber => none
  | .infinite true => some .bottom
  | .infinite false => some .top
  | .finite p => some (.ratio p.value)

/-- The whole number a double stands for, if it stands for one. -/
def whole? (x : Float) : Option Int :=
  match decode x with
  | .finite p => if p.isWhole then some p.truncate else none
  | _ => none

end Binary64

end Wireboard
