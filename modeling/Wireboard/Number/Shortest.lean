import Wireboard.Number.Binary64

/-!
# The fewest digits that read back

A double stands for every real number that rounds to it.  Those numbers form an interval around
the exact value, and the text of the double is the decimal in that interval with the fewest digits;
among several of that length the one nearest to the exact value.

A decimal with a last digit of weight `10 ^ k` is a point of the grid of multiples of `10 ^ k`.
Going from coarse grids to fine ones, the first grid with a point inside the interval gives the
digits.  Only the two grid points next to the exact value have to be tested: if any point of the
grid lies inside, one of these does.
-/

namespace Wireboard.Shortest

open Binary64

/-- A positive decimal `digits * 10 ^ exponent`. -/
structure Decimal where
  digits : Nat
  exponent : Int
deriving DecidableEq, Repr

/-- The interval of a positive double, over a common denominator: the exact value is
`value / den`, and the reals that round to the double lie between `low / den` and `high / den`,
the ends included when the mantissa is even. -/
structure Interval where
  low : Nat
  value : Nat
  high : Nat
  den : Nat
  closed : Bool
deriving DecidableEq, Repr

/-- The interval of `mantissa * 2 ^ exponent`.  Below a power of two the doubles are twice as
dense, unless the exponent is the least one, so there the lower end is half as far away. -/
def interval (p : Parts) : Interval :=
  let narrow := p.mantissa == pow2 52 && p.exponent != leastExponent
  let low := if narrow then 4 * p.mantissa - 1 else 4 * p.mantissa - 2
  let closed := p.mantissa % 2 == 0
  if 2 ≤ p.exponent then
    let unit := pow2 (p.exponent - 2).toNat
    ⟨low * unit, 4 * p.mantissa * unit, (4 * p.mantissa + 2) * unit, 1, closed⟩
  else
    ⟨low, 4 * p.mantissa, 4 * p.mantissa + 2, pow2 (2 - p.exponent).toNat, closed⟩

def Interval.contains (i : Interval) (n num den : Nat) : Bool :=
  let point := n * num * i.den
  if i.closed then decide (i.low * den ≤ point) && decide (point ≤ i.high * den)
  else decide (i.low * den < point) && decide (point < i.high * den)

/-- The point of the grid of multiples of `10 ^ k` that lies in the interval nearest to the exact
value, as a multiple of `10 ^ k`; the half goes to the even multiple. -/
def onGrid? (i : Interval) (k : Int) : Option Nat :=
  let num := if 0 ≤ k then pow10 k.toNat else 1
  let den := if 0 ≤ k then 1 else pow10 (-k).toNat
  let top := i.value * den
  let step := num * i.den
  let below := top / step
  let hasBelow := decide (0 < below) && i.contains below num den
  let hasAbove := i.contains (below + 1) num den
  match hasBelow, hasAbove with
  | true, true => some (roundedQuotient top step)
  | true, false => some below
  | false, true => some (below + 1)
  | false, false => none

/-- Try the grids from `10 ^ k` downwards. -/
def search (i : Interval) : Nat → Int → Decimal
  | 0, k => ⟨i.value, k⟩
  | fuel + 1, k =>
    match onGrid? i k with
    | some n => ⟨n, k⟩
    | none => search i fuel (k - 1)

/-- An upper bound of the decimal exponent of a positive double. -/
def startExponent (p : Parts) : Int :=
  ((p.mantissa.log2 : Int) + p.exponent + 1) * 30103 / 100000 + 1

/-- The digits of a positive double: the coarsest grid that reaches the interval, and there the
point nearest to the exact value.  A double needs at most seventeen digits. -/
def decimal (p : Parts) : Decimal :=
  search (interval p) 20 (startExponent p)

/-- Drop the zeros at the end. -/
def Decimal.trim : Nat → Decimal → Decimal
  | 0, d => d
  | fuel + 1, d =>
    if d.digits % 10 = 0 ∧ d.digits ≠ 0 then
      Decimal.trim fuel ⟨d.digits / 10, d.exponent + 1⟩
    else d

end Wireboard.Shortest
