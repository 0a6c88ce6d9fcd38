import Wireboard.Number.Shortest

/-!
# Texts of numbers

Three ways to write a double: with the fewest digits that read back (`floatText`), with a fixed
number of places (`fixedText`), and with a fixed number of significant digits (`generalText`).
Where they leave positional notation, and how they write an exponent, is said once, in `Style`.

A whole number is written with at most `digitLimit` digits; beyond that there is no text for it.
-/

namespace Wireboard.Number

open Binary64 Shortest

/-- The most digits that a whole number may have in a text. -/
def digitLimit : Nat := 4300

def hasText (n : Int) : Bool := decide (n.natAbs < pow10 digitLimit)

def intText (n : Int) : String :=
  match n with
  | .ofNat m => Nat.repr m
  | .negSucc m => "-" ++ Nat.repr (m + 1)

/-- How a decimal is laid out: positional while the exponent of its first digit is at least
`lowest` and below `highest`, and with `.0` after a whole number where `point` asks for it. -/
structure Style where
  lowest : Int
  highest : Int
  point : Bool
deriving DecidableEq, Repr

/-- The style of values: positional from `0.0001` up to sixteen digits, whole doubles keep a
point. -/
def valueStyle : Style := ⟨-4, 16, true⟩

/-- The style of measures: positional from `0.0001` up to six digits, no idle point. -/
def measureStyle : Style := ⟨-4, 6, false⟩

def zeros (n : Nat) : String := String.ofList (List.replicate n '0')

/-- An exponent with its sign and at least two digits. -/
def exponentText (e : Int) : String :=
  let size := Nat.repr e.natAbs
  (if e < 0 then "e-" else "e+") ++ (if size.length < 2 then "0" ++ size else size)

/-- The digits `digits * 10 ^ exponent`, laid out. -/
def layOut (style : Style) (d : Decimal) : String :=
  let digits := Nat.repr d.digits
  let count := digits.length
  let first := (count : Int) + d.exponent - 1
  if first < style.lowest ∨ style.highest ≤ first then
    let rest := digits.toList.drop 1
    String.ofList (digits.toList.take 1)
      ++ (if rest.isEmpty then "" else "." ++ String.ofList rest) ++ exponentText first
  else if 0 ≤ d.exponent then
    digits ++ zeros d.exponent.toNat ++ (if style.point then ".0" else "")
  else if 0 ≤ first then
    let whole := (first + 1).toNat
    String.ofList (digits.toList.take whole) ++ "." ++ String.ofList (digits.toList.drop whole)
  else
    "0." ++ zeros (-first - 1).toNat ++ digits

def signText (negative : Bool) (text : String) : String :=
  if negative then "-" ++ text else text

/-- The texts of what is not finite. -/
structure OpenEnds where
  notANumber : String
  infinite : String
deriving DecidableEq, Repr

def valueEnds : OpenEnds := ⟨"nan", "inf"⟩

/-- A double with the fewest digits that read back. -/
def shortestText (ends : OpenEnds) (x : Float) : String :=
  match decode x with
  | .notANumber => ends.notANumber
  | .infinite negative => signText negative ends.infinite
  | .finite p =>
    if p.mantissa = 0 then signText p.negative "0.0"
    else signText p.negative (layOut valueStyle ((decimal p).trim 400))

/-- The text of a double among values. -/
def floatText (x : Float) : String := shortestText valueEnds x

/-- The value over `10 ^ k` as a whole number, the half going to the even neighbour. -/
def roundedAt (p : Parts) (k : Int) : Nat :=
  let num := p.mantissa * (if 0 ≤ p.exponent then pow2 p.exponent.toNat else 1)
    * (if 0 ≤ k then 1 else pow10 (-k).toNat)
  let den := (if 0 ≤ p.exponent then 1 else pow2 (-p.exponent).toNat)
    * (if 0 ≤ k then pow10 k.toNat else 1)
  roundedQuotient num den

/-- A double with a fixed number of places, at least one. -/
def fixedText (places : Nat) (x : Float) : String :=
  match decode x with
  | .notANumber => valueEnds.notANumber
  | .infinite negative => signText negative valueEnds.infinite
  | .finite p =>
    let n := roundedAt p (-(places : Int))
    let tail := Nat.repr (n % pow10 places)
    signText p.negative
      (Nat.repr (n / pow10 places) ++ "." ++ zeros (places - tail.length) ++ tail)

/-- The exponent of the first digit of a positive double, searched downwards. -/
def firstExponent (p : Parts) : Nat → Int → Int
  | 0, k => k
  | fuel + 1, k =>
    let reaches :=
      decide (pow10 k.toNat * pow2 (-p.exponent).toNat
        ≤ p.mantissa * pow2 p.exponent.toNat * pow10 (-k).toNat)
    if reaches then k else firstExponent p fuel (k - 1)

/-- A double with a fixed number of significant digits, the zeros at the end dropped. -/
def generalText (digits : Nat) (x : Float) : String :=
  match decode x with
  | .notANumber => valueEnds.notANumber
  | .infinite negative => signText negative valueEnds.infinite
  | .finite p =>
    if p.mantissa = 0 then signText p.negative "0"
    else
      let k := firstExponent p 8 (startExponent p) - (digits : Int) + 1
      signText p.negative (layOut measureStyle (Decimal.trim digits ⟨roundedAt p k, k⟩))

end Wireboard.Number
