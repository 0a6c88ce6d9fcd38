import Wireboard.Number.Text
import Wireboard.Text.Digit
import Wireboard.Text.Pieces

/-!
# Reading numbers from text

A number may stand between blanks, has at most one sign, takes its digits from any script, and may
have a single underscore between two digits.  A whole number has nothing else.  A double has a
point, an exponent, or is one of the words for infinity and for no number, in any case of letters.

The blanks around a number depend on the rest of the text: among characters of ASCII they are the
space and the controls from tab to carriage return, otherwise all blanks of Unicode.
-/

namespace Wireboard.Number

open Binary64

/-- What a text says as a whole number. -/
inductive IntReading where
  | value (n : Int)
  | tooLong (digits : Nat)
  | malformed
deriving DecidableEq, Repr

def isAscii (c : Char) : Bool := decide (c.toNat < 0x80)

/-- A blank of ASCII that may stand around a number; the four separators are none. -/
def isPadding (c : Char) : Bool :=
  c == ' ' || (decide (0x9 ≤ c.toNat) && decide (c.toNat ≤ 0xd))

/-- The text without the blanks around it. -/
def unpad (cs : List Char) : List Char :=
  if cs.all isAscii then ((cs.dropWhile isPadding).reverse.dropWhile isPadding).reverse
  else Text.strip cs

/-- The sign in front, and what follows it. -/
def takeSign : List Char → Bool × List Char
  | '-' :: cs => (true, cs)
  | '+' :: cs => (false, cs)
  | cs => (false, cs)

/-- The text begins with a decimal digit. -/
def startsWithDigit : List Char → Bool
  | c :: _ => Text.isDecimal c
  | [] => false

/-- The digits at the start of a text, an underscore between two of them being skipped, and what
follows them.  The flag says whether a digit stands right before the text. -/
def takeDigitsAfter (digit : Bool) : List Char → List Nat × List Char
  | [] => ([], [])
  | c :: cs =>
    match Text.decimalValue? c with
    | some d =>
      let (ds, rest) := takeDigitsAfter true cs
      (d :: ds, rest)
    | none =>
      if c = '_' ∧ digit ∧ startsWithDigit cs then takeDigitsAfter false cs
      else ([], c :: cs)

/-- The digits at the start of a text, and what follows them. -/
def takeDigits (cs : List Char) : List Nat × List Char := takeDigitsAfter false cs

/-- The number that a list of decimal digits writes. -/
def ofDigits (ds : List Nat) : Nat := ds.foldl (fun n d => 10 * n + d) 0

def readInt (cs : List Char) : IntReading :=
  let (negative, body) := takeSign (unpad cs)
  match takeDigits body with
  | ([], _) => .malformed
  | (ds, []) =>
    if digitLimit < ds.length then .tooLong ds.length
    else .value (if negative then -(ofDigits ds : Int) else ofDigits ds)
  | _ => .malformed

/-- The double nearest to `digits * 10 ^ exponent`.  A number far beyond the range of doubles is
decided by its size alone. -/
def ofDecimal (negative : Bool) (digits : Nat) (exponent : Int) : Float :=
  let size := (digits.log2 : Int) * 30103 / 100000 + exponent
  if digits = 0 then nearest negative 0 1
  else if 400 < size then infinity negative
  else if size < -400 then nearest negative 0 1
  else if 0 ≤ exponent then nearest negative (digits * pow10 exponent.toNat) 1
  else nearest negative digits (pow10 (-exponent).toNat)

/-- The exponent part, if it is well formed, and what follows it. -/
def takeExponent : List Char → Int × List Char
  | c :: cs =>
    if c = 'e' ∨ c = 'E' then
      let (negative, body) := takeSign cs
      match takeDigits body with
      | ([], _) => (0, c :: cs)
      | (ds, rest) => (if negative then -(ofDigits ds : Int) else ofDigits ds, rest)
    else (0, c :: cs)
  | [] => (0, [])

def readFloat? (cs : List Char) : Option Float :=
  let (negative, body) := takeSign (unpad cs)
  let word := String.ofList (Text.lowerAscii body)
  if word = "inf" ∨ word = "infinity" then some (infinity negative)
  else if word = "nan" then some notANumber
  else
    let (whole, afterWhole) := takeDigits body
    let (places, afterPoint) :=
      match afterWhole with
      | '.' :: rest => takeDigits rest
      | rest => ([], rest)
    if whole.isEmpty && places.isEmpty then none
    else
      match takeExponent afterPoint with
      | (e, []) =>
        some (ofDecimal negative (ofDigits (whole ++ places)) (e - (places.length : Int)))
      | _ => none

end Wireboard.Number
