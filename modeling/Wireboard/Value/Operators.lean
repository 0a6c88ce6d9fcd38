import Wireboard.Value.Coerce

/-!
# Comparing and calculating

The operators of the comparing and calculating nodes.  Two texts are compared as texts, all else
as numbers.  Whole numbers are calculated exactly; with a double the calculation is one of
doubles, and a whole number that lies beyond all doubles cannot take part in it.
-/

namespace Wireboard

namespace Value

/-- A single value that can stand for a number. -/
def isScalar : Value → Bool
  | .bool _ | .int _ | .float _ | .nan _ | .str _ => true
  | _ => false

/-- Equality across numbers, texts and truth values; null equals only null. -/
def looseEquals (a b : Value) : Bool :=
  match a, b with
  | .null, .null => true
  | .null, _ | _, .null => false
  | .str s, .str t => s == t
  | _, _ =>
    if a.isScalar && b.isScalar then
      match a.toNum?, b.toNum? with
      | some x, some y => x.same y
      | _, _ => false
    else a.same b

inductive Comparison where
  | eq
  | ne
  | gt
  | lt
  | ge
  | le
deriving DecidableEq, Repr

def Comparison.ofSign? (sign : String) : Option Comparison :=
  if sign = "==" then some .eq
  else if sign = "!=" then some .ne
  else if sign = ">" then some .gt
  else if sign = "<" then some .lt
  else if sign = ">=" then some .ge
  else if sign = "<=" then some .le
  else none

/-- The first value comes before the second: two texts by their code points, all else by number.
`none` when a value cannot be taken for a number. -/
def before? (a b : Value) : Option Bool :=
  match a, b with
  | .str s, .str t => some (decide (Text.Precedes s t))
  | _, _ =>
    match a.toNum?, b.toNum? with
    | some x, some y => some (x.lt y)
    | _, _ => none

/-- The first value comes before the second, or has the same place. -/
def beforeOrAt? (a b : Value) : Option Bool :=
  match a, b with
  | .str s, .str t => some (!decide (Text.Precedes t s))
  | _, _ =>
    match a.toNum?, b.toNum? with
    | some x, some y => some (x.le y)
    | _, _ => none

/-- The outcome of a comparison; what cannot be ordered compares false. -/
def compare (c : Comparison) (a b : Value) : Bool :=
  match c with
  | .eq => looseEquals a b
  | .ne => !looseEquals a b
  | .gt => (before? b a).getD false
  | .lt => (before? a b).getD false
  | .ge => (beforeOrAt? b a).getD false
  | .le => (beforeOrAt? a b).getD false

/-- The outcome of a comparison by its sign; no sign compares false. -/
def compareBy (sign : String) (a b : Value) : Bool :=
  match Comparison.ofSign? sign with
  | some c => compare c a b
  | none => false

end Value

namespace Num

/-- The double of a number. -/
def toFloat : Num → Except Fault Float
  | .float x => .ok x
  | .int n =>
    match Binary64.ofInt? n with
    | some x => .ok x
    | none => .error .beyondDoubles

/-- Calculate exactly with whole numbers, and with doubles otherwise. -/
def combine (whole : Int → Int → Int) (double : Float → Float → Float) (a b : Num) :
    Except Fault Num :=
  match a, b with
  | .int m, .int n => .ok (.int (whole m n))
  | _, _ => do
    let x ← a.toFloat
    let y ← b.toFloat
    return .float (double x y)

/-- The sum. -/
def add : Num → Num → Except Fault Num := combine (· + ·) (· + ·)

/-- The difference. -/
def sub : Num → Num → Except Fault Num := combine (· - ·) (· - ·)

/-- The product. -/
def mul : Num → Num → Except Fault Num := combine (· * ·) (· * ·)

/-- The quotient, a double; the divisor is not zero. -/
def div (a b : Num) : Except Fault Num :=
  match a, b with
  | .int m, .int n =>
    match Binary64.ofQuotient? m n with
    | some x => .ok (.float x)
    | none => .error .quotientBeyondDoubles
  | _, _ => do
    let x ← a.toFloat
    let y ← b.toFloat
    return .float (x / y)

/-- The largest whole number that is not above the number. -/
def floor : Num → Except Fault Int
  | .int n => .ok n
  | .float x =>
    match Binary64.decode x with
    | .notANumber => .error .notANumberToInt
    | .infinite _ => .error .infiniteToInt
    | .finite p => .ok p.floor

/-- The nearest whole number, the half going to the even neighbour. -/
def round : Num → Except Fault Int
  | .int n => .ok n
  | .float x =>
    match Binary64.decode x with
    | .notANumber => .error .notANumberToInt
    | .infinite _ => .error .infiniteToInt
    | .finite p => .ok p.round

/-- The whole number on the side of zero. -/
def truncate : Num → Except Fault Int
  | .int n => .ok n
  | .float x =>
    match Binary64.decode x with
    | .notANumber => .error .notANumberToInt
    | .infinite _ => .error .infiniteToInt
    | .finite p => .ok p.truncate

end Num

namespace Value

/-- The double that a value is, or that it says as a text. -/
def toFloat (v : Value) : Except Fault Float :=
  match v with
  | .str s =>
    match Number.readFloat? s.toList with
    | some x => .ok x
    | none => .error (.notAFloat s)
  | v =>
    match v.asNum? with
    | some n => n.toFloat
    | none => .error (.notNumeric v.kindName)

/-- The number that a value is, for a comparison by a sign with a whole number before it. -/
def boundBy (sign : String) (v : Value) : Except Fault Num :=
  match v.asNum? with
  | some n => .ok n
  | none => .error (.unordered sign (Value.int 0).kindName v.kindName)

/-- The outcome of a calculation by its sign.  A quotient by zero is zero, and so is whatever has
no sign of calculation. -/
def calculate (sign : String) (a b : Value) : Except Fault Num :=
  let x := a.toNum
  let y := b.toNum
  if sign = "+" then (x.add y).map Num.normalize
  else if sign = "-" then (x.sub y).map Num.normalize
  else if sign = "*" then (x.mul y).map Num.normalize
  else if sign = "/" then
    if y.isZero then .ok (.int 0) else (x.div y).map Num.normalize
  else .ok (.int 0)

end Value

end Wireboard
