import Wireboard.Value.Operators

/-!
# Measures

Values in messages that have room for a measure: so many seconds, so many degrees, so many percent.
Truth values count as numbers here, and whatever is none is refused.
-/

namespace Wireboard.Value

def writtenBy (code : String) (write : Float → String) (v : Value) : Except Fault String :=
  match v with
  | .str _ => .error (.notANumberFormat code)
  | v =>
    match v.asNum? with
    | some n => n.toFloat.map write
    | none => .error (.notFormattable v.kindName)

/-- Six significant digits. -/
def general (v : Value) : Except Fault String := v.writtenBy "g" (Number.generalText 6)

/-- Four places after the point. -/
def fixed (v : Value) : Except Fault String := v.writtenBy "f" (Number.fixedText 4)

/-- A share of one as a whole number of hundredths. -/
def percent (v : Value) : Except Fault Int :=
  match v with
  | .str _ | .list _ => .error (.notRoundable v.kindName)
  | v =>
    match v.asNum? with
    | some n => do (← n.mul (.int 100)).round
    | none => .error (.notMultipliable v.kindName (Value.int 0).kindName)

end Wireboard.Value
