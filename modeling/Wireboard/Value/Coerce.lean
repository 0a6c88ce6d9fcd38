import Wireboard.Fault
import Wireboard.Json.Printer
import Wireboard.Number.Reading

/-!
# Forgiving conversions

Documents are drawn by hand in an editor, so a pin for numbers may receive a text and a pin for
lists may receive nothing.  These conversions are what every node uses: to a number, to an index,
to a text, to a list, to a truth value.
-/

namespace Wireboard

namespace Num

/-- A double that is a whole number becomes one; a double that is no number becomes zero. -/
def normalize : Num → Num
  | .int n => .int n
  | .float x =>
    match Binary64.decode x with
    | .notANumber => .int 0
    | .infinite _ => .float x
    | .finite p => if p.isWhole then .int p.truncate else .float x

def text : Num → String
  | .int n => Number.intText n
  | .float x => Number.floatText x

def hasText : Num → Bool
  | .int n => Number.hasText n
  | .float _ => true

end Num

namespace Value

/-- The number that a text says, if it says one: nothing at all says zero, a whole number is
preferred to a double, and `nan` says none. -/
def readNum? (s : String) : Option Num :=
  match Text.strip s.toList with
  | [] => some (.int 0)
  | cs =>
    match Number.readInt cs with
    | .value n => some (.int n)
    | _ =>
      match Number.readFloat? cs with
      | some x => if x.isNaN then none else some (.float x)
      | none => none

/-- The number that a value can be taken for. -/
def toNum? : Value → Option Num
  | .bool b => some (.int (if b then 1 else 0))
  | .int n => some (.int n)
  | .float x => if x.isNaN then none else some (.float x)
  | .str s => readNum? s
  | .null | .nan _ | .list _ | .obj _ => none

/-- The number that a value can be taken for, zero for all others. -/
def toNum (v : Value) : Num := v.toNum?.getD (.int 0)

/-- The index that a value can be taken for: a whole number. -/
def toIndex? (v : Value) : Option Int :=
  match v.toNum? with
  | some (.int n) => some n
  | some (.float x) => Binary64.whole? x
  | none => none

mutual

/-- The text of a value, whatever the size of its numbers. -/
def rawText : Value → String
  | .null => ""
  | .bool true => "true"
  | .bool false => "false"
  | .int n => Number.intText n
  | .float x => (Num.float x).normalize.text
  | .nan _ => (Num.float Binary64.notANumber).normalize.text
  | .str s => s
  | .list items => rawTextItems items
  | .obj fields => Json.line (.obj fields)

/-- The texts of the items, with commas between them. -/
def rawTextItems : List Value → String
  | [] => ""
  | [v] => rawText v
  | v :: rest => rawText v ++ "," ++ rawTextItems rest

end

/-- The text that a value can be taken for. -/
def toText (v : Value) : Except Fault String :=
  if v.hasText then .ok v.rawText else .error .tooLongToWrite

/-- The shown form of a value on its own, unless a number in it is too long. -/
def toPlain (v : Value) : Except Fault String :=
  if v.hasText then .ok v.plain else .error .tooLongToWrite

/-- The JSON text of a value on one line, unless a number in it is too long. -/
def toJson (v : Value) : Except Fault String :=
  if v.hasText then .ok (Json.line v) else .error .tooLongToWrite

/-- The indented JSON text of a value, unless a number in it is too long. -/
def toJsonIndented (v : Value) : Except Fault String :=
  if v.hasText then .ok (Json.indented v) else .error .tooLongToWrite

/-- The items of a list; any other value has none. -/
def toList : Value → List Value
  | .list items => items
  | _ => []

/-- The truth value of a value: null, false, zero, a double that is no number and the empty text
are false. -/
def isTruthy : Value → Bool
  | .null => false
  | .bool b => b
  | .int n => n != 0
  | .float x => !x.isNaN && !(Num.float x).isZero
  | .nan _ => false
  | .str s => s != ""
  | .list _ | .obj _ => true

end Value

end Wireboard
