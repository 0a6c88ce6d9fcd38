import Wireboard.Fault
import Wireboard.Number.Reading
import Wireboard.Value.Basic

/-!
# Paths into values

A path is a row of steps with dots between them.  A step is a key, or a key with an index in
brackets.  A key selects a field of an object, and a key of digits also a position of a list; an
indexed key selects a position of the list under the key.  What is not there is null, and null
stays null.
-/

namespace Wireboard.Http

inductive PathStep where
  | key (name : List Char)
  | indexed (name digits : List Char)
deriving DecidableEq, Repr

/-- The key and the digits of an indexed key.  The key has at least one character and no line
break; one line break may follow the bracket. -/
def indexed? (cs : List Char) : Option (List Char × List Char) :=
  let body := if cs.getLast? = some '\n' then cs.dropLast else cs
  match body.reverse with
  | ']' :: rest =>
    let digits := (rest.takeWhile Text.isDecimal).reverse
    match rest.dropWhile Text.isDecimal with
    | '[' :: name =>
      if digits.isEmpty || name.isEmpty || name.contains '\n' then none
      else some (name.reverse, digits)
    | _ => none
  | _ => none

def PathStep.ofPiece (cs : List Char) : PathStep :=
  match indexed? cs with
  | some (name, digits) => .indexed name digits
  | none => .key cs

def pathSteps (path : String) : List PathStep := (Text.splitAt '.' path.toList).map PathStep.ofPiece

def positionOf (digits : List Char) : Except Fault Int :=
  match Number.readInt digits with
  | .value n => .ok n
  | .tooLong count => .error (.tooLongToRead count)
  | .malformed => .error (.notAnInt (String.ofList digits))

/-- The item at a position, null beyond the end. -/
def itemAt (items : List Value) (position : Int) : Value := items.getD position.toNat .null

def isDigits (cs : List Char) : Bool := !cs.isEmpty && cs.all Text.isDigit

def PathStep.take (v : Value) : PathStep → Except Fault Value
  | .indexed name digits => do
    let position ← positionOf digits
    match v.field? (String.ofList name) with
    | some (.list items) => return itemAt items position
    | _ => return .null
  | .key name =>
    match v with
    | .obj fields => .ok ((Table.get? fields (String.ofList name)).getD .null)
    | .list items => if isDigits name then (positionOf name).map (itemAt items) else .ok .null
    | _ => .ok .null

/-- Take the steps from a value; from null none is taken. -/
def walk (v : Value) : List PathStep → Except Fault Value
  | [] => .ok v
  | s :: rest =>
    if v = .null then .ok .null
    else
      match s.take v with
      | .ok w => walk w rest
      | .error f => .error f

def follow (v : Value) (path : String) : Except Fault Value := walk v (pathSteps path)

end Wireboard.Http
