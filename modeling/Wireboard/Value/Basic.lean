import Wireboard.Table
import Wireboard.Number.Binary64

/-!
# Values

What flows along data wires, sits in properties and is saved: nothing, truth values, whole
numbers of any size, doubles, texts, lists and objects.  Whole numbers and doubles are kept apart
everywhere, since their texts differ.

A double that is no number equals nothing, not even itself.  Inside a list or an object it is the
same as itself all the same, so it carries where it comes from.
-/

namespace Wireboard

/-- Where a double that is no number comes from. -/
inductive Origin where
  /-- A text; all texts share one. -/
  | written
  /-- Whoever uses the program; each of theirs is one of its own. -/
  | given (n : Nat)
  /-- A calculation; the outcome of each is one of its own. -/
  | computed (n : Nat)
deriving DecidableEq, Repr

/-- A dynamic value. -/
inductive Value where
  | null
  | bool (b : Bool)
  | int (n : Int)
  | float (x : Float)
  /-- A double that is no number. -/
  | nan (origin : Origin)
  | str (s : String)
  | list (items : List Value)
  | obj (fields : List (String × Value))
deriving Inhabited

/-- A number: whole, or a double. -/
inductive Num where
  | int (n : Int)
  | float (x : Float)
deriving DecidableEq, Inhabited

namespace Value

mutual

/-- Values that are built alike. -/
def decEq : (a b : Value) → Decidable (a = b)
  | .null, .null => isTrue rfl
  | .bool a, .bool b => decidable_of_iff (a = b) (by simp)
  | .int a, .int b => decidable_of_iff (a = b) (by simp)
  | .float a, .float b => decidable_of_iff (a = b) (by simp)
  | .nan a, .nan b => decidable_of_iff (a = b) (by simp)
  | .str a, .str b => decidable_of_iff (a = b) (by simp)
  | .list a, .list b =>
    match decEqList a b with
    | isTrue h => isTrue (by rw [h])
    | isFalse h => isFalse (by simpa using h)
  | .obj a, .obj b =>
    match decEqFields a b with
    | isTrue h => isTrue (by rw [h])
    | isFalse h => isFalse (by simpa using h)
  | .null, .bool _ | .null, .int _ | .null, .float _ | .null, .nan _ | .null, .str _
  | .null, .list _ | .null, .obj _ | .bool _, .null | .bool _, .int _ | .bool _, .float _
  | .bool _, .nan _ | .bool _, .str _ | .bool _, .list _ | .bool _, .obj _ | .int _, .null
  | .int _, .bool _ | .int _, .float _ | .int _, .nan _ | .int _, .str _ | .int _, .list _
  | .int _, .obj _ | .float _, .null | .float _, .bool _ | .float _, .int _ | .float _, .nan _
  | .float _, .str _ | .float _, .list _ | .float _, .obj _ | .nan _, .null | .nan _, .bool _
  | .nan _, .int _ | .nan _, .float _ | .nan _, .str _ | .nan _, .list _ | .nan _, .obj _
  | .str _, .null | .str _, .bool _ | .str _, .int _ | .str _, .float _ | .str _, .nan _
  | .str _, .list _ | .str _, .obj _ | .list _, .null | .list _, .bool _ | .list _, .int _
  | .list _, .float _ | .list _, .nan _ | .list _, .str _ | .list _, .obj _ | .obj _, .null
  | .obj _, .bool _ | .obj _, .int _ | .obj _, .float _ | .obj _, .nan _ | .obj _, .str _
  | .obj _, .list _ => isFalse (by simp)

def decEqList : (a b : List Value) → Decidable (a = b)
  | [], [] => isTrue rfl
  | [], _ :: _ | _ :: _, [] => isFalse (by simp)
  | x :: xs, y :: ys =>
    match decEq x y, decEqList xs ys with
    | isTrue h, isTrue hs => isTrue (by rw [h, hs])
    | isFalse h, _ => isFalse (by simp [h])
    | _, isFalse hs => isFalse (by simp [hs])

/-- Fields that are built alike, in the same order. -/
def decEqFields : (a b : List (String × Value)) → Decidable (a = b)
  | [], [] => isTrue rfl
  | [], _ :: _ | _ :: _, [] => isFalse (by simp)
  | (k, x) :: xs, (l, y) :: ys =>
    if hk : k = l then
      match decEq x y, decEqFields xs ys with
      | isTrue h, isTrue hs => isTrue (by rw [hk, h, hs])
      | isFalse h, _ => isFalse (by simp [h])
      | _, isFalse hs => isFalse (by simp [hs])
    else isFalse (by simp [hk])

end

instance : DecidableEq Value := decEq

/-- The field of an object; any other value has none. -/
def field? (v : Value) (name : String) : Option Value :=
  match v with
  | .obj fields => Table.get? fields name
  | _ => none

/-- Nothing worth keeping: null, false, zero, and whatever is empty. -/
def isVacant : Value → Bool
  | .null => true
  | .bool b => !b
  | .int n => n == 0
  | .float x => x == 0.0
  | .nan _ => false
  | .str s => s == ""
  | .list items => items.isEmpty
  | .obj fields => fields.isEmpty

/-- The value, or another one in place of a vacant value. -/
def orElse (v other : Value) : Value := if v.isVacant then other else v

/-- The number a value is: truth values count as one and zero. -/
def asNum? : Value → Option Num
  | .bool b => some (.int (if b then 1 else 0))
  | .int n => some (.int n)
  | .float x => some (.float x)
  | .nan _ => some (.float Binary64.notANumber)
  | _ => none

def kindName : Value → String
  | .null => "NoneType"
  | .bool _ => "bool"
  | .int _ => "int"
  | .float _ | .nan _ => "float"
  | .str _ => "str"
  | .list _ => "list"
  | .obj _ => "dict"

end Value

def Num.toValue : Num → Value
  | .int n => .int n
  | .float x => .float x

/-- The place of a number on the line. -/
def Num.quantity? : Num → Option Quantity
  | .int n => some (.ratio n)
  | .float x => Binary64.quantity? x

namespace Num

/-- The numbers are equal as quantities. -/
def same (a b : Num) : Bool :=
  match a.quantity?, b.quantity? with
  | some p, some q => decide (p = q)
  | _, _ => false

/-- The first number is less than the second. -/
def lt (a b : Num) : Bool :=
  match a.quantity?, b.quantity? with
  | some p, some q => p.lt q
  | _, _ => false

/-- The first number is at most the second. -/
def le (a b : Num) : Bool := a.lt b || a.same b

def isZero (a : Num) : Bool := a.same (.int 0)

end Num

namespace Value

/-- The values are one double that is no number. -/
def sameNan : Value → Value → Bool
  | .nan o, .nan p => o == p
  | _, _ => false

mutual

/-- The values are equal: numbers by quantity, objects whatever the order of their fields. -/
def same : Value → Value → Bool
  | .null, .null => true
  | .str a, .str b => a == b
  | .list a, .list b => sameItems a b
  | .obj a, .obj b => a.length == b.length && sameFields a b
  | .bool a, b => sameNum (.int (if a then 1 else 0)) b
  | .int a, b => sameNum (.int a) b
  | .float a, b => sameNum (.float a) b
  | _, _ => false
where
  /-- The value is that number. -/
  sameNum (a : Num) (b : Value) : Bool :=
    match b.asNum? with
    | some n => a.same n
    | none => false

/-- The lists are equal item by item; what is no number is itself there. -/
def sameItems : List Value → List Value → Bool
  | [], [] => true
  | x :: xs, y :: ys => (sameNan x y || same x y) && sameItems xs ys
  | _, _ => false

/-- Every field of the first table is in the second with an equal value. -/
def sameFields : List (String × Value) → List (String × Value) → Bool
  | [], _ => true
  | (k, v) :: rest, other =>
    (match Table.get? other k with
      | some w => sameNan v w || same v w
      | none => false) && sameFields rest other

end

/-- The values are equal inside of others. -/
def alike (a b : Value) : Bool := sameNan a b || same a b

end Value

end Wireboard
