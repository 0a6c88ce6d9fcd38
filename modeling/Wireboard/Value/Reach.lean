import Wireboard.Json.Reader
import Wireboard.Value.Coerce

/-!
# How far down one can go

To read, to copy, to show, to write or to compare values is to go through members of members, and
there is only so much room for that.  How much there is depends on what is under way already, so it
is a parameter of whatever does such things with values that come from outside.  Without a limit
everything is within reach.
-/

namespace Wireboard

def Value.isFlat : Value → Bool
  | .list items => items.isEmpty
  | .obj fields => fields.isEmpty
  | _ => true

/-- What is not too far down.  What has no members never is. -/
structure Reach where
  /-- How deep lists and objects may be nested in a text that is read. -/
  reading : Option Nat := none
  /-- The value can be copied. -/
  copies : Value → Bool := fun _ => true
  /-- The value can be shown. -/
  shows : Value → Bool := fun _ => true
  /-- The value can be written. -/
  writes : Value → Bool := fun _ => true
  /-- The values can be compared. -/
  compares : Value → Value → Bool := fun _ _ => true
  shows_flat : ∀ v, v.isFlat = true → shows v = true := by exact fun _ _ => rfl
  writes_flat : ∀ v, v.isFlat = true → writes v = true := by exact fun _ _ => rfl
  compares_flat : ∀ v w, v.isFlat = true → w.isFlat = true → compares v w = true := by
    exact fun _ _ _ _ => rfl

namespace Reach

variable (reach : Reach)

/-- What a text says, or another value if it is no JSON. -/
def readOr (text : String) (other : Value) : Except Fault Value :=
  match Json.read text reach.reading with
  | .ok v => .ok v
  | .error f => if f.isBadValue then .ok other else .error f

def copy (fields : Table Value) : Except Fault (Table Value) :=
  if reach.copies (.obj fields) then .ok fields else .error (.tooDeep .copying)

def copyEach (fields : Table Value) : Except Fault (Table Value) :=
  if fields.all fun e => reach.copies e.2 then .ok fields else .error (.tooDeep .copying)

/-- The shown form of a value. -/
def toPlain (v : Value) : Except Fault String :=
  if reach.shows v then v.toPlain else .error (.tooDeep .showing)

/-- The text that a value can be taken for. -/
def toText (v : Value) : Except Fault String :=
  if reach.writes v then v.toText else .error (.tooDeep .writing)

/-- The JSON text of a value on one line. -/
def toJson (v : Value) : Except Fault String :=
  if reach.writes v then v.toJson else .error (.tooDeep .writing)

@[simp] theorem copy_unlimited (fields : Table Value) : ({} : Reach).copy fields = .ok fields := rfl

@[simp] theorem copyEach_unlimited (fields : Table Value) :
    ({} : Reach).copyEach fields = .ok fields := by
  simp [copyEach]

@[simp] theorem toPlain_unlimited (v : Value) : ({} : Reach).toPlain v = v.toPlain := rfl

end Reach

end Wireboard
