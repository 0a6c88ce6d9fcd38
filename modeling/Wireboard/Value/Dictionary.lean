import Wireboard.Fault
import Wireboard.Value.Basic

/-!
# Dictionaries

Values filed under values, in order of insertion.  Texts are filed by their characters and numbers
by their quantity, so that one, one point zero and true share a place.  Nothing can be filed under
a list or an object.
-/

namespace Wireboard

/-- What a value is filed by. -/
inductive Key where
  | null
  | text (s : String)
  | number (q : Quantity)
  | nan (origin : Origin)
deriving DecidableEq

/-- The key of a value, if something can be filed under it. -/
def Value.key? : Value → Option Key
  | .null => some .null
  | .bool b => some (.number (.ratio (if b then 1 else 0)))
  | .int n => some (.number (.ratio n))
  | .float x => some (((Binary64.quantity? x).map Key.number).getD (.nan .written))
  | .nan o => some (.nan o)
  | .str s => some (.text s)
  | .list _ | .obj _ => none

def Value.toKey (v : Value) : Except Fault Key :=
  match v.key? with
  | some k => .ok k
  | none => .error (.notAKey v.kindName)

/-- What a text names.  Other values name nothing, and what is no key cannot even be looked up. -/
def Value.named? {α : Type} (v : Value) (find? : String → Option α) : Except Fault (Option α) := do
  match ← v.toKey with
  | .text name => return find? name
  | _ => return none

/-- Values filed under values. -/
abbrev Dictionary := List (Value × Value)

namespace Dictionary

def get? (d : Dictionary) (k : Key) : Option Value :=
  match d with
  | [] => none
  | (name, v) :: rest => if name.key? = some k then some v else get? rest k

/-- Put a value under a name.  A name that is filed already stays as it was written first. -/
def put (d : Dictionary) (name v : Value) : Dictionary :=
  match d with
  | [] => [(name, v)]
  | (n, w) :: rest => if n.key? = name.key? then (n, v) :: rest else (n, w) :: put rest name v

/-- Take the value under a key away. -/
def erase (d : Dictionary) (k : Key) : Dictionary := d.filter fun e => e.1.key? != some k

def names (d : Dictionary) : List Value := d.map (·.1)

def ofTable (t : Table Value) : Dictionary := t.map fun e => (.str e.1, e.2)

@[simp] theorem get?_nil (k : Key) : get? [] k = none := rfl

@[simp] theorem get?_put (d : Dictionary) (name v : Value) (k : Key) :
    (d.put name v).get? k = if name.key? = some k then some v else d.get? k := by
  induction d with
  | nil => rfl
  | cons e rest ih =>
    obtain ⟨n, w⟩ := e
    by_cases h : n.key? = name.key?
    · by_cases hk : name.key? = some k <;> simp [put, get?, h, hk]
    · by_cases hk : n.key? = some k
      · have : name.key? ≠ some k := fun hn => h (hk.trans hn.symm)
        simp [put, get?, hk, this, Ne.symm this]
      · simp [put, get?, h, hk, ih]

@[simp] theorem get?_erase (d : Dictionary) (j k : Key) :
    (d.erase j).get? k = if j = k then none else d.get? k := by
  induction d with
  | nil => simp [erase]
  | cons e rest ih =>
    obtain ⟨n, w⟩ := e
    unfold erase at ih ⊢
    by_cases h : n.key? = some j
    · by_cases hk : j = k
      · simpa [List.filter_cons, h, hk] using ih
      · simpa [List.filter_cons, get?, h, hk] using ih
    · by_cases hk : n.key? = some k
      · have hj : j ≠ k := fun e => h (e ▸ hk)
        simp [get?, hk, hj, Ne.symm hj]
      · simpa [List.filter_cons, get?, h, hk] using ih

end Dictionary

end Wireboard
