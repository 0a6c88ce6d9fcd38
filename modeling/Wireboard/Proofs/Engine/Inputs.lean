import Wireboard.Engine.Pull

/-!
# Which pins a node asks

A node works out what it gives from the values that enter some of its pins, and which pins these are
depends on its kind alone (`NodeKind.inputs`): all of them are asked, one after the other, before
anything is worked out (`Board.evaluate_eq`).  To ask a pin is to pull the one at the other end of
the wire into it (`Board.source?`, `Board.resolve_eq`).
-/

namespace Wireboard

/-- The input pins that a node of the kind asks before it gives a value, in this order. -/
def NodeKind.inputs : NodeKind → List String
  | .concat | .mathOp | .compareValues | .andOr => ["a", "b"]
  | .listGet => ["list", "index"]
  | .listLength => ["list"]
  | .numberOf | .textOf | .negate => ["value"]
  | .geminiChat => ["prompt"]
  | _ => []

namespace Board

/-- The index that a value stands for. -/
def indexOf : Value → Option Int
  | .null => some 0
  | v => v.toIndex?

/-- What a node of a kind makes of the values that have entered its pins. -/
def combine (n : Node) : NodeKind → List Value → Except Fault Value
  | .concat, [x, y] => return .str ((← x.toText) ++ (← y.toText))
  | .mathOp, [x, y] => do
    let sign ← (n.propertyOr "operator" (.str "+")).toPlain
    return (← Value.calculate sign x y).toValue
  | .listGet, [items, index] => return (itemAt? items.toList (indexOf index)).getD .null
  | .listLength, [items] => return .int items.toList.length
  | .numberOf, [v] => return v.toNum.toValue
  | .textOf, [v] => return .str (← v.toText)
  | .compareValues, [x, y] =>
    return .bool (Value.compareBy (← (n.propertyOr "operator" (.str "==")).toPlain) x y)
  | .negate, [v] => return .bool !v.isTruthy
  | .andOr, [x, y] =>
    let isAnd := (n.propertyOr "operator" (.str "AND")).same (.str "AND")
    return if isAnd == x.isTruthy then y else x
  | _, _ => return .null

variable (b : Board)

/-- The pin that is pulled for an input pin, if there is one. -/
def source? (node pin : String) : Option PinRef :=
  match b.circuit.wireInto? node pin with
  | none => none
  | some w =>
    match b.circuit.node? w.source.node with
    | none => none
    | some _ => some w.source

/-- What is pulled for an input pin is the source of the wire into it, and has a node. -/
theorem exists_wire_of_source? {node pin : String} {p : PinRef}
    (source : b.source? node pin = some p) : ∃ w, b.circuit.wireInto? node pin = some w ∧
      w.source = p ∧ ∃ n, b.circuit.node? p.node = some n := by
  unfold source? at source
  split at source
  next => cases source
  next w into =>
    split at source
    next => cases source
    next n found =>
      cases source
      exact ⟨w, into, rfl, n, found⟩

theorem resolve_eq (node pin : String) : b.resolve node pin =
    match b.source? node pin with
    | none => pure .null
    | some p => Attempt.call (.pull p.node p.pin) := by
  unfold resolve source?
  cases b.circuit.wireInto? node pin with
  | none => rfl
  | some w =>
    dsimp only
    cases b.circuit.node? w.source.node <;> rfl

/-- Ask some input pins of a node, one after the other, and go on with their values. -/
def gather (node : String) : List String → (List Value → Attempt Value) → Attempt Value
  | [], goesOn => goesOn []
  | pin :: pins, goesOn => do
    let v ← b.resolve node pin
    gather node pins fun vs => goesOn (v :: vs)

/-- Have a chat about what has entered a node. -/
def chat (n : Node) (v : Value) : Attempt Value := do
  let prompt ← Attempt.ofExcept v.toText
  let template ← Attempt.ofExcept ((n.property "template").orElse (.str "")).toPlain
  let prompt := if template = "" then prompt else template ++ "\n\n" ++ prompt
  try
    let reply : Value ← Attempt.wait (.chat prompt)
    return reply.orElse (.str "[No response]")
  catch f =>
    b.log .warning s!"Chat request failed: {f.message}"
    return .str "[Gemini API connection failed]"

/-- What a node does once its inputs are known. -/
def conclude (n : Node) (pin : String) (kind : NodeKind) (vs : List Value) : Attempt Value :=
  match kind with
  | .concat | .mathOp | .listGet | .listLength | .numberOf | .textOf | .compareValues | .negate
  | .andOr => Attempt.ofExcept (combine n kind vs)
  | .geminiChat => b.chat n (vs.headD .null)
  | _ => b.evaluate n pin kind

/-- A value is found in two steps: the pins that the kind names are asked, and then no other. -/
theorem evaluate_eq (n : Node) (pin : String) (kind : NodeKind) :
    b.evaluate n pin kind = b.gather n.id kind.inputs (b.conclude n pin kind) := by
  have one {p : String} {f g : Value → Attempt Value} (same : ∀ v, f v = g v) :
      (b.resolve n.id p >>= f) = b.resolve n.id p >>= g := by
    rw [funext same]
  have two {p q : String} {f g : Value → Value → Attempt Value} (same : ∀ x y, f x y = g x y) :
      (b.resolve n.id p >>= fun x => b.resolve n.id q >>= f x)
        = b.resolve n.id p >>= fun x => b.resolve n.id q >>= g x :=
    one fun x => one (same x)
  cases kind with
  | concat =>
    refine two fun x y => ?_
    simp only [gather, conclude, combine]
    cases x.toText <;> cases y.toText <;> rfl
  | mathOp =>
    refine two fun x y => ?_
    simp only [gather, conclude, combine, propertyText]
    cases (n.propertyOr "operator" (.str "+")).toPlain with
    | error f => rfl
    | ok sign =>
      show (Attempt.ofExcept (Value.calculate sign x y) >>= fun r => pure r.toValue)
        = Attempt.ofExcept (Value.calculate sign x y >>= fun r => .ok r.toValue)
      cases Value.calculate sign x y <;> rfl
  | compareValues =>
    refine two fun x y => ?_
    simp only [gather, conclude, combine, propertyText]
    cases (n.propertyOr "operator" (.str "==")).toPlain <;> rfl
  | listGet =>
    refine one fun items => ?_
    simp only [gather, resolveIndex, resolve_eq]
    cases b.source? n.id "index" with
    | none => rfl
    | some p =>
      refine congrArg (Script.call (.pull p.node p.pin)) (funext fun x => ?_)
      cases x with
      | error f => rfl
      | ok v => cases v <;> rfl
  | textOf =>
    refine one fun v => ?_
    simp only [gather, conclude, combine]
    cases v.toText <;> rfl
  | _ => rfl

end Board

end Wireboard
