import Wireboard.Catalog.Nodes
import Wireboard.Circuit
import Wireboard.Engine.Script
import Wireboard.Json.Reader

/-!
# Pulling data

Data flows against the wires: whoever needs a value asks the node at the other end of the wire, and
that node asks its own inputs.  Nothing is kept, so a value that is needed twice is pulled twice.
A pull that leads back to itself ends there with null and an entry in the log; so does a pull that
fails.
-/

namespace Wireboard

/-- The number between two ends that lies at a share of the way. -/
def Num.between (low high share : Num) : Except Fault Num := do
  (← share.mul (← high.sub low)).add low

namespace Board

variable (b : Board)

def log (level : Level) (text : String) : Attempt Unit := Attempt.log b.appId level (.str text)

/-- Pull the value that enters an input pin: null if no wire does. -/
def resolve (node pin : String) : Attempt Value :=
  match b.circuit.wireInto? node pin with
  | none => return .null
  | some w =>
    match b.circuit.node? w.source.node with
    | none => return .null
    | some _ => Attempt.call (.pull w.source.node w.source.pin)

/-- The text of a property, or of another value if it is not set. -/
def propertyText (n : Node) (key : String) (other : Value) : Attempt String :=
  Attempt.ofExcept (n.propertyOr key other).toPlain

/-- The index that enters a node: zero if none does. -/
def resolveIndex (n : Node) : Attempt (Option Int) := do
  match ← b.resolve n.id "index" with
  | .null => return some 0
  | v => return v.toIndex?

def itemAt? (items : List Value) (index? : Option Int) : Option Value :=
  match index? with
  | some (.ofNat i) => items[i]?
  | _ => none

/-- The value of a number that was computed just now. -/
def computed (x : Num) : Attempt Value := do
  match x.quantity? with
  | some _ => return x.toValue
  | none => return .nan (.computed (← Attempt.act .mark))

/-- A random number as a node describes it. -/
def pullRandom (n : Node) : Attempt Value := do
  let low := ((n.properties.get? "min").getD (.int 0)).toNum
  let high := (((n.properties.get? "max").getD (.int 100)).toNum?).getD (.int 100)
  let share ← Attempt.act .random
  let x ← Attempt.ofExcept (Num.between low high share)
  if n.property "integer" = .bool false then return ← computed x
  return .int (← Attempt.ofExcept x.floor)

/-- What stored data says; nothing if it is vacant. -/
def readStored (v : Value) : Except Fault Value :=
  if v.isVacant then .ok .null
  else
    match v with
    | .str text => Json.read text
    | v => .error (.notReadable v.kindName)

/-- The data stored under the key of a node. -/
def pullStored (n : Node) : Attempt Value := do
  let key ← Attempt.ofExcept (b.config.storageKey (n.property "key"))
  try
    Attempt.ofExcept (readStored (← Attempt.ofExcept (← Attempt.act (.load key))))
  catch f =>
    b.log .error s!"Load failed: {f.message}"
    return .null

def pullChat (n : Node) : Attempt Value := do
  let prompt ← Attempt.ofExcept (← b.resolve n.id "prompt").toText
  let template ← Attempt.ofExcept ((n.property "template").orElse (.str "")).toPlain
  let prompt := if template = "" then prompt else template ++ "\n\n" ++ prompt
  try
    let reply : Value ← Attempt.wait (.chat prompt)
    return reply.orElse (.str "[No response]")
  catch f =>
    b.log .warning s!"Chat request failed: {f.message}"
    return .str "[Gemini API connection failed]"

/-- The parameter of a function, in the innermost call of it. -/
def pullParameter (n : Node) (pin : String) : Attempt Value := do
  if pin = "param1" || pin = "param2" then
    let name ← Attempt.ofExcept (Circuit.functionName b.config n)
    match ← Attempt.act (.frame name) with
    | none => return .null
    | some (f : Frame) => return (f.params.get? pin).getD .null
  else return .null

/-- What a node of a kind gives at an output pin. -/
def evaluate (n : Node) (pin : String) : NodeKind → Attempt Value
  | .onKeyPress => do
    if pin = "key" then return (← Attempt.scratch n.id).result.orElse (.str "") else return .null
  | .stringLiteral => return match n.property "value" with
    | .null => .str ""
    | v => v
  | .numberLiteral => return (n.property "value").toNum.toValue
  | .getVariable => do Attempt.act (.lookup (← propertyText n "varName" (.str "myVar")))
  | .getInputValue => do
    return (← Attempt.emit (.input (← propertyText n "targetId" (.str "")))).getD (.str "")
  | .concat => do
    let x ← b.resolve n.id "a"
    let y ← b.resolve n.id "b"
    return .str ((← Attempt.ofExcept x.toText) ++ (← Attempt.ofExcept y.toText))
  | .mathOp => do
    let x ← b.resolve n.id "a"
    let y ← b.resolve n.id "b"
    let sign ← propertyText n "operator" (.str "+")
    return (← Attempt.ofExcept (Value.calculate sign x y)).toValue
  | .createList => return .list []
  | .listAdd | .listRemove => do
    return match (← Attempt.scratch n.id).result with
      | .null => .list []
      | v => v
  | .listGet => do
    let items ← b.resolve n.id "list"
    let index? ← b.resolveIndex n
    return (itemAt? items.toList index?).getD .null
  | .listLength => return .int (← b.resolve n.id "list").toList.length
  | .numberOf => return (← b.resolve n.id "value").toNum.toValue
  | .textOf => return .str (← Attempt.ofExcept (← b.resolve n.id "value").toText)
  | .randomNumber => pullRandom n
  | .compareValues => do
    let x ← b.resolve n.id "a"
    let y ← b.resolve n.id "b"
    return .bool (Value.compareBy (← propertyText n "operator" (.str "==")) x y)
  | .negate => return .bool !(← b.resolve n.id "value").isTruthy
  | .andOr => do
    let x ← b.resolve n.id "a"
    let y ← b.resolve n.id "b"
    let isAnd := (n.propertyOr "operator" (.str "AND")).same (.str "AND")
    return if isAnd == x.isTruthy then y else x
  | .forLoop => return ((← Attempt.scratch n.id).index?.map Num.toValue).getD (.int 0)
  | .loadData => b.pullStored n
  | .getClipboard => return (← Attempt.scratch n.id).result.orElse (.str "")
  | .getLocation => do
    let s ← Attempt.scratch n.id
    return match if pin = "lon" then s.longitude else s.latitude with
      | .null => .int 0
      | v => v
  | .getBattery => do
    let s ← Attempt.scratch n.id
    return if pin = "charging" then .bool (s.charging?.getD false) else .int (s.level?.getD 0)
  | .geminiChat => b.pullChat n
  | .httpRequest => do
    let s ← Attempt.scratch n.id
    return if pin = "status" then s.status.orElse (.int 0) else s.result
  | .functionDefine => b.pullParameter n pin
  | .functionCall => return (← Attempt.scratch n.id).result
  | _ => return .null

def pull (node pin : String) : Attempt Value := do
  match b.circuit.node? node with
  | none => return .null
  | some n =>
    match NodeKind.ofName? n.kind with
    | none => return .null
    | some kind =>
      let key := Context.pullKey n.id pin
      if ← Attempt.enter key then
        let v ← try b.evaluate n pin kind
          catch f =>
            b.log .error s!"Evaluation error in {n.kind} ({n.id}): {f.message}"
            pure .null
        Attempt.act (.leave key)
        return v
      else
        b.log .error s!"Data cycle detected at {n.kind} ({n.id})"
        return .null

end Board

end Wireboard
