import Wireboard.Engine.Pull
import Wireboard.Value.Measure

/-!
# Executing nodes

Control flows along the wires: a node that a wire reaches does what it is for and then runs the
wires of the output it chooses.  Most nodes go on at `exec`; some stop the chain there, above all
when the app was stopped while they waited for the host.

Hosts may fail.  A node for hardware then keeps default values and goes on; a node for the net goes
on at `execError` instead.  Whatever else fails inside a node is written into the log, and the chain
goes on with the next wire.
-/

namespace Wireboard

namespace Board

variable (b : Board)

/-- Tell the listeners something, unless the chain is stale. -/
def display (c : Callback) : Attempt Unit := do
  if ← Attempt.isStale then return
  discard (Attempt.emit c)

/-- Show an alert, unless the chain is stale.  Somebody has to listen: a notice cannot take the
place of the alert, because its context would name the message twice. -/
def alert (text : String) : Attempt Unit := do
  if ← Attempt.isStale then return
  if (← Attempt.emit (.alert text)).isNone then throw (.contextClash Level.warning.word "message")

def variableName (n : Node) : Attempt String := propertyText n "varName" (.str "myVar")

/-- Set a variable, unless the chain is stale. -/
def runSetVariable (n : Node) : Attempt Bool := do
  let v ← b.resolve n.id "value"
  if ← Attempt.isStale then return false
  Attempt.act (.assign (← variableName n) v)
  return true

/-- Store a value. -/
def runSave (n : Node) : Attempt Bool := do
  let v ← b.resolve n.id "value"
  let key ← Attempt.ofExcept (b.config.storageKey (n.property "key"))
  try
    let text ← Attempt.ofExcept v.toJson
    Attempt.ofExcept (← Attempt.act (.save key text))
    b.log .info s!"Saved: {key}"
  catch f => b.log .error s!"Save failed: {f.message}"
  return true

def runDelete (n : Node) : Attempt Bool := do
  let key ← Attempt.ofExcept (b.config.storageKey (n.property "key"))
  try
    Attempt.ofExcept (← Attempt.act (.remove key))
    b.log .info s!"Deleted: {key}"
  catch f => b.log .error s!"Delete failed: {f.message}"
  return true

/-- Put an item at the end of a list. -/
def runListAdd (n : Node) : Attempt Bool := do
  let items ← b.resolve n.id "list"
  let item ← b.resolve n.id "item"
  Attempt.remember n.id (.result (.list (items.toList ++ [item])))
  return true

def withoutItem (items : List Value) (index? : Option Int) : List Value :=
  match index? with
  | some (.ofNat i) => items.eraseIdx i
  | _ => items

/-- Take an item out of a list. -/
def runListRemove (n : Node) : Attempt Bool := do
  let items ← b.resolve n.id "list"
  let index? ← b.resolveIndex n
  Attempt.remember n.id (.result (.list (withoutItem items.toList index?)))
  return true

def runGetClipboard (n : Node) : Attempt Bool := do
  let outcome ← Attempt.capture (Attempt.wait .readClipboard)
  if ← Attempt.isStale then return false
  match outcome with
  | .ok text =>
    Attempt.remember n.id (.result text)
    b.log .info "Clipboard read"
  | .error f =>
    Attempt.remember n.id (.result (.str ""))
    b.log .warning s!"Clipboard read failed: {f.message}"
  return true

def runSetClipboard (n : Node) : Attempt Bool := do
  let v ← b.resolve n.id "value"
  let outcome ← Attempt.capture do Attempt.wait (.writeClipboard (← Attempt.ofExcept v.toText))
  if ← Attempt.isStale then return false
  match outcome with
  | .ok _ => b.log .info "Copied to clipboard"
  | .error f => b.log .warning s!"Clipboard write failed: {f.message}"
  return true

/-- Ask where we are. -/
def runGetLocation (n : Node) : Attempt Bool := do
  let outcome ← Attempt.capture (Attempt.wait (.position b.config.geolocationTimeout))
  if ← Attempt.isStale then return false
  match outcome with
  | .ok (p : Position) =>
    Attempt.remember n.id (.latitude p.latitude)
    Attempt.remember n.id (.longitude p.longitude)
    let latitude ← Attempt.ofExcept p.latitude.fixed
    let longitude ← Attempt.ofExcept p.longitude.fixed
    b.log .info s!"Location: {latitude}, {longitude}"
  | .error f =>
    Attempt.remember n.id (.latitude (.int 0))
    Attempt.remember n.id (.longitude (.int 0))
    b.log .warning s!"GPS unavailable: {f.message}"
  return true

def runGetBattery (n : Node) : Attempt Bool := do
  let outcome ← Attempt.capture (Attempt.wait .battery)
  if ← Attempt.isStale then return false
  match outcome with
  | .ok (battery : Battery) =>
    let percent ← Attempt.ofExcept battery.level.percent
    let charging := !battery.charging.isVacant
    Attempt.remember n.id (.level percent)
    Attempt.remember n.id (.charging charging)
    let state := if charging then "charging" else "discharging"
    let percent ← Attempt.ofExcept (Value.int percent).toPlain
    b.log .info s!"Battery: {percent}% ({state})"
  | .error f =>
    Attempt.remember n.id (.level 0)
    Attempt.remember n.id (.charging false)
    b.log .warning s!"Battery info unavailable: {f.message}"
  return true

/-- How an attempt to notify the user ends. -/
inductive Notified where
  | sent
  | forbidden
  | stale
deriving DecidableEq, Repr

/-- Notify the user: ask for permission if it is not settled, then show the notification. -/
def notifyUser (title body : String) : Attempt Notified := do
  let held ← Attempt.ofExcept (← Attempt.act .permission)
  let settled := held == Permission.granted || held == Permission.denied
  let permission : Value ← if settled then pure held else Attempt.wait .permission
  if ← Attempt.isStale then return .stale
  if permission != Permission.granted then
    b.log .warning s!"Notification not permitted: {title}"
    return .forbidden
  Attempt.wait (.notify title body)
  return .sent

def runNotification (n : Node) : Attempt Bool := do
  let body ← Attempt.ofExcept (← b.resolve n.id "body").toText
  let title ← propertyText n "title" b.config.notificationTitle
  match ← Attempt.capture (b.notifyUser title body) with
  | .ok .sent =>
    b.log .info s!"Notification sent: {title}"
    return true
  | .ok .forbidden => return true
  | .ok .stale => return false
  | .error f =>
    if ← Attempt.isStale then return false
    b.log .warning s!"Notification failed: {f.message}"
    return true

/-- Call a function: the body runs in a frame of its own, which is taken away however the body
ends. -/
def runFunctionCall (n : Node) : Attempt Bool := do
  let name ← Attempt.ofExcept (Circuit.functionName b.config n)
  match b.circuit.functions.get? name with
  | none =>
    b.log .error s!"Function '{name}' not found"
    return false
  | some entry =>
    let depth : Nat ← Attempt.act .depth
    let most ← Attempt.ofExcept (b.config.maxCallDepth.boundBy ">=")
    if most.le (.int depth) then
      let limit ← Attempt.ofExcept b.config.maxCallDepth.toPlain
      b.log .error s!"Function '{name}' exceeded max call depth ({limit})"
      return false
    let x ← b.resolve n.id "param1"
    let y ← b.resolve n.id "param2"
    Attempt.act (.push { function := name, params := [("param1", x), ("param2", y)] })
    let outcome ← Attempt.capture (Attempt.call (.execute entry none))
    let result ← Attempt.act .pop
    discard (Attempt.ofExcept outcome)
    if ← Attempt.isStale then return false
    Attempt.remember n.id (.result result)
    b.log .info s!"Function '{name}' completed"
    return true

/-- What a node of a kind does before it goes on at `exec`, and whether it goes on; `none` for
kinds that choose their outputs themselves. -/
def run? (n : Node) : NodeKind → Option (Attempt Bool)
  | .setText => some do
    let v ← b.resolve n.id "value"
    let target ← propertyText n "targetId" (.str "")
    display (.setText target (← Attempt.ofExcept v.toText))
    return true
  | .setStyle => some do
    let v ← b.resolve n.id "value"
    let target ← propertyText n "targetId" (.str "")
    let property ← propertyText n "property" (.str "color")
    display (.setStyle target property (← Attempt.ofExcept v.toText))
    return true
  | .showAlert => some do
    match ← b.resolve n.id "message" with
    | .null => alert "Alert"
    | v => alert (← Attempt.ofExcept v.toText)
    return true
  | .logMessage => some do
    let v ← b.resolve n.id "message"
    b.log .info (← Attempt.ofExcept v.toText)
    return true
  | .setVariable => some (b.runSetVariable n)
  | .navigatePage => some do
    let page ← propertyText n "pageId" b.config.pageId
    b.log .info s!"Navigate to page: {page}"
    display (.navigate page)
    return true
  | .listAdd => some (b.runListAdd n)
  | .listRemove => some (b.runListRemove n)
  | .saveData => some (b.runSave n)
  | .deleteData => some (b.runDelete n)
  | .getClipboard => some (b.runGetClipboard n)
  | .setClipboard => some (b.runSetClipboard n)
  | .getLocation => some (b.runGetLocation n)
  | .getBattery => some (b.runGetBattery n)
  | .sendNotification => some (b.runNotification n)
  | .geminiChat | .functionDefine => some (return true)
  | .functionCall => some (b.runFunctionCall n)
  | _ => none

/-- The headers that a property describes: an object, or the text of one. -/
def headersOf (reach : Reach) (v : Value) : Except Fault (Table String) := do
  let v ← match v with
    | .str s => reach.readOr (if s = "" then "\x7b\x7d" else s) .null
    | v => pure v
  match v with
  | .obj fields => (fields : Table Value).mapM fun e => (reach.toText e.2).map (Prod.mk e.1)
  | _ => return []

/-- The body that a value stands for: what a text says if it is JSON, else the value itself. -/
def bodyOf (reach : Reach) (v : Value) : Except Fault Value :=
  match v with
  | .str s => reach.readOr s v
  | v => .ok v

/-- What a request of a method carries for a value: one that gets something carries nothing. -/
def bodyFor (reach : Reach) (method : String) (v : Value) : Except Fault Value :=
  if v.isTruthy && method != "GET" then bodyOf reach v else .ok .null

def requestOf (n : Node) (url body : Value) : Except Fault Http.Request := do
  let method := Text.upper (← b.reach.toPlain (n.propertyOr "method" (.str "GET")))
  let url ← b.reach.toText ((url.orElse (n.property "url")).orElse (.str ""))
  let headers ← headersOf b.reach (n.property "headers")
  let body ← bodyFor b.reach method body
  let path ← b.reach.toPlain ((n.property "jsonPath").orElse (.str ""))
  return {
    url := .str url
    method := .str method
    headers := .obj (headers.map fun e => (e.1, .str e.2))
    body
    path := .str path }

/-- Make a request to the net, and go on at `exec` or at `execError`. -/
def runHttp (n : Node) : Attempt Unit := do
  let url ← b.resolve n.id "url"
  let body ← b.resolve n.id "body"
  let request ← Attempt.ofExcept (b.requestOf n url body)
  b.log .info s!"HTTP {request.method.plain} → {request.url.plain}"
  let outcome ← Attempt.capture (Attempt.wait (.http request))
  if ← Attempt.isStale then return
  match outcome with
  | .ok (response : Http.Response) =>
    Attempt.remember n.id (.result response.data)
    Attempt.remember n.id (.status response.status)
    let status ← Attempt.ofExcept response.status.toPlain
    let statusText ← Attempt.ofExcept response.statusText.toPlain
    let line := s!"HTTP {status} {statusText}"
    b.log .info (String.ofList (Text.stripEnd line.toList))
    Attempt.fire n.id "exec"
  | .error f =>
    b.log .error s!"HTTP Error: {f.message}"
    Attempt.remember n.id (.result .null)
    Attempt.remember n.id (.status (.int 0))
    Attempt.fire n.id "execError"

/-- Return a value from the innermost call. -/
def runReturn (n : Node) : Attempt Unit := do
  let v ← b.resolve n.id "value"
  let returned : Bool ← Attempt.act (.setResult v)
  if !returned then b.log .warning s!"Return outside of a function call ({n.id})"

/-- Run the rounds of a counting loop from an index on, and then go on at `done`. -/
def iterate (node : String) (index stop : Num) : Attempt Unit := do
  if index.lt stop then
    if ← Attempt.isStale then return
    Attempt.remember node (.index index)
    Attempt.fire node "loop"
    discard (Attempt.call (.iterate node (← Attempt.ofExcept (index.add (.int 1))) stop))
  else Attempt.fire node "done"

/-- Run the rounds of a conditional loop after some rounds, and then go on at `done`. -/
def rounds (node : String) (count : Nat) (limit : Value) : Attempt Unit := do
  let most ← Attempt.ofExcept (limit.boundBy "<")
  if (Num.int count).lt most then
    if ← Attempt.isStale then return
    if (← b.resolve node "condition").isTruthy then
      Attempt.fire node "loop"
      discard (Attempt.call (.rounds node (count + 1) limit))
    else Attempt.fire node "done"
  else
    if most.le (.int count) then
      let limit ← Attempt.ofExcept limit.toPlain
      b.log .warning s!"While loop reached max iterations ({limit})"
    Attempt.fire node "done"

/-- What a node of a kind does when a wire reaches it. -/
def perform (n : Node) (kind : NodeKind) : Attempt Unit := do
  match b.run? n kind with
  | some run => if ← run then Attempt.fire n.id "exec"
  | none =>
    match kind with
    | .ifCondition =>
      let condition ← b.resolve n.id "condition"
      Attempt.fire n.id (if condition.isTruthy then "true" else "false")
    | .forLoop =>
      let first ← b.resolve n.id "start"
      let stop ← b.resolve n.id "end"
      discard (Attempt.call (.iterate n.id first.toNum stop.toNum))
    | .whileLoop =>
      let limit := (n.property "maxIterations").toNum
      let limit := if limit.isZero then b.config.maxIterations else limit.toValue
      discard (Attempt.call (.rounds n.id 0 limit))
    | .httpRequest => b.runHttp n
    | .functionReturn => b.runReturn n
    | _ => return

/-- Execute a node that a wire has reached.  A node that is not there, or of an unknown kind, does
nothing. -/
def execute (node : String) (pin? : Option String) : Attempt Unit := do
  match b.circuit.node? node with
  | none => return
  | some n =>
    match NodeKind.ofName? n.kind with
    | none => return
    | some kind =>
      Attempt.notice .debug "execute node" [("node_id", .str node), ("node_type", .str n.kind),
        ("category", .str kind.definition.category.name), ("pin", (pin?.map .str).getD .null)]
      try b.perform n kind
      catch f => b.log .error s!"Error in node {n.kind} ({node}): {f.message}"

/-- Run wires one after the other, as long as the chain is not stale. -/
def follow : List Wire → Attempt Unit
  | [] => return
  | w :: rest => do
    if ← Attempt.isStale then return
    discard (Attempt.call (.execute w.target.node (some w.target.pin)))
    follow rest

end Board

end Wireboard
