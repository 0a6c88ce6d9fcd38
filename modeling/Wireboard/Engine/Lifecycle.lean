import Wireboard.Engine.Execute

/-!
# Starting, stopping and events

Starting runs the chains of all start triggers, one after the other, and then sets the timers.
Stopping takes the timers away and begins a new epoch, so that the chains still under way are stale
from then on.  An event runs the chains of the triggers it matches.  Every chain takes the epoch of
the moment when it begins.
-/

namespace Wireboard

/-- The time between the ticks of a timer, in milliseconds: at least one.  A timer with an endless
interval never ticks. -/
def periodOf (interval : Value) : Except Fault (Option Rat) := do
  match (Num.float (← interval.toFloat)).quantity? with
  | some .bottom => return some 1
  | some (.ratio r) => return some (if r < 1 then 1 else r)
  | some .top | none => return none

namespace Board

variable (b : Board)

/-- Begin a new chain at a trigger. -/
def chain (node : String) : Attempt Unit := do
  Attempt.act .beginChain
  Attempt.fire node "exec"

def setTimer (n : Node) : Attempt Unit := do
  let interval := (n.property "interval").toNum
  let interval := if interval.isZero then b.config.timerInterval else interval.toValue
  let period? ← Attempt.ofExcept (periodOf interval)
  Attempt.act (.arm n.id period? (n.property "repeat" != .bool false))

def start : Attempt Unit := do
  if (← Attempt.status) = Status.started then
    Attempt.notice .warning "Runtime already started" [("app_id", .str b.appId)]
    return
  Attempt.act .markStarted
  b.log .info "Runtime started"
  (b.circuit.nodesOf "onAppStart").forM fun n => chain n.id
  if (← Attempt.status) != Status.started then return
  (b.circuit.nodesOf "onTimer").forM b.setTimer

def stop : Attempt Unit := do
  Attempt.act .markStopped
  b.log .info "Runtime stopped"

/-- Handle an event at one trigger, if it matches.  A trigger for keys matches a key or every key,
and keeps the key it was given. -/
def handleAt (target : Value) (n : Node) : Attempt Unit := do
  if n.kind = "onKeyPress" then
    let wanted := n.property "key"
    if !wanted.isVacant && !wanted.same target then return
    Attempt.remember n.id (.result target)
    chain n.id
  else if (n.property "targetId").same target then chain n.id

/-- Handle an event, unless the app is stopped. -/
def handle (type target : Value) : Attempt Unit := do
  if (← Attempt.status) = Status.stopped then
    Attempt.notice .debug "Event ignored after stop"
      [("event_type", type), ("target_id", target)]
    return
  match type with
  | .str kind => (b.circuit.nodesOf kind).forM (handleAt target)
  | _ => return

def body : Job → Attempt Value
  | .fire node pin => Attempt.void (follow (b.circuit.wiresFrom node pin))
  | .execute node pin? => Attempt.void (b.execute node pin?)
  | .pull node pin => b.pull node pin
  | .resolve node pin => b.resolve node pin
  | .iterate node index stop => Attempt.void (iterate node index stop)
  | .rounds node count limit => Attempt.void (b.rounds node count limit)
  | .chain node => Attempt.void (chain node)
  | .start => Attempt.void (b.start)
  | .stop => Attempt.void (b.stop)
  | .handle type target => Attempt.void (b.handle type target)
  | .log level message => Attempt.void (Attempt.log b.appId level message)

end Board

end Wireboard
