import Wireboard.Engine.Lifecycle
import Wireboard.Engine.Perform

/-!
# Steps of the machine

One step either moves the strand that is running by one instruction of its script, or takes the
first turn of the queue.  A strand that waits for an answer is set aside with the call it waits for.
-/

namespace Wireboard.Machine

variable {σ : Type}

/-! ## Requests -/

/-- How long a strand waits for an answer. -/
inductive Patience where
  /-- For as long as it takes. -/
  | endless
  /-- Up to a time, under a limit. -/
  | until (deadline? : Option Rat)
  /-- Until the answer could have been given at once. -/
  | brief
  /-- Not at all. -/
  | none
  /-- The limit is no length of time. -/
  | faulty (f : Fault)
deriving DecidableEq

/-- How long a strand waits, given the limit in seconds; null is no limit.  A limit that is no
number is over as soon as anybody looks at the clock. -/
def patience (now : Rat) (limit : Value) : Patience :=
  match limit, limit.asNum? with
  | .null, _ => .endless
  | _, none => .faulty (.unordered "<=" limit.kindName (Value.int 0).kindName)
  | _, some limit =>
    match limit.toFloat with
    | .error f => if limit.lt (.int 0) then .none else .faulty f
    | .ok x =>
      match Binary64.quantity? x with
      | some .bottom => .none
      | some (.ratio r) => if r ≤ 0 then .none else .until (some (now + r * 1000))
      | some .top => .until none
      | none => .brief

/-- How long a strand waits for the answer to a request. -/
def patienceFor (m : Machine σ) : Request → Patience
  | .position limit => patience m.now limit
  | _ => .endless

def ask (env : Surroundings σ) (m : Machine σ) (r : Request) : Answer r.Reply × Machine σ :=
  let (answer, happenings, s) := env.ask m.outside r
  (answer, { m with outside := s }.witnessAll happenings)

/-- Let a strand make a request.  A look-up under a time limit is a task of its own: other strands
come first, and so they do again before the strand learns of the answer. -/
def request (env : Surroundings σ) (m : Machine σ) (s : Strand) (r : Request)
    (next : Except Fault r.Reply → Code) : Machine σ :=
  let call : Call := { request := r, ticket := 0, limited := true, strand := s, next }
  match m.patienceFor r with
  | .endless =>
    match m.ask env r with
    | (.now reply, m) => { m with running? := some { s with code := next reply } }
    | (.later ticket, m) =>
      { m with running? := none, calls := m.calls ++ [{ request := r, ticket, strand := s, next }] }
  | .until deadline? => { m with running? := none }.enqueue (.lookUp { call with deadline? })
  | .brief => { m with running? := none }.enqueue (.lookUp { call with brief := true })
  | .none => { m with running? := none }.enqueue (.run 2 { s with code := next (.error .timedOut) })
  | .faulty f => { m with running? := some { s with code := next (.error f) } }

/-! ## Steps -/

def finish (m : Machine σ) (s : Strand) (r : Except Fault Value) : Machine σ :=
  let m := { m with running? := none }
  let m := match s.label? with
    | some label => { m with finished := (label, r) :: m.finished }
    | none => m
  if s.tracked then m.enqueue (.retire s.id) else m

def stepStrand (b : Board) (env : Surroundings σ) (m : Machine σ) (s : Strand) : Machine σ :=
  match s.code with
  | .ret r =>
    match s.stack with
    | [] => m.finish s r
    | next :: stack => { m with running? := some { s with code := next r, stack } }
  | .act a next =>
    let (reply, c, m) := perform b env m s.context a
    { m with running? := some { s with context := c, code := next reply } }
  | .wait r next => m.request env s r next
  | .call j next =>
    { m with running? := some { s with code := (b.body j).run, stack := next :: s.stack } }

/-- Strike a strand off; whoever has waited for it alone looks again. -/
def retire (m : Machine σ) (id : Nat) : Machine σ :=
  let waiters := m.waiters.map fun w => { w with pending := w.pending.erase id }
  let (done, waiting) := waiters.partition (·.pending.isEmpty)
  { m with
    tracked := m.tracked.erase id
    waiters := waiting
    queue := m.queue ++ done.map fun w => .checkIdle w.label }

/-- See whether the machine is idle; if not, wait for the strands there are. -/
def checkIdle (m : Machine σ) (label : Nat) : Machine σ :=
  if m.tracked.isEmpty then { m with finished := (label, .ok .null) :: m.finished }
  else { m with waiters := m.waiters ++ [{ label, pending := m.tracked }] }

/-- Change the timer with a number. -/
def updateTimer (m : Machine σ) (id : Nat) (f : Timer → Option Timer) : Machine σ :=
  { m with timers := m.timers.filterMap fun t => if t.id = id then f t else some t }

/-- Let a new timer begin to count. -/
def windUp (m : Machine σ) (id : Nat) : Machine σ := m.updateTimer id fun t => some (t.wound m.now)

/-- Let a timer tick, if it is still there: a new chain begins at its node. -/
def tick (m : Machine σ) (id : Nat) : Machine σ :=
  match m.timers.find? (·.id == id) with
  | none => m
  | some t =>
    (m.spawn none true m.freshContext (jobCode (.chain t.node))).updateTimer id fun t =>
      if t.repeats then some (t.wound m.now) else none

/-- Begin a look-up under a time limit. -/
def lookUp (env : Surroundings σ) (m : Machine σ) (c : Call) : Machine σ :=
  match m.ask env c.request with
  | (.now reply, m) =>
    m.enqueue (.run (if c.brief then 0 else 1) { c.strand with code := c.next reply })
  | (.later ticket, m) =>
    if c.brief then m.enqueue c.givenUp else { m with calls := m.calls ++ [{ c with ticket }] }

def answer (env : Surroundings σ) (m : Machine σ) (c : Call)
    (reply? : Option (Except Fault c.request.Reply)) : Machine σ :=
  let (reply, m) := match reply? with
    | some reply => (reply, m)
    | none =>
      let (reply, happenings, s) := env.resume m.outside c.request c.ticket
      (reply, { m with outside := s }.witnessAll happenings)
  let s := { c.strand with code := c.next reply }
  if c.limited then m.enqueue (.run 1 s) else { m with running? := some s }

def take (env : Surroundings σ) (m : Machine σ) : Turn → Machine σ
  | .run 0 s => { m with running? := some s }
  | .run (laps + 1) s => m.enqueue (.run laps s)
  | .lookUp c => m.lookUp env c
  | .answer c reply? => m.answer env c reply?
  | .windUp id => m.windUp id
  | .tick id => m.tick id
  | .retire id => m.retire id
  | .checkIdle label => m.checkIdle label

/-- One step; `none` if nothing is ready. -/
def step (b : Board) (env : Surroundings σ) (m : Machine σ) : Option (Machine σ) :=
  match m.running? with
  | some s => some (m.stepStrand b env s)
  | none =>
    match m.queue with
    | [] => none
    | t :: rest => some ({ m with queue := rest }.take env t)

/-- Take steps until nothing is ready, but not more than some number. -/
def settle (b : Board) (env : Surroundings σ) : Nat → Machine σ → Machine σ
  | 0, m => m
  | fuel + 1, m =>
    match m.step b env with
    | some m => settle b env fuel m
    | none => m

/-- Take steps until the strand that is running ends or waits, but not more than some number. -/
def finishRunning (b : Board) (env : Surroundings σ) : Nat → Machine σ → Machine σ
  | 0, m => m
  | fuel + 1, m =>
    match m.running? with
    | some s => finishRunning b env fuel (m.stepStrand b env s)
    | none => m

/-- Run a job at once, before anything that is ready. -/
def runNow (b : Board) (env : Surroundings σ) (fuel : Nat) (m : Machine σ) (j : Job) : Machine σ :=
  let s : Strand := { id := m.nextId, context := m.freshContext, code := jobCode j }
  finishRunning b env fuel { m with nextId := m.nextId + 1, running? := some s }

end Wireboard.Machine
