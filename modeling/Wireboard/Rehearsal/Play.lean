import Wireboard.Engine.Time
import Wireboard.Rehearsal.Stage

/-!
# Plays

A play is a list of operations on one machine: start and stop, events, looks at single nodes,
answers that were kept back, and time.  After each operation everything that is ready runs, unless
the operation asks for the next one to come first.
-/

namespace Wireboard.Rehearsal

inductive Operation where
  | start
  | stop
  | waitIdle
  | event (type target : Value)
  | dispatch (type target : Value)
  | evaluate (node pin : String) (frames : List Frame)
  | resolve (node pin : String)
  | executeNode (node : String) (frames : List Frame)
  | executePin (node pin : String)
  | setVariable (name v : Value)
  | log (level message : Value)
  | logs
  | release (capability : Capability) (reply : (r : Request) → Option (Except Fault r.Reply))
  | advance (span : Rat)
  | settle

/-- What an operation gives back at once. -/
inductive Outcome where
  | nothing
  | truth (b : Bool)
  | logs (entries : List Entry)
  | failure (f : Fault)
deriving DecidableEq

/-- What is seen after an operation. -/
structure Report where
  events : List Happening
  finished : List (Nat × Except Fault Value)
  status : Status
  epoch : Nat
  outcome : Outcome

/-- More steps than any play takes. -/
def fuel : Nat := pow10 15

variable (b : Board)

/-- Have a job run for an operation. -/
def submit (m : Machine Stage) (label : Nat) (frames : List Frame) (j : Job) : Machine Stage :=
  m.spawn (some label) false { m.freshContext with frames } (Machine.jobCode j)

def apply (m : Machine Stage) (label : Nat) : Operation → Outcome × Machine Stage
  | .start => (.nothing, submit m label [] .start)
  | .stop => (.nothing, m.runNow b Stage.surroundings fuel .stop)
  | .waitIdle => (.nothing, m.enqueue (.checkIdle label))
  | .event type target => (.nothing, submit m label [] (.handle type target))
  | .dispatch type target => (.nothing, m.dispatch (some label) type target)
  | .evaluate node pin frames => (.nothing, submit m label frames (.pull node pin))
  | .resolve node pin => (.nothing, submit m label [] (.resolve node pin))
  | .executeNode node frames => (.nothing, submit m label frames (.execute node none))
  | .executePin node pin => (.nothing, submit m label [] (.fire node pin))
  | .setVariable name v =>
    match name.toKey with
    | .ok _ => (.nothing, { m with bindings := m.bindings.put name v })
    | .error f => (.failure f, m)
  | .log level message =>
    match Level.ofValue level with
    | .ok level => (.nothing, m.runNow b Stage.surroundings fuel (.log level message))
    | .error f => (.failure f, m)
  | .logs => (.logs m.logs, m)
  | .release capability reply =>
    match m.release (fun r => capabilityOf r == capability) reply with
    | some m => (.truth true, m)
    | none => (.truth false, m)
  | .advance span => (.nothing, m.advance b Stage.surroundings fuel span)
  | .settle => (.nothing, m)

/-- Put a report at its place among others: the reports of earlier operations come first. -/
def insertReport (r : Nat × Except Fault Value) :
    List (Nat × Except Fault Value) → List (Nat × Except Fault Value)
  | [] => [r]
  | x :: rest => if x.1 < r.1 then x :: insertReport r rest else r :: x :: rest

/-- Take the report out of the machine. -/
def report (m : Machine Stage) (outcome : Outcome) : Report × Machine Stage :=
  ({ events := m.history.reverse
     finished := m.finished.foldl (fun rs r => insertReport r rs) []
     status := m.status
     epoch := m.epoch
     outcome },
    { m with history := [], finished := [] })

def perform (m : Machine Stage) (label : Nat) (o : Operation) (settles : Bool) :
    Report × Machine Stage :=
  let (outcome, m) := apply b m label o
  report (if settles then m.settle b Stage.surroundings fuel else m) outcome

/-- Perform operations, one after the other. -/
def playFrom (m : Machine Stage) (label : Nat) :
    List (Operation × Bool) → List Report × Machine Stage
  | [] => ([], m)
  | (o, settles) :: rest =>
    let (r, m) := perform b m label o settles
    let (rs, m) := playFrom m (label + 1) rest
    (r :: rs, m)

def play (s : Stage) (operations : List (Operation × Bool)) : List Report × Machine Stage :=
  playFrom b { outside := s } 0 operations

end Wireboard.Rehearsal
