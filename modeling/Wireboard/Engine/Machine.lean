import Wireboard.Engine.Script
import Wireboard.Engine.Surroundings

/-!
# The machine

The machine plays scripts.  It runs one strand at a time until that strand ends or waits; what is
ready meanwhile stands in a queue, and whoever stands there first goes first.  Time stands still
while anything is ready.

Everything that a run depends on is in the state of the machine, so a run is nothing but the
repetition of `step`.
-/

namespace Wireboard

/-- An entry in the log of an app. -/
structure Entry where
  level : Level
  message : Value
deriving DecidableEq

/-- What a strand has yet to do. -/
abbrev Code := Script (Except Fault Value)

/-- What is done with the result of a job. -/
abbrev Continuation := Except Fault Value → Code

/-- Something that the machine runs: a chain, or a whole row of them.  `stack` says how the jobs
under way go on, the innermost first. -/
structure Strand where
  id : Nat
  /-- The operation that waits for the end. -/
  label? : Option Nat := none
  /-- The machine is not idle before the end. -/
  tracked : Bool := false
  context : Context
  code : Code
  stack : List Continuation := []

/-- A request that has not been answered, and the strand that waits for it. -/
structure Call where
  request : Request
  ticket : Nat
  /-- When the strand gives up. -/
  deadline? : Option Rat := none
  /-- The answer goes through a look-up under a time limit. -/
  limited : Bool := false
  /-- The strand gives up where the look-up gives no answer at once. -/
  brief : Bool := false
  strand : Strand
  next : Except Fault request.Reply → Code

structure Timer where
  id : Nat
  node : String
  period? : Option Rat
  repeats : Bool
  due? : Option Rat := none
deriving DecidableEq

def Timer.wound (t : Timer) (now : Rat) : Timer := { t with due? := t.period?.map (now + ·) }

/-- Someone who waits until some strands have ended. -/
structure Waiter where
  label : Nat
  pending : List Nat
deriving DecidableEq

/-- Something that is ready. -/
inductive Turn where
  /-- Run a strand, after it was sent back to the end of the queue some times. -/
  | run (laps : Nat) (s : Strand)
  /-- Begin a look-up under a time limit. -/
  | lookUp (c : Call)
  /-- Answer a request; without an answer here, the surroundings give one. -/
  | answer (c : Call) (reply? : Option (Except Fault c.request.Reply))
  /-- Let a new timer begin to count. -/
  | windUp (timer : Nat)
  /-- Let a timer tick. -/
  | tick (timer : Nat)
  /-- Strike a strand off those that keep the machine busy. -/
  | retire (strand : Nat)
  /-- See whether the machine is idle. -/
  | checkIdle (label : Nat)

/-- The turn of a strand that has given up waiting.  It is the last to learn of it: the look-up ends
first, and everybody who is ready meanwhile goes before it. -/
def Call.givenUp (c : Call) : Turn := .run 3 { c.strand with code := c.next (.error .timedOut) }

structure Machine (σ : Type) where
  outside : σ
  epoch : Nat := 0
  status : Status := .constructed
  bindings : Dictionary := []
  scratch : Table Scratch := []
  /-- The log, the latest entry first. -/
  journal : List Entry := []
  /-- What happened, the latest first. -/
  history : List Happening := []
  now : Rat := 0
  nextId : Nat := 0
  running? : Option Strand := none
  queue : List Turn := []
  calls : List Call := []
  timers : List Timer := []
  tracked : List Nat := []
  waiters : List Waiter := []
  /-- How the labelled operations ended, the latest first. -/
  finished : List (Nat × Except Fault Value) := []

namespace Machine

variable {σ : Type}

def logs (m : Machine σ) : List Entry := m.journal.reverse

def scratchOf (m : Machine σ) (node : String) : Scratch := (m.scratch.get? node).getD {}

def witness (m : Machine σ) (h : Happening) : Machine σ := { m with history := h :: m.history }

/-- Several things happen, one after the other. -/
def witnessAll (m : Machine σ) (hs : List Happening) : Machine σ := hs.foldl witness m

/-- Put something at the end of the queue. -/
def enqueue (m : Machine σ) (t : Turn) : Machine σ := { m with queue := m.queue ++ [t] }

/-- Have a script run in a strand of its own. -/
def spawn (m : Machine σ) (label? : Option Nat) (tracked : Bool) (context : Context)
    (code : Code) : Machine σ :=
  let started : Machine σ := { m with
    nextId := m.nextId + 1
    tracked := if tracked then m.tracked ++ [m.nextId] else m.tracked }
  started.enqueue (.run 0 { id := m.nextId, label?, tracked, context, code })

def freshContext (m : Machine σ) : Context := { epoch := m.epoch }

def jobCode (j : Job) : Code := .call j .ret

/-- Have an event handled in a strand of its own. -/
def dispatch (m : Machine σ) (label? : Option Nat) (type target : Value) : Machine σ :=
  m.spawn label? true m.freshContext (jobCode (.handle type target))

/-- Set a timer. -/
def arm (m : Machine σ) (node : String) (period? : Option Rat) (repeats : Bool) : Machine σ :=
  let armed : Machine σ := { m with
    nextId := m.nextId + 1
    timers := m.timers ++ [{ id := m.nextId, node, period?, repeats }] }
  armed.enqueue (.windUp m.nextId)

end Machine

end Wireboard
