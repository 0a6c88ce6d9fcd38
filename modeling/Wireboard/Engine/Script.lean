import Wireboard.Engine.Act

/-!
# Scripts

What a chain does is written down as a script: a tree of acts, requests and calls of jobs, each
followed by what to do with the reply.  A script does nothing by itself; the machine plays it, one
step at a time.  So a chain can be set aside wherever it waits, and what a script may do can be
read off the tree.

Jobs are what scripts call.  They are named by data and looked up when they are called, so that a
drawing in which nodes lead back to themselves needs no recursion here.
-/

namespace Wireboard

/-- A unit of work that scripts call. -/
inductive Job where
  /-- Run the wires that leave a pin. -/
  | fire (node pin : String)
  /-- Execute a node that a wire has reached at a pin. -/
  | execute (node : String) (pin? : Option String)
  /-- Pull the value of an output pin. -/
  | pull (node pin : String)
  /-- Pull the value that enters an input pin. -/
  | resolve (node pin : String)
  /-- Run the rounds of a counting loop from an index on. -/
  | iterate (node : String) (index stop : Num)
  /-- Run the rounds of a conditional loop after some rounds. -/
  | rounds (node : String) (count : Nat) (limit : Value)
  /-- Begin a new chain at a trigger. -/
  | chain (node : String)
  /-- Start the app. -/
  | start
  /-- Stop the app. -/
  | stop
  /-- Handle an event. -/
  | handle (type target : Value)
  /-- Write into the log of the app. -/
  | log (level : Level) (message : Value)
deriving DecidableEq

/-- A script that ends with a value. -/
inductive Script (α : Type) : Type where
  | ret (a : α)
  | act (a : Act) (next : a.Reply → Script α)
  | wait (r : Request) (next : Except Fault r.Reply → Script α)
  | call (j : Job) (next : Except Fault Value → Script α)

namespace Script

variable {α β : Type}

/-- One script after the other. -/
def bind (s : Script α) (f : α → Script β) : Script β :=
  match s with
  | .ret a => f a
  | .act a next => .act a fun r => bind (next r) f
  | .wait r next => .wait r fun x => bind (next x) f
  | .call j next => .call j fun x => bind (next x) f

instance : Monad Script where
  pure := .ret
  bind := bind

end Script

/-- A script that may fail. -/
abbrev Attempt := ExceptT Fault Script

namespace Attempt

def act (a : Act) : Attempt a.Reply := ExceptT.lift (Script.act a .ret)

def wait (r : Request) : Attempt r.Reply := ExceptT.mk (Script.wait r .ret)

/-- Call a job; its failure is a failure. -/
def call (j : Job) : Attempt Value := ExceptT.mk (Script.call j .ret)

/-- Make an attempt and look at how it ended. -/
def capture {α : Type} (a : Attempt α) : Attempt (Except Fault α) := ExceptT.lift a.run

/-- A result that may be a failure. -/
def ofExcept {α : Type} (r : Except Fault α) : Attempt α := ExceptT.mk (.ret r)

/-- An attempt that gives nothing back. -/
def void (a : Attempt Unit) : Attempt Value := do
  a
  return .null

/-- Is the chain older than the last stop? -/
def isStale : Attempt Bool := act .isStale

def status : Attempt Status := act .status

/-- Open a pull, unless it is open. -/
def enter (key : String) : Attempt Bool := act (.enter key)

/-- Let a node keep something. -/
def remember (node : String) (memo : Memo) : Attempt Unit := act (.remember node memo)

def scratch (node : String) : Attempt Scratch := act (.scratch node)

/-- Run the wires that leave a pin. -/
def fire (node pin : String) : Attempt Unit := discard (call (.fire node pin))

/-- The name under which the engine gives notices. -/
def noticeSource : String := "miniappruntime.engine.runtime"

def notice (level : Level) (text : String) (context : Table Value) : Attempt Unit :=
  act (.notice { level, source := noticeSource, text, context })

/-- Carry out what a listener ordered. -/
def obey : Order → Attempt Unit
  | .stop => discard (call .stop)
  | .dispatch type target => act (.dispatch type target)

/-- Carry out the orders of a listener, and answer as it does. -/
def react (r : Reaction) : Attempt Value := do
  r.orders.forM obey
  ofExcept r.result

/-- Call whoever listens; `none` if nobody does. -/
def emit (c : Callback) : Attempt (Option Value) := do
  match ← act (.callback c) with
  | none => return none
  | some r => return some (← react r)

/-- Write into the log of the app and tell the listener.  A listener that fails is none of the
app's business. -/
def log (app : String) (level : Level) (message : Value) : Attempt Unit := do
  act (.journal level message)
  try discard (emit (.log level message))
  catch _ => notice .error "on_log callback failed" [("app_id", .str app)]

end Attempt

end Wireboard
