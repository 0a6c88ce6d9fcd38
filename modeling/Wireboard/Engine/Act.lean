import Wireboard.Engine.Context
import Wireboard.Host
import Wireboard.Http.Message
import Wireboard.Notice

/-!
# What a chain can do

A chain does two kinds of things.  Acts are done at once: they look at or change the state of the
engine, or call whoever listens to the app.  Requests go to the host or to the net and may take
their time, while other chains go on.
-/

namespace Wireboard

/-- Where the engine is between its starts and stops. -/
inductive Status where
  | constructed
  | started
  | stopped
deriving DecidableEq, Repr

def Status.word : Status → String
  | .constructed => "constructed"
  | .started => "started"
  | .stopped => "stopped"

/-- What an app tells its listeners, or asks of them. -/
inductive Callback where
  | setText (target text : String)
  | setStyle (target property value : String)
  | alert (text : String)
  | log (level : Level) (message : Value)
  | navigate (page : String)
  | input (target : String)
deriving DecidableEq

/-- The callback changes what the user sees. -/
def Callback.isVisible : Callback → Bool
  | .setText _ _ | .setStyle _ _ _ | .alert _ | .navigate _ => true
  | .log _ _ | .input _ => false

/-- What a listener can tell the engine to do. -/
inductive Order where
  | stop
  | dispatch (type target : Value)
deriving DecidableEq

/-- What a listener does: orders to the engine, and then an answer or a failure. -/
structure Reaction where
  orders : List Order := []
  result : Except Fault Value := .ok .null

/-- A question to the host or to the net. -/
inductive Request where
  | readClipboard
  | writeClipboard (text : String)
  | position (limit : Value)
  | battery
  | permission
  | notify (title body : String)
  | chat (prompt : String)
  | http (request : Http.Request)
deriving DecidableEq

def Request.Reply : Request → Type
  | .readClipboard => Value
  | .writeClipboard _ => Unit
  | .position _ => Position
  | .battery => Battery
  | .permission => Value
  | .notify _ _ => Unit
  | .chat _ => Value
  | .http _ => Http.Response

/-- Something that a chain does at once. -/
inductive Act where
  /-- Is the chain older than the last stop? -/
  | isStale
  /-- Go on as a new chain of the current epoch. -/
  | beginChain
  /-- How many calls are under way? -/
  | depth
  /-- The innermost call of a function. -/
  | frame (function : String)
  /-- Begin a call. -/
  | push (f : Frame)
  /-- End the innermost call. -/
  | pop
  /-- Let the innermost call return a value, if there is one. -/
  | setResult (v : Value)
  /-- Open a pull, unless it is open. -/
  | enter (key : String)
  /-- Close a pull. -/
  | leave (key : String)
  /-- The value of a variable. -/
  | lookup (name : String)
  /-- Set a variable. -/
  | assign (name : String) (v : Value)
  /-- What a node has kept. -/
  | scratch (node : String)
  /-- Let a node keep something. -/
  | remember (node : String) (memo : Memo)
  /-- Write into the log of the app. -/
  | journal (level : Level) (message : Value)
  /-- Give a notice. -/
  | notice (n : Notice)
  /-- The status of the engine. -/
  | status
  /-- Become started, with an empty log. -/
  | markStarted
  /-- Become stopped: no timers, and a new epoch. -/
  | markStopped
  /-- Have an event handled in a chain of its own. -/
  | dispatch (type target : Value)
  /-- Set a timer; one without a period never ticks. -/
  | arm (node : String) (period? : Option Rat) (repeats : Bool)
  /-- Call whoever listens. -/
  | callback (c : Callback)
  /-- May notifications be shown? -/
  | permission
  /-- A random number from zero to one. -/
  | random
  /-- A number that was not given out before. -/
  | mark
  /-- Load stored data. -/
  | load (key : String)
  /-- Store data. -/
  | save (key text : String)
  /-- Delete stored data. -/
  | remove (key : String)
deriving DecidableEq

/-- What an act gives back. -/
def Act.Reply : Act → Type
  | .isStale => Bool
  | .beginChain => Unit
  | .depth => Nat
  | .frame _ => Option Frame
  | .push _ => Unit
  | .pop => Value
  | .setResult _ => Bool
  | .enter _ => Bool
  | .leave _ => Unit
  | .lookup _ => Value
  | .assign _ _ => Unit
  | .scratch _ => Scratch
  | .remember _ _ => Unit
  | .journal _ _ => Unit
  | .notice _ => Unit
  | .status => Status
  | .markStarted => Unit
  | .markStopped => Unit
  | .dispatch _ _ => Unit
  | .arm _ _ _ => Unit
  | .callback _ => Option Reaction
  | .permission => Except Fault Value
  | .random => Num
  | .mark => Nat
  | .load _ => Except Fault Value
  | .save _ _ => Except Fault Unit
  | .remove _ => Except Fault Unit

end Wireboard
