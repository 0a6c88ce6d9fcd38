import Wireboard.Value.Basic

/-!
# What a chain carries along

A chain is what one trigger sets off: the start of the app, a tick of a timer, an event.  It
remembers the epoch in which it began, the calls of functions that are under way, and the pins that
are just being pulled.  No two chains share any of this, so functions may call each other and
themselves in several chains at once.
-/

namespace Wireboard

/-- A call of a function that is under way. -/
structure Frame where
  function : String
  params : Table Value := []
  result : Value := .null
deriving DecidableEq

/-- The state of a chain: the frames innermost first, and the keys of the open pulls. -/
structure Context where
  epoch : Nat
  frames : List Frame := []
  opened : List String := []
deriving DecidableEq

namespace Context

/-- The innermost call of a function. -/
def frame? (c : Context) (function : String) : Option Frame :=
  c.frames.find? (·.function == function)

/-- How many calls are under way. -/
def depth (c : Context) : Nat := c.frames.length

/-- Begin a call. -/
def push (c : Context) (f : Frame) : Context := { c with frames := f :: c.frames }

/-- End the innermost call, with the value that it returned. -/
def pop (c : Context) : Value × Context :=
  match c.frames with
  | [] => (.null, c)
  | f :: rest => (f.result, { c with frames := rest })

/-- Let the innermost call return a value, if there is one. -/
def setResult (c : Context) (v : Value) : Option Context :=
  match c.frames with
  | [] => none
  | f :: rest => some { c with frames := { f with result := v } :: rest }

def pullKey (node pin : String) : String := node ++ ":" ++ pin

/-- Open a pull, unless it is open already. -/
def enter (c : Context) (key : String) : Option Context :=
  if c.opened.contains key then none else some { c with opened := key :: c.opened }

/-- Close a pull. -/
def leave (c : Context) (key : String) : Context := { c with opened := c.opened.erase key }

/-- To close what was just opened leaves nothing behind. -/
theorem leave_enter {c d : Context} {key : String} (enters : c.enter key = some d) :
    d.leave key = c := by
  unfold enter at enters
  split at enters
  next => cases enters
  next =>
    cases enters
    simp [leave]

end Context

/-- What a node keeps from its last execution, for its data outputs. -/
structure Scratch where
  result : Value := .null
  status : Value := .null
  latitude : Value := .null
  longitude : Value := .null
  level? : Option Int := none
  charging? : Option Bool := none
  index? : Option Num := none
deriving DecidableEq

/-- One thing for a node to keep. -/
inductive Memo where
  | result (v : Value)
  | status (v : Value)
  | latitude (v : Value)
  | longitude (v : Value)
  | level (n : Int)
  | charging (b : Bool)
  | index (i : Num)
deriving DecidableEq

/-- Keep one thing more. -/
def Scratch.keep (s : Scratch) : Memo → Scratch
  | .result v => { s with result := v }
  | .status v => { s with status := v }
  | .latitude v => { s with latitude := v }
  | .longitude v => { s with longitude := v }
  | .level n => { s with level? := some n }
  | .charging b => { s with charging? := some b }
  | .index i => { s with index? := some i }

end Wireboard
