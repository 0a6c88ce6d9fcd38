import Wireboard.Config
import Wireboard.Document.Basic
import Wireboard.Value.Reach

/-!
# Circuits

A circuit is the drawing of an app with everything that the engine looks up: the nodes by id, the
wires that leave a pin, the wire that enters a pin, and the functions by name.

Several nodes may have one id; the last of them counts, at the place of the first.  Any number of
wires may leave a pin, and they keep the order of the drawing.  An input takes one wire, and the
first one drawn wins.  Of several functions with one name the last one counts.
-/

namespace Wireboard

/-- Entries by pin. -/
abbrev PinIndex (α : Type) := List (PinRef × α)

namespace PinIndex

variable {α : Type}

def get? (index : PinIndex α) (pin : PinRef) : Option α :=
  match index with
  | [] => none
  | (p, a) :: rest => if p = pin then some a else get? rest pin

/-- Change the entry at a pin, from `none` if there is none. -/
def alter (index : PinIndex α) (pin : PinRef) (f : Option α → α) : PinIndex α :=
  match index with
  | [] => [(pin, f none)]
  | (p, a) :: rest => if p = pin then (p, f (some a)) :: rest else (p, a) :: alter rest pin f

end PinIndex

/-- A drawing that is ready for look-ups. -/
structure Circuit where
  nodes : Table Node := []
  outgoing : PinIndex (List Wire) := []
  incoming : PinIndex Wire := []
  functions : Table String := []
deriving DecidableEq

namespace Circuit

def nodeTable (nodes : List Node) : Table Node := Table.ofEntries (nodes.map fun n => (n.id, n))

def outgoingIndex (wires : List Wire) : PinIndex (List Wire) :=
  wires.foldl (fun index w => index.alter w.source fun ws? => ws?.getD [] ++ [w]) []

/-- The first wire of every pin that one enters. -/
def incomingIndex (wires : List Wire) : PinIndex Wire :=
  wires.foldl (fun index w => index.alter w.target fun w? => w?.getD w) []

/-- The name of the function that a node defines, calls or belongs to. -/
def functionName (config : Config) (n : Node) : Except Fault String :=
  (n.propertyOr "funcName" config.functionName).toPlain

/-- The ids of the nodes that define functions, by name. -/
def functionTable (config : Config) (nodes : Table Node) : Except Fault (Table String) :=
  nodes.foldlM (fun table e =>
    if e.2.kind == "functionDefine" then
      (functionName config e.2).map fun name => table.put name e.2.id
    else .ok table) []

def ofApp (config : Config) (app : App) : Except Fault Circuit := do
  let nodes := nodeTable app.nodes
  return {
    nodes
    outgoing := outgoingIndex app.wires
    incoming := incomingIndex app.wires
    functions := ← functionTable config nodes }

def node? (c : Circuit) (id : String) : Option Node := c.nodes.get? id

def wiresFrom (c : Circuit) (node pin : String) : List Wire :=
  (c.outgoing.get? ⟨node, pin⟩).getD []

def wireInto? (c : Circuit) (node pin : String) : Option Wire := c.incoming.get? ⟨node, pin⟩

def nodesOf (c : Circuit) (kind : String) : List Node :=
  (c.nodes.map (·.2)).filter (·.kind == kind)

end Circuit

/-- An app that is ready to run: its id, the settings and the circuit. -/
structure Board where
  appId : String
  config : Config
  circuit : Circuit
  /-- How far down one can go into the values that requests are made of. -/
  reach : Reach := {}

def Board.ofApp (config : Config) (app : App) : Except Fault Board := do
  return { appId := app.id, config, circuit := ← Circuit.ofApp config app }

end Wireboard
