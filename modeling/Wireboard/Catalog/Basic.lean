import Wireboard.Value.Basic

/-!
# What the catalogue is made of

Kinds of nodes have pins and properties.  Pins carry the flow of control or data of some type.
Kinds are grouped in categories for the editor.
-/

namespace Wireboard

/-- What a pin carries. -/
inductive PinType where
  | exec
  | string
  | number
  | boolean
  | any
  | list
deriving DecidableEq, Repr

namespace PinType

def all : List PinType := [.exec, .string, .number, .boolean, .any, .list]

def name : PinType → String
  | .exec => "exec"
  | .string => "string"
  | .number => "number"
  | .boolean => "boolean"
  | .any => "any"
  | .list => "list"

def color : PinType → String
  | .exec => "#e8e6f0"
  | .string => "#fdcb6e"
  | .number => "#74b9ff"
  | .boolean => "#ff6b6b"
  | .any => "#a29bfe"
  | .list => "#55efc4"

end PinType

structure Pin where
  id : String
  label : String := ""
  type : PinType := .any
deriving DecidableEq, Repr

/-- The pin carries the flow of control. -/
def Pin.isExec (p : Pin) : Bool := p.type == .exec

/-- What a property holds. -/
inductive PropertyType where
  | string
  | number
  | boolean
  | select
deriving DecidableEq, Repr

def PropertyType.all : List PropertyType := [.string, .number, .boolean, .select]

def PropertyType.name : PropertyType → String
  | .string => "string"
  | .number => "number"
  | .boolean => "boolean"
  | .select => "select"

structure Property where
  type : PropertyType
  label : String
  default : Value := .null
  options? : Option (List String) := none
deriving DecidableEq

inductive Category where
  | event
  | action
  | data
  | logic
  | function
  | storage
  | hardware
  | api
deriving DecidableEq, Repr

namespace Category

/-- All categories, in the order of the editor. -/
def all : List Category :=
  [.event, .action, .data, .logic, .function, .storage, .hardware, .api]

def name : Category → String
  | .event => "event"
  | .action => "action"
  | .data => "data"
  | .logic => "logic"
  | .function => "function"
  | .storage => "storage"
  | .hardware => "hardware"
  | .api => "api"

def label : Category → String
  | .event => "Event"
  | .action => "Action"
  | .data => "Data"
  | .logic => "Logic"
  | .function => "Function"
  | .storage => "Storage"
  | .hardware => "Hardware"
  | .api => "API"

def color : Category → String
  | .event => "#ff6b6b"
  | .action => "#00ce9a"
  | .data => "#fdcb6e"
  | .logic => "#74b9ff"
  | .function => "#fd79a8"
  | .storage => "#e17055"
  | .hardware => "#00b894"
  | .api => "#a29bfe"

def icon : Category → String
  | .event => "⚡"
  | .action => "▶"
  | .data => "📦"
  | .logic => "🔀"
  | .function => "🔧"
  | .storage => "💾"
  | .hardware => "📱"
  | .api => "🌐"

def ofName? (s : String) : Option Category := all.find? (·.name == s)

end Category

/-- The description of a kind of node. -/
structure Definition where
  category : Category
  label : String
  description : String := ""
  inputs : List Pin := []
  outputs : List Pin := []
  properties : Table Property := []
deriving DecidableEq

namespace Definition

def input? (d : Definition) (id : String) : Option Pin := d.inputs.find? (·.id == id)

def output? (d : Definition) (id : String) : Option Pin := d.outputs.find? (·.id == id)

/-- The outputs that carry the flow of control. -/
def execOutputs (d : Definition) : List Pin := d.outputs.filter (·.isExec)

def dataOutputs (d : Definition) : List Pin := d.outputs.filter (!·.isExec)

/-- A wire can hand control to the kind. -/
def hasExecInput (d : Definition) : Bool := d.inputs.any (·.isExec)

/-- The properties of a new node. -/
def defaultProperties (d : Definition) : Table Value := d.properties.map fun e => (e.1, e.2.default)

end Definition

end Wireboard
