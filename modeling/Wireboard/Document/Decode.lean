import Wireboard.Document.Basic
import Wireboard.Json.Reader
import Wireboard.Value.Reach

/-!
# Documents from values

Loading checks that a document is an object with a name and three lists, and is forgiving about
everything else: a missing or vacant field gets its default, entries that are no objects are
dropped, and so are wires that do not name two pins.  Objects and fields that are not known are
copied.
-/

namespace Wireboard

def fieldOr (t : Table Value) (name : String) : Value := (t.get? name).getD .null

/-- The fields that are not among the known ones, in their order. -/
def unknownFields (t : Table Value) (known : List String) : Table Value :=
  t.filter fun e => !known.contains e.1

/-- The text of a field, or another text where the field is vacant. -/
def textField (t : Table Value) (name other : String) (reach : Reach := {}) :
    Except Fault String :=
  reach.toPlain ((fieldOr t name).orElse (.str other))

/-- The text of a field, if it is there and not null. -/
def textField? (t : Table Value) (name : String) (reach : Reach := {}) :
    Except Fault (Option String) :=
  match fieldOr t name with
  | .null => .ok none
  | v => (reach.toPlain v).map some

def numberField (t : Table Value) (name : String) (other : Value) : Value :=
  match fieldOr t name with
  | .int n => .int n
  | .float x => .float x
  | .nan o => .nan o
  | _ => other

/-- The object in a field, or the empty one. -/
def tableField (t : Table Value) (name : String) : Table Value :=
  match fieldOr t name with
  | .obj fields => fields
  | _ => []

/-- The members that a value has to go through: those of a list, and the names or characters of
other things that have members. -/
def members (v : Value) : Except Fault (List Value) :=
  if v.isVacant then .ok []
  else
    match v with
    | .list items => .ok items
    | .obj fields => .ok (fields.map fun e => .str e.1)
    | .str s => .ok (s.toList.map fun c => .str (String.ofList [c]))
    | v => .error (.notIterable v.kindName)

/-- The objects among the members of a field, each of them decoded. -/
def recordsField {α : Type} (t : Table Value) (name : String)
    (decode : Table Value → Except Fault α) : Except Fault (List α) := do
  let items ← members (fieldOr t name)
  (items.filterMap fun v => match v with
    | .obj fields => some fields
    | _ => none).mapM decode

def Page.ofTable (t : Table Value) (reach : Reach := {}) : Except Fault Page := do
  return {
    id := ← textField t "id" "" reach
    name := ← textField t "name" "" reach
    extra := ← reach.copyEach (unknownFields t ["id", "name"]) }

def Layer.ofTable (t : Table Value) (reach : Reach := {}) : Except Fault Layer := do
  return {
    id := ← textField t "id" "" reach
    name := ← textField t "name" "" reach
    visible := fieldOr t "visible" != .bool false
    extra := ← reach.copyEach (unknownFields t ["id", "name", "visible"]) }

def Canvas.ofValue (v : Value) (reach : Reach := {}) : Except Fault Canvas := do
  let t := match v with
    | .obj fields => fields
    | _ => []
  return {
    width := numberField t "width" (.int 400)
    height := numberField t "height" (.int 300)
    background := ← textField t "backgroundColor" defaultBackground reach }

def Component.ofTable (t : Table Value) (reach : Reach := {}) : Except Fault Component := do
  return {
    id := ← textField t "id" "" reach
    kind := ← textField t "type" "" reach
    props := ← reach.copy (tableField t "props")
    style := ← reach.copy (tableField t "style")
    x := numberField t "x" (.int 0)
    y := numberField t "y" (.int 0)
    pageId := ((← textField? t "pageId" reach).map .str).getD .null
    layer? := ← textField? t "layer" reach
    extra := ← reach.copyEach
      (unknownFields t ["id", "type", "props", "style", "x", "y", "pageId", "layer"]) }

def Node.ofTable (t : Table Value) (reach : Reach := {}) : Except Fault Node := do
  return {
    id := ← textField t "id" "" reach
    kind := ← textField t "type" "" reach
    x := numberField t "x" (.int 0)
    y := numberField t "y" (.int 0)
    properties := ← reach.copy (tableField t "properties")
    layer? := ← textField? t "layer" reach
    extra := ← reach.copyEach
      (unknownFields t ["id", "type", "x", "y", "properties", "layer"]) }

def PinRef.ofValue? (v : Value) : Option PinRef :=
  match v with
  | .obj fields =>
    match Table.get? fields "nodeId", Table.get? fields "pinId" with
    | some (.str node), some (.str pin) => some ⟨node, pin⟩
    | _, _ => none
  | _ => none

/-- The wire of a value, if it joins two pins. -/
def Wire.ofValue? (v : Value) : Option Wire :=
  match v with
  | .obj fields =>
    match PinRef.ofValue? (fieldOr fields "from"), PinRef.ofValue? (fieldOr fields "to") with
    | some source, some target => some ⟨source, target, unknownFields fields ["from", "to"]⟩
    | _, _ => none
  | _ => none

def wiresOf (items : List Value) (reach : Reach := {}) : Except Fault (List Wire) :=
  (items.filterMap Wire.ofValue?).mapM fun w => do
    return { w with extra := ← reach.copyEach w.extra }

namespace App

def knownFields : List String := [
  "id", "name", "version", "displayMode", "canvas", "pages", "layers", "uiComponents", "nodes",
  "connections", "createdAt", "updatedAt", "floatingSize"]

/-- The lists that a document must have. -/
def requiredLists : List String := ["uiComponents", "nodes", "connections"]

def isList : Value → Bool
  | .list _ => true
  | _ => false

/-- The value is a text that is not empty. -/
def isName : Value → Bool
  | .str name => name != ""
  | _ => false

/-- The table with a display mode, if it had none. -/
def withDisplayMode (t : Table Value) : Table Value :=
  if (fieldOr t "displayMode").isVacant then t.put "displayMode" (.str defaultDisplayMode) else t

/-- Check the shape of a document, and give it a display mode if it has none. -/
def validate (v : Value) : Except Fault (Table Value) :=
  match v with
  | .obj fields =>
    if !isName (fieldOr fields "name") then .error (.format .missingName)
    else
      match requiredLists.find? fun key => !isList (fieldOr fields key) with
      | some key => .error (.format (.notAList key))
      | none => .ok (withDisplayMode fields)
  | _ => .error (.format .notAnObject)

/-- The size of a window, if there is one. -/
def sizeOf? (v : Value) (reach : Reach := {}) : Except Fault (Option (Table Value)) :=
  match v with
  | .obj size => (reach.copy size).map some
  | _ => .ok none

/-- The app of a checked document. -/
def ofTable (t : Table Value) (reach : Reach := {}) : Except Fault App := do
  let pages ← recordsField t "pages" (Page.ofTable · reach)
  let layers ← recordsField t "layers" (Layer.ofTable · reach)
  let components ← recordsField t "uiComponents" (Component.ofTable · reach)
  let nodes ← recordsField t "nodes" (Node.ofTable · reach)
  let wires ← wiresOf (← members (fieldOr t "connections")) reach
  return {
    id := ← textField t "id" "" reach
    name := .str (← textField t "name" "" reach)
    version := ← textField t "version" "1.0" reach
    displayMode := ← textField t "displayMode" defaultDisplayMode reach
    canvas := ← Canvas.ofValue (fieldOr t "canvas") reach
    pages, layers, components, nodes, wires
    createdAt := fieldOr t "createdAt"
    updatedAt := fieldOr t "updatedAt"
    floatingSize? := ← sizeOf? (fieldOr t "floatingSize") reach
    extra := ← reach.copyEach (unknownFields t knownFields) }

def ofValue (v : Value) (reach : Reach := {}) : Except Fault App := do ofTable (← validate v) reach

/-- Trouble with the text of a document is a fault of the document. -/
def refuseText : Fault → Fault
  | .json t => .format (.badJson t)
  | f => f

def ofText (text : String) (reach : Reach := {}) : Except Fault App := do
  ofValue (← (Json.read text reach.reading).mapError refuseText) reach

def ofBytes (bytes : List UInt8) (reach : Reach := {}) : Except Fault App := do
  ofValue (← (Json.readBytes bytes reach.reading).mapError refuseText) reach

/-- Load an app: a text is read first. -/
def load (v : Value) (reach : Reach := {}) : Except Fault App :=
  match v with
  | .str text => ofText text reach
  | v => ofValue v reach

end App

end Wireboard
