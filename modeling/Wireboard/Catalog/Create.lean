import Wireboard.Catalog.Components
import Wireboard.Catalog.Nodes
import Wireboard.Document.Basic
import Wireboard.Timestamp
import Wireboard.Value.Dictionary

/-!
# New apps, nodes and components

The id of a new node or component is made of the time and a count.  The time may stand still or go
back; the counts never do, so no id is given twice.
-/

namespace Wireboard

/-- Where new things get their ids from: the time, and how many were made before. -/
structure Workshop where
  clock : Num
  nodes : Nat := 0
  components : Nat := 0
deriving DecidableEq

namespace Workshop

/-- The time, as it stands in an id. -/
def stamp (w : Workshop) : Except Fault String := (Timestamp.stamp w.clock).map Number.intText

def nodeId (w : Workshop) : Except Fault (String × Workshop) := do
  return ("node_" ++ (← w.stamp) ++ "_" ++ Nat.repr w.nodes, { w with nodes := w.nodes + 1 })

def componentId (w : Workshop) : Except Fault (String × Workshop) := do
  return ("ui_" ++ (← w.stamp) ++ "_" ++ Nat.repr w.components,
    { w with components := w.components + 1 })

/-- A new node of a kind, with the default properties. -/
def node? (w : Workshop) (kind x y : Value) : Except Fault (Option Node × Workshop) := do
  match ← kind.named? NodeKind.ofName? with
  | none => return (none, w)
  | some k =>
    let (id, w) ← w.nodeId
    return (some {
      id, kind := k.name, x, y
      properties := k.definition.defaultProperties }, w)

/-- Where a new component stands that is given no place, in either direction. -/
def startPlace : Value := .int 50

/-- A new component of a kind, with the default properties and style. -/
def component? (w : Workshop) (kind x y page : Value) :
    Except Fault (Option Component × Workshop) := do
  match ← kind.named? ComponentKind.ofName? with
  | none => return (none, w)
  | some k =>
    let (id, w) ← w.componentId
    return (some {
      id, kind := k.name, x, y
      props := k.props
      style := k.style
      pageId := page }, w)

def newName : Value := .str "New Mini App"

/-- A new app: one page, one layer and nothing on them. -/
def app (w : Workshop) (name : Value) : Except Fault App := do
  let time ← Timestamp.text w.clock
  return {
    id := "app_" ++ (← w.stamp)
    name
    pages := [{ id := firstPage, name := "Main page" }]
    layers := [{ id := "default", name := "Default layer" }]
    createdAt := .str time
    updatedAt := .str time
    floatingSize? := some [("width", .int 400), ("height", .int 300)] }

end Workshop

end Wireboard
