import Wireboard.Catalog.Nodes
import Wireboard.Document.Basic
import Wireboard.Value.Coerce

/-!
# Telling about an app

The line about an app that is valid, and the longer account of its pages, components and nodes.
-/

namespace Wireboard.CommandLine

/-- What is written about an app that is valid. -/
def validText (app : App) : String :=
  s!"OK: {app.name.plain} ({app.nodes.length} nodes, {app.wires.length} connections)\n"

def countName (counts : Table Nat) (name : String) : Table Nat :=
  counts.put name ((counts.get? name).getD 0 + 1)

/-- How often the names occur, in the order of the names. -/
def tally (names : List String) : List (String × Nat) :=
  (names.foldl countName []).mergeSort fun a b => decide (a.1 ≤ b.1)

def pageLine (app : App) (p : Page) : String :=
  s!"  - {p.id} '{p.name}': {(app.componentsOn (.str p.id)).length} components"

/-- The lines about the kinds of nodes: the known ones by category, then the unknown ones. -/
def kindLines (app : App) : List String :=
  let labels := app.nodes.filterMap fun n =>
    (NodeKind.ofName? n.kind).map fun k => k.definition.category.label
  let unknown := (app.nodes.map (·.kind)).filter fun kind => (NodeKind.ofName? kind).isNone
  (tally labels).map (fun e => s!"  {e.1}: {e.2}")
    ++ (tally unknown).map fun e => s!"  (unknown) {e.1}: {e.2}"

/-- What is written about an app. -/
def infoText (app : App) : Except Fault String := do
  let width ← app.canvas.width.toPlain
  let height ← app.canvas.height.toPlain
  let lines := [
      s!"Name: {app.name.plain}", s!"Id: {app.id}", s!"Version: {app.version}",
      s!"Display mode: {app.displayMode}", s!"Canvas: {width}x{height}",
      s!"Pages: {app.pages.length}"]
    ++ app.pages.map (pageLine app)
    ++ [s!"UI components: {app.components.length}", s!"Nodes: {app.nodes.length}",
      s!"Connections: {app.wires.length}"]
    ++ kindLines app
  return "\n".intercalate lines ++ "\n"

end Wireboard.CommandLine
