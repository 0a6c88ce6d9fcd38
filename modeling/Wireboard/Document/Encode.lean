import Wireboard.Document.Basic
import Wireboard.Value.Coerce

/-!
# Documents as values

The value of a document: the known fields in a fixed order, optional ones only where they are set,
and the unknown fields after them.
-/

namespace Wireboard

/-- A field that is written only where it is set. -/
def optionalField (name : String) : Option String → Table Value
  | some s => [(name, .str s)]
  | none => []

/-- A field that is written only where it is not null. -/
def presentField (name : String) : Value → Table Value
  | .null => []
  | v => [(name, v)]

def Page.toValue (p : Page) : Value :=
  .obj ([("id", .str p.id), ("name", .str p.name)] ++ p.extra)

def Layer.toValue (l : Layer) : Value :=
  .obj ([("id", .str l.id), ("name", .str l.name), ("visible", .bool l.visible)] ++ l.extra)

def Canvas.toValue (c : Canvas) : Value :=
  .obj [("width", c.width), ("height", c.height),
    ("backgroundColor", .str c.background)]

def Component.toValue (c : Component) : Value :=
  .obj ([("id", .str c.id), ("type", .str c.kind), ("props", .obj c.props),
      ("style", .obj c.style), ("x", c.x), ("y", c.y)]
    ++ presentField "pageId" c.pageId ++ optionalField "layer" c.layer? ++ c.extra)

def Node.toValue (n : Node) : Value :=
  .obj ([("id", .str n.id), ("type", .str n.kind), ("x", n.x), ("y", n.y),
      ("properties", .obj n.properties)]
    ++ optionalField "layer" n.layer? ++ n.extra)

def PinRef.toValue (p : PinRef) : Value := .obj [("nodeId", .str p.node), ("pinId", .str p.pin)]

def Wire.toValue (w : Wire) : Value :=
  .obj ([("from", w.source.toValue), ("to", w.target.toValue)] ++ w.extra)

namespace App

/-- The size of the floating window, where it is set. -/
def floatingField (app : App) : Table Value :=
  match app.floatingSize? with
  | some size => [("floatingSize", .obj size)]
  | none => []

def toValue (app : App) : Value :=
  .obj ([("id", .str app.id), ("name", app.name), ("version", .str app.version),
      ("displayMode", .str app.displayMode)]
    ++ app.floatingField ++ presentField "createdAt" app.createdAt
    ++ presentField "updatedAt" app.updatedAt
    ++ [("canvas", app.canvas.toValue), ("pages", .list (app.pages.map Page.toValue)),
      ("uiComponents", .list (app.components.map Component.toValue)),
      ("nodes", .list (app.nodes.map Node.toValue)),
      ("connections", .list (app.wires.map Wire.toValue)),
      ("layers", .list (app.layers.map Layer.toValue))]
    ++ app.extra)

def text (app : App) : Except Fault String := app.toValue.toJsonIndented

end App

end Wireboard
