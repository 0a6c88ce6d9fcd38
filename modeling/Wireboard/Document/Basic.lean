import Wireboard.Value.Basic

/-!
# Documents

An app is a drawing: pages with components, and nodes joined by wires.  Every record keeps the
fields it does not know in `extra`, in their order, so that nothing of a drawing made by a newer
editor is lost.
-/

namespace Wireboard

/-- The page of components that name none. -/
def firstPage : String := "page_0"

/-- How an app is displayed unless it says otherwise. -/
def defaultDisplayMode : String := "fullscreen"

/-- The ways in which an app can be displayed. -/
def displayModes : List String := ["fullscreen", "floating"]

/-- The colour of a canvas that names none. -/
def defaultBackground : String := "#2d2d3f"

structure Page where
  id : String
  name : String := ""
  extra : Table Value := []
deriving DecidableEq

structure Layer where
  id : String
  name : String := ""
  visible : Bool := true
  extra : Table Value := []
deriving DecidableEq

/-- The area that an app is drawn on. -/
structure Canvas where
  width : Value := .int 400
  height : Value := .int 300
  background : String := defaultBackground
deriving DecidableEq

/-- A component of the user interface. -/
structure Component where
  id : String
  kind : String
  props : Table Value := []
  style : Table Value := []
  x : Value := .int 0
  y : Value := .int 0
  /-- The page that it names; null if it names none. -/
  pageId : Value := .null
  layer? : Option String := none
  extra : Table Value := []
deriving DecidableEq

structure Node where
  id : String
  kind : String
  x : Value := .int 0
  y : Value := .int 0
  properties : Table Value := []
  layer? : Option String := none
  extra : Table Value := []
deriving DecidableEq

structure PinRef where
  node : String
  pin : String
deriving DecidableEq, Repr

/-- A wire from an output pin to an input pin. -/
structure Wire where
  source : PinRef
  target : PinRef
  extra : Table Value := []
deriving DecidableEq

structure App where
  id : String
  name : Value
  version : String := "1.0"
  displayMode : String := defaultDisplayMode
  canvas : Canvas := {}
  pages : List Page := []
  layers : List Layer := []
  components : List Component := []
  nodes : List Node := []
  wires : List Wire := []
  createdAt : Value := .null
  updatedAt : Value := .null
  floatingSize? : Option (Table Value) := none
  extra : Table Value := []
deriving DecidableEq

def Component.page (c : Component) : Value := c.pageId.orElse (.str firstPage)

def Node.property (n : Node) (key : String) : Value := (n.properties.get? key).getD .null

/-- The value of a property, or another value if there is none or it is the empty text. -/
def Node.propertyOr (n : Node) (key : String) (other : Value) : Value :=
  match n.property key with
  | .null => other
  | .str s => if s = "" then other else .str s
  | v => v

namespace App

def node? (app : App) (id : String) : Option Node := app.nodes.find? (·.id == id)

def page? (app : App) (id : String) : Option Page := app.pages.find? (·.id == id)

def touch (app : App) (time : String) : App := { app with updatedAt := .str time }

def componentsOn (app : App) (page : Value) : List Component :=
  app.components.filter (·.page.same page)

end App

end Wireboard
