import Wireboard.Value.Basic

/-!
# The kinds of components

What a new component of the user interface looks like, for every kind that the editor offers.
-/

namespace Wireboard

inductive ComponentKind where
  | button
  | text
  | input
  | image
  | container
deriving DecidableEq, Repr

namespace ComponentKind

/-- All kinds, in the order of the editor. -/
def all : List ComponentKind := [.button, .text, .input, .image, .container]

def name : ComponentKind → String
  | .button => "button"
  | .text => "text"
  | .input => "input"
  | .image => "image"
  | .container => "container"

def label : ComponentKind → String
  | .button => "Button"
  | .text => "Text"
  | .input => "Input"
  | .image => "Image"
  | .container => "Container"

def props : ComponentKind → Table Value
  | .button => [("text", .str "Button")]
  | .text => [("text", .str "Text")]
  | .input => [("placeholder", .str "Type here..."), ("value", .str "")]
  | .image => [("src", .str ""), ("alt", .str "Image")]
  | .container => []

def style : ComponentKind → Table Value
  | .button => [
      ("width", .int 120), ("height", .int 40), ("backgroundColor", .str "#7c6ff7"),
      ("color", .str "#ffffff"), ("borderRadius", .int 8), ("fontSize", .int 14),
      ("fontWeight", .str "500"), ("border", .str "none"), ("cursor", .str "pointer")]
  | .text => [
      ("width", .int 200), ("height", .int 30), ("color", .str "#e8e6f0"),
      ("fontSize", .int 16), ("fontWeight", .str "400")]
  | .input => [
      ("width", .int 200), ("height", .int 36), ("backgroundColor", .str "#252536"),
      ("color", .str "#e8e6f0"), ("borderRadius", .int 8), ("fontSize", .int 14),
      ("border", .str "1px solid rgba(255,255,255,0.1)"), ("padding", .str "0 10px")]
  | .image => [
      ("width", .int 150), ("height", .int 150), ("borderRadius", .int 8),
      ("objectFit", .str "cover")]
  | .container => [
      ("width", .int 200), ("height", .int 150),
      ("backgroundColor", .str "rgba(255,255,255,0.04)"), ("borderRadius", .int 12),
      ("border", .str "1px solid rgba(255,255,255,0.06)")]

def ofName? (s : String) : Option ComponentKind := all.find? (·.name == s)

end ComponentKind

end Wireboard
