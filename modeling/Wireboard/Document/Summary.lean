import Wireboard.Document.Basic
import Wireboard.Value.Reach

/-!
# Summaries

What a library of apps tells about each of them, and the order of the list: the app that was saved
last comes first, and apps with equal timestamps stay as they were.
-/

namespace Wireboard

/-- A short account of an app. -/
structure Summary where
  id : String
  name : Value
  version : String
  createdAt : Value
  updatedAt : Value
  componentCount : Nat
  nodeCount : Nat
deriving DecidableEq

def Summary.ofApp (app : App) : Summary where
  id := app.id
  name := app.name
  version := app.version
  createdAt := app.createdAt
  updatedAt := app.updatedAt
  componentCount := app.components.length
  nodeCount := app.nodes.length

def Summary.toValue (s : Summary) : Value :=
  .obj [("id", .str s.id), ("name", s.name), ("version", .str s.version),
    ("createdAt", s.createdAt), ("updatedAt", s.updatedAt),
    ("uiCount", .int s.componentCount), ("nodeCount", .int s.nodeCount)]

namespace Value

mutual

/-- The first value has its place before the second.  Texts, numbers and lists have an order among
their own kind; nothing else has one. -/
def precedes : Value → Value → Except Fault Bool
  | .str s, .str t => .ok (decide (Text.Precedes s t))
  | .list a, .list b => precedesItems a b
  | .bool a, b => precedesNum (.bool a) (.int (if a then 1 else 0)) b
  | .int a, b => precedesNum (.int a) (.int a) b
  | .float a, b => precedesNum (.float a) (.float a) b
  | .nan o, b => precedesNum (.nan o) (.float Binary64.notANumber) b
  | a, b => .error (.unordered "<" a.kindName b.kindName)
where
  /-- The number has its place before the value. -/
  precedesNum (v : Value) (a : Num) (b : Value) : Except Fault Bool :=
    match b.asNum? with
    | some n => .ok (a.lt n)
    | none => .error (.unordered "<" v.kindName b.kindName)

/-- The first list has its place before the second: it is so of the first items that differ. -/
def precedesItems : List Value → List Value → Except Fault Bool
  | _, [] => .ok false
  | [], _ :: _ => .ok true
  | x :: xs, y :: ys => if x.alike y then precedesItems xs ys else precedes x y

end

end Value

/-- The first value has its place before the second, if that can be found out. -/
def Reach.precedes (reach : Reach) (v w : Value) : Except Fault Bool :=
  if reach.compares v w then v.precedes w else .error (.tooDeep .comparing)

namespace Summary

/-- What a summary is ordered by: the time of the last change, or the empty text. -/
def key (s : Summary) : Value := s.updatedAt.orElse (.str "")

/-- Put a summary into a sorted list: before the first one that is older than it. -/
def insert (reach : Reach) (s : Summary) : List Summary → Except Fault (List Summary)
  | [] => .ok [s]
  | t :: rest => do
    if ← reach.precedes t.key s.key then return s :: t :: rest
    else return t :: (← insert reach s rest)

/-- The latest first; among equal times the earlier entry of the list first. -/
def sort (list : List Summary) (reach : Reach := {}) : Except Fault (List Summary) :=
  list.foldlM (fun sorted s => insert reach s sorted) []

end Summary

end Wireboard
