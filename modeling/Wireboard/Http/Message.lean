import Wireboard.Value.Dictionary
import Wireboard.Value.Operators
import Wireboard.Value.Reach

/-!
# Requests and responses

What an app asks of the net, and what it gets back.  The parts of a request are values of any kind,
since a proxy may be asked by anyone; a part that the proxy has no use for is a failure of the
request.  A response of any status is a response; only when there is none does a request fail.
-/

namespace Wireboard.Http

structure Request where
  url : Value
  method : Value := .str "GET"
  headers : Value := .obj []
  body : Value := .null
  path : Value := .str ""
deriving DecidableEq

/-- The two parts of a member that stands for an entry. -/
def pairOf (position : Nat) (v : Value) : Except Fault (Value × Value) :=
  let parts? : Option (List Value) := match v with
    | .list items => some items
    | .obj fields => some (fields.map fun e => .str e.1)
    | .str s => some (s.toList.map fun c => .str (String.ofList [c]))
    | _ => none
  match parts? with
  | none => .error (.notAPair position)
  | some [name, entry] => .ok (name, entry)
  | some parts => .error (.wrongLength position parts.length)

/-- File the members from a position on, each of them a pair. -/
def fileFrom (d : Dictionary) (position : Nat) : List Value → Except Fault Dictionary
  | [] => .ok d
  | v :: rest => do
    let (name, entry) ← pairOf position v
    discard name.toKey
    fileFrom (d.put name entry) (position + 1) rest

/-- The headers of a request as entries: those of an object, or a row of pairs. -/
def headerEntries (v : Value) : Except Fault Dictionary :=
  match v with
  | .obj fields => .ok (Dictionary.ofTable fields)
  | .list items => fileFrom [] 0 items
  | .str s => fileFrom [] 0 (s.toList.map fun c => .str (String.ofList [c]))
  | v => .error (.notIterable v.kindName)

/-- The value of a request, for a service that makes it on behalf of the app. -/
def Request.payload (r : Request) : Except Fault Value := do
  let headers ← headerEntries r.headers
  return .obj ([("url", r.url), ("method", r.method),
      ("headers", .obj (headers.map fun e => (Json.nameText e.1, e.2))), ("jsonPath", r.path)]
    ++ match r.body with
      | .null => []
      | body => [("body", body)])

/-- What an app gets back. -/
structure Response where
  status : Value
  statusText : Value := .str ""
  data : Value := .null
  isJson : Bool := false
deriving DecidableEq

/-- The status that a service reports, zero if it reports no number. -/
def statusOf : Value → Except Fault Int
  | .int n => .ok n
  | .float x => (Num.float x).truncate
  | .nan _ => .error .notANumberToInt
  | _ => .ok 0

/-- The response that a service reports. -/
def Response.ofTable (t : Table Value) (reach : Reach := {}) : Except Fault Response := do
  return {
    status := .int (← statusOf ((t.get? "status").getD .null))
    statusText := .str (← reach.toPlain (((t.get? "statusText").getD .null).orElse (.str "")))
    data := (t.get? "data").getD .null
    isJson := !((t.get? "isJson").getD .null).isVacant }

end Wireboard.Http
