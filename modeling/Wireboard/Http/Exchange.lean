import Wireboard.Http.Message

/-!
# What passes over the wire

The request that leaves the program and what comes of it, and the client between the two.  The
client is not part of the program: whatever is said of proxies is said for any client.
-/

namespace Wireboard.Http

/-- What a request carries. -/
inductive Content where
  | none
  | text (s : String)
  | json (v : Value)
deriving DecidableEq

/-- A request as it leaves. -/
structure Outgoing where
  method : String
  url : String
  headers : Table String
  content : Content := .none
deriving DecidableEq

/-- What comes of a request. -/
inductive Incoming where
  /-- A response of some status. -/
  | response (status : Nat) (headers : Table String) (body : List UInt8)
  /-- No response in time. -/
  | timeout (text : String)
  /-- No connection. -/
  | unreachable (text : String)
deriving DecidableEq

/-- The text of a failure; one without words is named by its kind. -/
def failureText (kind text : String) : String := if text = "" then kind else text

/-- The name of a failure to respond in time. -/
def timeoutKind : String := "ReadTimeout"

/-- The name of a failure to connect. -/
def unreachableKind : String := "ConnectError"

/-- The name of a header in small letters. -/
def lowered (name : String) : String := String.ofList (Text.lowerAscii name.toList)

/-- What a proxy leaves to the client that talks to the net for it.  A client that cannot connect or
gets no response in time has sent the request; what it fails with here is of another sort. -/
structure Client where
  /-- The request that leaves for a method, an address, headers and a content. -/
  send : String → String → Table Value → Content → Except Fault Outgoing
  /-- The header of a name in a response, empty if there is none. -/
  header : Table String → String → String
  /-- The value of a body as JSON. -/
  json : List UInt8 → Except Fault Value
  /-- The text of a response, given its headers and its body. -/
  text : Table String → List UInt8 → Except Fault String
  /-- The phrase that goes with a status. -/
  phrase : Nat → String
  /-- How far down one can go into what is sent and what comes back. -/
  reach : Reach := {}

end Wireboard.Http
