import Wireboard.Http.Exchange
import Wireboard.Http.Path
import Wireboard.Http.Url
import Wireboard.Notice
import Wireboard.Value.Measure

/-!
# Proxies

Apps do not talk to the net themselves; a proxy does it for them.  A direct proxy makes the request
on the spot, unless it goes to an internal host.  A forwarding proxy hands the request to a service
and reports what the service reports.

A proxy works in two halves: it prepares the request that leaves, and it concludes from what comes
of it.  What happens in between is not its business, and how requests are written and responses are
read is that of its client.
-/

namespace Wireboard.Http

/-- A request that the proxy refuses or that fails. -/
def refuse {α : Type} (status : Int) (text : String) : Except Fault α := .error (.proxy status text)

/-! ## The direct proxy -/

/-- The name that a direct proxy gives to servers. -/
def userAgent : String := "EssentialBoardOS/1.0"

/-- The method of a request, in capital letters. -/
def effectiveMethod (r : Request) : Except Fault String :=
  match r.method.orElse (.str "GET") with
  | .str method => .ok (Text.upper method)
  | v => .error (.noPart v.kindName "upper")

/-- The request carries something, given its method. -/
def hasBody (r : Request) (method : String) : Bool :=
  r.body != .null && r.body != .str "" && method != "GET"

/-- A list or an object, which is sent as JSON. -/
def isStructured : Value → Bool
  | .list _ | .obj _ => true
  | _ => false

def bodyText (reach : Reach) (v : Value) : Except Fault String :=
  if isStructured v then reach.toJson v else reach.toPlain v

/-- The headers of a request: those of the app after the name of the program. -/
def mergedHeaders (r : Request) : Except Fault (Table Value) :=
  match r.headers with
  | .obj fields => .ok (Table.putAll [("User-Agent", .str userAgent)] fields)
  | v => .error (.notAMapping v.kindName)

/-- The headers with the type of a body that is sent as JSON, if they have none. -/
def withType (headers : Table Value) : Table Value :=
  if headers.any fun e => lowered e.1 == "content-type" then headers
  else headers.put "Content-Type" (.str "application/json")

def carried (reach : Reach) (r : Request) (method : String) : Except Fault Content :=
  if hasBody r method then Content.text <$> bodyText reach r.body else pure .none

/-- The headers that are sent with a request, given its method. -/
def sentHeaders (r : Request) (method : String) (headers : Table Value) : Table Value :=
  if hasBody r method && isStructured r.body then withType headers else headers

def prepareDirect (client : Client) (r : Request) : Except Fault Outgoing := do
  if r.url.isVacant then refuse 400 "url is required"
  if ← isBlockedValue r.url then refuse 403 "Internal network requests are not allowed"
  let method ← effectiveMethod r
  let headers ← mergedHeaders r
  let content ← carried client.reach r method
  client.send method r.url.plain (sentHeaders r method headers) content

def declaresJson (type : String) : Bool :=
  Text.occursIn "application/json".toList type.toList

/-- The notice about a response that is not what it declares. -/
def unreadableNotice (url : Value) : Notice where
  level := .warning
  source := "miniappruntime.integrations.http_proxy"
  text := "Response declared JSON but did not parse"
  context := [("url", url)]

/-- The data of a response, and the notices about it. -/
def bodyData (client : Client) (r : Request) (headers : Table String) (body : List UInt8) :
    Except Fault Value × List Notice :=
  let text := (client.text headers body).map .str
  if declaresJson (client.header headers "content-type") then
    match client.json body with
    | .ok v => (.ok v, [])
    | .error f => if f.isBadValue then (text, [unreadableNotice r.url]) else (.error f, [])
  else (text, [])

/-- The part of some data that a request asks for by its path. -/
def selected (path data : Value) : Except Fault Value :=
  if path.isVacant || !isStructured data then .ok data
  else
    match path with
    | .str steps => follow data steps
    | v => .error (.noPart v.kindName "split")

/-- What a direct proxy with a time limit makes of what came of a request. -/
def concludeDirect (client : Client) (limit : Value) (r : Request) :
    Incoming → Except Fault Response × List Notice
  | .timeout _ =>
    (do
      let seconds ← limit.general
      refuse 408 s!"Request timed out ({seconds}s)", [])
  | .unreachable text => (refuse 0 (failureText unreachableKind text), [])
  | .response status headers body =>
    let (data, notices) := bodyData client r headers body
    (do
      let data ← selected r.path (← data)
      return {
        status := .int status
        statusText := .str (client.phrase status)
        data
        isJson := declaresJson (client.header headers "content-type") }, notices)

/-! ## The forwarding proxy -/

/-- A service that makes requests on behalf of apps. -/
structure Service where
  endpoint : String
  apiKey : Value := .null
deriving DecidableEq

def Service.headers (s : Service) : Table Value :=
  [("Content-Type", .str "application/json")]
    ++ if s.apiKey.isVacant then [] else [("x-api-key", s.apiKey)]

def prepareForwarded (client : Client) (s : Service) (r : Request) : Except Fault Outgoing := do
  client.send "POST" s.endpoint s.headers (.json (← r.payload))

/-- What a service says about a failure. -/
def complaint (reach : Reach) (status : Nat) (body : Value) : Except Fault String :=
  reach.toPlain (((body.field? "error").getD .null).orElse (.str s!"Proxy error {status}"))

/-- What a forwarding proxy makes of what came of a request. -/
def concludeForwarded (client : Client) : Incoming → Except Fault Response
  | .timeout text => refuse 0 (failureText timeoutKind text)
  | .unreachable text => refuse 0 (failureText unreachableKind text)
  | .response status _ body =>
    match client.json body with
    | .error f =>
      if f.isBadValue then refuse status s!"Proxy returned non-JSON response ({status})"
      else .error f
    | .ok v => do
      if 400 ≤ status then refuse status (← complaint client.reach status v)
      match v with
      | .obj fields => Response.ofTable fields client.reach
      | _ => refuse status "Proxy returned an unexpected payload"

/-! ## Either -/

inductive Proxy where
  | direct (limit : Value)
  | forwarding (s : Service)
deriving DecidableEq

def Proxy.prepare (p : Proxy) (client : Client) (r : Request) : Except Fault Outgoing :=
  match p with
  | .direct _ => prepareDirect client r
  | .forwarding s => prepareForwarded client s r

/-- What a proxy makes of what came of a request. -/
def Proxy.conclude (p : Proxy) (client : Client) (r : Request) (i : Incoming) :
    Except Fault Response × List Notice :=
  match p with
  | .direct limit => concludeDirect client limit r i
  | .forwarding _ => (concludeForwarded client i, [])

end Wireboard.Http
