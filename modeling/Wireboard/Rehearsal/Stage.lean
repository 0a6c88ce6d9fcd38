import Wireboard.Engine.Surroundings
import Wireboard.Http.Proxy
import Wireboard.Rehearsal.Client
import Wireboard.Store.KeyValue

/-!
# Stages

A stage is the surroundings of a rehearsal: everything outside of the engine follows a script that
is fixed beforehand.  Listeners may stop the app, fail or set off events; the host may fail or keep
its answers back; the net answers from a list; chance takes its numbers from a list.
-/

namespace Wireboard.Rehearsal

/-- What can be asked of a host or a proxy. -/
inductive Capability where
  | readClipboard
  | writeClipboard
  | position
  | battery
  | permission
  | notify
  | chat
  | http
deriving DecidableEq, Repr

def capabilityOf : Request → Capability
  | .readClipboard => .readClipboard
  | .writeClipboard _ => .writeClipboard
  | .position _ => .position
  | .battery => .battery
  | .permission => .permission
  | .notify _ _ => .notify
  | .chat _ => .chat
  | .http _ => .http

inductive Listener where
  | setText
  | setStyle
  | alert
  | log
  | navigate
  | input
deriving DecidableEq, Repr

def listenerOf : Callback → Listener
  | .setText _ _ => .setText
  | .setStyle _ _ _ => .setStyle
  | .alert _ => .alert
  | .log _ _ => .log
  | .navigate _ => .navigate
  | .input _ => .input

/-- The subject of a callback: what it is about, or what it says. -/
def subjectOf : Callback → Value
  | .setText target _ | .setStyle target _ _ | .input target => .str target
  | .alert text => .str text
  | .log _ message => message
  | .navigate page => .str page

/-- What a listener does beyond taking note. -/
inductive Cue where
  | order (o : Order)
  | fail (text : String)
deriving DecidableEq

/-- When a listener does something: for one subject, or for every subject. -/
structure Hook where
  listener : Listener
  subject? : Option String
  cue : Cue
deriving DecidableEq

/-- How a host follows its script: what it keeps back, what fails, and what it answers. -/
structure HostScript where
  held : List Capability := []
  failing : List (Capability × String) := []
  permission? : Option Value := none
  chat? : Option Value := none

/-- What a proxy in a rehearsal answers. -/
inductive Line where
  | response (r : Http.Response)
  | failure (text : String)
deriving DecidableEq

/-- How requests to the net are answered. -/
inductive ProxyScript where
  /-- From a list of responses, the last of which repeats. -/
  | lines (lines : List Line) (held : Bool) (failing? : Option String)
  /-- By a proxy over a net that answers from a list, the last of which repeats. -/
  | net (proxy : Http.Proxy) (incoming : List Http.Incoming)

inductive StoreOperation where
  | get
  | set
  | delete
deriving DecidableEq, Repr

/-- Who listens to the app. -/
inductive Audience where
  /-- Nobody. -/
  | nobody
  /-- Everybody. -/
  | everybody
  /-- Everybody, but nobody answers questions. -/
  | mute
deriving DecidableEq, Repr

structure Stage where
  audience : Audience := .everybody
  inputs : Table Value := []
  hooks : List Hook := []
  host : Host := .bare
  /-- A host without a script is not watched. -/
  script? : Option HostScript := none
  store : Store.KeyValue := .memory []
  storeFailures : List (StoreOperation × String) := []
  proxy : ProxyScript
  asked : Nat := 0
  /-- The numbers of chance, which repeat. -/
  draws : List Num := [.float 0.5]
  drawn : Nat := 0

/-- The member of a list that has its turn; the last one repeats. -/
def turnOf {α : Type} (xs : List α) (i : Nat) : Option α :=
  match xs[i]? with
  | some x => some x
  | none => xs.getLast?

namespace Stage

/-- The audience has somebody for a callback. -/
def hears (s : Stage) (c : Callback) : Bool :=
  match s.audience with
  | .everybody => true
  | .nobody => false
  | .mute => listenerOf c != .input

/-- The cue for a callback: that of its subject before that of every subject. -/
def cueFor? (s : Stage) (c : Callback) : Option Cue :=
  let hooks := s.hooks.filter (·.listener == listenerOf c)
  let exact := hooks.find? (fun h => h.subject?.map Value.str == some (subjectOf c))
  (exact <|> hooks.find? (·.subject?.isNone)).map (·.cue)

/-- What a listener answers. -/
def inputFor (s : Stage) : Callback → Value
  | .input target => (s.inputs.get? target).getD (.str "")
  | _ => .null

/-- How the audience reacts to a callback. -/
def react (s : Stage) (c : Callback) : Option Reaction × Stage :=
  if s.hears c then
    (some (match s.cueFor? c with
      | none => { result := .ok (s.inputFor c) }
      | some (.order o) => { orders := [o], result := .ok (s.inputFor c) }
      | some (.fail text) => { result := .error (.raised text) }), s)
  else (none, s)

/-- The next number of chance. -/
def random (s : Stage) : Num × Stage :=
  let x := s.draws.getD (s.drawn % s.draws.length) (.float 0.5)
  (x, { s with drawn := s.drawn + 1 })

/-- The change of a host, if it was possible. -/
def withHost {α : Type} (s : Stage) (r : Except Fault Host) (a : α) : Except Fault α × Stage :=
  match r with
  | .ok host => (.ok a, { s with host })
  | .error f => (.error f, s)

/-- What the net gives back for a request that left. -/
def incomingAt (incoming : List Http.Incoming) (i : Nat) : Http.Incoming :=
  (turnOf incoming i).getD (.unreachable "no route")

def lineReply (lines : List Line) (i : Nat) : Except Fault Http.Response :=
  match turnOf lines i with
  | none => .ok { status := .int 200 }
  | some (.response r) => .ok r
  | some (.failure text) => .error (.proxy 0 text)

def overNet (s : Stage) (proxy : Http.Proxy) (incoming : List Http.Incoming) (r : Http.Request) :
    Except Fault Http.Response × List Happening × Stage :=
  match proxy.prepare client r with
  | .error f => (.error f, [], s)
  | .ok o =>
    let (response, notices) := proxy.conclude client r (incomingAt incoming s.asked)
    (response, .sent o :: notices.map .notice, { s with asked := s.asked + 1 })

/-- What the host or the net answers when it follows no script. -/
def serve (s : Stage) (ticket : Nat) : (r : Request) → Except Fault r.Reply × List Happening × Stage
  | .readClipboard => (s.host.readClipboard, [], s)
  | .writeClipboard text =>
    let (reply, s) := s.withHost (s.host.writeClipboard (.str text)) ()
    (reply, [], s)
  | .position _ => (s.host.position, [], s)
  | .battery => (s.host.battery, [], s)
  | .permission =>
    (.ok ((s.script?.bind (·.permission?)).getD s.host.permission), [], s)
  | .notify title body =>
    let (reply, s) := s.withHost (s.host.notify (.str title) (.str body)) ()
    (reply, [], s)
  | .chat prompt =>
    match s.script?.bind (·.chat?) with
    | some v => (.ok v, [], s)
    | none => (s.host.chat (.str prompt), [], s)
  | .http r =>
    match s.proxy with
    | .lines lines _ _ => (lineReply lines ticket, [], s)
    | .net proxy incoming => s.overNet proxy incoming r

/-- The request goes to somebody who takes note of it. -/
def isWatched (s : Stage) : Request → Bool
  | .http _ =>
    match s.proxy with
    | .lines _ _ _ => true
    | .net _ _ => false
  | _ => s.script?.isSome

/-- The answer to a request is kept back. -/
def isHeld (s : Stage) : Request → Bool
  | .http _ =>
    match s.proxy with
    | .lines _ held _ => held
    | .net _ _ => false
  | r => s.script?.any (·.held.contains (capabilityOf r))

def failureOf? (s : Stage) : Request → Option String
  | .http _ =>
    match s.proxy with
    | .lines _ _ failing? => failing?
    | .net _ _ => none
  | r => s.script?.bind (·.failing.lookup (capabilityOf r))

/-- The number of a request that is watched; the requests to a list of responses are counted. -/
def number (s : Stage) : Request → Nat × Stage
  | .http _ =>
    match s.proxy with
    | .lines _ _ _ => (s.asked, { s with asked := s.asked + 1 })
    | .net _ _ => (0, s)
  | _ => (0, s)

/-- Take a request: note it, and then keep it back, fail or answer. -/
def ask (s : Stage) (r : Request) : Answer r.Reply × List Happening × Stage :=
  let noted : List Happening := if s.isWatched r then [.asked r] else []
  let (ticket, s) := s.number r
  if s.isHeld r then (.later ticket, noted, s)
  else
    match s.failureOf? r with
    | some text => (.now (.error (.unavailable text)), noted, s)
    | none =>
      let (reply, happenings, s) := s.serve ticket r
      (.now reply, noted ++ happenings, s)

def storeFailure? (s : Stage) (op : StoreOperation) : Option Fault :=
  (s.storeFailures.lookup op).map .raised

def load (s : Stage) (key : String) : Except Fault Value :=
  match s.storeFailure? .get with
  | some f => .error f
  | none => s.store.get (.str key)

/-- The change of the store, if it was possible. -/
def withStore (s : Stage) (op : StoreOperation) (r : Except Fault Store.KeyValue) :
    Except Fault Unit × Stage :=
  match s.storeFailure? op, r with
  | some f, _ => (.error f, s)
  | none, .error f => (.error f, s)
  | none, .ok store => (.ok (), { s with store })

/-- Store data. -/
def save (s : Stage) (key text : String) : Except Fault Unit × Stage :=
  s.withStore .set (s.store.set (.str key) (.str text))

/-- Delete stored data. -/
def remove (s : Stage) (key : String) : Except Fault Unit × Stage :=
  s.withStore .delete (s.store.delete (.str key))

def surroundings : Surroundings Stage where
  react := react
  permission s := .ok s.host.permission
  random := random
  ask := ask
  resume s r ticket := s.serve ticket r
  load := load
  save := save
  remove := remove

end Stage

end Wireboard.Rehearsal
